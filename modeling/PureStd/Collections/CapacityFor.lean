/-
When `capacity_for` does what it is for, `src/collections.rs`.

Release builds compute both sides of the loop's test modulo `2 ^ w`.  Of the items only the lower
`w - 3` bits reach the product with eight.  The product with seven grows up to seven eighths of the
range of `usize`, at the capacity `2 ^ (w - 3)`; further doubling gives smaller products, and the
capacity becomes zero in the end.  So the loop ends exactly if the lower bits are a number that
fits under seven eighths, and the table that is found has room for this number, not for the items.
-/
import PureStd.Collections.TableSize

namespace PureStd.Collections

variable {w : PtrWidth} {items n : ℕ}

/-! ### The bounds -/

/-- An eighth of the range of `usize`, and the number of items that take up seven of them. -/
lemma seven_eighths (w : PtrWidth) :
    2 ^ (w.bits - 3) * 8 = w.size ∧ 7 * 2 ^ (w.bits - 6) * 8 = 2 ^ (w.bits - 3) * 7 := by
  cases w <;> exact ⟨rfl, rfl⟩

lemma capacityFits_iff : CapacityFits w n ↔ n < 7 * 2 ^ (w.bits - 6) := by
  obtain ⟨hsize, hlimit⟩ := seven_eighths w
  constructor
  · rintro ⟨k, -, hroom, hfit⟩
    have hk : k ≤ w.bits - 3 := by
      by_contra hlt
      have hpow : 2 ^ (w.bits - 3 + 1) ≤ 2 ^ k := Nat.pow_le_pow_right (by norm_num) (by omega)
      rw [pow_succ] at hpow
      omega
    have hpow : 2 ^ k ≤ 2 ^ (w.bits - 3) := Nat.pow_le_pow_right (by norm_num) hk
    omega
  · intro hlt
    have hpos : 0 < 2 ^ (w.bits - 3) := Nat.two_pow_pos _
    refine ⟨w.bits - 3, ?_, by omega, by omega⟩
    cases w <;> decide

/-- The lower bits of the items are what the test sees. -/
lemma wrap_items (w : PtrWidth) (items : ℕ) :
    w.wrap (items * 8) = items % 2 ^ (w.bits - 3) * 8 := by
  rw [PtrWidth.wrap, ← (seven_eighths w).1, Nat.mul_mod_mul_right]

/-- The products with seven stay under seven eighths, also after an overflow. -/
lemma wrap_capacity_le (w : PtrWidth) (j : ℕ) : w.wrap (2 ^ j * 7) ≤ 2 ^ (w.bits - 3) * 7 := by
  rcases Nat.le_total j (w.bits - 3) with hle | hge
  · calc w.wrap (2 ^ j * 7) ≤ 2 ^ j * 7 := Nat.mod_le _ _
      _ ≤ 2 ^ (w.bits - 3) * 7 := Nat.mul_le_mul_right 7 (Nat.pow_le_pow_right (by norm_num) hle)
  · -- what is left is a multiple of an eighth of the range, and less than eight of them
    obtain ⟨i, rfl⟩ := Nat.exists_eq_add_of_le hge
    have hleft : w.wrap (2 ^ (w.bits - 3 + i) * 7) = 2 ^ (w.bits - 3) * (2 ^ i * 7 % 8) := by
      rw [PtrWidth.wrap, ← (seven_eighths w).1, pow_add, Nat.mul_assoc, Nat.mul_mod_mul_left]
    rw [hleft]
    exact Nat.mul_le_mul_left _ (Nat.le_of_lt_succ (Nat.mod_lt _ (by norm_num)))

/-! ### The loop -/

lemma capacityForLoop_congr {items' : ℕ} (h : w.wrap (items * 8) = w.wrap (items' * 8))
    (fuel : ℕ) : ∀ cap, capacityForLoop w items fuel cap = capacityForLoop w items' fuel cap := by
  induction fuel with
  | zero => intro cap; rfl
  | succ fuel ih =>
    intro cap
    rw [capacityForLoop, capacityForLoop, h, ih]

lemma capacityForLoop_mono {cap c fuel fuel' : ℕ} (h : capacityForLoop w items fuel cap = .ok c)
    (hle : fuel ≤ fuel') : capacityForLoop w items fuel' cap = .ok c := by
  induction fuel generalizing cap fuel' with
  | zero => cases h
  | succ fuel ih =>
    obtain ⟨fuel', rfl⟩ := Nat.exists_eq_add_of_le' (Nat.le_of_add_left_le hle)
    rw [capacityForLoop] at h ⊢
    split at h
    · rename_i htest
      rw [if_pos htest]
      exact ih h (by omega)
    · rename_i htest
      rw [if_neg htest]
      exact h

/-- The loop does not end if no product with seven is larger than that of the items with eight. -/
lemma capacityForLoop_diverges (h : 7 * 2 ^ (w.bits - 6) ≤ items % 2 ^ (w.bits - 3)) (fuel : ℕ) :
    ∀ j, capacityForLoop w items fuel (w.wrap (2 ^ j)) = .error .diverge := by
  induction fuel with
  | zero => intro j; rfl
  | succ fuel ih =>
    intro j
    have hseven : w.wrap (w.wrap (2 ^ j) * 7) = w.wrap (2 ^ j * 7) := Nat.mod_mul_mod _ _ _
    have htwice : w.wrap (w.wrap (2 ^ j) * 2) = w.wrap (2 ^ (j + 1)) := Nat.mod_mul_mod _ _ _
    have htest : w.wrap (2 ^ j * 7) ≤ w.wrap (items * 8) := by
      have hle := wrap_capacity_le w j
      have hlimit := (seven_eighths w).2
      rw [wrap_items]
      omega
    rw [capacityForLoop, hseven, htwice, if_pos htest]
    exact ih (j + 1)

lemma wrap_eight (w : PtrWidth) : w.wrap (2 ^ 3) = 8 := by
  cases w <;> rfl

/-- The loop does not end, or ends with room for the lower bits of the items. -/
lemma capacityFor_cases (w : PtrWidth) (items : ℕ) :
    (7 * 2 ^ (w.bits - 6) ≤ items % 2 ^ (w.bits - 3) ∧
      ∀ fuel, capacityForLoop w items fuel 8 = .error .diverge) ∨
    ∃ k, 3 ≤ k ∧ 2 ^ k * 7 < w.size ∧ items % 2 ^ (w.bits - 3) * 8 < 2 ^ k * 7 ∧
      capacityFor w items = .ok (2 ^ k) := by
  set low := items % 2 ^ (w.bits - 3) with hlow
  rcases Nat.lt_or_ge low (7 * 2 ^ (w.bits - 6)) with hlt | hge
  · obtain ⟨k₀, hk₀, hroom₀, hfit₀⟩ := capacityFits_iff.2 hlt
    obtain ⟨k, hk, hcap, hleast⟩ := capacityFor_eq ⟨k₀, hk₀, hroom₀, hfit₀⟩
    have hpow : 2 ^ k ≤ 2 ^ k₀ :=
      Nat.pow_le_pow_right (by norm_num) ((hleast k₀ hk₀).1 hroom₀)
    have hsame : w.wrap (items * 8) = w.wrap (low * 8) := by
      rw [wrap_items, wrap_items, hlow, Nat.mod_mod]
    refine Or.inr ⟨k, hk, by omega, (hleast k hk).2 (le_refl k), ?_⟩
    rw [← hcap]
    exact capacityForLoop_congr hsame w.bits 8
  · refine Or.inl ⟨hge, fun fuel => ?_⟩
    rw [← wrap_eight w]
    exact capacityForLoop_diverges hge fuel 3

/-- The fuel of the model is enough. -/
lemma capacityFor_of_loop {cap fuel : ℕ} (h : capacityForLoop w items fuel 8 = .ok cap) :
    capacityFor w items = .ok cap := by
  rcases capacityFor_cases w items with ⟨-, hdiv⟩ | ⟨k, -, -, -, hok⟩
  · rw [hdiv] at h
    cases h
  · have hcap := capacityForLoop_mono h (Nat.le_max_left fuel w.bits)
    rw [capacityForLoop_mono hok (Nat.le_max_right fuel w.bits)] at hcap
    rw [hok, Except.ok.inj hcap]

/-! ### Room for the items -/

/-- The loop of `capacity_for` ends, and always with a power of two, from eight on, that has room
for the items. -/
def CapacityForHasRoom (w : PtrWidth) (items : ℕ) : Prop :=
  (∃ fuel cap, capacityForLoop w items fuel 8 = .ok cap) ∧
    ∀ fuel cap, capacityForLoop w items fuel 8 = .ok cap →
      (∃ k, 3 ≤ k ∧ cap = 2 ^ k) ∧ items * 8 < cap * 7

lemma capacityForHasRoom_iff : CapacityForHasRoom w items ↔ items < 7 * 2 ^ (w.bits - 6) := by
  constructor
  · rintro ⟨⟨fuel, cap, hok⟩, hroom⟩
    rcases capacityFor_cases w items with ⟨-, hdiv⟩ | ⟨k, hk, hfit, -, hcap⟩
    · rw [hdiv] at hok
      cases hok
    · exact capacityFits_iff.1 ⟨k, hk, (hroom w.bits (2 ^ k) hcap).2, hfit⟩
  · intro hlt
    obtain ⟨k, hk, hcap, hleast⟩ := capacityFor_eq (capacityFits_iff.2 hlt)
    refine ⟨⟨w.bits, 2 ^ k, hcap⟩, fun fuel cap hok => ?_⟩
    have hsame := capacityFor_of_loop hok
    rw [hcap] at hsame
    cases hsame
    exact ⟨⟨k, hk, rfl⟩, (hleast k hk).2 (le_refl k)⟩

namespace HashMap

variable {S K V : Type} [BuildHasher S K]

/-- A construction for `n` items comes to an end, and a table that it makes has room for them. -/
def MadeWithRoom (n : ℕ) (made : Except Abort (HashMap S K V)) : Prop :=
  made ≠ .error .diverge ∧ ∀ m, made = .ok m → 0 < n → n * 8 < m.slots.length * 7

lemma withCapacity_madeWithRoom {L : TableLayout} (h : n < 7 * 2 ^ (L.width.bits - 6)) (b : S) :
    MadeWithRoom n (withCapacityAndHasher L n b : Except Abort (HashMap S K V)) := by
  rcases Nat.eq_zero_or_pos n with rfl | hn
  · exact ⟨nofun, fun m _ hpos => absurd hpos (Nat.lt_irrefl 0)⟩
  · obtain ⟨k, hk, hcap, hleast⟩ := capacityFor_eq (capacityFits_iff.2 h)
    rcases withCapacity_cases (K := K) (V := V) hn hk hcap b with ⟨herr, -⟩ | ⟨m, hok, -, hsize⟩
    · rw [herr]
      exact ⟨nofun, nofun⟩
    · rw [hok]
      refine ⟨nofun, fun m' heq _ => ?_⟩
      cases heq
      rw [hsize]
      exact (hleast k hk).2 (le_refl k)

/-- `capacity_for` ends with room for the items, and `with_capacity` makes a table that has room
for them, exactly for fewer items than `7 * 2 ^ (w - 6)`. -/
theorem capacityFor_room_iff (w : PtrWidth) (items : ℕ) :
    (CapacityForHasRoom w items ∧
      ∀ L : TableLayout, L.width = w → ∀ b : S,
        MadeWithRoom items (withCapacityAndHasher L items b : Except Abort (HashMap S K V))) ↔
      items < 7 * 2 ^ (w.bits - 6) := by
  constructor
  · rintro ⟨hroom, -⟩
    exact capacityForHasRoom_iff.1 hroom
  · intro hlt
    refine ⟨capacityForHasRoom_iff.2 hlt, ?_⟩
    rintro L rfl b
    exact withCapacity_madeWithRoom hlt b

/-- The slots of a `HashMap<u64, u64>` on a 32-bit target that aligns `u64` to eight bytes. -/
def wordSlots32 : TableLayout := { wordSlots with width := .w32 }

/-- On a 32-bit target a map for `2 ^ 29` items gets eight slots, and a map for `7 * 2 ^ 26` is
never made. -/
theorem capacityFor_overflow :
    capacityFor .w32 (2 ^ 29) = .ok 8 ∧ ¬ 2 ^ 29 * 8 < 8 * 7 ∧
      (∃ m : HashMap (UInt64 → UInt64) UInt64 UInt64,
        withCapacityAndHasher wordSlots32 (2 ^ 29) id = .ok m ∧ m.slots.length = 8) ∧
      (∀ fuel, capacityForLoop .w32 (7 * 2 ^ 26) fuel 8 = .error .diverge) ∧
      (withCapacityAndHasher wordSlots32 (7 * 2 ^ 26) id :
        Except Abort (HashMap (UInt64 → UInt64) UInt64 UInt64)) = .error .diverge := by
  have hdiv : ∀ fuel, capacityForLoop .w32 (7 * 2 ^ 26) fuel 8 = .error .diverge :=
    fun fuel => capacityForLoop_diverges (by decide) fuel 3
  exact ⟨rfl, by decide, ⟨_, rfl, rfl⟩, hdiv, rfl⟩

end HashMap

end PureStd.Collections
