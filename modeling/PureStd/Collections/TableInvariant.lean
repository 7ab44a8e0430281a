/-
The invariant of the hash table.

`Inv` holds of every map that a session reaches, with any hash function and any key
comparison (`run_inv`).  Each function of the map has one lemma that says what it
returns on a table with the invariant and what it does to the records of the table;
the invariant of the runs and the refinement of finite maps are both read off these
lemmas.

The bound `fits` is what rules out arithmetic overflow: a table that `Vec` has granted
has at most `isize::MAX` bytes, and a slot has more than eight.
-/
import PureStd.Collections.Probing
import PureStd.Collections.MapRun

namespace PureStd.Collections

open CyclicRun

variable {S K V Q : Type}

@[simp] lemma ok_bind {ε α β : Type} (a : α) (f : α → Except ε β) :
    (Except.ok a >>= f) = f a := rfl

@[simp] lemma error_bind {ε α β : Type} (e : ε) (f : α → Except ε β) :
    (Except.error e >>= f) = Except.error e := rfl

/-- A computation that returns has returned from each of its parts. -/
lemma bind_eq_ok {ε α β : Type} {x : Except ε α} {f : α → Except ε β} {b : β}
    (h : (x >>= f) = .ok b) : ∃ a, x = .ok a ∧ f a = .ok b := by
  cases x with
  | error e => cases h
  | ok a => exact ⟨a, rfl, h⟩

/-- A computation has one table and one answer. -/
lemma ok_inj {ε α β : Type} {a a' : α} {b b' : β}
    (h : (.ok (a, b) : Except ε (α × β)) = .ok (a', b')) : a = a' ∧ b = b' :=
  Prod.mk.inj (Except.ok.inj h)

namespace HashMap

variable [BuildHasher S K] {L : TableLayout} {m : HashMap S K V}

/-- The invariant of the table. -/
structure Inv (L : TableLayout) (m : HashMap S K V) : Prop where
  cap : m.slots.length = 0 ∨ ∃ k, 3 ≤ k ∧ m.slots.length = 2 ^ k
  fits : m.slots.length * L.slotSize ≤ L.width.isizeMax
  len : m.len = (records m.slots).length
  used : m.used = occupiedCount m.slots
  load : 0 < m.slots.length → m.used * 8 < m.slots.length * 7
  hash : ∀ r ∈ records m.slots, r.1 = BuildHasher.hashOne m.hashBuilder r.2.1
  placed : WellPlaced L.width m.slots

lemma Inv.exists_pow (hm : Inv L m) (h : 0 < m.slots.length) :
    ∃ k, 3 ≤ k ∧ m.slots.length = 2 ^ k := hm.cap.resolve_left (by omega)

lemma Inv.free (hm : Inv L m) (h : 0 < m.slots.length) :
    occupiedCount m.slots < m.slots.length := by
  have := hm.load h
  rw [hm.used] at this
  omega

lemma Inv.len_le_used (hm : Inv L m) : m.len ≤ m.used := by
  rw [hm.len, hm.used]
  exact length_records_le _

/-- The next growth of the table asks `Vec` for more than `isize::MAX` bytes. -/
def GrowthRefused (L : TableLayout) (m : HashMap S K V) : Prop :=
  L.width.isizeMax < (if m.slots.length = 0 then 8 else m.slots.length * 2) * L.slotSize

/-! ### Growth -/

/-- An insertion finds the table too full, or finds none. -/
def Due (m : HashMap S K V) : Prop := m.slots.length * 7 ≤ (m.used + 1) * 8

instance (m : HashMap S K V) : Decidable m.Due := inferInstanceAs (Decidable (_ ≤ _))

/-- The number of slots an insertion works with. -/
def sizeForInsert (m : HashMap S K V) : ℕ :=
  if m.slots.length = 0 then 8 else if m.Due then m.slots.length * 2 else m.slots.length

/-- The number of occupied slots an insertion works with: growth leaves the tombstones behind. -/
def usedForInsert (m : HashMap S K V) : ℕ := if m.Due then m.len else m.used

/-- In a table that fits, the arithmetic of `ensure_capacity` does not wrap. -/
lemma Inv.no_wrap (hm : Inv L m) (h : 0 < m.slots.length) :
    L.width.wrap ((m.used + 1) * 8) = (m.used + 1) * 8 ∧
      L.width.wrap (m.cap * 7) = m.cap * 7 ∧ L.width.wrap (m.cap * 2) = m.cap * 2 := by
  have hload := hm.load h
  have hbytes : m.slots.length * 9 ≤ m.slots.length * L.slotSize :=
    Nat.mul_le_mul_left _ L.hash_lt_slotSize
  have hfits := hm.fits
  have hsize := L.width.two_mul_isizeMax
  have hbig : 6 < L.width.isizeMax := by
    cases L.width <;> norm_num [PtrWidth.isizeMax, PtrWidth.bits]
  refine ⟨PtrWidth.wrap_of_lt ?_, PtrWidth.wrap_of_lt ?_, PtrWidth.wrap_of_lt ?_⟩
  · omega
  · rw [HashMap.cap]; omega
  · rw [HashMap.cap]; omega

/-- `grow_to`: the new table holds the same records and no tombstone. -/
lemma growTo_spec (hm : Inv L m) {k : ℕ} (hk : 3 ≤ k) (hroom : m.len * 8 < 2 ^ k * 7) :
    (m.growTo L (2 ^ k) = .error .capacityOverflow ∧ L.width.isizeMax < 2 ^ k * L.slotSize) ∨
    ∃ m', m.growTo L (2 ^ k) = .ok m' ∧ Inv L m' ∧ m'.hashBuilder = m.hashBuilder ∧
      (records m'.slots).Perm (records m.slots) ∧ m'.slots.length = 2 ^ k ∧ m'.used = m.len := by
  rw [growTo]
  by_cases hfit : 2 ^ k * L.slotSize ≤ L.width.isizeMax
  · right
    have hlt : (records m.slots).length + occupiedCount (List.replicate (2 ^ k) (.empty : Slot K V))
        < 2 ^ k := by
      rw [occupiedCount_replicate_empty, ← hm.len]
      omega
    obtain ⟨slots, hok, hlen, hw, hperm, hocc⟩ := rehash_spec (w := L.width) rfl m.slots
      (List.length_replicate (n := 2 ^ k) (a := (.empty : Slot K V)))
      (wellPlaced_of_records_nil (records_replicate_empty _)) hlt
    rw [records_replicate_empty, List.nil_append] at hperm
    rw [occupiedCount_replicate_empty, Nat.zero_add, ← hm.len] at hocc
    refine ⟨{ m with slots := slots, used := m.len }, ?_, ?_, rfl, hperm, hlen, rfl⟩
    · rw [if_pos hfit, hok]
      rfl
    · refine ⟨Or.inr ⟨k, hk, hlen⟩, ?_, ?_, hocc.symm, fun _ => ?_, ?_, hw⟩
      · rw [hlen]; exact hfit
      · rw [hm.len]; exact hperm.length_eq.symm
      · rw [hlen]; exact hroom
      · exact fun r hr => hm.hash r (hperm.mem_iff.1 hr)
  · left
    rw [if_neg hfit]
    exact ⟨rfl, by omega⟩

/-- `ensure_capacity`: afterwards there is room for one more entry. -/
lemma ensureCapacity_spec (hm : Inv L m) :
    (m.ensureCapacity L = .error .capacityOverflow ∧ GrowthRefused L m) ∨
    ∃ m', m.ensureCapacity L = .ok m' ∧ Inv L m' ∧ m'.hashBuilder = m.hashBuilder ∧
      (records m'.slots).Perm (records m.slots) ∧ 0 < m'.slots.length ∧
      (m'.used + 1) * 8 < m'.slots.length * 7 ∧ m'.slots.length = m.sizeForInsert ∧
      m'.used = m.usedForInsert := by
  rw [ensureCapacity, GrowthRefused, sizeForInsert, usedForInsert]
  by_cases hzero : m.slots.length = 0
  · -- the first table
    have hslots : m.slots = [] := List.length_eq_zero_iff.1 hzero
    have hlen : m.len = 0 := by rw [hm.len, hslots]; rfl
    have hdue : m.Due := by simp [Due, hzero]
    rw [if_pos (show m.cap = 0 from hzero), if_pos hzero, if_pos hzero, if_pos hdue]
    rcases growTo_spec hm (le_refl 3) (by rw [hlen]; norm_num) with
      ⟨herr, hbig⟩ | ⟨m', hok, hinv, hb, hperm, hlen', hused⟩
    · exact Or.inl ⟨herr, hbig⟩
    · refine Or.inr ⟨m', hok, hinv, hb, hperm, by omega, ?_, hlen', hused⟩
      rw [hused, hlen, hlen']
      norm_num
  · have hpos : 0 < m.slots.length := by omega
    obtain ⟨k, hk, hpow⟩ := hm.exists_pow hpos
    obtain ⟨hw1, hw2, hw3⟩ := hm.no_wrap hpos
    have hload := hm.load hpos
    have hle := hm.len_le_used
    have h8 : 2 ^ 3 ≤ 2 ^ k := Nat.pow_le_pow_right (by norm_num) hk
    rw [if_neg (show m.cap ≠ 0 from hzero), if_neg hzero, if_neg hzero, hw1, hw2, hw3]
    by_cases hfull : (m.used + 1) * 8 ≥ m.cap * 7
    · have hdue : m.Due := hfull
      rw [if_pos hfull, if_pos hdue, if_pos hdue]
      have hdouble : m.cap * 2 = 2 ^ (k + 1) := by
        rw [HashMap.cap, hpow, pow_succ]
      rw [hdouble]
      rcases growTo_spec hm (by omega : 3 ≤ k + 1)
          (by rw [← hdouble, HashMap.cap]; omega) with
        ⟨herr, hbig⟩ | ⟨m', hok, hinv, hb, hperm, hlen', hused⟩
      · refine Or.inl ⟨herr, ?_⟩
        rw [HashMap.cap] at hdouble
        rwa [hdouble]
      · refine Or.inr ⟨m', hok, hinv, hb, hperm, by omega, ?_, hlen'.trans hdouble.symm, hused⟩
        rw [hused, hlen', ← hdouble, HashMap.cap]
        omega
    · have hdue : ¬ m.Due := hfull
      rw [if_neg hfull, if_neg hdue, if_neg hdue]
      rw [HashMap.cap] at hfull
      exact Or.inr ⟨m, rfl, hm, rfl, List.Perm.refl _, hpos, by omega, rfl, rfl⟩

/-- A table that is not due for growth is used as it is. -/
lemma ensureCapacity_of_not_due (hm : Inv L m) (h : ¬ m.Due) : m.ensureCapacity L = .ok m := by
  have hfull : ¬ (m.used + 1) * 8 ≥ m.cap * 7 := h
  have hpos : 0 < m.slots.length := by
    rw [HashMap.cap] at hfull
    omega
  obtain ⟨hw1, hw2, -⟩ := hm.no_wrap hpos
  rw [ensureCapacity, if_neg (show m.cap ≠ 0 from hpos.ne'), hw1, hw2, if_neg hfull]

/-! ### Single slots -/

/-- Writing a value into a full slot changes one record. -/
lemma setValue_spec (hm : Inv L m) {i : ℕ} {h : UInt64} {k : K} {v : V}
    (hi : m.slots[i]? = some (.full h k v)) :
    ∃ R, (records m.slots).Perm ((h, k, v) :: R) ∧
      ∀ v', Inv L { m with slots := m.slots.set i (.full h k v') } ∧
        (m.slots.set i (.full h k v'))[i]? = some (.full h k v') ∧
        (records (m.slots.set i (.full h k v'))).Perm ((h, k, v') :: R) := by
  obtain ⟨l₁, l₂, hsplit, hset⟩ := exists_split hi
  have hlt : i < m.slots.length := (List.getElem?_eq_some_iff.1 hi).1
  have hrecs : (records m.slots).Perm ((h, k, v) :: (records l₁ ++ records l₂)) := by
    rw [hsplit]
    simp
  refine ⟨_, hrecs, fun v' => ?_⟩
  have hrecs' : (records (m.slots.set i (.full h k v'))).Perm
      ((h, k, v') :: (records l₁ ++ records l₂)) := by
    rw [hset]
    simp
  refine ⟨?_, List.getElem?_set_self hlt, hrecs'⟩
  refine ⟨?_, ?_, ?_, ?_, ?_, ?_, ?_⟩
  · simpa using hm.cap
  · simpa using hm.fits
  · rw [hm.len, hrecs.length_eq, hrecs'.length_eq, List.length_cons, List.length_cons]
  · rw [hm.used, hset, hsplit]
    simp
  · simpa using hm.load
  · intro r hr
    rcases List.mem_cons.1 (hrecs'.mem_iff.1 hr) with rfl | hr'
    · exact hm.hash (h, k, v) (hrecs.mem_iff.2 (by simp))
    · exact hm.hash r (hrecs.mem_iff.2 (List.mem_cons_of_mem _ hr'))
  · refine hm.placed.set (by simp) fun h' k' v'' heq => ?_
    obtain ⟨rfl, rfl, rfl⟩ := Slot.full.inj heq
    exact hm.placed i h k v hi

/-- Turning a full slot into a tombstone. -/
lemma setTombstone_spec (hm : Inv L m) {i : ℕ} {h : UInt64} {k : K} {v : V}
    (hi : m.slots[i]? = some (.full h k v)) :
    Inv L { m with slots := m.slots.set i .tombstone, len := m.len - 1 } ∧
      ∃ R, (records m.slots).Perm ((h, k, v) :: R) ∧
        (records (m.slots.set i .tombstone)).Perm R := by
  obtain ⟨l₁, l₂, hsplit, hset⟩ := exists_split hi
  have hrecs : (records m.slots).Perm ((h, k, v) :: (records l₁ ++ records l₂)) := by
    rw [hsplit]
    simp
  have hrecs' : records (m.slots.set i .tombstone) = records l₁ ++ records l₂ := by
    rw [hset]
    simp
  refine ⟨?_, _, hrecs, by rw [hrecs']⟩
  refine ⟨?_, ?_, ?_, ?_, ?_, ?_, ?_⟩
  · simpa using hm.cap
  · simpa using hm.fits
  · rw [hm.len, hrecs.length_eq, hrecs', List.length_cons, Nat.add_sub_cancel]
  · rw [hm.used, hset, hsplit]
    simp
  · simpa using hm.load
  · intro r hr
    rw [hrecs'] at hr
    exact hm.hash r (hrecs.mem_iff.2 (List.mem_cons_of_mem _ hr))
  · exact hm.placed.set (by simp) fun h' k' v'' heq => absurd heq (by simp)

/-- Filling a slot that holds no entry and can be reached from the hash position. -/
lemma fillSlot_spec (hm : Inv L m) {j : ℕ} {t : Slot K V} (ht : m.slots[j]? = some t)
    (hrec : t.record = none) {key : K} (value : V)
    (hrun : RunTo m.slots.length (Occupied m.slots)
      (home L.width m.slots.length (BuildHasher.hashOne m.hashBuilder key)) j)
    (hroom : (m.used + 1) * 8 < m.slots.length * 7) :
    ∃ m', m.fillSlot j (BuildHasher.hashOne m.hashBuilder key) key value = .ok m' ∧ Inv L m' ∧
      m'.hashBuilder = m.hashBuilder ∧
      m'.slots[j]? = some (.full (BuildHasher.hashOne m.hashBuilder key) key value) ∧
      (records m'.slots).Perm
        ((BuildHasher.hashOne m.hashBuilder key, key, value) :: records m.slots) := by
  set hash := BuildHasher.hashOne m.hashBuilder key with hhash
  obtain ⟨l₁, l₂, hsplit, hset⟩ := exists_split ht
  have hlt : j < m.slots.length := (List.getElem?_eq_some_iff.1 ht).1
  have hrecs : records m.slots = records l₁ ++ records l₂ := by
    rw [hsplit]
    cases t with
    | empty => simp
    | tombstone => simp
    | full => simp [Slot.record] at hrec
  have hperm : (records (m.slots.set j (.full hash key value))).Perm
      ((hash, key, value) :: records m.slots) := by
    rw [hset, hrecs]
    simp
  have hcount : occupiedCount (m.slots.set j (.full hash key value))
      = if t.isEmpty then m.used + 1 else m.used := by
    rw [hm.used, hset, hsplit]
    cases t with
    | empty => simp [Slot.isEmpty]; omega
    | tombstone => simp [Slot.isEmpty]
    | full => simp [Slot.record] at hrec
  let m' : HashMap S K V :=
    { m with
      slots := m.slots.set j (.full hash key value)
      len := m.len + 1
      used := if t.isEmpty then m.used + 1 else m.used }
  refine ⟨m', by rw [fillSlot, ht], ?_, rfl, List.getElem?_set_self hlt, hperm⟩
  refine ⟨?_, ?_, ?_, hcount.symm, ?_, ?_, ?_⟩
  · simpa [m'] using hm.cap
  · simpa [m'] using hm.fits
  · rw [hperm.length_eq, List.length_cons, ← hm.len]
  · intro _
    simp only [m', List.length_set]
    split <;> omega
  · intro r hr
    rcases List.mem_cons.1 (hperm.mem_iff.1 hr) with rfl | hr'
    · exact hhash
    · exact hm.hash r hr'
  · refine hm.placed.set (by simp) fun h' k' v'' heq => ?_
    obtain ⟨rfl, rfl, rfl⟩ := Slot.full.inj heq
    exact hrun

end HashMap

end PureStd.Collections
