/-
The tables that sessions reach.

`reachable_table` collects what holds of the slots of every map that a session reaches.
All of it comes from the invariant, apart from the keys being different, which needs
equal keys to have equal hashes.  That is proved here for sessions that look entries up
through any borrowed form of the keys, lawful or not: the lookups can find the wrong
entry then, but they never add one.
-/
import PureStd.Collections.MapRefinement

namespace PureStd.Collections

open CyclicRun

variable {S K V Q : Type}

/-- The slot holds an entry. -/
def Slot.isFull : Slot K V → Bool
  | .full .. => true
  | _ => false

/-- The slot held an entry that was removed. -/
def Slot.isTombstone : Slot K V → Bool
  | .tombstone => true
  | _ => false

lemma length_records_eq_countP (slots : List (Slot K V)) :
    (records slots).length = slots.countP Slot.isFull := by
  induction slots with
  | nil => rfl
  | cons s slots ih => cases s <;> simp [ih, List.countP_cons, Slot.isFull]

lemma occupiedCount_eq_countP (slots : List (Slot K V)) :
    occupiedCount slots = slots.countP Slot.isFull + slots.countP Slot.isTombstone := by
  induction slots with
  | nil => rfl
  | cons s slots ih =>
    cases s <;> simp [ih, List.countP_cons, Slot.isFull, Slot.isTombstone] <;> omega

namespace HashMap

variable [BEq K] [BuildHasher S K] {L : TableLayout} {m m' : HashMap S K V}

omit [BEq K] in
/-- Without tombstones, the occupied slots are the entries. -/
lemma Inv.used_eq_len (hm : Inv L m) (h : Slot.tombstone ∉ m.slots) : m.used = m.len := by
  have hzero : m.slots.countP Slot.isTombstone = 0 := by
    rw [List.countP_eq_zero]
    intro s hs htomb
    cases s with
    | tombstone => exact h hs
    | empty => cases htomb
    | full => cases htomb
  rw [hm.used, hm.len, occupiedCount_eq_countP, length_records_eq_countP, hzero, Nat.add_zero]

/-! ### No key twice -/

lemma Represents.distinct [EquivBEq K] {a : AssocMap K V} (h : Represents L m a) :
    DistinctKeys m.entries := a.distinct.perm h.entries.symm

omit [BuildHasher S K] in
/-- Changing a value keeps the keys different. -/
lemma distinct_of_value [EquivBEq K] {h : UInt64} {k : K} {v v' : V}
    {R : List (UInt64 × K × V)} (hd : DistinctKeys m.entries)
    (hR : (records m.slots).Perm ((h, k, v) :: R))
    (hR' : (records m'.slots).Perm ((h, k, v') :: R)) : DistinctKeys m'.entries := by
  have hfront : DistinctKeys ((k, v) :: R.map Prod.snd) := hd.perm (hR.map Prod.snd)
  have hfront' : DistinctKeys ((k, v') :: R.map Prod.snd) :=
    List.pairwise_cons.2 (List.pairwise_cons.1 hfront)
  exact hfront'.perm (hR'.map Prod.snd).symm

variable [BEq Q] [Borrow K Q] [BuildHasher S Q]

lemma exec_distinct [EquivBEq K] (hl : LawfulBorrow S K K) (hm : Inv L m)
    (hd : DistinctKeys m.entries) {op : Op K Q V} {ans : Answer V}
    (hok : m.exec L op = .ok (m', ans)) : DistinctKeys m'.entries := by
  have hrep : Represents L m ⟨m.entries, hd⟩ := ⟨hm, List.Perm.refl _⟩
  -- an operation that takes a key goes the same way in a session without borrowed keys
  have hkey : ∀ op' : Op K K V, m.exec L op' = .ok (m', ans) → DistinctKeys m'.entries := by
    intro op' hok'
    obtain ⟨a₁, -, -, hrep'⟩ := exec_represents hl hrep hok'
    exact hrep'.distinct
  cases op with
  | insert k v => exact hkey (.insert k v) hok
  | entry k mods use => exact hkey (.entry k mods use) hok
  | retain σ f st => exact hkey (.retain σ f st) hok
  | clear => exact hkey .clear hok
  | extend es => exact hkey (.extend es) hok
  | iterMut σ f st => exact hkey (.iterMut σ f st) hok
  | remove q =>
    rcases remove_spec hm q with ⟨m₁, _, k, v, R, hok', -, -, -, hR, hR'⟩ | ⟨hok', -⟩
    · rw [exec, hok', ok_bind] at hok
      obtain ⟨rfl, rfl⟩ := ok_inj hok
      have hfront : DistinctKeys ((k, v) :: R.map Prod.snd) := hd.perm (hR.map Prod.snd)
      exact DistinctKeys.perm (List.pairwise_cons.1 hfront).2 (hR'.map Prod.snd).symm
    · rw [exec, hok', ok_bind] at hok
      obtain ⟨rfl, rfl⟩ := ok_inj hok
      exact hd
  | get q | containsKey q =>
    obtain ⟨_, -, hans⟩ := bind_eq_ok hok
    obtain ⟨rfl, -⟩ := ok_inj hans
    exact hd
  | getMut q write =>
    rcases getMut_spec hm q with ⟨r, _, k, R, hok', -, hR, hw⟩ | ⟨hok', -⟩
    · rw [exec, hok', ok_bind] at hok
      obtain ⟨rfl, rfl⟩ := ok_inj hok
      exact distinct_of_value hd hR (hw _).2.2
    · rw [exec, hok', ok_bind] at hok
      obtain ⟨rfl, rfl⟩ := ok_inj hok
      exact hd

lemma run_distinct [EquivBEq K] (hl : LawfulBorrow S K K) (ops : List (Op K Q V)) :
    ∀ {m m' : HashMap S K V} {as : List (Answer V)}, Inv L m → DistinctKeys m.entries →
      m.run L ops = .ok (m', as) → DistinctKeys m'.entries := by
  induction ops with
  | nil =>
    intro m m' as _ hd hok
    obtain ⟨rfl, rfl⟩ := ok_inj hok
    exact hd
  | cons op ops ih =>
    intro m m' as hm hd hok
    obtain ⟨m₁, ans, as', hexec, hrun, -⟩ := run_cons_ok hok
    exact ih (exec_ok_inv hm hexec) (exec_distinct hl hm hd hexec) hrun

omit [BuildHasher S K] in
/-- Different entries are in different slots. -/
lemma key_ne_of_slots (hd : DistinctKeys m.entries) {i j : ℕ} (hij : i < j) {h h' : UInt64}
    {k k' : K} {v v' : V} (hi : m.slots[i]? = some (.full h k v))
    (hj : m.slots[j]? = some (.full h' k' v')) : (k == k') = false := by
  rw [HashMap.entries, DistinctKeys, List.pairwise_map, records, List.pairwise_filterMap,
    List.pairwise_iff_getElem] at hd
  obtain ⟨hi', hi⟩ := List.getElem?_eq_some_iff.1 hi
  obtain ⟨hj', hj⟩ := List.getElem?_eq_some_iff.1 hj
  exact hd i j hi' hj' hij (h, k, v) (by rw [hi]; rfl) (h', k', v') (by rw [hj]; rfl)

/-! ### Every session -/

/-- The table of every map that a session reaches, and what the operations do on it:
they return, or `Vec` refuses a growth; no loop runs forever and nothing else panics. -/
theorem reachable_table (st : Start S) (hst : st.make L = .ok m) (ops : List (Op K Q V))
    {as : List (Answer V)} (hrun : m.run L ops = .ok (m', as)) :
    (m'.slots.length = 0 ∨ ∃ k, 3 ≤ k ∧ m'.slots.length = 2 ^ k) ∧
    m'.len = m'.slots.countP Slot.isFull ∧
    m'.used = m'.slots.countP Slot.isFull + m'.slots.countP Slot.isTombstone ∧
    (0 < m'.slots.length →
      m'.used * 8 < m'.slots.length * 7 ∧ ∃ i : ℕ, m'.slots[i]? = some .empty) ∧
    (EquivBEq K → LawfulBorrow S K K → ∀ (i j : ℕ) h h' k k' v v', i ≠ j →
      m'.slots[i]? = some (.full h k v) → m'.slots[j]? = some (.full h' k' v') →
      (k == k') = false) ∧
    (∀ (i : ℕ) h k v, m'.slots[i]? = some (.full h k v) →
      h = BuildHasher.hashOne m'.hashBuilder k ∧
      RunTo m'.slots.length (Occupied m'.slots) (home L.width m'.slots.length h) i) ∧
    ∀ op : Op K Q V, (∃ r, m'.exec L op = .ok r) ∨ m'.exec L op = .error .capacityOverflow := by
  obtain ⟨hm, hnil⟩ := start_inv hst
  have hm' : Inv L m' := run_ok_inv hm hrun
  refine ⟨hm'.cap, ?_, ?_, fun hpos => ⟨hm'.load hpos, ?_⟩, ?_, ?_, ?_⟩
  · rw [hm'.len, length_records_eq_countP]
  · rw [hm'.used, occupiedCount_eq_countP]
  · obtain ⟨i, -, hi⟩ := exists_empty (hm'.free hpos)
    exact ⟨i, hi⟩
  · intro heq hl i j h h' k k' v v' hij hi hj
    have hd₀ : DistinctKeys m.entries := by
      rw [HashMap.entries, hnil]
      exact List.Pairwise.nil
    have hd := run_distinct hl ops hm hd₀ hrun
    rcases Nat.lt_or_gt_of_ne hij with hlt | hgt
    · exact key_ne_of_slots hd hlt hi hj
    · rw [BEq.comm]
      exact key_ne_of_slots hd hgt hj hi
  · intro i h k v hi
    exact ⟨hm'.hash (h, k, v) (mem_records_iff.2 ⟨i, hi⟩), hm'.placed i h k v hi⟩
  · intro op
    rcases exec_inv hm' op with ⟨herr, -⟩ | ⟨m₁, ans, hok, -⟩
    · exact Or.inr herr
    · exact Or.inl ⟨_, hok⟩

/-- The start of a map for three entries. -/
def smallMap : Start (UInt64 → UInt64) := .withCapacity 3 fun k => k % 2

theorem reachable_table_small : ∃ m m' : HashMap (UInt64 → UInt64) UInt64 UInt64, ∃ as,
    smallMap.make wordSlots = .ok m ∧
    m.run (Q := UInt64) wordSlots [.insert 1 10, .insert 3 30, .remove 1] = .ok (m', as) ∧
    m'.len = m'.slots.countP Slot.isFull ∧ (∃ i : ℕ, m'.slots[i]? = some .empty) ∧
    ∀ (i j : ℕ) h h' k k' v v', i ≠ j → m'.slots[i]? = some (.full h k v) →
      m'.slots[j]? = some (.full h' k' v') → (k == k') = false := by
  refine ⟨_, _, _, rfl, rfl, ?_⟩
  obtain ⟨-, hlen, -, hempty, hkeys, -⟩ := reachable_table (L := wordSlots) smallMap rfl
    ([.insert 1 10, .insert 3 30, .remove 1] : List (Op UInt64 UInt64 UInt64)) rfl
  exact ⟨hlen, (hempty (by decide)).2, hkeys inferInstance lawfulBorrow_self⟩

end HashMap

end PureStd.Collections
