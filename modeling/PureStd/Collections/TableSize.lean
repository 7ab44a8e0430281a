/-
How many slots the table has, and `HashMap::capacity`.

An insertion works with `sizeForInsert` slots and occupies at most one more.  So a table keeps its
size as long as the occupied slots, with the new one, stay under seven eighths of it.  The number
that `capacity` returns is exactly seven eighths: the insertion that would make `len` reach it
finds the table due for growth.  `capacity_for` compares the items themselves with seven eighths,
strictly, so a map made with a capacity has room for them.
-/
import PureStd.Collections.ReachableTable

namespace PureStd.Collections

variable {S K V Q : Type}

namespace HashMap

variable [BEq K] [BuildHasher S K] {L : TableLayout} {m m' : HashMap S K V}

/-! ### One insertion -/

/-- What an insertion does to the counters of the table. -/
lemma insert_size (hm : Inv L m) {k : K} {v : V} {o : Option V}
    (h : m.insert L k v = .ok (m', o)) :
    Inv L m' ∧ m'.slots.length = m.sizeForInsert ∧
      ((m'.len = m.len ∧ m'.used = m.usedForInsert) ∨
        (m'.len = m.len + 1 ∧ m'.used ≤ m.usedForInsert + 1)) := by
  rcases ensureCapacity_spec hm with ⟨herr, -⟩ | ⟨m₁, hok, hm₁, -, hperm, hpos, hroom, hsize, hused⟩
  · rw [insert, herr] at h
    cases h
  · have hlen₁ : m₁.len = m.len := by rw [hm₁.len, hperm.length_eq, hm.len]
    obtain ⟨m₂, hinv, -, hlen, hins⟩ := insert_ensured hok hm₁ hpos hroom k v
    rcases hins with ⟨h', k', v', R, hok', -, hu, hR, hR'⟩ | ⟨hok', hu, -, hR⟩
    · obtain ⟨rfl, -⟩ := ok_inj (h.symm.trans hok')
      refine ⟨hinv, hlen.trans hsize, Or.inl ⟨?_, hu.trans hused⟩⟩
      rw [hinv.len, hR'.length_eq, List.length_cons, ← hlen₁, hm₁.len, hR.length_eq,
        List.length_cons]
    · obtain ⟨rfl, -⟩ := ok_inj (h.symm.trans hok')
      refine ⟨hinv, hlen.trans hsize, Or.inr ⟨?_, hused ▸ hu⟩⟩
      rw [hinv.len, hR.length_eq, List.length_cons, ← hlen₁, hm₁.len]

/-- A table that is not due for growth takes the entry. -/
lemma insert_of_not_due (hm : Inv L m) (hdue : ¬ m.Due) (k : K) (v : V) :
    ∃ m' o, m.insert L k v = .ok (m', o) := by
  have hroom : (m.used + 1) * 8 < m.slots.length * 7 := by
    rw [Due] at hdue
    omega
  obtain ⟨m', -, -, -, hins⟩ :=
    insert_ensured (ensureCapacity_of_not_due hm hdue) hm (by omega) hroom k v
  rcases hins with ⟨_, _, v', _, hok, -⟩ | ⟨hok, -⟩
  · exact ⟨m', some v', hok⟩
  · exact ⟨m', none, hok⟩

/-- A new key adds an entry. -/
lemma insert_new (hm : Inv L m) {k : K} {v : V} {o : Option V}
    (hnew : ∀ e ∈ m.entries, (e.1 == k) = false) (h : m.insert L k v = .ok (m', o)) :
    m'.len = m.len + 1 ∧ m'.entries.Perm ((k, v) :: m.entries) := by
  rcases insert_spec hm k v with ⟨herr, -⟩ | ⟨m₁, hm₁, -, hins⟩
  · rw [h] at herr
    cases herr
  · rcases hins with ⟨h', k', v', R, -, hk, hR, -⟩ | ⟨hok, -, hR⟩
    · have hmem : (k', v') ∈ m.entries := ((hR.map Prod.snd).mem_iff).2 (List.mem_cons_self ..)
      have := hnew _ hmem
      simp_all
    · obtain ⟨rfl, -⟩ := ok_inj (h.symm.trans hok)
      refine ⟨?_, hR.map Prod.snd⟩
      rw [hm₁.len, hR.length_eq, List.length_cons, ← hm.len]

/-! ### Several insertions -/

omit [BEq K] [BuildHasher S K] in
lemma sizeForInsert_of_not_due (h : ¬ m.Due) : m.sizeForInsert = m.slots.length := by
  have hne : m.slots.length ≠ 0 := by
    rw [Due] at h
    omega
  rw [sizeForInsert, if_neg hne, if_neg h]

omit [BEq K] [BuildHasher S K] in
lemma sizeForInsert_of_due (h : m.Due) : m.slots.length < m.sizeForInsert := by
  rw [sizeForInsert]
  split_ifs with hzero <;> omega

lemma extend_append (es es' : List (K × V)) (h : m.extend L es = .ok m') :
    m.extend L (es ++ es') = m'.extend L es' := by
  induction es generalizing m with
  | nil =>
    cases h
    rfl
  | cons e es ih =>
    obtain ⟨k, v⟩ := e
    obtain ⟨⟨m₁, o⟩, hins, hrest⟩ := bind_eq_ok h
    rw [List.cons_append, extend_cons hins]
    exact ih hrest

/-- A table with room for the entries keeps its size. -/
lemma extend_of_room (es : List (K × V)) : ∀ {m : HashMap S K V}, Inv L m →
    (m.used + es.length) * 8 < m.slots.length * 7 →
    ∃ m', m.extend L es = .ok m' ∧ m'.slots.length = m.slots.length := by
  induction es with
  | nil =>
    intro m hm hroom
    exact ⟨m, rfl, rfl⟩
  | cons e es ih =>
    intro m hm hroom
    obtain ⟨k, v⟩ := e
    rw [List.length_cons] at hroom
    have hdue : ¬ m.Due := by
      rw [Due]
      omega
    obtain ⟨m₁, o, hins⟩ := insert_of_not_due hm hdue k v
    obtain ⟨hm₁, hsize, hcount⟩ := insert_size hm hins
    rw [sizeForInsert_of_not_due hdue] at hsize
    rw [usedForInsert, if_neg hdue] at hcount
    obtain ⟨m', hok, hsize'⟩ := ih hm₁ (by rw [hsize]; omega)
    exact ⟨m', by rw [extend_cons hins, hok], hsize'.trans hsize⟩

/-- The listed keys are not in the map. -/
def NewKeys (m : HashMap S K V) (es : List (K × V)) : Prop :=
  ∀ e ∈ es, ∀ x ∈ m.entries, (x.1 == e.1) = false

/-- New, different keys add an entry each. -/
lemma extend_new (es : List (K × V)) : ∀ {m m' : HashMap S K V}, Inv L m → m.NewKeys es →
    DistinctKeys es → m.extend L es = .ok m' → Inv L m' ∧ m'.len = m.len + es.length := by
  induction es with
  | nil =>
    intro m m' hm _ _ hok
    cases hok
    exact ⟨hm, rfl⟩
  | cons e es ih =>
    intro m m' hm hnew hdist hok
    obtain ⟨k, v⟩ := e
    obtain ⟨hhead, htail⟩ := List.pairwise_cons.1 hdist
    obtain ⟨⟨m₁, o⟩, hins, hrest⟩ := bind_eq_ok hok
    obtain ⟨hlen, hperm⟩ := insert_new hm (hnew (k, v) (List.mem_cons_self ..)) hins
    have hnew₁ : m₁.NewKeys es := by
      intro e he x hx
      rcases List.mem_cons.1 (hperm.mem_iff.1 hx) with rfl | hx
      · exact hhead e he
      · exact hnew e (List.mem_cons_of_mem _ he) x hx
    obtain ⟨hm', hlen'⟩ := ih (insert_size hm hins).1 hnew₁ htail hrest
    exact ⟨hm', by rw [hlen', hlen, List.length_cons]; omega⟩

/-- Inserting the entries one after the other never changes the number of slots. -/
def KeepsSize (L : TableLayout) (m : HashMap S K V) (es : List (K × V)) : Prop :=
  ∀ i, ∃ m', m.extend L (es.take i) = .ok m' ∧ m'.slots.length = m.slots.length

lemma keepsSize_of_room (hm : Inv L m) {es : List (K × V)}
    (hroom : (m.used + es.length) * 8 < m.slots.length * 7) : m.KeepsSize L es := by
  intro i
  refine extend_of_room _ hm ?_
  have := List.length_take_le' i es
  omega

/-- New, different keys fit a table exactly if `len` stays under seven eighths of it. -/
lemma keepsSize_iff (hm : Inv L m) (htomb : m.used = m.len) {es : List (K × V)}
    (hnew : m.NewKeys es) (hdist : DistinctKeys es) (hes : es ≠ []) :
    m.KeepsSize L es ↔ (m.len + es.length) * 8 < m.slots.length * 7 := by
  constructor
  · intro hkeep
    by_contra hfull
    -- the last insertion finds the table due for growth
    obtain ⟨es', e, rfl⟩ : ∃ es' e, es = es' ++ [e] :=
      ⟨es.dropLast, es.getLast hes, (List.dropLast_append_getLast hes).symm⟩
    obtain ⟨m₁, hok₁, hsize₁⟩ := hkeep es'.length
    rw [List.take_left] at hok₁
    obtain ⟨hm₁, hlen₁⟩ := extend_new es' hm (fun x hx => hnew x (List.mem_append_left _ hx))
      (List.pairwise_append.1 hdist).1 hok₁
    have hdue : m₁.Due := by
      have := hm₁.len_le_used
      rw [List.length_append, List.length_singleton] at hfull
      rw [Due, hsize₁]
      omega
    obtain ⟨m₂, hok₂, hsize₂⟩ := hkeep (es' ++ [e]).length
    rw [List.take_length, extend_append es' [e] hok₁] at hok₂
    obtain ⟨k, v⟩ := e
    obtain ⟨⟨m₃, o⟩, hins, hrest⟩ := bind_eq_ok hok₂
    cases hrest
    have hgrown := sizeForInsert_of_due hdue
    have := (insert_size hm₁ hins).2.1
    omega
  · intro hroom
    exact keepsSize_of_room hm (by rw [htomb]; exact hroom)

/-! ### `capacity` -/

variable [BEq Q] [Borrow K Q] [BuildHasher S Q]

omit [BEq K] in
lemma capacity_mul (hm : Inv L m) : m.capacity * 8 = m.slots.length * 7 := by
  rw [capacity]
  rcases hm.cap with hzero | ⟨k, hk, hpow⟩
  · simp [hzero]
  · have hdvd : 8 ∣ m.slots.length := hpow ▸ pow_dvd_pow 2 hk
    obtain ⟨j, hj⟩ := hdvd
    omega

/-- A map without tombstones takes new keys up to one less than its capacity; the last one makes
the table grow, so the promise is kept by a map without a table only. -/
theorem capacity_promise (st : Start S) (hst : st.make L = .ok m) (ops : List (Op K Q V))
    {as : List (Answer V)} (hrun : m.run L ops = .ok (m', as)) (htomb : Slot.tombstone ∉ m'.slots)
    (es : List (K × V)) (hnew : m'.NewKeys es) (hdist : DistinctKeys es)
    (hlen : m'.len + es.length = m'.capacity) :
    (m'.KeepsSize L es ↔ m'.slots.length = 0) ∧ m'.KeepsSize L es.dropLast := by
  have hm' : Inv L m' := run_ok_inv (start_inv hst).1 hrun
  have hused := hm'.used_eq_len htomb
  have hcap := capacity_mul hm'
  by_cases hzero : m'.slots.length = 0
  · have hnil : es = [] := List.length_eq_zero_iff.1 (by omega)
    have hkeep : m'.KeepsSize L [] := fun i => ⟨m', by simp [extend], rfl⟩
    rw [hnil]
    exact ⟨iff_of_true hkeep hzero, hkeep⟩
  · have hload := hm'.load (by omega)
    have hpos : 0 < es.length := by omega
    constructor
    · rw [keepsSize_iff hm' hused hnew hdist (List.length_pos_iff.1 hpos)]
      exact iff_of_false (by omega) hzero
    · refine keepsSize_of_room hm' ?_
      rw [List.length_dropLast]
      omega

/-- A map with one entry, after its first insertion. -/
def oneEntry : HashMap (UInt64 → UInt64) UInt64 UInt64 where
  hashBuilder := id
  slots := .full 0 0 0 :: List.replicate 7 .empty
  len := 1
  used := 1

/-- Six entries with the keys `1` to `6`. -/
def sixEntries : List (UInt64 × UInt64) := [(1, 0), (2, 0), (3, 0), (4, 0), (5, 0), (6, 0)]

lemma run_oneEntry :
    (withHasher id).run (Q := UInt64) wordSlots [.insert 0 0] = .ok (oneEntry, [.value none]) := rfl

/-- A map with one entry reports a capacity of seven, and doubles its table at the seventh. -/
theorem capacity_seventh_entry :
    (withHasher id).run (Q := UInt64) wordSlots [.insert 0 0] = .ok (oneEntry, [.value none]) ∧
      Slot.tombstone ∉ oneEntry.slots ∧ oneEntry.slots.length = 8 ∧
      ∃ m' : HashMap (UInt64 → UInt64) UInt64 UInt64,
        oneEntry.extend wordSlots sixEntries = .ok m' ∧ m'.len = oneEntry.capacity ∧
        m'.slots.length = 16 :=
  ⟨rfl, by decide, rfl, _, rfl, by decide, by decide⟩

theorem capacity_promise_six :
    ¬ oneEntry.KeepsSize wordSlots sixEntries ∧
      oneEntry.KeepsSize wordSlots sixEntries.dropLast := by
  have hnew : oneEntry.NewKeys sixEntries := by
    have hentries : oneEntry.entries = [(0, 0)] := rfl
    -- not by decide, which would go through all words
    rw [NewKeys, hentries]
    simp [sixEntries]
  obtain ⟨hiff, hkeep⟩ := capacity_promise (.withHasher id) rfl _ run_oneEntry (by decide)
    sixEntries hnew (by unfold DistinctKeys; decide) (by decide)
  exact ⟨fun h => absurd (hiff.1 h) (by decide), hkeep⟩

end HashMap

/-! ### `with_capacity` -/

/-- No product that `capacity_for` computes for `n` items overflows: there is a power of two with
room for them whose product with seven is a `usize`. -/
def CapacityFits (w : PtrWidth) (n : ℕ) : Prop :=
  ∃ k, 3 ≤ k ∧ n * 8 < 2 ^ k * 7 ∧ 2 ^ k * 7 < w.size

lemma capacityForLoop_eq {w : PtrWidth} {n k : ℕ} (hfit : 2 ^ k * 7 < w.size)
    (hk : n * 8 < 2 ^ k * 7) (hmin : ∀ j, 3 ≤ j → j < k → 2 ^ j * 7 ≤ n * 8) (fuel : ℕ) :
    ∀ j, 3 ≤ j → j ≤ k → k - j < fuel → capacityForLoop w n fuel (2 ^ j) = .ok (2 ^ k) := by
  induction fuel with
  | zero =>
    intro j _ _ hfuel
    omega
  | succ fuel ih =>
    intro j hj hjk hfuel
    have hpow : 2 ^ j ≤ 2 ^ k := Nat.pow_le_pow_right (by norm_num) hjk
    have hitems : w.wrap (n * 8) = n * 8 := PtrWidth.wrap_of_lt (by omega)
    have hcap : w.wrap (2 ^ j * 7) = 2 ^ j * 7 := PtrWidth.wrap_of_lt (by omega)
    rw [capacityForLoop, hitems, hcap]
    rcases Nat.lt_or_eq_of_le hjk with hlt | rfl
    · have hdouble : 2 ^ (j + 1) ≤ 2 ^ k := Nat.pow_le_pow_right (by norm_num) hlt
      have htwice : w.wrap (2 ^ j * 2) = 2 ^ (j + 1) := by
        rw [← pow_succ]
        exact PtrWidth.wrap_of_lt (by omega)
      rw [if_pos (hmin j hj hlt), htwice]
      exact ih (j + 1) (by omega) hlt (by omega)
    · rw [if_neg (by omega)]

/-- `capacity_for` returns the least power of two, from eight on, with room for the items. -/
lemma capacityFor_eq {w : PtrWidth} {n : ℕ} (h : CapacityFits w n) :
    ∃ k, 3 ≤ k ∧ capacityFor w n = .ok (2 ^ k) ∧ ∀ j, 3 ≤ j → (n * 8 < 2 ^ j * 7 ↔ k ≤ j) := by
  classical
  obtain ⟨k₀, hk₀, hroom₀, hfit₀⟩ := h
  have hex : ∃ k, 3 ≤ k ∧ n * 8 < 2 ^ k * 7 := ⟨k₀, hk₀, hroom₀⟩
  obtain ⟨hk, hroom⟩ := Nat.find_spec hex
  set k := Nat.find hex with hfind
  have hle : k ≤ k₀ := Nat.find_min' hex ⟨hk₀, hroom₀⟩
  have hfit : 2 ^ k * 7 < w.size := by
    have : 2 ^ k ≤ 2 ^ k₀ := Nat.pow_le_pow_right (by norm_num) hle
    omega
  have hmin : ∀ j, 3 ≤ j → j < k → 2 ^ j * 7 ≤ n * 8 := by
    intro j hj hlt
    have := Nat.find_min hex hlt
    omega
  have hbits : k < w.bits := by
    by_contra hge
    have : w.size ≤ 2 ^ k := Nat.pow_le_pow_right (by norm_num) (by omega)
    omega
  refine ⟨k, hk, capacityForLoop_eq hfit hroom hmin w.bits 3 (le_refl 3) hk (by omega), ?_⟩
  intro j hj
  constructor
  · intro hroomj
    by_contra hlt
    have := hmin j hj (by omega)
    omega
  · intro hkj
    have : 2 ^ k ≤ 2 ^ j := Nat.pow_le_pow_right (by norm_num) hkj
    omega

namespace HashMap

variable [BEq K] [BuildHasher S K] {L : TableLayout}

/-- A table of `2 ^ k` slots made for an empty map takes `n` new keys exactly if they are
fewer than seven eighths of the slots. -/
lemma growTo_keepsSize {k : ℕ} (hk : 3 ≤ k) {b : S} {m : HashMap S K V}
    (h : (withHasher b).growTo L (2 ^ k) = .ok m) {es : List (K × V)} (hdist : DistinctKeys es)
    (hes : es ≠ []) :
    m.slots.length = 2 ^ k ∧ (m.KeepsSize L es ↔ es.length * 8 < 2 ^ k * 7) := by
  have hempty : Inv L (withHasher b : HashMap S K V) := withHasher_inv b
  rcases growTo_spec hempty hk (by simp [withHasher]) with
    ⟨herr, -⟩ | ⟨m₁, hok, hm, -, hperm, hsize, hused⟩
  · rw [h] at herr
    cases herr
  · obtain rfl := Except.ok.inj (h.symm.trans hok)
    have hrecs : records m.slots = [] := by simpa [withHasher] using hperm
    have hlen : m.len = 0 := by rw [hm.len, hrecs]; rfl
    have hused' : m.used = m.len := by rw [hused, hlen]; rfl
    have hnew : m.NewKeys es := by
      intro e _ x hx
      rw [entries, hrecs] at hx
      cases hx
    rw [keepsSize_iff hm hused' hnew hdist hes, hlen, hsize, Nat.zero_add]
    exact ⟨rfl, Iff.rfl⟩

omit [BEq K] in
/-- What `with_capacity_and_hasher` does with the number of slots from `capacity_for`. -/
lemma withCapacity_cases {n k : ℕ} (hn : 0 < n) (hk : 3 ≤ k)
    (hcap : capacityFor L.width n = .ok (2 ^ k)) (b : S) :
    (withCapacityAndHasher L n b = (.error .capacityOverflow : Except Abort (HashMap S K V)) ∧
        L.width.isizeMax < 2 ^ k * L.slotSize) ∨
      ∃ m : HashMap S K V, withCapacityAndHasher L n b = .ok m ∧
        (withHasher b).growTo L (2 ^ k) = .ok m ∧ m.slots.length = 2 ^ k := by
  have hempty : Inv L (withHasher b : HashMap S K V) := withHasher_inv b
  rw [withCapacityAndHasher, if_pos hn, hcap, ok_bind]
  rcases growTo_spec hempty hk (by simp [withHasher]) with
    ⟨herr, hbig⟩ | ⟨m, hok, -, -, -, hsize, -⟩
  · exact Or.inl ⟨herr, hbig⟩
  · exact Or.inr ⟨m, hok, hok, hsize⟩

/-- A map made for `n` keys takes any `n` different keys in the table it was made with, which
has the least number of slots, as a power of two from eight on, for which this is so. -/
theorem withCapacity_keepsSize {n : ℕ} (hn : 1 ≤ n) (hfit : CapacityFits L.width n) (b : S)
    (es : List (K × V)) (hlen : es.length = n) (hdist : DistinctKeys es) :
    ∃ k, 3 ≤ k ∧ capacityFor L.width n = .ok (2 ^ k) ∧
      ((withCapacityAndHasher L n b = (.error .capacityOverflow : Except Abort (HashMap S K V)) ∧
          L.width.isizeMax < 2 ^ k * L.slotSize) ∨
        ∃ m : HashMap S K V, withCapacityAndHasher L n b = .ok m ∧ m.slots.length = 2 ^ k ∧
          m.KeepsSize L es) ∧
      ∀ j, 3 ≤ j → ∀ m : HashMap S K V, (withHasher b).growTo L (2 ^ j) = .ok m →
        (m.KeepsSize L es ↔ 2 ^ k ≤ 2 ^ j) := by
  obtain ⟨k, hk, hcap, hleast⟩ := capacityFor_eq hfit
  have hes : es ≠ [] := List.length_pos_iff.1 (by omega)
  refine ⟨k, hk, hcap, ?_, ?_⟩
  · rcases withCapacity_cases (K := K) (V := V) hn hk hcap b with hbig | ⟨m, hok, hgrow, hsize⟩
    · exact Or.inl hbig
    · refine Or.inr ⟨m, hok, hsize, (growTo_keepsSize hk hgrow hdist hes).2.2 ?_⟩
      rw [hlen]
      exact (hleast k hk).2 (le_refl k)
  · intro j hj m hok
    rw [(growTo_keepsSize hj hok hdist hes).2, hlen, hleast j hj,
      Nat.pow_le_pow_iff_right (by norm_num)]

theorem withCapacity_keepsSize_six :
    ∃ k, 3 ≤ k ∧ capacityFor wordSlots.width 6 = .ok (2 ^ k) ∧
      ∃ m : HashMap (UInt64 → UInt64) UInt64 UInt64,
        withCapacityAndHasher wordSlots 6 id = .ok m ∧ m.KeepsSize wordSlots sixEntries := by
  obtain ⟨k, hk, hcap, hmake, -⟩ := withCapacity_keepsSize (L := wordSlots) (n := 6) (by decide)
    ⟨3, by decide, by decide, by decide⟩ (id : UInt64 → UInt64) sixEntries rfl
    (by unfold DistinctKeys; decide)
  rcases hmake with ⟨herr, -⟩ | ⟨m, hok, -, hkeep⟩
  · cases herr
  · exact ⟨k, hk, hcap, m, hok, hkeep⟩

end HashMap

end PureStd.Collections
