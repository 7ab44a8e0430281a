/-
The size of the table along a session.

Only insertions change the number of slots, and growth is due when the occupied slots, entries and
tombstones together, reach seven eighths of it.  Growth always doubles, so a table whose slots are
mostly tombstones doubles too: the size is in proportion to the entries as long as the tombstones
are when an insertion makes the table grow (`run_size_le`).
-/
import PureStd.Collections.TableSize

namespace PureStd.Collections

variable {S K V Q : Type}

namespace HashMap

variable {L : TableLayout} {m m' : HashMap S K V} {e : Entry S K V}
  {r : RefMut (HashMap S K V) V} {ans : Answer V}

/-! ### The operations on an entry -/

lemma slotRef_size {i : ℕ} (h : Entry.slotRef m i = .ok r) (v : V) :
    (r.write v).slots.length = m.slots.length := by
  unfold Entry.slotRef at h
  split at h
  · cases h
    exact List.length_set
  · cases h

lemma andModifyAll_size (mods : List (V → V)) :
    ∀ {e e' : Entry S K V}, e.andModifyAll mods = .ok e' →
      e'.map.slots.length = e.map.slots.length := by
  induction mods with
  | nil =>
    intro e e' h
    cases h
    rfl
  | cons f mods ih =>
    intro e e' h
    have hstep : ∀ e₁, e.andModify f = .ok e₁ → e₁.map.slots.length = e.map.slots.length := by
      intro e₁ h₁
      unfold Entry.andModify at h₁
      split at h₁
      · split at h₁
        · cases h₁
        · cases h₁
          exact List.length_set
        · cases h₁
          rfl
      · cases h₁
        rfl
    obtain ⟨e₁, hf, hrest⟩ := bind_eq_ok h
    exact (ih hrest).trans (hstep e₁ hf)

lemma orInsertWith_size {default : Unit → V} (h : e.orInsertWith default = .ok r) (v : V) :
    (r.write v).slots.length = e.map.slots.length := by
  unfold Entry.orInsertWith at h
  split at h
  · exact slotRef_size h v
  · obtain ⟨m₁, hfill, href⟩ := bind_eq_ok h
    exact (slotRef_size href v).trans (fillSlot_size hfill).1

lemma use_size {use : EntryUse V} (h : e.use use = .ok (m', ans)) :
    m'.slots.length = e.map.slots.length := by
  have hput : ∀ default write, e.use (.orInsertWith default write) = .ok (m', ans) →
      m'.slots.length = e.map.slots.length := by
    intro default write h
    obtain ⟨r, hr, hans⟩ := bind_eq_ok h
    obtain ⟨rfl, -⟩ := ok_inj hans
    exact orInsertWith_size hr _
  cases use with
  | dropped =>
    obtain ⟨rfl, -⟩ := ok_inj h
    rfl
  | orInsert default write => exact hput (fun _ => default) write h
  | orInsertWith default write => exact hput default write h

variable [BEq K] [BuildHasher S K]

lemma entry_size (hm : Inv L m) {k : K} (h : m.entry L k = .ok e) :
    e.map.slots.length = m.sizeForInsert := by
  rcases ensureCapacity_spec hm with ⟨herr, -⟩ | ⟨m₁, hok, hm₁, -, -, hpos, -, hsize, -⟩
  · rw [entry, herr] at h
    cases h
  · rw [entry, hok, ok_bind] at h
    rcases probe_cases hm₁ hpos (BuildHasher.hashOne m₁.hashBuilder k) k with
      ⟨i, _, _, -, -, hp⟩ | ⟨j, _, -, -, -, hp, -⟩
    · simp only [hp, ok_bind] at h
      cases h
      exact hsize
    · simp only [hp, ok_bind] at h
      cases h
      exact hsize

/-! ### The operations without insertion -/

variable [BEq Q] [Borrow K Q] [BuildHasher S Q]

/-- The operations that insert. -/
def Inserts : Op K Q V → Prop
  | .insert .. | .entry .. | .extend .. => True
  | _ => False

omit [BEq K] in
lemma remove_size (hm : Inv L m) (q : Q) {o : Option V} (h : m.remove L q = .ok (m', o)) :
    m'.slots.length = m.slots.length := by
  rcases lookup_cases hm q with ⟨i, k, v, -, -, -, -, hremove⟩ | ⟨-, -, -, hremove⟩
  · obtain ⟨rfl, -⟩ := ok_inj (hremove.symm.trans h)
    exact List.length_set
  · obtain ⟨rfl, -⟩ := ok_inj (hremove.symm.trans h)
    rfl

omit [BEq K] in
lemma getMut_size (hm : Inv L m) (q : Q) (h : m.getMut L q = .ok (some r)) (v : V) :
    (r.write v).slots.length = m.slots.length := by
  rcases lookup_cases hm q with ⟨i, k, v, -, -, -, hget, -⟩ | ⟨-, -, hget, -⟩
  · obtain rfl := Option.some.inj (Except.ok.inj (hget.symm.trans h))
    exact List.length_set
  · cases hget.symm.trans h

omit [BEq K] in
lemma retain_size (hm : Inv L m) {σ : Type} (f : σ → K → V → σ × Bool × V) (st : σ) :
    (m.retain f st).slots.length = m.slots.length :=
  (retainLoop_spec f m.slots st m.len hm.len.symm.le).1.length_eq.symm

lemma exec_size_of_not_inserts (hm : Inv L m) {op : Op K Q V} (hop : ¬ Inserts op)
    (h : m.exec L op = .ok (m', ans)) : m'.slots.length = m.slots.length := by
  cases op with
  | insert | entry | extend => exact absurd trivial hop
  | remove q =>
    obtain ⟨r, hrem, hans⟩ := bind_eq_ok h
    obtain ⟨rfl, -⟩ := ok_inj hans
    exact remove_size hm q hrem
  | get q | containsKey q =>
    obtain ⟨_, -, hans⟩ := bind_eq_ok h
    obtain ⟨rfl, -⟩ := ok_inj hans
    rfl
  | getMut q write =>
    obtain ⟨found, hget, hans⟩ := bind_eq_ok h
    cases found with
    | none =>
      obtain ⟨rfl, -⟩ := ok_inj hans
      rfl
    | some r =>
      obtain ⟨rfl, -⟩ := ok_inj hans
      exact getMut_size hm q hget _
  | retain σ f st =>
    obtain ⟨rfl, -⟩ := ok_inj h
    exact retain_size hm f st
  | clear =>
    obtain ⟨rfl, -⟩ := ok_inj h
    simp [clear]
  | iterMut σ f st =>
    obtain ⟨rfl, -⟩ := ok_inj h
    rw [iterMut_eq_retain]
    exact retain_size hm _ st

/-! ### Clean growth -/

omit [BEq K] [BuildHasher S K] in
/-- If an insertion makes the table grow, there are at most three tombstones for every four
entries, the new one included. -/
def GrowsFull (m : HashMap S K V) : Prop := m.Due → 4 * (m.used - m.len) ≤ 3 * (m.len + 1)

/-- Each insertion of `extend` is made in such a state. -/
def ExtendsFull (L : TableLayout) (m : HashMap S K V) : List (K × V) → Prop
  | [] => True
  | (k, v) :: es =>
    m.GrowsFull ∧
      match m.insert L k v with
      | .ok (m', _) => m'.ExtendsFull L es
      | .error _ => True

/-- The insertions of an operation are made in such states. -/
def OpFull (L : TableLayout) (m : HashMap S K V) : Op K Q V → Prop
  | .insert .. | .entry .. => m.GrowsFull
  | .extend es => m.ExtendsFull L es
  | _ => True

/-- The insertions of a session are made in such states. -/
def RunFull (L : TableLayout) (m : HashMap S K V) : List (Op K Q V) → Prop
  | [] => True
  | op :: ops =>
    m.OpFull L op ∧
      match m.exec L op with
      | .ok (m', _) => m'.RunFull L ops
      | .error _ => True

/-- The largest `len` in a session. -/
def peakLen (L : TableLayout) (m : HashMap S K V) : List (Op K Q V) → ℕ
  | [] => m.len
  | op :: ops =>
    match m.exec L op with
    | .ok (m', _) => max m.len (m'.peakLen L ops)
    | .error _ => m.len

lemma len_le_peakLen (ops : List (Op K Q V)) : m.len ≤ m.peakLen L ops := by
  cases ops with
  | nil => exact le_refl _
  | cons op ops =>
    rw [peakLen]
    split
    · exact le_max_left ..
    · exact le_refl _

omit [BEq K] in
/-- Growth in such a state keeps the table in proportion to the entries. -/
lemma sizeForInsert_le (hm : Inv L m) (hfull : m.GrowsFull) {peak : ℕ} (hpeak : m.len ≤ peak)
    (hsize : m.slots.length ≤ max 8 (4 * (peak + 1))) :
    m.sizeForInsert ≤ max 8 (4 * (peak + 1)) := by
  rw [sizeForInsert]
  split_ifs with hzero hdue
  · exact le_max_left ..
  · have htomb := hfull hdue
    have hle := hm.len_le_used
    rw [Due] at hdue
    refine le_trans ?_ (le_max_right ..)
    omega
  · exact hsize

lemma len_le_of_extend (es : List (K × V)) : ∀ {m m' : HashMap S K V}, Inv L m →
    m.extend L es = .ok m' → m.len ≤ m'.len := by
  induction es with
  | nil =>
    intro m m' _ hok
    cases hok
    exact le_refl _
  | cons e es ih =>
    intro m m' hm hok
    obtain ⟨⟨m₁, o⟩, hins, hrest⟩ := bind_eq_ok hok
    obtain ⟨hm₁, -, hcount⟩ := insert_size hm hins
    have := ih hm₁ hrest
    omega

lemma extend_size_le (es : List (K × V)) : ∀ {m m' : HashMap S K V} {peak : ℕ}, Inv L m →
    m.ExtendsFull L es → m.extend L es = .ok m' → m'.len ≤ peak →
    m.slots.length ≤ max 8 (4 * (peak + 1)) → m'.slots.length ≤ max 8 (4 * (peak + 1)) := by
  induction es with
  | nil =>
    intro m m' peak _ _ hok _ hsize
    cases hok
    exact hsize
  | cons e es ih =>
    intro m m' peak hm hfull hok hpeak hsize
    have hlen := len_le_of_extend (e :: es) hm hok
    obtain ⟨⟨m₁, o⟩, hins, hrest⟩ := bind_eq_ok hok
    obtain ⟨hgrow, hfull₁⟩ := hfull
    rw [hins] at hfull₁
    obtain ⟨hm₁, hsize₁, -⟩ := insert_size hm hins
    refine ih hm₁ hfull₁ hrest hpeak ?_
    rw [hsize₁]
    exact sizeForInsert_le hm hgrow (hlen.trans hpeak) hsize

lemma exec_size_le (hm : Inv L m) {op : Op K Q V} (hfull : m.OpFull L op)
    (hok : m.exec L op = .ok (m', ans)) {peak : ℕ} (hpeak : m.len ≤ peak) (hpeak' : m'.len ≤ peak)
    (hsize : m.slots.length ≤ max 8 (4 * (peak + 1))) :
    m'.slots.length ≤ max 8 (4 * (peak + 1)) := by
  by_cases hop : Inserts op
  · cases op with
    | insert k v =>
      obtain ⟨⟨m₁, o⟩, hins, hans⟩ := bind_eq_ok hok
      obtain ⟨rfl, -⟩ := ok_inj hans
      rw [(insert_size hm hins).2.1]
      exact sizeForInsert_le hm hfull hpeak hsize
    | entry k mods use =>
      obtain ⟨e, he, hrest⟩ := bind_eq_ok hok
      obtain ⟨e₁, he₁, huse⟩ := bind_eq_ok hrest
      rw [use_size huse, andModifyAll_size mods he₁, entry_size hm he]
      exact sizeForInsert_le hm hfull hpeak hsize
    | extend es =>
      obtain ⟨m₁, hext, hans⟩ := bind_eq_ok hok
      obtain ⟨rfl, -⟩ := ok_inj hans
      exact extend_size_le es hm hfull hext hpeak' hsize
    | _ => exact absurd hop id
  · rw [exec_size_of_not_inserts hm hop hok]
    exact hsize

lemma run_size_le_of_peak (ops : List (Op K Q V)) : ∀ {m m' : HashMap S K V}
    {as : List (Answer V)} {peak : ℕ}, Inv L m → m.RunFull L ops → m.run L ops = .ok (m', as) →
    m.peakLen L ops ≤ peak → m.slots.length ≤ max 8 (4 * (peak + 1)) →
    m'.slots.length ≤ max 8 (4 * (peak + 1)) := by
  induction ops with
  | nil =>
    intro m m' as peak _ _ hok _ hsize
    obtain ⟨rfl, -⟩ := ok_inj hok
    exact hsize
  | cons op ops ih =>
    intro m m' as peak hm hfull hok hpeak hsize
    obtain ⟨m₁, ans, as', hexec, hrun, -⟩ := run_cons_ok hok
    obtain ⟨hop, hfull₁⟩ := hfull
    rw [hexec] at hfull₁
    rw [peakLen, hexec] at hpeak
    have hm₁ : Inv L m₁ := exec_ok_inv hm hexec
    have hlen : m.len ≤ peak := (le_max_left ..).trans hpeak
    have hpeak₁ : m₁.peakLen L ops ≤ peak := (le_max_right ..).trans hpeak
    exact ih hm₁ hfull₁ hrun hpeak₁
      (exec_size_le hm hop hexec hlen ((len_le_peakLen ops).trans hpeak₁) hsize)

/-- The table of a session in which growth is due to entries is in proportion to the largest
number of entries. -/
theorem run_size_le (b : S) (ops : List (Op K Q V))
    (hfull : (withHasher b : HashMap S K V).RunFull L ops) {as : List (Answer V)}
    (hrun : (withHasher b).run L ops = .ok (m', as)) :
    m'.slots.length ≤ max 8 (4 * ((withHasher b : HashMap S K V).peakLen L ops + 1)) :=
  run_size_le_of_peak ops (withHasher_inv b) hfull hrun (le_refl _) (by simp [withHasher])

/-- An empty map with words as keys, hashed to themselves. -/
def wordMap : HashMap (UInt64 → UInt64) UInt64 UInt64 := withHasher id

/-- Two entries, then another in place of the first. -/
def replaceOne : List (Op UInt64 UInt64 UInt64) :=
  [.insert 0 0, .insert 1 0, .remove 0, .insert 2 0]

theorem run_size_le_replaceOne :
    ∃ m' as, wordMap.run wordSlots replaceOne = .ok (m', as) ∧
      m'.slots.length ≤ max 8 (4 * (wordMap.peakLen wordSlots replaceOne + 1)) := by
  have hfull : wordMap.RunFull wordSlots replaceOne := by
    refine And.intro ?_ (And.intro ?_ (And.intro trivial (And.intro ?_ trivial))) <;>
    · unfold OpFull GrowsFull
      decide
  exact ⟨_, _, rfl, run_size_le id replaceOne hfull rfl⟩

/-- Keys `0` to `6`, each inserted after the one before was removed. -/
def onePerTime : List (Op UInt64 UInt64 UInt64) :=
  [.insert 0 0, .remove 0, .insert 1 0, .remove 1, .insert 2 0, .remove 2, .insert 3 0, .remove 3,
    .insert 4 0, .remove 4, .insert 5 0, .remove 5, .insert 6 0]

/-- A map that never holds more than one entry has a table of sixteen slots after seven keys. -/
theorem onePerTime_grows :
    ∃ m' as, wordMap.run wordSlots onePerTime = .ok (m', as) ∧
      wordMap.peakLen wordSlots onePerTime = 1 ∧ m'.slots.length = 16 :=
  ⟨_, _, rfl, by decide, by decide⟩

end HashMap

end PureStd.Collections
