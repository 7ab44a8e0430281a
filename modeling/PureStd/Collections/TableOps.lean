/-
What each operation of the hash map does to a table with the invariant.

Every lemma gives the answer of a function and relates the records of the table before
and after.  A record in question is always put in front: `records m.slots` is a
permutation of `(h, k, v) :: R`.  `Absent` says that no record answers to a key.
-/
import PureStd.Collections.TableInvariant
import PureStd.Lib.AssocMap

namespace PureStd.Collections

open CyclicRun

variable {S K V Q : Type} {hash : UInt64}

/-- No record answers to `key`. -/
def Absent [BEq Q] [Borrow K Q] (hash : UInt64) (key : Q) (R : List (UInt64 × K × V)) : Prop :=
  ∀ r ∈ R, keyMatches hash key r.1 r.2.1 = false

lemma Absent.perm [BEq Q] [Borrow K Q] {key : Q} {R R' : List (UInt64 × K × V)}
    (h : Absent hash key R) (hp : R'.Perm R) : Absent hash key R' :=
  fun r hr => h r (hp.mem_iff.1 hr)

namespace HashMap

variable [BuildHasher S K] {L : TableLayout} {m : HashMap S K V}

/-! ### Lookups -/

section Lookup

variable [BEq Q] [Borrow K Q]

/-- The search for a key in a table that has slots. -/
lemma probe_cases (hm : Inv L m) (hpos : 0 < m.slots.length) (hash : UInt64) (key : Q) :
    (∃ i k v, m.slots[i]? = some (.full hash k v) ∧ ((Borrow.borrow k : Q) == key) = true ∧
      m.probe L hash key = .ok (some i, i)) ∨
    (∃ j t, m.slots[j]? = some t ∧ t.record = none ∧
      RunTo m.slots.length (Occupied m.slots) (home L.width m.slots.length hash) j ∧
      m.probe L hash key = .ok (none, j) ∧ Absent hash key (records m.slots)) := by
  obtain ⟨k, -, hk⟩ := hm.exists_pow hpos
  exact probe_spec hk hm.placed (hm.free hpos) hash key

omit [BuildHasher S K] in
/-- A map without slots holds no key. -/
lemma absent_of_cap_zero {key : Q} (h : m.cap = 0) : Absent hash key (records m.slots) := by
  have hnil : m.slots = [] := List.length_eq_zero_iff.1 h
  rw [hnil]
  exact fun r hr => absurd hr (by simp)

variable [BuildHasher S Q]

/-- The key is in a slot, and the three lookups answer from it; or no record answers to the key, and
none of them finds it. -/
lemma lookup_cases (hm : Inv L m) (key : Q) :
    (∃ i k v, m.slots[i]? = some (.full (BuildHasher.hashOne m.hashBuilder key) k v) ∧
      ((Borrow.borrow k : Q) == key) = true ∧ m.get L key = .ok (some v) ∧
      m.getMut L key = .ok (some ⟨v, fun v' =>
        { m with slots := m.slots.set i (.full (BuildHasher.hashOne m.hashBuilder key) k v') }⟩) ∧
      m.remove L key =
        .ok ({ m with slots := m.slots.set i .tombstone, len := m.len - 1 }, some v)) ∨
    (Absent (BuildHasher.hashOne m.hashBuilder key) key (records m.slots) ∧
      m.get L key = .ok none ∧ m.getMut L key = .ok none ∧ m.remove L key = .ok (m, none)) := by
  by_cases hzero : m.cap = 0
  · exact Or.inr ⟨absent_of_cap_zero hzero, if_pos hzero, if_pos hzero, if_pos hzero⟩
  · rw [get, getMut, remove, if_neg hzero, if_neg hzero, if_neg hzero]
    rcases probe_cases hm (Nat.pos_of_ne_zero hzero)
      (BuildHasher.hashOne m.hashBuilder key) key with
      ⟨i, k, v, hi, hk, hp⟩ | ⟨j, t, -, -, -, hp, habs⟩
    · refine Or.inl ⟨i, k, v, hi, hk, ?_⟩
      simp only [hp, ok_bind, hi, and_self]
    · refine Or.inr ⟨habs, ?_⟩
      simp only [hp, ok_bind, and_self]

lemma get_spec (hm : Inv L m) (key : Q) :
    (∃ h k v R, m.get L key = .ok (some v) ∧ ((Borrow.borrow k : Q) == key) = true ∧
      (records m.slots).Perm ((h, k, v) :: R)) ∨
    (m.get L key = .ok none ∧
      Absent (BuildHasher.hashOne m.hashBuilder key) key (records m.slots)) := by
  rcases lookup_cases hm key with ⟨i, k, v, hi, hk, hget, -, -⟩ | ⟨habs, hget, -, -⟩
  · obtain ⟨R, hR, -⟩ := setValue_spec hm hi
    exact Or.inl ⟨_, k, v, R, hget, hk, hR⟩
  · exact Or.inr ⟨hget, habs⟩

lemma getMut_spec (hm : Inv L m) (key : Q) :
    (∃ r h k R, m.getMut L key = .ok (some r) ∧ ((Borrow.borrow k : Q) == key) = true ∧
      (records m.slots).Perm ((h, k, r.val) :: R) ∧
      ∀ v', Inv L (r.write v') ∧ (r.write v').hashBuilder = m.hashBuilder ∧
        (records (r.write v').slots).Perm ((h, k, v') :: R)) ∨
    (m.getMut L key = .ok none ∧
      Absent (BuildHasher.hashOne m.hashBuilder key) key (records m.slots)) := by
  rcases lookup_cases hm key with ⟨i, k, v, hi, hk, -, hget, -⟩ | ⟨habs, -, hget, -⟩
  · obtain ⟨R, hR, hset⟩ := setValue_spec hm hi
    exact Or.inl ⟨_, _, k, R, hget, hk, hR, fun v' => ⟨(hset v').1, rfl, (hset v').2.2⟩⟩
  · exact Or.inr ⟨hget, habs⟩

lemma remove_spec (hm : Inv L m) (key : Q) :
    (∃ m' h k v R, m.remove L key = .ok (m', some v) ∧ ((Borrow.borrow k : Q) == key) = true ∧
      Inv L m' ∧ m'.hashBuilder = m.hashBuilder ∧ (records m.slots).Perm ((h, k, v) :: R) ∧
      (records m'.slots).Perm R) ∨
    (m.remove L key = .ok (m, none) ∧
      Absent (BuildHasher.hashOne m.hashBuilder key) key (records m.slots)) := by
  rcases lookup_cases hm key with ⟨i, k, v, hi, hk, -, -, hremove⟩ | ⟨habs, -, -, hremove⟩
  · obtain ⟨hinv, R, hR, hR'⟩ := setTombstone_spec hm hi
    exact Or.inl ⟨_, _, k, v, R, hremove, hk, hinv, rfl, hR, hR'⟩
  · exact Or.inr ⟨hremove, habs⟩

end Lookup

/-! ### Insertion -/

section Insert

variable [BEq K] {key : K} {e : Entry S K V}

omit [BEq K] [BuildHasher S K] in
/-- A new entry takes one slot at most. -/
lemma fillSlot_size {i : ℕ} {value : V} {m' : HashMap S K V}
    (h : m.fillSlot i hash key value = .ok m') :
    m'.slots.length = m.slots.length ∧ m'.used ≤ m.used + 1 := by
  unfold fillSlot at h
  split at h
  · cases h
  · cases h
    constructor
    · simp
    · simp only
      split <;> omega

/-- `insert` after `ensure_capacity` has made room. -/
lemma insert_ensured {m₁ : HashMap S K V} (hok : m.ensureCapacity L = .ok m₁) (hm₁ : Inv L m₁)
    (hpos : 0 < m₁.slots.length) (hroom : (m₁.used + 1) * 8 < m₁.slots.length * 7)
    (key : K) (value : V) :
    ∃ m', Inv L m' ∧ m'.hashBuilder = m₁.hashBuilder ∧ m'.slots.length = m₁.slots.length ∧
      ((∃ h k v R, m.insert L key value = .ok (m', some v) ∧ (k == key) = true ∧
          m'.used = m₁.used ∧ (records m₁.slots).Perm ((h, k, v) :: R) ∧
          (records m'.slots).Perm ((h, k, value) :: R)) ∨
        (m.insert L key value = .ok (m', none) ∧ m'.used ≤ m₁.used + 1 ∧
          Absent (BuildHasher.hashOne m₁.hashBuilder key) key (records m₁.slots) ∧
          (records m'.slots).Perm
            ((BuildHasher.hashOne m₁.hashBuilder key, key, value) :: records m₁.slots))) := by
  rcases probe_cases hm₁ hpos (BuildHasher.hashOne m₁.hashBuilder key) key with
    ⟨i, k, v, hi, hk, hp⟩ | ⟨j, t, ht, hrec, hrun, hp, habs⟩
  · obtain ⟨R, hR, hset⟩ := setValue_spec hm₁ hi
    refine ⟨_, (hset value).1, rfl, List.length_set,
      Or.inl ⟨_, k, v, R, ?_, hk, rfl, hR, (hset value).2.2⟩⟩
    rw [insert, hok]
    simp only [ok_bind, hp, hi]
  · obtain ⟨m', hfill, hinv, hb', -, hR⟩ := fillSlot_spec hm₁ ht hrec value hrun hroom
    obtain ⟨hlen, hused⟩ := fillSlot_size hfill
    refine ⟨m', hinv, hb', hlen, Or.inr ⟨?_, hused, habs, hR⟩⟩
    rw [insert, hok]
    simp only [ok_bind, hp, hfill]

lemma insert_spec (hm : Inv L m) (key : K) (value : V) :
    (m.insert L key value = .error .capacityOverflow ∧ GrowthRefused L m) ∨
    ∃ m', Inv L m' ∧ m'.hashBuilder = m.hashBuilder ∧
      ((∃ h k v R, m.insert L key value = .ok (m', some v) ∧ (k == key) = true ∧
          (records m.slots).Perm ((h, k, v) :: R) ∧
          (records m'.slots).Perm ((h, k, value) :: R)) ∨
        (m.insert L key value = .ok (m', none) ∧
          Absent (BuildHasher.hashOne m.hashBuilder key) key (records m.slots) ∧
          (records m'.slots).Perm
            ((BuildHasher.hashOne m.hashBuilder key, key, value) :: records m.slots))) := by
  rcases ensureCapacity_spec hm with ⟨herr, hbig⟩ | ⟨m₁, hok, hm₁, hb, hperm, hpos, hroom, -⟩
  · left
    refine ⟨?_, hbig⟩
    rw [insert, herr]
    rfl
  · right
    rw [← hb]
    obtain ⟨m', hinv, hb', -, hins⟩ := insert_ensured hok hm₁ hpos hroom key value
    refine ⟨m', hinv, hb', ?_⟩
    rcases hins with ⟨h, k, v, R, hok', hk, -, hR, hR'⟩ | ⟨hok', -, habs, hR⟩
    · exact Or.inl ⟨h, k, v, R, hok', hk, hperm.symm.trans hR, hR'⟩
    · exact Or.inr ⟨hok', habs.perm hperm.symm, hR.trans (hperm.cons _)⟩

lemma extend_cons {m' : HashMap S K V} {k : K} {v : V} {o : Option V}
    (h : m.insert L k v = .ok (m', o)) (es : List (K × V)) :
    m.extend L ((k, v) :: es) = m'.extend L es := by
  rw [extend, h]
  rfl

lemma extend_spec (es : List (K × V)) : ∀ {m : HashMap S K V}, Inv L m →
    (m.extend L es = .error .capacityOverflow ∧
      ∃ es' m', m.extend L es' = .ok m' ∧ GrowthRefused L m') ∨
    ∃ m', m.extend L es = .ok m' ∧ Inv L m' ∧ m'.hashBuilder = m.hashBuilder := by
  induction es with
  | nil => intro m hm; exact Or.inr ⟨m, rfl, hm, rfl⟩
  | cons e es ih =>
    intro m hm
    obtain ⟨k, v⟩ := e
    rcases insert_spec hm k v with ⟨herr, hbig⟩ | ⟨m₁, hm₁, hb, hins⟩
    · refine Or.inl ⟨?_, [], m, rfl, hbig⟩
      rw [extend, herr]
      rfl
    · obtain ⟨o, hok⟩ : ∃ o, m.insert L k v = .ok (m₁, o) := by
        rcases hins with ⟨_, _, v', _, hok, -⟩ | ⟨hok, -⟩
        · exact ⟨some v', hok⟩
        · exact ⟨none, hok⟩
      rw [extend_cons hok]
      rcases ih hm₁ with ⟨herr, es', m', hok', hbig⟩ | ⟨m', hok', hm', hb'⟩
      · exact Or.inl ⟨herr, (k, v) :: es', m', by rw [extend_cons hok, hok'], hbig⟩
      · exact Or.inr ⟨m', hok', hm', by rw [hb', hb]⟩

/-! ### Entries -/

/-- What an entry for `key` promises. -/
def EntryOk (L : TableLayout) (key : K) : Entry S K V → Prop
  | .occupied m i => Inv L m ∧ ∃ h k v, m.slots[i]? = some (.full h k v) ∧ (k == key) = true
  | .vacant m j hash key' => Inv L m ∧ key' = key ∧
      hash = BuildHasher.hashOne m.hashBuilder key ∧ Absent hash key (records m.slots) ∧
      (∃ t, m.slots[j]? = some t ∧ t.record = none) ∧
      RunTo m.slots.length (Occupied m.slots) (home L.width m.slots.length hash) j ∧
      (m.used + 1) * 8 < m.slots.length * 7

lemma EntryOk.inv (he : EntryOk L key e) : Inv L e.map := by
  cases e with
  | occupied | vacant => exact he.1

lemma entry_spec (hm : Inv L m) (key : K) :
    (m.entry L key = .error .capacityOverflow ∧ GrowthRefused L m) ∨
    ∃ e, m.entry L key = .ok e ∧ EntryOk L key e ∧ e.map.hashBuilder = m.hashBuilder ∧
      (records e.map.slots).Perm (records m.slots) := by
  rcases ensureCapacity_spec hm with ⟨herr, hbig⟩ | ⟨m₁, hok, hm₁, hb, hperm, hpos, hroom, -⟩
  · left
    refine ⟨?_, hbig⟩
    rw [entry, herr]
    rfl
  · right
    rcases probe_cases hm₁ hpos (BuildHasher.hashOne m₁.hashBuilder key) key with
      ⟨i, k, v, hi, hk, hp⟩ | ⟨j, t, ht, hrec, hrun, hp, habs⟩
    · refine ⟨.occupied m₁ i, ?_, ⟨hm₁, _, k, v, hi, hk⟩, hb, hperm⟩
      rw [entry, hok]
      simp only [ok_bind, hp]
    · refine ⟨.vacant m₁ j _ key, ?_, ⟨hm₁, rfl, rfl, habs, ⟨t, ht, hrec⟩, hrun, hroom⟩, hb, hperm⟩
      rw [entry, hok]
      simp only [ok_bind, hp]

lemma andModify_spec (he : EntryOk L key e) (f : V → V) :
    ∃ e', e.andModify f = .ok e' ∧ EntryOk L key e' ∧ e'.map.hashBuilder = e.map.hashBuilder ∧
      ((∃ h k v R, (k == key) = true ∧ (records e.map.slots).Perm ((h, k, v) :: R) ∧
          (records e'.map.slots).Perm ((h, k, f v) :: R)) ∨
        (e' = e ∧ Absent (BuildHasher.hashOne e.map.hashBuilder key) key
          (records e.map.slots))) := by
  cases e with
  | occupied m i =>
    obtain ⟨hm, h, k, v, hi, hk⟩ := he
    obtain ⟨R, hR, hset⟩ := setValue_spec hm hi
    obtain ⟨hinv, hget, hR'⟩ := hset (f v)
    refine ⟨.occupied { m with slots := m.slots.set i (.full h k (f v)) } i, ?_,
      ⟨hinv, h, k, f v, hget, hk⟩, rfl, Or.inl ⟨h, k, v, R, hk, hR, hR'⟩⟩
    simp only [Entry.andModify, hi]
  | vacant m j hash key' =>
    obtain ⟨-, rfl, rfl, habs, -⟩ := id he
    exact ⟨_, rfl, he, rfl, Or.inr ⟨rfl, habs⟩⟩

lemma orInsertWith_spec (he : EntryOk L key e) (default : Unit → V) :
    ∃ r, e.orInsertWith default = .ok r ∧
      (∀ v', Inv L (r.write v') ∧ (r.write v').hashBuilder = e.map.hashBuilder) ∧
      ((∃ h k R, (k == key) = true ∧ (records e.map.slots).Perm ((h, k, r.val) :: R) ∧
          ∀ v', (records (r.write v').slots).Perm ((h, k, v') :: R)) ∨
        (r.val = default () ∧
          Absent (BuildHasher.hashOne e.map.hashBuilder key) key (records e.map.slots) ∧
          ∃ h, ∀ v', (records (r.write v').slots).Perm ((h, key, v') :: records e.map.slots))) := by
  cases e with
  | occupied m i =>
    obtain ⟨hm, h, k, v, hi, hk⟩ := he
    obtain ⟨R, hR, hset⟩ := setValue_spec hm hi
    refine ⟨⟨v, fun v' => { m with slots := m.slots.set i (.full h k v') }⟩, ?_,
      fun v' => ⟨(hset v').1, rfl⟩, Or.inl ⟨h, k, R, hk, hR, fun v' => (hset v').2.2⟩⟩
    simp only [Entry.orInsertWith, Entry.slotRef, hi]
  | vacant m j hash key' =>
    obtain ⟨hm, rfl, rfl, habs, ⟨t, ht, hrec⟩, hrun, hroom⟩ := he
    obtain ⟨m', hfill, hinv, hb, hget, hR⟩ := fillSlot_spec hm ht hrec (default ()) hrun hroom
    obtain ⟨R, hR₁, hset⟩ := setValue_spec hinv hget
    have hR₂ := (hR₁.symm.trans hR).cons_inv
    refine ⟨⟨default (), fun v' => { m' with slots := m'.slots.set j (.full _ key' v') }⟩, ?_,
      fun v' => ⟨(hset v').1, hb⟩,
      Or.inr ⟨rfl, habs, _, fun v' => (hset v').2.2.trans (hR₂.cons _)⟩⟩
    rw [Entry.orInsertWith, hfill]
    simp only [ok_bind, Entry.slotRef, hget]

end Insert

end HashMap

/-! ### Operations on all slots -/

/-- What `retain` and `iter_mut` may do to a slot: change the value of an entry or turn it
into a tombstone. -/
inductive Slot.Weakens : Slot K V → Slot K V → Prop
  | empty : Weakens .empty .empty
  | tombstone : Weakens .tombstone .tombstone
  | keep (h : UInt64) (k : K) (v v' : V) : Weakens (.full h k v) (.full h k v')
  | drop (h : UInt64) (k : K) (v : V) : Weakens (.full h k v) .tombstone

section Weakens

variable {slots slots' : List (Slot K V)}

lemma weakens_getElem? (h : List.Forall₂ Slot.Weakens slots slots') :
    ∀ {i : ℕ} {s' : Slot K V}, slots'[i]? = some s' →
      ∃ s, slots[i]? = some s ∧ Slot.Weakens s s' := by
  induction h with
  | nil => intro i s' hi; simp at hi
  | @cons s t l l' hst _ ih =>
    intro i s' hi
    cases i with
    | zero =>
      simp only [List.getElem?_cons_zero, Option.some.injEq] at hi
      subst hi
      exact ⟨s, rfl, hst⟩
    | succ i => exact ih (by simpa using hi)

lemma weakens_occupied (h : List.Forall₂ Slot.Weakens slots slots') {j : ℕ}
    (hj : Occupied slots j) : Occupied slots' j := by
  intro hempty
  obtain ⟨s, hs, hw⟩ := weakens_getElem? h hempty
  cases hw
  exact hj hs

lemma weakens_wellPlaced {w : PtrWidth} (h : List.Forall₂ Slot.Weakens slots slots')
    (hw : WellPlaced w slots) : WellPlaced w slots' := by
  refine WellPlaced.of_pointwise h.length_eq.symm (fun j hj => weakens_occupied h hj) ?_
  intro i h' k v hi
  obtain ⟨s, hs, hws⟩ := weakens_getElem? h hi
  cases hws
  exact hw i h' k _ hs

lemma weakens_occupiedCount (h : List.Forall₂ Slot.Weakens slots slots') :
    occupiedCount slots' = occupiedCount slots := by
  induction h with
  | nil => rfl
  | cons hst _ ih => cases hst <;> simp [ih]

end Weakens

namespace HashMap

lemma retainLoop_spec {σ : Type} (f : σ → K → V → σ × Bool × V) (slots : List (Slot K V)) :
    ∀ (st : σ) (len : ℕ), (records slots).length ≤ len →
      List.Forall₂ Slot.Weakens slots (retainLoop f st len slots).2.2 ∧
      (retainLoop f st len slots).2.1 + (records slots).length
        = len + (records (retainLoop f st len slots).2.2).length ∧
      (records (retainLoop f st len slots).2.2).map Prod.snd
        = AssocMap.visit f st ((records slots).map Prod.snd) := by
  induction slots with
  | nil => intro st len _; exact ⟨.nil, rfl, rfl⟩
  | cons s slots ih =>
    intro st len hlen
    cases s with
    | empty =>
      obtain ⟨h1, h2, h3⟩ := ih st len (by simpa using hlen)
      exact ⟨.cons .empty h1, h2, h3⟩
    | tombstone =>
      obtain ⟨h1, h2, h3⟩ := ih st len (by simpa using hlen)
      exact ⟨.cons .tombstone h1, h2, h3⟩
    | full h k v =>
      rw [records_full_cons, List.length_cons] at hlen
      rw [records_full_cons, List.length_cons, List.map_cons, AssocMap.visit, retainLoop]
      rcases hf : f st k v with ⟨st', keep, v'⟩
      cases keep with
      | true =>
        obtain ⟨h1, h2, h3⟩ := ih st' len (by omega)
        refine ⟨.cons (.keep h k v v') h1, ?_, ?_⟩
        · change (retainLoop f st' len slots).2.1 + ((records slots).length + 1)
            = len + ((records (retainLoop f st' len slots).2.2).length + 1)
          omega
        · simp only [if_true, records_full_cons, List.map_cons, h3]
      | false =>
        obtain ⟨h1, h2, h3⟩ := ih st' (len - 1) (by omega)
        refine ⟨.cons (.drop h k v) h1, ?_, ?_⟩
        · change (retainLoop f st' (len - 1) slots).2.1 + ((records slots).length + 1)
            = len + (records (retainLoop f st' (len - 1) slots).2.2).length
          omega
        · simp only [Bool.false_eq_true, if_false, records_tombstone_cons, h3]

variable [BuildHasher S K] {L : TableLayout} {m : HashMap S K V}

lemma retain_spec (hm : Inv L m) {σ : Type} (f : σ → K → V → σ × Bool × V) (st : σ) :
    Inv L (m.retain f st) ∧ (m.retain f st).hashBuilder = m.hashBuilder ∧
      (records (m.retain f st).slots).map Prod.snd
        = AssocMap.visit f st ((records m.slots).map Prod.snd) := by
  obtain ⟨hw, hlen, hrecs⟩ := retainLoop_spec f m.slots st m.len hm.len.symm.le
  refine ⟨⟨?_, ?_, ?_, ?_, ?_, ?_, weakens_wellPlaced hw hm.placed⟩, rfl, hrecs⟩
  · simpa [retain, hw.length_eq] using hm.cap
  · simpa [retain, hw.length_eq] using hm.fits
  · have := hm.len
    change (retainLoop f st m.len m.slots).2.1 =
      (records (retainLoop f st m.len m.slots).2.2).length
    omega
  · simpa [retain, weakens_occupiedCount hw] using hm.used
  · simpa [retain, hw.length_eq] using hm.load
  · intro r hr
    obtain ⟨i, hi⟩ := mem_records_iff.1 hr
    obtain ⟨s, hs, hws⟩ := weakens_getElem? hw hi
    cases hws with
    | keep _ _ v _ => exact hm.hash (r.1, r.2.1, v) (mem_records_iff.2 ⟨i, hs⟩)

omit [BuildHasher S K] in
/-- Writing through the references of `iter_mut` is `retain` with a closure that keeps
every entry. -/
lemma iterMut_eq_retain {σ : Type} (m : HashMap S K V) (f : σ → K → V → σ × V) (st : σ) :
    m.iterMut f st = m.retain (fun st k v => ((f st k v).1, true, (f st k v).2)) st := by
  have hloop : ∀ (slots : List (Slot K V)) (st : σ) (len : ℕ),
      (retainLoop (fun st k v => ((f st k v).1, true, (f st k v).2)) st len slots).2
        = (len, iterMutLoop f st slots) := by
    intro slots
    induction slots with
    | nil => intro st len; rfl
    | cons s slots ih =>
      intro st len
      cases s <;> simp [retainLoop, iterMutLoop, ih]
  simp only [iterMut, retain, hloop]

lemma clear_spec (hm : Inv L m) : Inv L m.clear ∧ records m.clear.slots = [] := by
  have hslots : m.clear.slots = List.replicate m.slots.length .empty := by
    simp [clear, List.map_const']
  have hrecs : records m.clear.slots = [] := by rw [hslots, records_replicate_empty]
  refine ⟨⟨?_, ?_, ?_, ?_, ?_, ?_, wellPlaced_of_records_nil hrecs⟩, hrecs⟩
  · simpa [hslots] using hm.cap
  · simpa [hslots] using hm.fits
  · rw [hrecs]; rfl
  · rw [hslots, occupiedCount_replicate_empty]; rfl
  · intro hpos
    change 0 * 8 < _
    omega
  · intro r hr
    rw [hrecs] at hr
    exact absurd hr (by simp)

end HashMap

end PureStd.Collections
