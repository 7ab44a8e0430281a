/-
Finite maps as lists of entries.

A finite map is a list of entries with pairwise different keys; two lists that are
permutations of each other are the same map.  The equality of the keys is any
equivalence `==`, so a map remembers which of the equal keys it stores.

Entries are looked up by a test on keys (`sel`), which is how a map is searched
through a borrowed form of its keys.  A test that no two different keys pass is a
`Selector`.  The lemmas say what each operation does to a map presented as
`(k, v) :: rest`, with the entry in question in front, and to a map without such an
entry; they are all that a proof about an implementation needs.
-/
import Mathlib.Data.List.Perm.Basic
import Mathlib.Tactic

namespace PureStd

variable {K V : Type*} [BEq K]

/-- No two of the listed entries have equal keys. -/
def DistinctKeys (es : List (K × V)) : Prop :=
  es.Pairwise fun a b => (a.1 == b.1) = false

/-- A finite map: a list of entries with pairwise different keys. -/
structure AssocMap (K V : Type*) [BEq K] where
  entries : List (K × V)
  distinct : DistinctKeys entries

/-- A test on keys that two different keys never both pass. -/
def Selector (sel : K → Bool) : Prop := ∀ a b, sel a → sel b → (a == b) = true

lemma selector_beq [EquivBEq K] (k : K) : Selector (fun a => a == k) :=
  fun _ _ ha hb => BEq.trans ha (BEq.symm hb)

lemma DistinctKeys.perm [EquivBEq K] {es es' : List (K × V)} (h : DistinctKeys es)
    (hp : es.Perm es') : DistinctKeys es' :=
  List.Pairwise.perm h hp fun {_ _} hab => by rw [BEq.comm]; exact hab

/-- In a map presented as `(k, v) :: rest`, a test that `k` passes fails on `rest`. -/
lemma DistinctKeys.sel_rest {sel : K → Bool} (hsel : Selector sel) {k : K} {v : V}
    {rest : List (K × V)} (h : DistinctKeys ((k, v) :: rest)) (hk : sel k) :
    ∀ e ∈ rest, sel e.1 = false := by
  intro e he
  have hne := (List.pairwise_cons.1 h).1 e he
  by_contra hse
  have heq := hsel k e.1 hk (by simpa using hse)
  rw [heq] at hne
  exact absurd hne (by simp)

lemma distinctKeys_iff_keys (es : List (K × V)) :
    DistinctKeys es ↔ (es.map Prod.fst).Pairwise fun a b => (a == b) = false := by
  rw [DistinctKeys, List.pairwise_map]

lemma distinctKeys_map_snd {es : List (K × V)} (f : K → V → V) :
    DistinctKeys (es.map fun e => (e.1, f e.1 e.2)) ↔ DistinctKeys es := by
  rw [DistinctKeys, List.pairwise_map]
  rfl

namespace AssocMap

/-- The map without entries. -/
def empty : AssocMap K V := ⟨[], List.Pairwise.nil⟩

/-- Two lists of entries describe the same map. -/
def Same (m m' : AssocMap K V) : Prop := m.entries.Perm m'.entries

/-- The number of keys. -/
def size (m : AssocMap K V) : ℕ := m.entries.length

/-- The value under the key that passes `sel`. -/
def lookup (m : AssocMap K V) (sel : K → Bool) : Option V :=
  (m.entries.find? fun e => sel e.1).map Prod.snd

/-- Remove the entry whose key passes `sel`. -/
def erase (m : AssocMap K V) (sel : K → Bool) : AssocMap K V where
  entries := m.entries.filter fun e => !sel e.1
  distinct := List.Pairwise.sublist List.filter_sublist m.distinct

/-- Change the value under the key that passes `sel`. -/
def modify (m : AssocMap K V) (sel : K → Bool) (f : V → V) : AssocMap K V where
  entries := m.entries.map fun e => (e.1, if sel e.1 then f e.2 else e.2)
  distinct := (distinctKeys_map_snd fun k v => if sel k then f v else v).2 m.distinct

lemma any_beq_of_lookup_none {m : AssocMap K V} {k : K}
    (h : (m.lookup fun a => a == k).isNone) : ∀ e ∈ m.entries, (e.1 == k) = false := by
  intro e he
  rw [lookup, Option.isNone_iff_eq_none, Option.map_eq_none_iff, List.find?_eq_none] at h
  simpa using h e he

/-- Add an entry under a key that the map does not hold. -/
def addNew (m : AssocMap K V) (k : K) (v : V) (h : (m.lookup fun a => a == k).isNone) :
    AssocMap K V where
  entries := m.entries ++ [(k, v)]
  distinct := by
    refine List.pairwise_append.2 ⟨m.distinct, by simp, ?_⟩
    intro e he e' he'
    rw [List.mem_singleton] at he'
    subst he'
    exact any_beq_of_lookup_none h e he

/-- Put `v` under `k`.  A key that is already stored stays as it is stored. -/
def insert (m : AssocMap K V) (k : K) (v : V) : AssocMap K V :=
  if h : (m.lookup fun a => a == k).isNone then m.addNew k v h
  else m.modify (fun a => a == k) fun _ => v

/-- Go through a list of entries with a closure that carries a state, may change a value
and says whether the entry stays. -/
def visit {σ : Type*} (f : σ → K → V → σ × Bool × V) : σ → List (K × V) → List (K × V)
  | _, [] => []
  | st, (k, v) :: rest =>
    if (f st k v).2.1 then (k, (f st k v).2.2) :: visit f (f st k v).1 rest
    else visit f (f st k v).1 rest

omit [BEq K] in
/-- The keys that stay are some of the keys. -/
lemma visit_keys_sublist {σ : Type*} (f : σ → K → V → σ × Bool × V) (es : List (K × V)) :
    ∀ st, ((visit f st es).map Prod.fst).Sublist (es.map Prod.fst) := by
  induction es with
  | nil => intro st; exact List.Sublist.refl _
  | cons e es ih =>
    intro st
    rw [visit]
    split
    · exact (ih _).cons_cons _
    · exact (ih _).cons _

/-- Keep the entries for which the closure says so. -/
def retain {σ : Type*} (m : AssocMap K V) (f : σ → K → V → σ × Bool × V) (st : σ) :
    AssocMap K V where
  entries := visit f st m.entries
  distinct := by
    rw [distinctKeys_iff_keys]
    exact ((distinctKeys_iff_keys _).1 m.distinct).sublist (visit_keys_sublist f _ st)

/-! ### Same map, same answers -/

lemma Same.refl (m : AssocMap K V) : Same m m := List.Perm.refl _

lemma Same.trans {m₁ m₂ m₃ : AssocMap K V} (h : Same m₁ m₂) (h' : Same m₂ m₃) : Same m₁ m₃ :=
  List.Perm.trans h h'

section Presentation

variable {m : AssocMap K V} {sel : K → Bool} {k : K} {v : V} {rest : List (K × V)}

/-- A presentation of a map by its entries in another order. -/
lemma distinct_of_perm [EquivBEq K] {es : List (K × V)} (h : m.entries.Perm es) :
    DistinctKeys es := m.distinct.perm h

lemma sel_iff_of_perm [EquivBEq K] (hsel : Selector sel) (h : m.entries.Perm ((k, v) :: rest))
    (hk : sel k) : ∀ e ∈ m.entries, sel e.1 = true ↔ e = (k, v) := by
  intro e he
  constructor
  · intro hse
    rcases List.mem_cons.1 (h.mem_iff.1 he) with rfl | hrest
    · rfl
    · have := (distinct_of_perm h).sel_rest hsel hk e hrest
      rw [this] at hse
      exact absurd hse (by simp)
  · rintro rfl
    exact hk

lemma lookup_of_perm [EquivBEq K] (hsel : Selector sel) (h : m.entries.Perm ((k, v) :: rest))
    (hk : sel k) : m.lookup sel = some v := by
  have hiff := sel_iff_of_perm hsel h hk
  have hmem : (k, v) ∈ m.entries := h.mem_iff.2 (by simp)
  rw [lookup]
  cases hf : m.entries.find? fun e => sel e.1 with
  | none => exact absurd hk (by simpa using List.find?_eq_none.1 hf (k, v) hmem)
  | some e =>
    have he : e = (k, v) :=
      (hiff e (List.mem_of_find?_eq_some hf)).1 (by simpa using List.find?_some hf)
    rw [he]
    rfl

lemma lookup_eq_none (h : ∀ e ∈ m.entries, sel e.1 = false) : m.lookup sel = none := by
  rw [lookup, Option.map_eq_none_iff, List.find?_eq_none]
  intro e he
  simp [h e he]

lemma erase_of_perm [EquivBEq K] (hsel : Selector sel) (h : m.entries.Perm ((k, v) :: rest))
    (hk : sel k) : (m.erase sel).entries.Perm rest := by
  have hrest := (distinct_of_perm h).sel_rest hsel hk
  have hfilter : ((k, v) :: rest).filter (fun e => !sel e.1) = rest := by
    rw [List.filter_cons_of_neg (by simp [hk]), List.filter_eq_self]
    intro e he
    simp [hrest e he]
  rw [erase, ← hfilter]
  exact h.filter _

lemma erase_of_forall (h : ∀ e ∈ m.entries, sel e.1 = false) :
    (m.erase sel).entries = m.entries := by
  rw [erase, List.filter_eq_self]
  intro e he
  simp [h e he]

lemma modify_of_perm [EquivBEq K] (hsel : Selector sel) (h : m.entries.Perm ((k, v) :: rest))
    (hk : sel k) (f : V → V) : (m.modify sel f).entries.Perm ((k, f v) :: rest) := by
  have hrest := (distinct_of_perm h).sel_rest hsel hk
  have hmap : ((k, v) :: rest).map (fun e => (e.1, if sel e.1 then f e.2 else e.2))
      = (k, f v) :: rest := by
    rw [List.map_cons, if_pos hk]
    congr 1
    refine (List.map_congr_left fun e he => ?_).trans (List.map_id rest)
    simp [hrest e he]
  rw [modify, ← hmap]
  exact h.map _

lemma modify_of_forall (h : ∀ e ∈ m.entries, sel e.1 = false) (f : V → V) :
    (m.modify sel f).entries = m.entries := by
  rw [modify]
  refine (List.map_congr_left fun e he => ?_).trans (List.map_id m.entries)
  simp [h e he]

lemma insert_of_perm [EquivBEq K] {k' : K} (h : m.entries.Perm ((k, v) :: rest))
    (hk : (k == k') = true) (v' : V) : (m.insert k' v').entries.Perm ((k, v') :: rest) := by
  have hsome := lookup_of_perm (selector_beq k') h hk
  rw [insert, dif_neg (by simp [hsome])]
  exact modify_of_perm (selector_beq k') h hk _

lemma insert_of_forall (h : ∀ e ∈ m.entries, (e.1 == k) = false) (v : V) :
    (m.insert k v).entries = m.entries ++ [(k, v)] := by
  have hnone : m.lookup (fun a => a == k) = none := lookup_eq_none h
  rw [insert, dif_pos (by rw [hnone]; rfl)]
  rfl

end Presentation

/-- Either a map has an entry that passes the test, and it can be put in front, or no
entry passes. -/
lemma sel_cases (m : AssocMap K V) (sel : K → Bool) :
    (∃ k v rest, m.entries.Perm ((k, v) :: rest) ∧ sel k = true) ∨
      ∀ e ∈ m.entries, sel e.1 = false := by
  by_cases h : ∃ e ∈ m.entries, sel e.1 = true
  · obtain ⟨⟨k, v⟩, he, hs⟩ := h
    obtain ⟨l₁, l₂, hl⟩ := List.append_of_mem he
    exact Or.inl ⟨k, v, l₁ ++ l₂, by rw [hl]; exact List.perm_middle, hs⟩
  · push Not at h
    exact Or.inr fun e he => by simpa using h e he

/-! ### Order does not matter -/

section Order

variable [EquivBEq K] {m m' : AssocMap K V}

lemma Same.lookup (h : m.Same m') {sel : K → Bool} (hsel : Selector sel) :
    m.lookup sel = m'.lookup sel := by
  rcases sel_cases m sel with ⟨k, v, rest, hp, hk⟩ | hno
  · rw [lookup_of_perm hsel hp hk, lookup_of_perm hsel ((List.Perm.symm h).trans hp) hk]
  · rw [lookup_eq_none hno, lookup_eq_none fun e he => hno e (h.mem_iff.2 he)]

omit [EquivBEq K] in
lemma Same.erase (h : m.Same m') (sel : K → Bool) : (m.erase sel).Same (m'.erase sel) :=
  List.Perm.filter _ h

omit [EquivBEq K] in
lemma Same.modify (h : m.Same m') (sel : K → Bool) (f : V → V) :
    (m.modify sel f).Same (m'.modify sel f) := List.Perm.map _ h

lemma Same.insert (h : m.Same m') (k : K) (v : V) : (m.insert k v).Same (m'.insert k v) := by
  rcases sel_cases m fun a => a == k with ⟨k', v', rest, hp, hk⟩ | hno
  · exact (insert_of_perm hp hk v).trans (insert_of_perm ((List.Perm.symm h).trans hp) hk v).symm
  · rw [Same, insert_of_forall hno, insert_of_forall fun e he => hno e (h.mem_iff.2 he)]
    exact h.append_right _

omit [BEq K] [EquivBEq K] in
/-- A closure that does not look at its state treats each entry on its own. -/
lemma visit_eq_filterMap {σ : Type*} {f : σ → K → V → σ × Bool × V}
    (hf : ∀ st st' k v, (f st k v).2 = (f st' k v).2) (st₀ : σ) (es : List (K × V)) :
    ∀ st, visit f st es = es.filterMap fun e =>
      if (f st₀ e.1 e.2).2.1 then some (e.1, (f st₀ e.1 e.2).2.2) else none := by
  induction es with
  | nil => intro st; rfl
  | cons e es ih =>
    intro st
    rw [visit, hf st st₀ e.1 e.2, ih, List.filterMap_cons]
    by_cases hkeep : (f st₀ e.1 e.2).2.1 = true
    · rw [if_pos hkeep, if_pos hkeep]
    · rw [if_neg hkeep, if_neg hkeep]

omit [EquivBEq K] in
lemma Same.retain (h : m.Same m') {σ : Type*} {f : σ → K → V → σ × Bool × V}
    (hf : ∀ st st' k v, (f st k v).2 = (f st' k v).2) (st : σ) :
    (m.retain f st).Same (m'.retain f st) := by
  change (visit f st m.entries).Perm (visit f st m'.entries)
  rw [visit_eq_filterMap hf st, visit_eq_filterMap hf st]
  exact List.Perm.filterMap _ h

end Order

end AssocMap

end PureStd
