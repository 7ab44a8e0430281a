/-
The hash set of `src/collections.rs`, a wrapper of a hash map to `()`.

Every operation on two sets goes through the elements of one in the order of its slots and looks
each up in the other.  A lookup in a table that a session reaches finds an element exactly if the
table yields one equal to it (`contains_eq`), so these operations are functions of the two lists of
elements, whatever the sizes, the tombstones and the hash functions of the tables.  The set that a
`HashSet` stands for (`elems`) has all values equal to one of its elements.
-/
import Mathlib
import PureStd.Collections.ReachableTable

namespace PureStd.Collections

variable {S T Q : Type}

/-- `HashSet<T, S>`. -/
structure HashSet (S T : Type) where
  map : HashMap S T Unit

namespace HashSet

/-- `HashSet::clear`. -/
def clear (s : HashSet S T) : HashSet S T := ⟨s.map.clear⟩

/-- The items of `HashSet::iter`, which is `keys` of the map. -/
def iter (s : HashSet S T) : List T := s.map.iter.items.map Prod.fst

/-- `HashSet::retain`. -/
def retain {σ : Type} (s : HashSet S T) (f : σ → T → σ × Bool) (st : σ) : HashSet S T :=
  ⟨s.map.retain (fun st k _ => ((f st k).1, (f st k).2, ())) st⟩

variable (L : TableLayout)

/-- `HashSet::with_capacity`, `HashSet::new` and `HashSet::default`. -/
def make (st : HashMap.Start S) : Except Abort (HashSet S T) := do
  let map ← st.make L
  .ok ⟨map⟩

section Insert

variable [BEq T] [BuildHasher S T]

/-- `HashSet::insert`. -/
def insert (s : HashSet S T) (value : T) : Except Abort (HashSet S T × Bool) := do
  let (map, old) ← s.map.insert L value ()
  .ok (⟨map⟩, old.isNone)

/-- `Extend::extend`; `FromIterator::from_iter` does the same on a new set. -/
def extend (s : HashSet S T) : List T → Except Abort (HashSet S T)
  | [] => .ok s
  | v :: rest => do
    let (s, _) ← s.insert L v
    s.extend rest

end Insert

section Lookup

variable [BEq Q] [Borrow T Q] [BuildHasher S Q]

/-- `HashSet::contains`. -/
def contains (s : HashSet S T) (value : Q) : Except Abort Bool := s.map.containsKey L value

/-- `HashSet::remove`. -/
def remove (s : HashSet S T) (value : Q) : Except Abort (HashSet S T × Bool) := do
  let (map, old) ← s.map.remove L value
  .ok (⟨map⟩, old.isSome)

/-- `HashSet::get`. -/
def get (s : HashSet S T) (value : Q) : Except Abort (Option T) := do
  if ← s.map.containsKey L value then
    .ok (s.iter.find? fun k => (Borrow.borrow k : Q) == value)
  else .ok none

end Lookup

section TwoSets

variable [BEq T] [BuildHasher S T]

/-- `HashSet::is_disjoint`. -/
def isDisjoint (s other : HashSet S T) : Except Abort Bool :=
  s.iter.allM fun v => do .ok (!(← other.contains L v))

/-- `HashSet::is_subset`. -/
def isSubset (s other : HashSet S T) : Except Abort Bool :=
  s.iter.allM fun v => other.contains L v

/-- `HashSet::is_superset`. -/
def isSuperset (s other : HashSet S T) : Except Abort Bool := other.isSubset L s

/-- The items of `HashSet::intersection`. -/
def intersection (s other : HashSet S T) : Except Abort (List T) :=
  s.iter.filterM fun v => other.contains L v

/-- The items of `HashSet::difference`. -/
def difference (s other : HashSet S T) : Except Abort (List T) :=
  s.iter.filterM fun v => do .ok (!(← other.contains L v))

/-- The items of `HashSet::union`. -/
def union (s other : HashSet S T) : Except Abort (List T) := do
  let rest ← other.iter.filterM fun v => do .ok (!(← s.contains L v))
  .ok (s.iter ++ rest)

end TwoSets

/-! ### The elements -/

section Elems

variable [BEq T] {s : HashSet S T}

/-- The set that a `HashSet` stands for. -/
def elems (s : HashSet S T) : Set T := {x | ∃ v ∈ s.iter, (v == x) = true}

/-- The list has each element of the set exactly once. -/
def ListsOnce (l : List T) (X : Set T) : Prop :=
  l.Pairwise (fun x y => (x == y) = false) ∧ ∀ x, x ∈ X ↔ ∃ v ∈ l, (v == x) = true

lemma any_eq_true_iff {x : T} : (s.iter.any fun v => v == x) = true ↔ x ∈ s.elems := by
  rw [List.any_eq_true]
  rfl

/-- An element equal to one of the set is one of the set. -/
lemma elems_congr [EquivBEq T] {x y : T} (hx : x ∈ s.elems) (hxy : (x == y) = true) :
    y ∈ s.elems := by
  obtain ⟨v, hv, hvx⟩ := hx
  exact ⟨v, hv, BEq.trans hvx hxy⟩

lemma mem_elems [EquivBEq T] {x : T} (h : x ∈ s.iter) : x ∈ s.elems := ⟨x, h, BEq.refl x⟩

lemma not_any_iff {x : T} : (!(s.iter.any fun v => v == x)) = true ↔ x ∈ s.elemsᶜ := by
  rw [Bool.not_eq_true', ← Bool.not_eq_true, any_eq_true_iff]
  rfl

lemma elems_compl_congr [EquivBEq T] {x y : T} (hx : x ∈ s.elemsᶜ) (hxy : (x == y) = true) :
    y ∈ s.elemsᶜ :=
  fun hy => hx (elems_congr hy (BEq.symm hxy))

end Elems

/-! ### Sessions -/

/-- A call of a public operation that may change the set or look into it. -/
inductive SetOp (T Q : Type) : Type 1 where
  | insert (v : T)
  | remove (q : Q)
  | contains (q : Q)
  | get (q : Q)
  | clear
  | extend (vs : List T)
  | retain (σ : Type) (f : σ → T → σ × Bool) (st : σ)

variable [BEq T] [BuildHasher S T] [BEq Q] [Borrow T Q] [BuildHasher S Q]

/-- The set after a call. -/
def exec (s : HashSet S T) : SetOp T Q → Except Abort (HashSet S T)
  | .insert v => do
    let (s, _) ← s.insert L v
    .ok s
  | .remove q => do
    let (s, _) ← s.remove L q
    .ok s
  | .contains q => do
    let _ ← s.contains L q
    .ok s
  | .get q => do
    let _ ← s.get L q
    .ok s
  | .clear => .ok s.clear
  | .extend vs => s.extend L vs
  | .retain _ f st => .ok (s.retain f st)

/-- The set after a sequence of calls. -/
def run (s : HashSet S T) : List (SetOp T Q) → Except Abort (HashSet S T)
  | [] => .ok s
  | op :: ops => do
    let s ← s.exec L op
    s.run ops

/-- The set that a session ends with. -/
def session (st : HashMap.Start S) (ops : List (SetOp T Q)) : Except Abort (HashSet S T) := do
  let s ← make L st
  s.run L ops

variable {L} {s s' : HashSet S T}

omit [BEq Q] [Borrow T Q] [BuildHasher S Q] in
lemma extend_map (vs : List T) : ∀ {s s' : HashSet S T}, s.extend L vs = .ok s' →
    s.map.extend L (vs.map fun v => (v, ())) = .ok s'.map := by
  induction vs with
  | nil =>
    intro s s' h
    cases h
    rfl
  | cons v vs ih =>
    intro s s' h
    obtain ⟨⟨s₁, b⟩, hins, hrest⟩ := bind_eq_ok h
    obtain ⟨⟨m₁, o⟩, hmap, hans⟩ := bind_eq_ok hins
    obtain ⟨rfl, -⟩ := ok_inj hans
    rw [List.map_cons, HashMap.extend, hmap, ok_bind]
    exact ih hrest

/-- A call on the set is a call on its map. -/
lemma exec_map {op : SetOp T Q} (h : s.exec L op = .ok s') :
    ∃ (mop : Op T Q Unit) (ans : Answer Unit), s.map.exec L mop = .ok (s'.map, ans) := by
  cases op with
  | insert v =>
    obtain ⟨⟨s₁, b⟩, hins, hans⟩ := bind_eq_ok h
    obtain ⟨⟨m₁, o⟩, hmap, hans₁⟩ := bind_eq_ok hins
    obtain ⟨rfl, -⟩ := ok_inj hans₁
    cases hans
    exact ⟨.insert v (), .value o, by rw [HashMap.exec, hmap, ok_bind]⟩
  | remove q =>
    obtain ⟨⟨s₁, b⟩, hrem, hans⟩ := bind_eq_ok h
    obtain ⟨⟨m₁, o⟩, hmap, hans₁⟩ := bind_eq_ok hrem
    obtain ⟨rfl, -⟩ := ok_inj hans₁
    cases hans
    exact ⟨.remove q, .value o, by rw [HashMap.exec, hmap, ok_bind]⟩
  | contains q =>
    obtain ⟨b, hmap, hans⟩ := bind_eq_ok h
    cases hans
    rw [contains] at hmap
    exact ⟨.containsKey q, .flag b, by rw [HashMap.exec, hmap, ok_bind]⟩
  | get q =>
    obtain ⟨o, hget, hans⟩ := bind_eq_ok h
    obtain ⟨b, hmap, -⟩ := bind_eq_ok hget
    cases hans
    exact ⟨.containsKey q, .flag b, by rw [HashMap.exec, hmap, ok_bind]⟩
  | clear =>
    cases h
    exact ⟨.clear, .done, rfl⟩
  | extend vs =>
    exact ⟨.extend (vs.map fun v => (v, ())), .done,
      by rw [HashMap.exec, extend_map vs h, ok_bind]⟩
  | retain σ f st =>
    cases h
    exact ⟨.retain σ (fun st k _ => ((f st k).1, (f st k).2, ())) st, .done, rfl⟩

lemma run_map (ops : List (SetOp T Q)) : ∀ {s s' : HashSet S T}, s.run L ops = .ok s' →
    ∃ (mops : List (Op T Q Unit)) (as : List (Answer Unit)),
      s.map.run L mops = .ok (s'.map, as) := by
  induction ops with
  | nil =>
    intro s s' h
    cases h
    exact ⟨[], [], rfl⟩
  | cons op ops ih =>
    intro s s' h
    obtain ⟨s₁, hexec, hrest⟩ := bind_eq_ok h
    obtain ⟨mop, ans, hmap⟩ := exec_map hexec
    obtain ⟨mops, as, hrun⟩ := ih hrest
    refine ⟨mop :: mops, ans :: as, ?_⟩
    rw [HashMap.run_cons hmap, hrun]
    rfl

/-- A table in order, with no element twice. -/
structure Ordered (L : TableLayout) (s : HashSet S T) : Prop where
  inv : s.map.Inv L
  distinct : DistinctKeys s.map.entries

lemma session_ordered [EquivBEq T] (hl : LawfulBorrow S T T) {st : HashMap.Start S}
    {ops : List (SetOp T Q)} (h : session L st ops = .ok s) : s.Ordered L := by
  obtain ⟨s₀, hmake, hrun⟩ := bind_eq_ok h
  obtain ⟨m₀, hst, hans⟩ := bind_eq_ok hmake
  cases hans
  obtain ⟨hinv, hnil⟩ := HashMap.start_inv hst
  obtain ⟨mops, as, hmap⟩ := run_map ops hrun
  have hdist : DistinctKeys (HashMap.entries m₀) := by
    rw [HashMap.entries, hnil]
    exact List.Pairwise.nil
  exact ⟨HashMap.run_ok_inv hinv hmap, HashMap.run_distinct hl mops hinv hdist hmap⟩

/-! ### Lookups -/

omit [BEq T] [BuildHasher S T] in
lemma iter_eq (s : HashSet S T) : s.iter = s.map.entries.map Prod.fst := by
  rw [iter, HashMap.iter_items]

omit [BEq Q] [Borrow T Q] [BuildHasher S Q] in
lemma Ordered.pairwise (h : s.Ordered L) : s.iter.Pairwise fun x y => (x == y) = false := by
  rw [iter_eq]
  exact (distinctKeys_iff_keys _).1 h.distinct

/-- A lookup finds exactly the elements that the table yields. -/
lemma contains_eq [EquivBEq T] [EquivBEq Q] (hl : LawfulBorrow S T Q) (h : s.Ordered L) (q : Q) :
    s.contains L q = .ok (s.iter.any fun v => (Borrow.borrow v : Q) == q) := by
  have hrep : HashMap.Represents L s.map ⟨s.map.entries, h.distinct⟩ :=
    ⟨h.inv, List.Perm.refl _⟩
  rw [contains, HashMap.containsKey, HashMap.get_represents hl hrep, ok_bind, iter_eq]
  congr 1
  rw [Bool.eq_iff_iff]
  simp [AssocMap.lookup]

/-- The test of a list of elements against a set goes through the whole list. -/
lemma allM_ok {α : Type} {p : α → Except Abort Bool} {f : α → Bool} (l : List α)
    (h : ∀ x ∈ l, p x = .ok (f x)) : l.allM p = .ok (l.all f) := by
  induction l with
  | nil => rfl
  | cons x l ih =>
    have hrest := ih fun y hy => h y (List.mem_cons_of_mem x hy)
    rw [List.allM, h x (List.mem_cons_self ..), ok_bind, List.all_cons]
    cases f x with
    | false => rfl
    | true => exact hrest

lemma filterM_ok {α : Type} {p : α → Except Abort Bool} {f : α → Bool} (l : List α)
    (h : ∀ x ∈ l, p x = .ok (f x)) : l.filterM p = .ok (l.filter f) := by
  have haux : ∀ acc, l.filterAuxM p acc = .ok ((l.filter f).reverse ++ acc) := by
    induction l with
    | nil => exact fun acc => rfl
    | cons x l ih =>
      intro acc
      have hrest := ih fun y hy => h y (List.mem_cons_of_mem x hy)
      rw [List.filterAuxM, h x (List.mem_cons_self ..), ok_bind, hrest, List.filter_cons]
      cases f x with
      | false => rfl
      | true => simp
  rw [List.filterM, haux, ok_bind, List.append_nil, List.reverse_reverse]
  rfl

section Operations

variable [EquivBEq T] {a b : HashSet S T}

/-- The lookup of an element of the same type. -/
lemma contains_self (hl : LawfulBorrow S T T) (h : s.Ordered L) (x : T) :
    s.contains L x = .ok (s.iter.any fun v => v == x) := contains_eq hl h x

/-- The elements that pass a test on sets. -/
lemma listsOnce_filter (h : s.Ordered L) {f : T → Bool} {X : Set T}
    (hf : ∀ x, f x = true ↔ x ∈ X) (hX : ∀ x y, x ∈ X → (x == y) = true → y ∈ X) :
    ListsOnce (s.iter.filter f) (s.elems ∩ X) := by
  constructor
  · exact h.pairwise.sublist List.filter_sublist
  · intro x
    constructor
    · rintro ⟨⟨v, hv, hvx⟩, hx⟩
      exact ⟨v, List.mem_filter.2 ⟨hv, (hf v).2 (hX x v hx (BEq.symm hvx))⟩, hvx⟩
    · rintro ⟨v, hv, hvx⟩
      obtain ⟨hmem, hfv⟩ := List.mem_filter.1 hv
      exact ⟨⟨v, hmem, hvx⟩, hX v x ((hf v).1 hfv) hvx⟩

lemma intersection_spec (hl : LawfulBorrow S T T) (ha : a.Ordered L) (hb : b.Ordered L) :
    ∃ l, a.intersection L b = .ok l ∧ ListsOnce l (a.elems ∩ b.elems) := by
  refine ⟨_, filterM_ok a.iter fun x _ => contains_self hl hb x, ?_⟩
  exact listsOnce_filter ha (fun x => any_eq_true_iff) fun x y => elems_congr

lemma difference_spec (hl : LawfulBorrow S T T) (ha : a.Ordered L) (hb : b.Ordered L) :
    ∃ l, a.difference L b = .ok l ∧ ListsOnce l (a.elems \ b.elems) := by
  have htest : ∀ x ∈ a.iter, (do .ok (!(← b.contains L x)) : Except Abort Bool) =
      .ok (!(b.iter.any fun v => v == x)) := by
    intro x _
    rw [contains_self hl hb x, ok_bind]
  refine ⟨_, filterM_ok a.iter htest, ?_⟩
  exact listsOnce_filter ha (fun x => not_any_iff) fun x y => elems_compl_congr

lemma union_spec (hl : LawfulBorrow S T T) (ha : a.Ordered L) (hb : b.Ordered L) :
    ∃ l, a.union L b = .ok l ∧ ListsOnce l (a.elems ∪ b.elems) := by
  obtain ⟨rest, hrest, hdist, hmem⟩ := difference_spec hl hb ha
  refine ⟨a.iter ++ rest, ?_, ?_, ?_⟩
  · rw [union]
    rw [difference] at hrest
    rw [hrest, ok_bind]
  · -- an element of the rest is not in `a`
    refine List.pairwise_append.2 ⟨ha.pairwise, hdist, ?_⟩
    intro x hx y hy
    by_contra hxy
    have hy' : y ∈ b.elems \ a.elems := (hmem y).2 ⟨y, hy, BEq.refl y⟩
    exact hy'.2 (elems_congr (mem_elems hx) (by simpa using hxy))
  · intro x
    constructor
    · intro hx
      by_cases hxa : x ∈ a.elems
      · obtain ⟨v, hv, hvx⟩ := hxa
        exact ⟨v, List.mem_append_left _ hv, hvx⟩
      · obtain ⟨v, hv, hvx⟩ := (hmem x).1 ⟨hx.resolve_left hxa, hxa⟩
        exact ⟨v, List.mem_append_right _ hv, hvx⟩
    · rintro ⟨v, hv, hvx⟩
      rcases List.mem_append.1 hv with hv | hv
      · exact Or.inl ⟨v, hv, hvx⟩
      · exact Or.inr ((hmem x).2 ⟨v, hv, hvx⟩).1

lemma isSubset_spec (hl : LawfulBorrow S T T) (hb : b.Ordered L) :
    ∃ r, a.isSubset L b = .ok r ∧ (r = true ↔ a.elems ⊆ b.elems) := by
  refine ⟨_, allM_ok a.iter fun x _ => contains_self hl hb x, ?_⟩
  rw [List.all_eq_true]
  constructor
  · rintro h x ⟨v, hv, hvx⟩
    exact elems_congr (any_eq_true_iff.1 (h v hv)) hvx
  · intro h v hv
    exact any_eq_true_iff.2 (h (mem_elems hv))

lemma isDisjoint_spec (hl : LawfulBorrow S T T) (hb : b.Ordered L) :
    ∃ r, a.isDisjoint L b = .ok r ∧ (r = true ↔ Disjoint a.elems b.elems) := by
  have htest : ∀ x ∈ a.iter, (do .ok (!(← b.contains L x)) : Except Abort Bool) =
      .ok (!(b.iter.any fun v => v == x)) := by
    intro x _
    rw [contains_self hl hb x, ok_bind]
  refine ⟨_, allM_ok a.iter htest, ?_⟩
  rw [List.all_eq_true, Set.disjoint_left]
  constructor
  · rintro h x ⟨v, hv, hvx⟩ hx
    exact not_any_iff.1 (h v hv) (elems_congr hx (BEq.symm hvx))
  · intro h v hv
    exact not_any_iff.2 (h (mem_elems hv))

end Operations

/-- `get` returns the stored element if `contains` finds one. -/
lemma get_spec [EquivBEq T] [EquivBEq Q] (hl : LawfulBorrow S T Q) (h : s.Ordered L) (q : Q) :
    ∃ (o : Option T) (c : Bool), s.get L q = .ok o ∧ s.contains L q = .ok c ∧
      (c = true ↔ ∃ v ∈ s.iter, ((Borrow.borrow v : Q) == q) = true) ∧
      (o.isSome = c) ∧ ∀ v ∈ o, v ∈ s.iter ∧ ((Borrow.borrow v : Q) == q) = true := by
  have hcontains := contains_eq hl h q
  have hget : s.get L q = .ok (s.iter.find? fun v => (Borrow.borrow v : Q) == q) := by
    rw [get]
    rw [contains] at hcontains
    rw [hcontains, ok_bind]
    split
    · rfl
    · rename_i hnone
      rw [List.find?_eq_none.2]
      simpa using hnone
  refine ⟨_, _, hget, hcontains, List.any_eq_true, ?_, ?_⟩
  · rw [Bool.eq_iff_iff]
    simp
  · intro v hv
    have hpass := List.find?_some (p := fun v => (Borrow.borrow v : Q) == q) hv
    exact ⟨List.mem_of_find?_eq_some hv, hpass⟩

/-- The operations on any two sets that sessions reach. -/
theorem set_operations [EquivBEq T] [EquivBEq Q] (hl : LawfulBorrow S T Q)
    (sta stb : HashMap.Start S) (opsa opsb : List (SetOp T Q)) {a b : HashSet S T}
    (ha : session L sta opsa = .ok a) (hb : session L stb opsb = .ok b) :
    (∃ l, a.union L b = .ok l ∧ ListsOnce l (a.elems ∪ b.elems)) ∧
    (∃ l, a.intersection L b = .ok l ∧ ListsOnce l (a.elems ∩ b.elems)) ∧
    (∃ l, a.difference L b = .ok l ∧ ListsOnce l (a.elems \ b.elems)) ∧
    (∃ r, a.isSubset L b = .ok r ∧ (r = true ↔ a.elems ⊆ b.elems)) ∧
    (∃ r, a.isSuperset L b = .ok r ∧ (r = true ↔ b.elems ⊆ a.elems)) ∧
    (∃ r, a.isDisjoint L b = .ok r ∧ (r = true ↔ Disjoint a.elems b.elems)) ∧
    ∀ q : Q, ∃ (o : Option T) (c : Bool), a.get L q = .ok o ∧ a.contains L q = .ok c ∧
      (c = true ↔ ∃ v ∈ a.iter, ((Borrow.borrow v : Q) == q) = true) ∧
      (o.isSome = c) ∧ ∀ v ∈ o, v ∈ a.iter ∧ ((Borrow.borrow v : Q) == q) = true := by
  have ha' := session_ordered hl.self ha
  have hb' := session_ordered hl.self hb
  exact ⟨union_spec hl.self ha' hb', intersection_spec hl.self ha' hb',
    difference_spec hl.self ha' hb', isSubset_spec hl.self hb', isSubset_spec hl.self ha',
    isDisjoint_spec hl.self hb', fun q => get_spec hl ha' q⟩

/-- A set of two elements after a removal. -/
def oneAndThree : List (SetOp UInt64 UInt64) := [.extend [1, 2, 3], .remove 2]

/-- Another set of two elements. -/
def threeAndFive : List (SetOp UInt64 UInt64) := [.insert 3, .insert 5]

/-- Two sets with different hash functions and tables of different size. -/
theorem set_operations_words :
    ∃ a b : HashSet (UInt64 → UInt64) UInt64,
      session HashMap.wordSlots (.withHasher id) oneAndThree = .ok a ∧
      session HashMap.wordSlots (.withCapacity 9 fun k => k * 5) threeAndFive = .ok b ∧
      (∃ l, a.union HashMap.wordSlots b = .ok l ∧ ListsOnce l (a.elems ∪ b.elems)) ∧
      ∃ r, a.isSubset HashMap.wordSlots b = .ok r ∧ (r = true ↔ a.elems ⊆ b.elems) := by
  refine ⟨_, _, rfl, rfl, ?_⟩
  obtain ⟨hunion, -, -, hsubset, -⟩ := set_operations (L := HashMap.wordSlots)
    HashMap.lawfulBorrow_self (.withHasher id) (.withCapacity 9 fun k => k * 5) oneAndThree
    threeAndFive rfl rfl
  exact ⟨hunion, hsubset⟩

end HashSet

end PureStd.Collections
