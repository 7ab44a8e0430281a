/-
The hash map refines a finite map.

`Represents` relates a table to a finite map: the table has the invariant and its
records are the entries of the map, in some order.  `exec_represents` is the simulation
step, one case per operation; the cases are read off the lemmas of `TableOps`.

A finite map has no order, and the only operations that could observe one are those
that pass an `FnMut` closure over the entries.  So a run of the specification may list
the entries anew before each operation (`SpecRun`).  No other operation notices
(`applyOp_same`), so a session whose closures keep no state has the answers of the
operations applied one after the other (`SpecRun.eq_applyAll`).
-/
import PureStd.Collections.MapInvariant

namespace PureStd.Collections

variable {S K V Q : Type}

/-! ### The contract of keys -/

/-- The contract of `Borrow`, `Hash` and `Eq`: borrowing keeps the comparison and the
hash, and equal values have equal hashes. -/
class LawfulBorrow (S K Q : Type) [BEq K] [BEq Q] [Borrow K Q] [BuildHasher S K]
    [BuildHasher S Q] : Prop where
  beq_borrow : ∀ a b : K, ((Borrow.borrow a : Q) == Borrow.borrow b) = (a == b)
  hash_borrow : ∀ (s : S) (a : K),
    BuildHasher.hashOne s (Borrow.borrow a : Q) = BuildHasher.hashOne s a
  hash_eq : ∀ (s : S) (p q : Q), (p == q) = true →
    BuildHasher.hashOne s p = BuildHasher.hashOne s q

section Contract

variable [BEq K] [BEq Q] [Borrow K Q] [BuildHasher S K] [BuildHasher S Q]

/-- The contract for borrowed keys contains the contract for the keys themselves. -/
lemma LawfulBorrow.self (h : LawfulBorrow S K Q) : LawfulBorrow S K K where
  beq_borrow _ _ := rfl
  hash_borrow _ _ := rfl
  hash_eq s a b hab := by
    rw [← h.hash_borrow s a, ← h.hash_borrow s b]
    exact h.hash_eq s _ _ (by rw [h.beq_borrow, hab])

/-- Two keys that both equal a borrowed key are equal. -/
lemma LawfulBorrow.selector [EquivBEq Q] (h : LawfulBorrow S K Q) (q : Q) :
    Selector fun k : K => (Borrow.borrow k : Q) == q := by
  intro a b ha hb
  rw [← h.beq_borrow]
  exact BEq.trans ha (BEq.symm hb)

end Contract

/-! ### The specification -/

section Spec

variable [BEq K] [BEq Q] [Borrow K Q]

/-- `or_insert_with`, and the write through the reference it returns. -/
def orInsertValue (m : AssocMap K V) (k : K) (default : Unit → V) (write : V → V) :
    AssocMap K V × Answer V :=
  let v := (m.lookup fun a => a == k).getD (default ())
  (m.insert k (write v), .value (some v))

/-- What becomes of an entry, on a finite map. -/
def useEntry (m : AssocMap K V) (k : K) : EntryUse V → AssocMap K V × Answer V
  | .dropped => (m, .done)
  | .orInsert default write => orInsertValue m k (fun _ => default) write
  | .orInsertWith default write => orInsertValue m k default write

/-- The operations on a finite map. -/
def applyOp (m : AssocMap K V) : Op K Q V → AssocMap K V × Answer V
  | .insert k v => (m.insert k v, .value (m.lookup fun a => a == k))
  | .remove q =>
    (m.erase fun a => (Borrow.borrow a : Q) == q,
      .value (m.lookup fun a => (Borrow.borrow a : Q) == q))
  | .get q => (m, .value (m.lookup fun a => (Borrow.borrow a : Q) == q))
  | .getMut q write =>
    (m.modify (fun a => (Borrow.borrow a : Q) == q) write,
      .value (m.lookup fun a => (Borrow.borrow a : Q) == q))
  | .containsKey q => (m, .flag (m.lookup fun a => (Borrow.borrow a : Q) == q).isSome)
  | .entry k mods use =>
    useEntry (mods.foldl (fun m f => m.modify (fun a => a == k) f) m) k use
  | .retain _ f st => (m.retain f st, .done)
  | .clear => (.empty, .done)
  | .extend es => (es.foldl (fun m e => m.insert e.1 e.2) m, .done)
  | .iterMut _ f st => (m.retain (fun st k v => ((f st k v).1, true, (f st k v).2)) st, .done)

/-- A run of the specification.  The entries of a map may be listed in any order. -/
inductive SpecRun : AssocMap K V → List (Op K Q V) → List (Answer V) → AssocMap K V → Prop
  | nil {m m' : AssocMap K V} (h : m.Same m') : SpecRun m [] [] m'
  | cons {m m₁ m' : AssocMap K V} {op : Op K Q V} {ops : List (Op K Q V)}
      {as : List (Answer V)} (h : m.Same m₁)
      (hrest : SpecRun (applyOp m₁ op).1 ops as m') :
      SpecRun m (op :: ops) ((applyOp m₁ op).2 :: as) m'

/-- The operations one after the other, with their answers. -/
def applyAll (m : AssocMap K V) : List (Op K Q V) → AssocMap K V × List (Answer V)
  | [] => (m, [])
  | op :: ops =>
    let (m', as) := applyAll (applyOp m op).1 ops
    (m', (applyOp m op).2 :: as)

/-- What an operation does to an entry does not depend on the entries before it. -/
def Op.Stateless : Op K Q V → Prop
  | .retain _ f _ => ∀ st st' k v, (f st k v).2 = (f st' k v).2
  | .iterMut _ f _ => ∀ st st' k v, (f st k v).2 = (f st' k v).2
  | _ => True

variable [EquivBEq K] {a b : AssocMap K V}

omit [BEq Q] [Borrow K Q] in
lemma useEntry_same (h : a.Same b) (k : K) (use : EntryUse V) :
    (useEntry a k use).2 = (useEntry b k use).2 ∧
      (useEntry a k use).1.Same (useEntry b k use).1 := by
  have hput : ∀ default write, (orInsertValue a k default write).2
        = (orInsertValue b k default write).2 ∧
      (orInsertValue a k default write).1.Same (orInsertValue b k default write).1 := by
    intro default write
    rw [orInsertValue, orInsertValue, h.lookup (selector_beq k)]
    exact ⟨rfl, h.insert k _⟩
  cases use with
  | dropped => exact ⟨rfl, h⟩
  | orInsert default write => exact hput _ write
  | orInsertWith default write => exact hput default write

omit [BEq Q] [Borrow K Q] [EquivBEq K] in
lemma foldl_same {α : Type} {f : AssocMap K V → α → AssocMap K V}
    (hf : ∀ {a b : AssocMap K V} (x : α), a.Same b → (f a x).Same (f b x)) (l : List α) :
    ∀ {a b : AssocMap K V}, a.Same b → (l.foldl f a).Same (l.foldl f b) := by
  induction l with
  | nil => intro a b h; exact h
  | cons x l ih => intro a b h; exact ih (hf x h)

/-- The order of the entries shows in no answer. -/
lemma applyOp_same (hsel : ∀ q : Q, Selector fun k : K => (Borrow.borrow k : Q) == q)
    (h : a.Same b) {op : Op K Q V} (hop : op.Stateless) :
    (applyOp a op).2 = (applyOp b op).2 ∧ (applyOp a op).1.Same (applyOp b op).1 := by
  cases op with
  | insert k v => exact ⟨congrArg Answer.value (h.lookup (selector_beq k)), h.insert k v⟩
  | remove q => exact ⟨congrArg Answer.value (h.lookup (hsel q)), h.erase _⟩
  | get q => exact ⟨congrArg Answer.value (h.lookup (hsel q)), h⟩
  | getMut q write => exact ⟨congrArg Answer.value (h.lookup (hsel q)), h.modify _ write⟩
  | containsKey q =>
    exact ⟨congrArg (fun o : Option V => Answer.flag o.isSome) (h.lookup (hsel q)), h⟩
  | entry k mods use =>
    exact useEntry_same (foldl_same (fun f hab => hab.modify _ f) mods h) k use
  | retain σ f st => exact ⟨rfl, h.retain hop st⟩
  | clear => exact ⟨rfl, AssocMap.Same.refl _⟩
  | extend es => exact ⟨rfl, foldl_same (fun e hab => hab.insert e.1 e.2) es h⟩
  | iterMut σ f st =>
    refine ⟨rfl, h.retain (fun st st' k v => ?_) st⟩
    rw [hop st st' k v]

/-- A session whose closures keep no state has the answers of the operations applied
one after the other. -/
lemma SpecRun.eq_applyAll (hsel : ∀ q : Q, Selector fun k : K => (Borrow.borrow k : Q) == q)
    {ops : List (Op K Q V)} {as : List (Answer V)} (h : SpecRun a ops as b)
    (hops : ∀ op ∈ ops, op.Stateless) :
    as = (applyAll a ops).2 ∧ (applyAll a ops).1.Same b := by
  suffices hgen : ∀ a', a'.Same a → as = (applyAll a' ops).2 ∧ (applyAll a' ops).1.Same b from
    hgen a (AssocMap.Same.refl a)
  induction h with
  | nil h => exact fun a' ha => ⟨rfl, ha.trans h⟩
  | @cons m m₁ m' op ops as h hrest ih =>
    intro a' ha
    obtain ⟨hans, hsame⟩ := applyOp_same hsel (ha.trans h) (hops op (by simp))
    obtain ⟨has, hend⟩ := ih (fun o ho => hops o (by simp [ho])) _ hsame
    refine ⟨?_, hend⟩
    change _ = (applyOp a' op).2 :: (applyAll (applyOp a' op).1 ops).2
    rw [← has, hans]

end Spec

namespace HashMap

variable [BEq K] [BuildHasher S K] {L : TableLayout} {m m' : HashMap S K V}

/-- The keys and values of the full slots. -/
def entries (m : HashMap S K V) : List (K × V) := (records m.slots).map Prod.snd

/-- The table `m` holds the entries of the finite map `a`. -/
structure Represents (L : TableLayout) (m : HashMap S K V) (a : AssocMap K V) : Prop where
  inv : Inv L m
  entries : m.entries.Perm a.entries

variable {a : AssocMap K V}

/-- A record in front of the table is an entry in front of the map. -/
lemma Represents.perm (h : Represents L m a) {r : UInt64 × K × V} {R : List (UInt64 × K × V)}
    (hR : (records m.slots).Perm (r :: R)) :
    a.entries.Perm (r.2 :: R.map Prod.snd) :=
  h.entries.symm.trans (hR.map Prod.snd)

/-- A key that the table does not find is not in the map. -/
lemma Represents.absent [BEq Q] [Borrow K Q] [BuildHasher S Q] (h : Represents L m a)
    (hl : LawfulBorrow S K Q) [EquivBEq Q] {q : Q}
    (habs : Absent (BuildHasher.hashOne m.hashBuilder q) q (records m.slots)) :
    ∀ e ∈ a.entries, ((Borrow.borrow e.1 : Q) == q) = false := by
  intro e he
  obtain ⟨r, hr, rfl⟩ := List.mem_map.1 (h.entries.mem_iff.2 he)
  have hno := habs r hr
  have hhash := h.inv.hash r hr
  by_contra heq
  rw [Bool.not_eq_false] at heq
  have : r.1 = BuildHasher.hashOne m.hashBuilder q := by
    rw [hhash, ← hl.hash_borrow]
    exact hl.hash_eq _ _ _ heq
  simp [keyMatches, this, heq] at hno

/-- The map whose entries are listed as the table lists them. -/
lemma Represents.list [EquivBEq K] (h : Represents L m a) :
    ∃ a₁ : AssocMap K V, a.Same a₁ ∧ a₁.entries = m.entries :=
  ⟨⟨m.entries, a.distinct.perm h.entries.symm⟩, h.entries.symm, rfl⟩

/-! ### One operation -/

section Exec

variable [EquivBEq K] {k : K} {e : Entry S K V} {ans : Answer V}

lemma insert_represents (h : Represents L m a) (hl : LawfulBorrow S K K) {v : V} {o : Option V}
    (hok : m.insert L k v = .ok (m', o)) :
    o = a.lookup (fun b => b == k) ∧ Represents L m' (a.insert k v) := by
  rcases insert_spec h.inv k v with ⟨herr, -⟩ | ⟨m₁, hm₁, -, hins⟩
  · rw [hok] at herr
    exact absurd herr (by simp)
  · rcases hins with ⟨h', k', v', R, hok', hk, hR, hR'⟩ | ⟨hok', habs, hR⟩
    · rw [hok] at hok'
      obtain ⟨rfl, rfl⟩ := ok_inj hok'
      have hp := h.perm hR
      exact ⟨(AssocMap.lookup_of_perm (selector_beq k) hp hk).symm, hm₁,
        (hR'.map Prod.snd).trans (AssocMap.insert_of_perm hp hk v).symm⟩
    · rw [hok] at hok'
      obtain ⟨rfl, rfl⟩ := ok_inj hok'
      have hno : ∀ e ∈ a.entries, (e.1 == k) = false := h.absent hl habs
      refine ⟨(AssocMap.lookup_eq_none hno).symm, hm₁, (hR.map Prod.snd).trans ?_⟩
      rw [AssocMap.insert_of_forall hno]
      exact (h.entries.cons _).trans (List.perm_append_singleton _ _).symm

lemma extend_represents (hl : LawfulBorrow S K K) (es : List (K × V)) :
    ∀ {m m' : HashMap S K V} {a : AssocMap K V}, Represents L m a → m.extend L es = .ok m' →
      Represents L m' (es.foldl (fun a e => a.insert e.1 e.2) a) := by
  induction es with
  | nil =>
    intro m m' a h hok
    cases hok
    exact h
  | cons e es ih =>
    intro m m' a h hok
    obtain ⟨k, v⟩ := e
    obtain ⟨⟨m₁, o⟩, hins, hrest⟩ := bind_eq_ok hok
    exact ih (insert_represents h hl hins).2 hrest

/-- An entry for `k` of the map `a`. -/
structure EntryRepresents (L : TableLayout) (k : K) (e : Entry S K V) (a : AssocMap K V) :
    Prop where
  ok : EntryOk L k e
  map : Represents L e.map a

omit [EquivBEq K] in
lemma entry_represents (h : Represents L m a) (hok : m.entry L k = .ok e) :
    EntryRepresents L k e a := by
  rcases entry_spec h.inv k with ⟨herr, -⟩ | ⟨e', hok', he, -, hR⟩
  · rw [hok] at herr
    exact absurd herr (by simp)
  · rw [hok] at hok'
    cases hok'
    exact ⟨he, he.inv, (hR.map Prod.snd).trans h.entries⟩

lemma andModifyAll_represents (hl : LawfulBorrow S K K) (mods : List (V → V)) :
    ∀ {e e' : Entry S K V} {a : AssocMap K V}, EntryRepresents L k e a →
      e.andModifyAll mods = .ok e' →
      EntryRepresents L k e' (mods.foldl (fun a f => a.modify (fun b => b == k) f) a) := by
  induction mods with
  | nil =>
    intro e e' a h hok
    cases hok
    exact h
  | cons f mods ih =>
    intro e e' a h hok
    obtain ⟨e₁, hok₁, he₁, -, hcase⟩ := andModify_spec h.ok f
    rw [Entry.andModifyAll, hok₁, ok_bind] at hok
    refine ih ⟨he₁, he₁.inv, ?_⟩ hok
    rcases hcase with ⟨h', k', v', R, hk, hR, hR'⟩ | ⟨rfl, habs⟩
    · exact (hR'.map Prod.snd).trans
        (AssocMap.modify_of_perm (selector_beq k) (h.map.perm hR) hk f).symm
    · rw [AssocMap.modify_of_forall (h.map.absent hl habs)]
      exact h.map.entries

lemma orInsertWith_represents (hl : LawfulBorrow S K K) (h : EntryRepresents L k e a)
    {default : Unit → V} {r : RefMut (HashMap S K V) V} (hok : e.orInsertWith default = .ok r)
    (v' : V) :
    r.val = ((a.lookup fun b => b == k).getD (default ())) ∧
      Represents L (r.write v') (a.insert k v') := by
  obtain ⟨r', hok', hinv, hcase⟩ := orInsertWith_spec h.ok default
  rw [hok] at hok'
  cases hok'
  rcases hcase with ⟨h', k', R, hk, hR, hR'⟩ | ⟨hval, habs, h', hR⟩
  · have hp := h.map.perm hR
    rw [AssocMap.lookup_of_perm (selector_beq k) hp hk]
    exact ⟨rfl, (hinv v').1,
      ((hR' v').map Prod.snd).trans (AssocMap.insert_of_perm hp hk v').symm⟩
  · have hno : ∀ x ∈ a.entries, (x.1 == k) = false := h.map.absent hl habs
    rw [AssocMap.lookup_eq_none hno]
    refine ⟨hval, (hinv v').1, ((hR v').map Prod.snd).trans ?_⟩
    rw [AssocMap.insert_of_forall hno]
    exact (h.map.entries.cons _).trans (List.perm_append_singleton _ _).symm

lemma orInsertValue_represents (hl : LawfulBorrow S K K) (h : EntryRepresents L k e a)
    {default : Unit → V} {write : V → V}
    (hok : e.use (.orInsertWith default write) = .ok (m', ans)) :
    ans = (orInsertValue a k default write).2 ∧
      Represents L m' (orInsertValue a k default write).1 := by
  obtain ⟨r, hr, hans⟩ := bind_eq_ok hok
  obtain ⟨rfl, rfl⟩ := ok_inj hans
  obtain ⟨hval, hrep⟩ := orInsertWith_represents hl h hr (write r.val)
  rw [orInsertValue, ← hval]
  exact ⟨rfl, hrep⟩

lemma use_represents (hl : LawfulBorrow S K K) (h : EntryRepresents L k e a) {use : EntryUse V}
    (hok : e.use use = .ok (m', ans)) :
    ans = (useEntry a k use).2 ∧ Represents L m' (useEntry a k use).1 := by
  cases use with
  | dropped =>
    obtain ⟨rfl, rfl⟩ := ok_inj hok
    exact ⟨rfl, h.map⟩
  | orInsert | orInsertWith => exact orInsertValue_represents hl h hok

variable [BEq Q] [Borrow K Q] [BuildHasher S Q] [EquivBEq Q]

lemma get_represents (hl : LawfulBorrow S K Q) (h : Represents L m a) (q : Q) :
    m.get L q = .ok (a.lookup fun k => (Borrow.borrow k : Q) == q) := by
  rcases get_spec h.inv q with ⟨_, k, v, R, hok, hk, hR⟩ | ⟨hok, habs⟩
  · rw [hok, AssocMap.lookup_of_perm (hl.selector q) (h.perm hR) hk]
  · rw [hok, AssocMap.lookup_eq_none (h.absent hl habs)]

lemma remove_represents (hl : LawfulBorrow S K Q) (h : Represents L m a) (q : Q) :
    ∃ m₁, m.remove L q = .ok (m₁, a.lookup fun k => (Borrow.borrow k : Q) == q) ∧
      Represents L m₁ (a.erase fun k => (Borrow.borrow k : Q) == q) := by
  rcases remove_spec h.inv q with ⟨m₁, _, k, v, R, hok, hk, hm₁, -, hR, hR'⟩ | ⟨hok, habs⟩
  · have hp := h.perm hR
    refine ⟨m₁, ?_, hm₁, ?_⟩
    · rw [hok, AssocMap.lookup_of_perm (hl.selector q) hp hk]
    · exact (hR'.map Prod.snd).trans (AssocMap.erase_of_perm (hl.selector q) hp hk).symm
  · have hno := h.absent hl habs
    refine ⟨m, ?_, h.inv, ?_⟩
    · rw [hok, AssocMap.lookup_eq_none hno]
    · rw [AssocMap.erase_of_forall hno]
      exact h.entries

/-- The program writes through the reference that `get_mut` returns. -/
lemma getMut_represents (hl : LawfulBorrow S K Q) (h : Represents L m a) (q : Q)
    (write : V → V) :
    (∃ r, m.getMut L q = .ok (some r) ∧
      (a.lookup fun k => (Borrow.borrow k : Q) == q) = some r.val ∧
      Represents L (r.write (write r.val))
        (a.modify (fun k => (Borrow.borrow k : Q) == q) write)) ∨
    (m.getMut L q = .ok none ∧ (a.lookup fun k => (Borrow.borrow k : Q) == q) = none ∧
      Represents L m (a.modify (fun k => (Borrow.borrow k : Q) == q) write)) := by
  rcases getMut_spec h.inv q with ⟨r, _, k, R, hok, hk, hR, hw⟩ | ⟨hok, habs⟩
  · have hp := h.perm hR
    obtain ⟨hm₁, -, hR'⟩ := hw (write r.val)
    refine Or.inl ⟨r, hok, AssocMap.lookup_of_perm (hl.selector q) hp hk, hm₁, ?_⟩
    exact (hR'.map Prod.snd).trans (AssocMap.modify_of_perm (hl.selector q) hp hk write).symm
  · have hno := h.absent hl habs
    refine Or.inr ⟨hok, AssocMap.lookup_eq_none hno, h.inv, ?_⟩
    rw [AssocMap.modify_of_forall hno]
    exact h.entries

/-- The simulation step: an operation on the table is the operation on the map. -/
lemma exec_represents (hl : LawfulBorrow S K Q) (h : Represents L m a) {op : Op K Q V}
    (hok : m.exec L op = .ok (m', ans)) :
    ∃ a₁, a.Same a₁ ∧ ans = (applyOp a₁ op).2 ∧ Represents L m' (applyOp a₁ op).1 := by
  cases op with
  | insert k v =>
    obtain ⟨⟨m₁, o⟩, hins, hans⟩ := bind_eq_ok hok
    obtain ⟨rfl, rfl⟩ := ok_inj hans
    obtain ⟨ho, hrep⟩ := insert_represents h hl.self hins
    exact ⟨a, .refl a, congrArg Answer.value ho, hrep⟩
  | remove q =>
    obtain ⟨m₁, hrem, hrep⟩ := remove_represents hl h q
    rw [exec, hrem, ok_bind] at hok
    obtain ⟨rfl, rfl⟩ := ok_inj hok
    exact ⟨a, .refl a, rfl, hrep⟩
  | get q =>
    rw [exec, get_represents hl h q, ok_bind] at hok
    obtain ⟨rfl, rfl⟩ := ok_inj hok
    exact ⟨a, .refl a, rfl, h⟩
  | getMut q write =>
    rcases getMut_represents hl h q write with ⟨r, hget, hval, hrep⟩ | ⟨hget, hnone, hrep⟩
    · rw [exec, hget, ok_bind] at hok
      obtain ⟨rfl, rfl⟩ := ok_inj hok
      exact ⟨a, .refl a, congrArg Answer.value hval.symm, hrep⟩
    · rw [exec, hget, ok_bind] at hok
      obtain ⟨rfl, rfl⟩ := ok_inj hok
      exact ⟨a, .refl a, congrArg Answer.value hnone.symm, hrep⟩
  | containsKey q =>
    rw [exec, containsKey, get_represents hl h q, ok_bind, ok_bind] at hok
    obtain ⟨rfl, rfl⟩ := ok_inj hok
    exact ⟨a, .refl a, rfl, h⟩
  | entry k mods use =>
    obtain ⟨e, he, hrest⟩ := bind_eq_ok hok
    obtain ⟨e₁, he₁, huse⟩ := bind_eq_ok hrest
    have hrep := andModifyAll_represents hl.self mods (entry_represents h he) he₁
    obtain ⟨hans, hend⟩ := use_represents hl.self hrep huse
    exact ⟨a, .refl a, hans, hend⟩
  | retain σ f st =>
    -- the closure sees the entries in the order of the slots
    obtain ⟨rfl, rfl⟩ := ok_inj hok
    obtain ⟨a₁, hsame, hlist⟩ := h.list
    obtain ⟨hm₁, -, hvisit⟩ := retain_spec h.inv f st
    refine ⟨a₁, hsame, rfl, hm₁, ?_⟩
    rw [HashMap.entries, hvisit, ← HashMap.entries, ← hlist]
    exact List.Perm.refl _
  | clear =>
    obtain ⟨rfl, rfl⟩ := ok_inj hok
    obtain ⟨hm₁, hnil⟩ := clear_spec h.inv
    refine ⟨a, .refl a, rfl, hm₁, ?_⟩
    rw [HashMap.entries, hnil]
    exact List.Perm.refl _
  | extend es =>
    obtain ⟨m₁, hext, hans⟩ := bind_eq_ok hok
    obtain ⟨rfl, rfl⟩ := ok_inj hans
    exact ⟨a, .refl a, rfl, extend_represents hl.self es h hext⟩
  | iterMut σ f st =>
    obtain ⟨rfl, rfl⟩ := ok_inj hok
    obtain ⟨a₁, hsame, hlist⟩ := h.list
    obtain ⟨hm₁, -, hvisit⟩ :=
      retain_spec h.inv (fun st k v => ((f st k v).1, true, (f st k v).2)) st
    rw [← iterMut_eq_retain] at hm₁ hvisit
    refine ⟨a₁, hsame, rfl, hm₁, ?_⟩
    rw [HashMap.entries, hvisit, ← HashMap.entries, ← hlist]
    exact List.Perm.refl _

/-! ### Whole sessions -/

lemma run_represents (hl : LawfulBorrow S K Q) (ops : List (Op K Q V)) :
    ∀ {m m' : HashMap S K V} {a : AssocMap K V} {as : List (Answer V)}, Represents L m a →
      m.run L ops = .ok (m', as) → ∃ a', SpecRun a ops as a' ∧ Represents L m' a' := by
  induction ops with
  | nil =>
    intro m m' a as h hok
    obtain ⟨rfl, rfl⟩ := ok_inj hok
    exact ⟨a, .nil (.refl a), h⟩
  | cons op ops ih =>
    intro m m' a as h hok
    obtain ⟨m₁, ans, as', hexec, hrun, rfl⟩ := run_cons_ok hok
    obtain ⟨a₁, hsame, rfl, hrep⟩ := exec_represents hl h hexec
    obtain ⟨a', hspec, hrep'⟩ := ih hrep hrun
    exact ⟨a', .cons hsame hspec, hrep'⟩

end Exec

/-! ### Iteration -/

omit [BEq K] [BuildHasher S K] in
/-- `next` yields the first entry that is left. -/
lemma Iter.next_spec (it : Iter K V) :
    (it.next.1 = none ∧ records (it.slots.drop it.idx) = []) ∨
    ∃ e it', it.next = (some e, it') ∧
      (records (it.slots.drop it.idx)).map Prod.snd
        = e :: (records (it'.slots.drop it'.idx)).map Prod.snd := by
  fun_induction Iter.next it with
  | case1 it h h' k v hs =>
    refine Or.inr ⟨(k, v), _, rfl, ?_⟩
    rw [List.drop_eq_getElem_cons h, hs]
    rfl
  | case2 it h hs ih =>
    have hskip : records (it.slots.drop it.idx) = records (it.slots.drop (it.idx + 1)) := by
      rw [List.drop_eq_getElem_cons h]
      cases hslot : it.slots[it.idx] with
      | full h' k v => exact absurd hslot (hs h' k v)
      | empty => rfl
      | tombstone => rfl
    rw [hskip]
    exact ih
  | case3 it h =>
    refine Or.inl ⟨rfl, ?_⟩
    rw [List.drop_eq_nil_of_le (by omega)]
    rfl

omit [BEq K] [BuildHasher S K] in
lemma Iter.items_eq (it : Iter K V) :
    it.items = (records (it.slots.drop it.idx)).map Prod.snd := by
  fun_induction Iter.items it with
  | case1 it e it' hnext ih =>
    rcases Iter.next_spec it with ⟨hnone, -⟩ | ⟨e₁, it₁, hnext₁, hrecs⟩
    · rw [hnext] at hnone
      exact absurd hnone (by simp)
    · obtain ⟨he, rfl⟩ := Prod.mk.inj (hnext.symm.trans hnext₁)
      rw [hrecs, ih, Option.some.inj he]
  | case2 it it' hnext =>
    rcases Iter.next_spec it with ⟨-, hnil⟩ | ⟨e₁, it₁, hnext₁, -⟩
    · rw [hnil]
      rfl
    · rw [hnext] at hnext₁
      exact absurd hnext₁ (by simp)

omit [BEq K] [BuildHasher S K] in
/-- `iter` yields the entries of the full slots. -/
lemma iter_items (m : HashMap S K V) : m.iter.items = m.entries := Iter.items_eq m.iter

/-- The number of keys is `len`. -/
lemma Represents.size_eq (h : Represents L m a) : m.len = a.size := by
  rw [h.inv.len, AssocMap.size, ← h.entries.length_eq, HashMap.entries, List.length_map]

/-- Every session with a hash map is a session with a finite map: it has the same
answers, and at the end `len` is the number of keys and `iter` yields the entries.  The
only other way for it to end is that `Vec` refuses to grow the table. -/
theorem session_refines [EquivBEq K] [BEq Q] [Borrow K Q] [BuildHasher S Q] [EquivBEq Q]
    (hl : LawfulBorrow S K Q) (st : Start S) (hst : st.make L = .ok m)
    (ops : List (Op K Q V)) :
    (∃ m' as a, m.run L ops = .ok (m', as) ∧ SpecRun .empty ops as a ∧ m'.len = a.size ∧
      m'.iter.items.Perm a.entries ∧
      ((∀ op ∈ ops, op.Stateless) → as = (applyAll .empty ops).2 ∧
        m'.iter.items.Perm (applyAll .empty ops).1.entries)) ∨
    (m.run L ops = .error .capacityOverflow ∧ Outgrows L Q m) := by
  obtain ⟨hinv, hnil⟩ := start_inv hst
  have hrep : Represents L m .empty :=
    ⟨hinv, by rw [HashMap.entries, hnil]; exact List.Perm.refl _⟩
  rcases run_inv ops hinv with herr | ⟨m', as, hrun, -⟩
  · exact Or.inr herr
  · obtain ⟨a, hspec, hrep'⟩ := run_represents hl ops hrep hrun
    have hitems : m'.iter.items.Perm a.entries := by
      rw [iter_items]
      exact hrep'.entries
    refine Or.inl ⟨m', as, a, hrun, hspec, hrep'.size_eq, hitems, fun hops => ?_⟩
    obtain ⟨has, hsame⟩ := hspec.eq_applyAll hl.selector hops
    exact ⟨has, hitems.trans (List.Perm.symm hsame)⟩

/-- Any function on keys is a hash function. -/
instance hashFunction : BuildHasher (K → UInt64) K := ⟨fun f k => f k⟩

/-- Keys that are looked up as themselves, and whose comparison is equality. -/
lemma lawfulBorrow_self {K : Type} [BEq K] [LawfulBEq K] : LawfulBorrow (K → UInt64) K K where
  beq_borrow _ _ := rfl
  hash_borrow _ _ := rfl
  hash_eq _ p q h := by rw [eq_of_beq h]

/-- The slots of a `HashMap<u64, u64>` on a 64-bit target. -/
def wordSlots : TableLayout := ⟨.w64, 32, by decide⟩

/-- A session in which all keys collide. -/
def collidingSession : List (Op UInt64 UInt64 UInt64) :=
  [.insert 1 10, .insert 9 90, .remove 1, .get 9, .entry 9 [(· + 1)] (.orInsert 0 (· + 1)),
    .entry 1 [(· + 1)] (.orInsertWith (fun _ => 7) id), .containsKey 9,
    .retain Unit (fun _ k v => ((), k == 1, v)) (), .extend [(2, 20), (1, 11)], .get 1]

theorem session_refines_colliding :
    ∃ m' as a, (withHasher (fun _ => 0) : HashMap (UInt64 → UInt64) UInt64 UInt64).run wordSlots
        collidingSession = .ok (m', as) ∧
      SpecRun .empty collidingSession as a ∧ m'.len = a.size ∧ m'.iter.items.Perm a.entries := by
  have hok : ((withHasher (fun _ => 0) : HashMap (UInt64 → UInt64) UInt64 UInt64).run wordSlots
      collidingSession).toOption.isSome = true := by decide
  rcases session_refines (L := wordSlots) lawfulBorrow_self (.withHasher fun _ => 0) rfl
      collidingSession with ⟨m', as, a, hrun, hspec, hlen, hitems, -⟩ | ⟨herr, -⟩
  · exact ⟨m', as, a, hrun, hspec, hlen, hitems⟩
  · rw [herr] at hok
    exact absurd hok (by decide)

end HashMap

end PureStd.Collections
