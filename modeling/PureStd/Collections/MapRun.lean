/-
Sessions with a hash map: sequences of calls of its public operations.

The closures that the caller passes are part of an operation.  An `FnMut` closure
(`retain`, and the loop body over `iter_mut`) carries a state of any type.  What the
caller writes through a `&mut V` is a function of the value it finds there.
-/
import PureStd.Collections.HashMap

namespace PureStd.Collections

/-- What the caller does with an entry after the calls of `and_modify`. -/
inductive EntryUse (V : Type) where
  | dropped
  | orInsert (default : V) (write : V → V)
  | orInsertWith (default : Unit → V) (write : V → V)

/-- A call of a public operation. -/
inductive Op (K Q V : Type) : Type 1 where
  | insert (k : K) (v : V)
  | remove (q : Q)
  | get (q : Q)
  | getMut (q : Q) (write : V → V)
  | containsKey (q : Q)
  | entry (k : K) (mods : List (V → V)) (use : EntryUse V)
  | retain (σ : Type) (f : σ → K → V → σ × Bool × V) (st : σ)
  | clear
  | extend (es : List (K × V))
  | iterMut (σ : Type) (f : σ → K → V → σ × V) (st : σ)

/-- What a call returns. -/
inductive Answer (V : Type) where
  | done
  | value (o : Option V)
  | flag (b : Bool)
deriving DecidableEq, Repr

namespace HashMap

variable {S K V Q : Type} [BEq K] [BuildHasher S K] [BEq Q] [Borrow K Q] [BuildHasher S Q]
variable (L : TableLayout)

/-- What becomes of an entry. -/
def Entry.use (e : Entry S K V) : EntryUse V → Except Abort (HashMap S K V × Answer V)
  | .dropped => .ok (e.map, .done)
  | .orInsert default write => do
    let r ← e.orInsert default
    .ok (r.write (write r.val), .value (some r.val))
  | .orInsertWith default write => do
    let r ← e.orInsertWith default
    .ok (r.write (write r.val), .value (some r.val))

/-- The calls of `and_modify` on an entry. -/
def Entry.andModifyAll (e : Entry S K V) : List (V → V) → Except Abort (Entry S K V)
  | [] => .ok e
  | f :: fs => do
    let e ← e.andModify f
    e.andModifyAll fs

/-- One call. -/
def exec (m : HashMap S K V) : Op K Q V → Except Abort (HashMap S K V × Answer V)
  | .insert k v => do
    let (m, old) ← m.insert L k v
    .ok (m, .value old)
  | .remove q => do
    let (m, old) ← m.remove L q
    .ok (m, .value old)
  | .get q => do
    let v ← m.get L q
    .ok (m, .value v)
  | .getMut q write => do
    match ← m.getMut L q with
    | none => .ok (m, .value none)
    | some r => .ok (r.write (write r.val), .value (some r.val))
  | .containsKey q => do
    let b ← m.containsKey L q
    .ok (m, .flag b)
  | .entry k mods use => do
    let e ← m.entry L k
    let e ← e.andModifyAll mods
    e.use use
  | .retain _ f st => .ok (m.retain f st, .done)
  | .clear => .ok (m.clear, .done)
  | .extend es => do
    let m ← m.extend L es
    .ok (m, .done)
  | .iterMut _ f st => .ok (m.iterMut f st, .done)

/-- A sequence of calls, with their answers. -/
def run (m : HashMap S K V) : List (Op K Q V) → Except Abort (HashMap S K V × List (Answer V))
  | [] => .ok (m, [])
  | op :: ops => do
    let (m, a) ← m.exec L op
    let (m, as) ← m.run ops
    .ok (m, a :: as)

/-- How a map is made.  `from_iter` is `with_hasher`, and then `extend`. -/
inductive Start (S : Type) where
  /-- `new` and `with_hasher`. -/
  | withHasher (hashBuilder : S)
  /-- `with_capacity` and `with_capacity_and_hasher`. -/
  | withCapacity (n : ℕ) (hashBuilder : S)

/-- The map a session starts with. -/
def Start.make : Start S → Except Abort (HashMap S K V)
  | .withHasher b => .ok (HashMap.withHasher b)
  | .withCapacity n b => withCapacityAndHasher L n b

end HashMap

end PureStd.Collections
