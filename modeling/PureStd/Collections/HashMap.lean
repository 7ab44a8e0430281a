/-
The hash map of `src/collections.rs`: open addressing with linear probing and
tombstones.

The translation is function by function.  A `Vec` is a list, a `usize` a natural
number with the wrap of release builds written where the source can reach it, and a
`&mut V` handed to the caller is a `RefMut`: the value it points to and what the map
becomes when the caller writes through it.

Three things end an operation early, and they are the constructors of `Abort`: `Vec`
refuses a table of more than `isize::MAX` bytes, an index or an `unreachable!()` panics,
or a loop never ends.  The loops of the source have no bound of their own; here they
run for as many rounds as the table has slots, which is when they would start to see
the same slots again.
-/
import PureStd.Target

namespace PureStd.Collections

/-- `Slot<K, V>`. -/
inductive Slot (K V : Type) where
  | empty
  | tombstone
  | full (h : UInt64) (k : K) (v : V)
deriving DecidableEq, Repr

namespace Slot

variable {K V : Type}

/-- `Slot::is_empty`. -/
def isEmpty : Slot K V → Bool
  | empty => true
  | _ => false

end Slot

/-- `hash_one`: the hash of a value of type `Q` under a builder of type `S`. -/
class BuildHasher (S Q : Type) where
  hashOne : S → Q → UInt64

/-- `core::borrow::Borrow`. -/
class Borrow (K Q : Type) where
  borrow : K → Q

instance {K : Type} : Borrow K K := ⟨id⟩

/-- Why an operation does not return. -/
inductive Abort where
  /-- `Vec::with_capacity` panics: more than `isize::MAX` bytes. -/
  | capacityOverflow
  /-- An index out of range or `unreachable!()`. -/
  | panic
  /-- A loop that never ends. -/
  | diverge
deriving DecidableEq, Repr

/-- What the table depends on of the target: the width of `usize`, and the size of a
slot in bytes, which has room for the 64-bit hash and for telling a full slot from the
other two kinds. -/
structure TableLayout where
  width : PtrWidth
  slotSize : ℕ
  hash_lt_slotSize : 8 < slotSize

/-- A mutable reference into a structure of type `M`. -/
structure RefMut (M V : Type) where
  /-- The value it points to. -/
  val : V
  /-- The structure after a value was written through the reference. -/
  write : V → M

/-- `HashMap<K, V, S>`. -/
structure HashMap (S K V : Type) where
  hashBuilder : S
  slots : List (Slot K V)
  len : ℕ
  /-- `len` plus the number of tombstones. -/
  used : ℕ
deriving DecidableEq, Repr

/-- The loop of `capacity_for`.  After as many doublings as `usize` has bits `cap` is
zero and the loop never ends. -/
def capacityForLoop (w : PtrWidth) (items : ℕ) : ℕ → ℕ → Except Abort ℕ
  | 0, _ => .error .diverge
  | fuel + 1, cap =>
    if w.wrap (items * 8) ≥ w.wrap (cap * 7) then
      capacityForLoop w items fuel (w.wrap (cap * 2))
    else .ok cap

/-- `capacity_for`. -/
def capacityFor (w : PtrWidth) (items : ℕ) : Except Abort ℕ :=
  capacityForLoop w items w.bits 8

/-- `(h as usize) & mask`. -/
def hashIndex (w : PtrWidth) (h : UInt64) (mask : ℕ) : ℕ := w.wrap h.toNat &&& mask

section Grow

variable {K V : Type}

/-- The loop of `grow_to` that puts an entry into the first empty slot. -/
def placeLoop (slots : List (Slot K V)) (mask : ℕ) (h : UInt64) (k : K) (v : V) :
    ℕ → ℕ → Except Abort (List (Slot K V))
  | 0, _ => .error .diverge
  | fuel + 1, i =>
    match slots[i]? with
    | none => .error .panic
    | some s =>
      if s.isEmpty then .ok (slots.set i (.full h k v))
      else placeLoop slots mask h k v fuel ((i + 1) &&& mask)

/-- The loop of `grow_to` over the old slots. -/
def rehash (w : PtrWidth) (mask : ℕ) :
    List (Slot K V) → List (Slot K V) → Except Abort (List (Slot K V))
  | [], slots => .ok slots
  | .full h k v :: old, slots => do
    let slots ← placeLoop slots mask h k v slots.length (hashIndex w h mask)
    rehash w mask old slots
  | _ :: old, slots => rehash w mask old slots

end Grow

namespace HashMap

variable {S K V Q : Type}

/-- `HashMap::with_hasher`; `HashMap::new` passes a fresh `RandomState`. -/
def withHasher (hashBuilder : S) : HashMap S K V where
  hashBuilder := hashBuilder
  slots := []
  len := 0
  used := 0

/-- `HashMap::is_empty`. -/
def isEmpty (m : HashMap S K V) : Bool := m.len == 0

/-- `HashMap::cap`. -/
def cap (m : HashMap S K V) : ℕ := m.slots.length

/-- `HashMap::capacity`. -/
def capacity (m : HashMap S K V) : ℕ := m.slots.length / 8 * 7

/-- `HashMap::clear`. -/
def clear (m : HashMap S K V) : HashMap S K V :=
  { m with slots := m.slots.map fun _ => .empty, len := 0, used := 0 }

variable (L : TableLayout)

/-- `HashMap::grow_to`. -/
def growTo (m : HashMap S K V) (newCap : ℕ) : Except Abort (HashMap S K V) :=
  if newCap * L.slotSize ≤ L.width.isizeMax then do
    let slots ← rehash L.width (newCap - 1) m.slots (List.replicate newCap .empty)
    .ok { m with slots := slots, used := m.len }
  else .error .capacityOverflow

/-- `HashMap::ensure_capacity`. -/
def ensureCapacity (m : HashMap S K V) : Except Abort (HashMap S K V) :=
  if m.cap = 0 then m.growTo L 8
  else if L.width.wrap ((m.used + 1) * 8) ≥ L.width.wrap (m.cap * 7) then
    m.growTo L (L.width.wrap (m.cap * 2))
  else .ok m

/-- `HashMap::with_capacity_and_hasher`. -/
def withCapacityAndHasher (n : ℕ) (hashBuilder : S) : Except Abort (HashMap S K V) :=
  if 0 < n then do
    let cap ← capacityFor L.width n
    growTo L (withHasher hashBuilder) cap
  else .ok (withHasher hashBuilder)

section Probe

variable [BEq Q] [Borrow K Q]

/-- The loop of `probe`. -/
def probeLoop (slots : List (Slot K V)) (mask : ℕ) (hash : UInt64) (key : Q) :
    ℕ → ℕ → Option ℕ → Except Abort (Option ℕ × ℕ)
  | 0, _, _ => .error .diverge
  | fuel + 1, i, insert =>
    match slots[i]? with
    | none => .error .panic
    | some .empty => .ok (none, insert.getD i)
    | some .tombstone =>
      probeLoop slots mask hash key fuel ((i + 1) &&& mask)
        (if insert.isNone then some i else insert)
    | some (.full h k _) =>
      if h == hash && (Borrow.borrow k : Q) == key then .ok (some i, i)
      else probeLoop slots mask hash key fuel ((i + 1) &&& mask) insert

/-- `HashMap::probe`. -/
def probe (m : HashMap S K V) (hash : UInt64) (key : Q) : Except Abort (Option ℕ × ℕ) :=
  probeLoop m.slots (m.cap - 1) hash key m.cap (hashIndex L.width hash (m.cap - 1)) none

variable [BuildHasher S Q]

/-- `HashMap::get`. -/
def get (m : HashMap S K V) (key : Q) : Except Abort (Option V) :=
  if m.cap = 0 then .ok none
  else do
    let hash := BuildHasher.hashOne m.hashBuilder key
    match (← m.probe L hash key).1 with
    | some i =>
      match m.slots[i]? with
      | none => .error .panic
      | some (.full _ _ v) => .ok (some v)
      | some _ => .ok none
    | none => .ok none

/-- `HashMap::get_mut`. -/
def getMut (m : HashMap S K V) (key : Q) : Except Abort (Option (RefMut (HashMap S K V) V)) :=
  if m.cap = 0 then .ok none
  else do
    let hash := BuildHasher.hashOne m.hashBuilder key
    match (← m.probe L hash key).1 with
    | some i =>
      match m.slots[i]? with
      | none => .error .panic
      | some (.full h k v) =>
        .ok (some ⟨v, fun v' => { m with slots := m.slots.set i (.full h k v') }⟩)
      | some _ => .ok none
    | none => .ok none

/-- `HashMap::contains_key`. -/
def containsKey (m : HashMap S K V) (key : Q) : Except Abort Bool := do
  .ok (← m.get L key).isSome

/-- `HashMap::remove`. -/
def remove (m : HashMap S K V) (key : Q) : Except Abort (HashMap S K V × Option V) :=
  if m.cap = 0 then .ok (m, none)
  else do
    let hash := BuildHasher.hashOne m.hashBuilder key
    match (← m.probe L hash key).1 with
    | some i =>
      match m.slots[i]? with
      | none => .error .panic
      | some (.full _ _ v) =>
        -- `used` stays: a tombstone still occupies the slot for probing
        .ok ({ m with slots := m.slots.set i .tombstone, len := m.len - 1 }, some v)
      | some _ => .ok ({ m with slots := m.slots.set i .tombstone }, none)
    | none => .ok (m, none)

end Probe

section Insert

variable [BEq K] [BuildHasher S K]

/-- Filling slot `i` with a new entry, as `insert` and the vacant arm of
`or_insert_with` do it: an empty slot grows `used`, a tombstone does not. -/
def fillSlot (m : HashMap S K V) (i : ℕ) (hash : UInt64) (key : K) (value : V) :
    Except Abort (HashMap S K V) :=
  match m.slots[i]? with
  | none => .error .panic
  | some s => .ok
      { m with
        slots := m.slots.set i (.full hash key value)
        len := m.len + 1
        used := if s.isEmpty then m.used + 1 else m.used }

/-- `HashMap::insert`. -/
def insert (m : HashMap S K V) (key : K) (value : V) :
    Except Abort (HashMap S K V × Option V) := do
  let m ← m.ensureCapacity L
  let hash := BuildHasher.hashOne m.hashBuilder key
  let (found, ins) ← m.probe L hash key
  match found with
  | some i =>
    match m.slots[i]? with
    | some (.full h k v) => .ok ({ m with slots := m.slots.set i (.full h k value) }, some v)
    | _ => .error .panic
  | none => do
    let m ← m.fillSlot ins hash key value
    .ok (m, none)

/-- `Extend::extend`. -/
def extend (m : HashMap S K V) : List (K × V) → Except Abort (HashMap S K V)
  | [] => .ok m
  | (k, v) :: rest => do
    let (m, _) ← m.insert L k v
    m.extend rest

end Insert

/-! ### The entry API -/

/-- `Entry`: an occupied entry is a map and an index, a vacant one also keeps the hash
and the key. -/
inductive Entry (S K V : Type) where
  | occupied (map : HashMap S K V) (idx : ℕ)
  | vacant (map : HashMap S K V) (idx : ℕ) (hash : UInt64) (key : K)

/-- `HashMap::entry`. -/
def entry [BEq K] [BuildHasher S K] (m : HashMap S K V) (key : K) :
    Except Abort (Entry S K V) := do
  let m ← m.ensureCapacity L
  let hash := BuildHasher.hashOne m.hashBuilder key
  let (found, ins) ← m.probe L hash key
  match found with
  | some i => .ok (.occupied m i)
  | none => .ok (.vacant m ins hash key)

namespace Entry

/-- The map behind an entry, which is what is left when the entry is dropped. -/
def map : Entry S K V → HashMap S K V
  | occupied m _ => m
  | vacant m _ _ _ => m

/-- The reference to the value in slot `idx`, which the entry API expects to be full. -/
def slotRef (m : HashMap S K V) (idx : ℕ) : Except Abort (RefMut (HashMap S K V) V) :=
  match m.slots[idx]? with
  | some (.full h k v) => .ok ⟨v, fun v' => { m with slots := m.slots.set idx (.full h k v') }⟩
  | _ => .error .panic

/-- `Entry::or_insert_with`. -/
def orInsertWith (e : Entry S K V) (default : Unit → V) :
    Except Abort (RefMut (HashMap S K V) V) :=
  match e with
  | occupied m idx => slotRef m idx
  | vacant m idx hash key => do
    let m ← m.fillSlot idx hash key (default ())
    slotRef m idx

/-- `Entry::or_insert`. -/
def orInsert (e : Entry S K V) (default : V) : Except Abort (RefMut (HashMap S K V) V) :=
  e.orInsertWith fun _ => default

/-- `Entry::and_modify`. -/
def andModify (e : Entry S K V) (f : V → V) : Except Abort (Entry S K V) :=
  match e with
  | occupied m idx =>
    match m.slots[idx]? with
    | none => .error .panic
    | some (.full h k v) =>
      .ok (.occupied { m with slots := m.slots.set idx (.full h k (f v)) } idx)
    | some _ => .ok (.occupied m idx)
  | vacant .. => .ok e

end Entry

/-! ### Iteration -/

/-- `Iter`. -/
structure Iter (K V : Type) where
  slots : List (Slot K V)
  idx : ℕ

/-- `Iter::next`. -/
def Iter.next (it : Iter K V) : Option (K × V) × Iter K V :=
  if h : it.idx < it.slots.length then
    match it.slots[it.idx] with
    | .full _ k v => (some (k, v), { it with idx := it.idx + 1 })
    | _ => Iter.next { it with idx := it.idx + 1 }
  else (none, it)
termination_by it.slots.length - it.idx

/-- What is left to an iterator gets shorter with every item. -/
lemma Iter.next_lt (it : Iter K V) : ∀ e it', it.next = (some e, it') →
    it'.slots.length - it'.idx < it.slots.length - it.idx := by
  fun_induction Iter.next it with
  | case1 it h h' k v hs =>
    intro e it' heq
    obtain ⟨-, rfl⟩ := Prod.mk.inj heq
    simp only
    omega
  | case2 it h hs ih =>
    intro e it' heq
    have := ih e it' heq
    simp only at this
    omega
  | case3 it h =>
    intro e it' heq
    simp at heq

/-- The items that repeated calls of `next` yield. -/
def Iter.items (it : Iter K V) : List (K × V) :=
  match h : it.next with
  | (some e, it') => e :: it'.items
  | (none, _) => []
termination_by it.slots.length - it.idx
decreasing_by exact Iter.next_lt it _ _ h

/-- `HashMap::iter`. -/
def iter (m : HashMap S K V) : Iter K V := ⟨m.slots, 0⟩

/-- The loop of `retain`.  The closure is an `FnMut`, so it carries a state. -/
def retainLoop {σ : Type} (f : σ → K → V → σ × Bool × V) :
    σ → ℕ → List (Slot K V) → σ × ℕ × List (Slot K V)
  | st, len, [] => (st, len, [])
  | st, len, .full h k v :: rest =>
    let (st, keep, v) := f st k v
    if keep then
      let (st, len, rest) := retainLoop f st len rest
      (st, len, .full h k v :: rest)
    else
      let (st, len, rest) := retainLoop f st (len - 1) rest
      (st, len, .tombstone :: rest)
  | st, len, s :: rest =>
    let (st, len, rest) := retainLoop f st len rest
    (st, len, s :: rest)

/-- `HashMap::retain`. -/
def retain {σ : Type} (m : HashMap S K V) (f : σ → K → V → σ × Bool × V) (st : σ) :
    HashMap S K V :=
  let (_, len, slots) := retainLoop f st m.len m.slots
  { m with slots := slots, len := len }

/-- Writing through the references of `HashMap::iter_mut` or `HashMap::values_mut`, one
after the other. -/
def iterMutLoop {σ : Type} (f : σ → K → V → σ × V) : σ → List (Slot K V) → List (Slot K V)
  | _, [] => []
  | st, .full h k v :: rest => .full h k (f st k v).2 :: iterMutLoop f (f st k v).1 rest
  | st, s :: rest => s :: iterMutLoop f st rest

/-- `HashMap::iter_mut`, with what the caller does with the references. -/
def iterMut {σ : Type} (m : HashMap S K V) (f : σ → K → V → σ × V) (st : σ) : HashMap S K V :=
  { m with slots := iterMutLoop f st m.slots }

end HashMap

end PureStd.Collections
