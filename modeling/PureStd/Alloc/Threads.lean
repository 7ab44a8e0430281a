/-
The allocator, called by many threads at once.

`PureStd.Alloc.Allocator` runs a call of the allocator in one go.  Here threads take turns,
and one turn is one access to what they share: the lock, a list head, a link in memory, or
a system call.  Between the turns of one thread inside the lock the others may spin, map
and unmap large blocks, which takes no lock, and write into the blocks that they own.

A load or store at an address that is not mapped, and an index out of bounds, has no
result: a thread that would do that is stuck.
-/
import PureStd.Alloc.HeapSafety
import PureStd.Lib.CriticalSection

namespace PureStd.Alloc

open ByteMemory

variable {p : Platform}

/-- What the program has of a block: its address, and the layout that it asked for. -/
structure Grant (p : Platform) where
  ptr : ℕ
  layout : Layout p.width

/-- Where a thread is in a call of the allocator. -/
inductive Pc (p : Platform) where
  /-- In the program. -/
  | idle
  /-- `alloc_small`: in `lock`. -/
  | allocLock (layout : Layout p.width) (idx : ℕ)
  /-- About to test `heads[idx].is_null()`. -/
  | allocHead (layout : Layout p.width) (idx : ℕ)
  /-- `refill`: about to map an arena. -/
  | refillMap (layout : Layout p.width) (idx : ℕ)
  /-- About to read `heads[idx]`. -/
  | refillHead (layout : Layout p.width) (idx base : ℕ)
  /-- In the loop, with `i` blocks to link. -/
  | refillLoop (layout : Layout p.width) (idx base i next : ℕ)
  /-- Back in `alloc_small`: about to read `heads[idx]`. -/
  | take (layout : Layout p.width) (idx : ℕ)
  /-- About to read the link of the block. -/
  | link (layout : Layout p.width) (idx blk : ℕ)
  /-- About to write `heads[idx]`. -/
  | setHead (layout : Layout p.width) (idx blk next : ℕ)
  /-- About to release the lock. -/
  | allocUnlock (layout : Layout p.width) (blk : ℕ)
  /-- `alloc`: about to map a large block. -/
  | largeMap (layout : Layout p.width)
  /-- `alloc` is about to return. -/
  | ret (layout : Layout p.width) (ptr : ℕ)
  /-- `free_small`: in `lock`. -/
  | freeLock (g : Grant p) (idx : ℕ)
  /-- About to read `heads[idx]`. -/
  | freeHead (g : Grant p) (idx : ℕ)
  /-- About to write the link of the block. -/
  | freeLink (g : Grant p) (idx head : ℕ)
  /-- About to write `heads[idx]`. -/
  | freeSet (g : Grant p) (idx : ℕ)
  /-- About to release the lock. -/
  | freeUnlock
  /-- `dealloc`: about to unmap a large block. -/
  | largeUnmap (g : Grant p)

namespace Pc

/-- The thread is between `lock` and `unlock`. -/
def inside : Pc p → Bool
  | allocHead .. | refillMap .. | refillHead .. | refillLoop .. | take .. | link .. | setHead ..
  | allocUnlock .. | freeHead .. | freeLink .. | freeSet .. | freeUnlock => true
  | _ => false

/-- The block that `alloc` will return, or that `dealloc` has still to give back. -/
def holds : Pc p → Option (Grant p)
  | allocUnlock layout blk => if blk = 0 then none else some ⟨blk, layout⟩
  | ret layout ptr => if ptr = 0 then none else some ⟨ptr, layout⟩
  | freeLock g _ | freeHead g _ | freeLink g _ _ | freeSet g _ | largeUnmap g => some g
  | _ => none

/-- The class that `alloc` or `dealloc` found for the layout. -/
def Classed : Pc p → Prop
  | allocLock layout idx | allocHead layout idx | refillMap layout idx
  | refillHead layout idx _ | refillLoop layout idx _ _ _ | take layout idx
  | link layout idx _ | setHead layout idx _ _ => classFor layout.size layout.align = some idx
  | freeLock g idx | freeHead g idx | freeLink g idx _ | freeSet g idx =>
    classFor g.layout.size g.layout.align = some idx
  | largeMap layout => classFor layout.size layout.align = none ∧ ¬ layout.align > gran
  | largeUnmap g => classFor g.layout.size g.layout.align = none
  | _ => True

end Pc

/-- The first turn of `alloc`. -/
def callAlloc (layout : Layout p.width) : Pc p :=
  match classFor layout.size layout.align with
  | some idx => .allocLock layout idx
  | none => if layout.align > gran then .ret layout 0 else .largeMap layout

/-- The first turn of `dealloc`. -/
def callDealloc (g : Grant p) : Pc p :=
  if g.ptr = 0 then .idle
  else
    match classFor g.layout.size g.layout.align with
    | some idx => .freeLock g idx
    | none => .largeUnmap g

/-- The `n` bytes at an address are mapped. -/
def Heap.backed (h : Heap) (a n : ℕ) : Bool := (List.range n).all fun i => h.mapped (a + i)

/-- The next turn of a thread. -/
def exec (p : Platform) (k : Kernel) (h : Heap) : Pc p → Option (Pc p × Heap)
  | .idle => none
  | .allocLock layout idx =>
    if h.locked then some (.allocLock layout idx, h)
    else some (.allocHead layout idx, { h with locked := true })
  | .allocHead layout idx => do
    let head ← h.free[idx]?
    some (if head = 0 then .refillMap layout idx else .take layout idx, h)
  | .refillMap layout idx =>
    let (base, h) := map p k h arena
    some (if base = 0 then .allocUnlock layout 0 else .refillHead layout idx base, h)
  | .refillHead layout idx base => do
    let next ← h.free[idx]?
    some (.refillLoop layout idx base (arena / classSize idx) next, h)
  | .refillLoop layout idx _ 0 next =>
    some (.take layout idx, { h with free := h.free.set idx next })
  | .refillLoop layout idx base (i + 1) next =>
    let blk := base + i * classSize idx
    if h.backed blk p.width.bytes then
      some (.refillLoop layout idx base i blk,
        { h with mem := store p.width.bytes h.mem blk next })
    else none
  | .take layout idx => do
    let blk ← h.free[idx]?
    some (.link layout idx blk, h)
  | .link layout idx blk =>
    if h.backed blk p.width.bytes then
      some (.setHead layout idx blk (load p.width.bytes h.mem blk), h)
    else none
  | .setHead layout idx blk next =>
    some (.allocUnlock layout blk, { h with free := h.free.set idx next })
  | .allocUnlock layout blk => some (.ret layout blk, h.unlock)
  | .largeMap layout =>
    let (ptr, h) := map p k h (roundUp p.width layout.size gran)
    some (.ret layout ptr, h)
  | .ret .. => none
  | .freeLock g idx =>
    if h.locked then some (.freeLock g idx, h)
    else some (.freeHead g idx, { h with locked := true })
  | .freeHead g idx => do
    let head ← h.free[idx]?
    some (.freeLink g idx head, h)
  | .freeLink g idx head =>
    if h.backed g.ptr p.width.bytes then
      some (.freeSet g idx, { h with mem := store p.width.bytes h.mem g.ptr head })
    else none
  | .freeSet g idx => some (.freeUnlock, { h with free := h.free.set idx g.ptr })
  | .freeUnlock => some (.idle, h.unlock)
  | .largeUnmap g => some (.idle, munmap p k h g.ptr (roundUp p.width g.layout.size gran))

/-- The heap, the blocks that the program owns, and where the threads are. -/
structure Threads (Tid : Type*) (p : Platform) where
  heap : Heap
  live : List (Grant p)
  pc : Tid → Pc p

namespace Threads

variable {Tid : Type*} [DecidableEq Tid]

/-- The turns of the threads.  Any thread may free any block that the program owns, and
write into it. -/
inductive Turn : Threads Tid p → Threads Tid p → Prop
  | call {s : Threads Tid p} (t : Tid) (layout : Layout p.width) (ht : s.pc t = .idle) :
      Turn s { s with pc := Function.update s.pc t (callAlloc layout) }
  | exec {s : Threads Tid p} (t : Tid) {k : Kernel} {q : Pc p} {h : Heap} (hk : k.Ok p s.heap)
      (hrun : exec p k s.heap (s.pc t) = some (q, h)) :
      Turn s { s with heap := h, pc := Function.update s.pc t q }
  | ret {s : Threads Tid p} (t : Tid) {layout : Layout p.width} {ptr : ℕ}
      (ht : s.pc t = .ret layout ptr) :
      Turn s { s with
        live := if ptr = 0 then s.live else ⟨ptr, layout⟩ :: s.live
        pc := Function.update s.pc t .idle }
  | free {s : Threads Tid p} (t : Tid) {g : Grant p} {l₁ l₂ : List (Grant p)}
      (ht : s.pc t = .idle) (hg : s.live = l₁ ++ g :: l₂) :
      Turn s { s with live := l₁ ++ l₂, pc := Function.update s.pc t (callDealloc g) }
  | write {s : Threads Tid p} {g : Grant p} {a : ℕ} {v : UInt8} (hg : g ∈ s.live)
      (ha : g.ptr ≤ a ∧ a < g.ptr + g.layout.size) :
      Turn s { s with heap := { s.heap with mem := Function.update s.heap.mem a v } }

/-- A new allocator in any process, and threads that have not called it. -/
def Begun (s : Threads Tid p) : Prop :=
  ∃ mem mapped, s = ⟨Heap.new mem mapped, [], fun _ => .idle⟩

/-- The states that the threads can reach. -/
def Reaches (s : Threads Tid p) : Prop := Reachable Begun Turn s

end Threads

end PureStd.Alloc
