/-
The global allocator of `src/allocator.rs`: free lists threaded through the freed
blocks, refilled from arenas, and a mapping of its own for every large block.

The allocator owns nothing but a lock and nine list heads; everything else is in the
memory of the process.  So the functions work on a `Heap`, which holds the fields of
`Allocator`, the bytes of memory and which addresses are mapped.  A function that spins
on a lock that nobody will release, or indexes out of bounds, has no result.

The kernel is a parameter of each call.  What it may answer is stated in `Kernel.Ok`:
regions of whole pages that are not mapped at that moment, and nothing more.
-/
import PureStd.Target
import PureStd.Lib.ByteMemory

namespace PureStd.Alloc

open ByteMemory

/-- The targets, as far as the allocator depends on them. -/
inductive Platform where
  | linux (w : PtrWidth)
  | macosX64
  | macosArm64
  | wasm
deriving DecidableEq, Repr

namespace Platform

/-- The width of a pointer. -/
def width : Platform → PtrWidth
  | linux w => w
  | macosX64 => .w64
  | macosArm64 => .w64
  | wasm => .w32

/-- The size of a page, to which `mmap` aligns its results. -/
def page : Platform → ℕ
  | linux _ => 4096
  | macosX64 => 4096
  | macosArm64 => 16384
  | wasm => 65536

/-- The length of the pages that hold `len` bytes. -/
def pages (p : Platform) (len : ℕ) : ℕ := (len + p.page - 1) / p.page * p.page

end Platform

/-! ### The constants -/

/-- `GRAN`. -/
def gran : ℕ := 16384

/-- `MIN_MAP_ALIGN`. -/
def minMapAlign : ℕ := 4096

/-- `MIN_SHIFT`. -/
def minShift : ℕ := 4

/-- `MAX_SMALL`. -/
def maxSmall : ℕ := minMapAlign

/-- `NUM_CLASSES`. -/
def numClasses : ℕ := 12 - minShift + 1

/-- `ARENA`. -/
def arena : ℕ := 1 <<< 20

/-! ### The process -/

/-- A change of the mapped regions. -/
inductive SysCall where
  | map (r : Region)
  | unmap (r : Region)
deriving DecidableEq, Repr

/-- The allocator and the memory it works on. -/
structure Heap where
  /-- `Allocator::lock`. -/
  locked : Bool
  /-- `Allocator::free`: the heads of the free lists. -/
  free : List ℕ
  mem : ℕ → UInt8
  mapped : ℕ → Bool
  /-- What the allocator had the kernel do, in order. -/
  calls : List SysCall

/-- `Allocator::new`, in a process with some memory. -/
def Heap.new (mem : ℕ → UInt8) (mapped : ℕ → Bool) : Heap where
  locked := false
  free := List.replicate numClasses 0
  mem := mem
  mapped := mapped
  calls := []

/-- The kernel grants a region.  Anonymous memory is zero. -/
def Heap.mapRegion (h : Heap) (r : Region) : Heap :=
  { h with
    mem := fun a => if r.Has a then 0 else h.mem a
    mapped := fun a => if r.Has a then true else h.mapped a
    calls := h.calls ++ [.map r] }

/-- The kernel takes a region back. -/
def Heap.unmapRegion (h : Heap) (r : Region) : Heap :=
  { h with
    mapped := fun a => if r.Has a then false else h.mapped a
    calls := h.calls ++ [.unmap r] }

/-- The answers of the kernel to the system calls of one call of the allocator. -/
structure Kernel where
  /-- `mmap` of so many bytes returns an address, or fails.  `memory_grow` by so many
  pages returns the previous number of pages, or fails. -/
  ask : ℕ → Option ℕ
  /-- `munmap` succeeds. -/
  release : Bool

/-- The region is in the address space and none of it is mapped. -/
def Heap.Fresh (p : Platform) (h : Heap) (r : Region) : Prop :=
  r.base + r.len ≤ p.width.size ∧ ∀ a, r.Has a → h.mapped a = false

/-- The contract of the kernel: it grants page-aligned regions that are not mapped. -/
def Kernel.Ok (k : Kernel) (p : Platform) (h : Heap) : Prop :=
  match p with
  | .wasm => ∀ pages prev, k.ask pages = some prev →
      h.Fresh p ⟨prev * p.page, pages * p.page⟩
  | _ => ∀ len base, k.ask len = some base → p.page ∣ base ∧ h.Fresh p ⟨base, p.pages len⟩

/-! ### The functions of the source -/

/-- `round_up`. -/
def roundUp (w : PtrWidth) (v unit : ℕ) : ℕ :=
  w.wrap (v + unit - 1) &&& (w.size - 1 - (unit - 1))

/-- `map` on targets with `mmap`. -/
def mapMmap (p : Platform) (k : Kernel) (h : Heap) (len : ℕ) : ℕ × Heap :=
  match k.ask len with
  | some base => (base, h.mapRegion ⟨base, p.pages len⟩)
  | none => (0, h)

/-- `map` on wasm. -/
def mapWasm (k : Kernel) (h : Heap) (len : ℕ) : ℕ × Heap :=
  let page := Platform.wasm.page
  let pages := (len + page - 1) / page
  match k.ask pages with
  | none => (0, h)
  | some prev => (prev * page, h.mapRegion ⟨prev * page, pages * page⟩)

/-- `map`. -/
def map (p : Platform) (k : Kernel) (h : Heap) (len : ℕ) : ℕ × Heap :=
  match p with
  | .wasm => mapWasm k h len
  | _ => mapMmap p k h len

/-- `syscall::munmap`, which on wasm does nothing. -/
def munmap (p : Platform) (k : Kernel) (h : Heap) (addr len : ℕ) : Heap :=
  match p with
  | .wasm => h
  | _ => if k.release then h.unmapRegion ⟨addr, p.pages len⟩ else h

/-- The loop of `class_for`. -/
def classForLoop (need shift : ℕ) : ℕ :=
  if 1 <<< shift < need then classForLoop need (shift + 1) else shift
termination_by need - 1 <<< shift
decreasing_by
  have hpos : 0 < 1 <<< shift := by rw [Nat.one_shiftLeft]; positivity
  omega

/-- `class_for`. -/
def classFor (size align : ℕ) : Option ℕ :=
  let need := max (max size align) (1 <<< minShift)
  if need > maxSmall then none else some (classForLoop need minShift - minShift)

/-- `class_size`. -/
def classSize (idx : ℕ) : ℕ := 1 <<< (idx + minShift)

/-- `Allocator::lock`. -/
def Heap.lock (h : Heap) : Option Heap := if h.locked then none else some { h with locked := true }

/-- `Allocator::unlock`. -/
def Heap.unlock (h : Heap) : Heap := { h with locked := false }

/-- The loop of `Allocator::refill`, which links the blocks from the last one down. -/
def refillLoop (w : PtrWidth) (base block : ℕ) : ℕ → ℕ → (ℕ → UInt8) → ℕ × (ℕ → UInt8)
  | 0, next, mem => (next, mem)
  | i + 1, next, mem =>
    let blk := base + i * block
    refillLoop w base block i blk (store w.bytes mem blk next)

/-- `Allocator::refill`. -/
def refill (p : Platform) (k : Kernel) (h : Heap) (idx : ℕ) : Option (Heap × Bool) :=
  let block := classSize idx
  let (base, h) := map p k h arena
  if base = 0 then some (h, false)
  else do
    let count := arena / block
    let next ← h.free[idx]?
    let (next, mem) := refillLoop p.width base block count next h.mem
    some ({ h with mem := mem, free := h.free.set idx next }, true)

/-- `Allocator::alloc_small`. -/
def allocSmall (p : Platform) (k : Kernel) (h : Heap) (idx : ℕ) : Option (Heap × ℕ) := do
  let h ← h.lock
  let head ← h.free[idx]?
  let (h, filled) ← (if head = 0 then refill p k h idx else some (h, true))
  if filled then
    let blk ← h.free[idx]?
    let next := load p.width.bytes h.mem blk
    some ({ h with free := h.free.set idx next }.unlock, blk)
  else some (h.unlock, 0)

/-- `Allocator::free_small`. -/
def freeSmall (p : Platform) (h : Heap) (idx ptr : ℕ) : Option Heap := do
  let h ← h.lock
  let head ← h.free[idx]?
  some { h with mem := store p.width.bytes h.mem ptr head, free := h.free.set idx ptr }.unlock

/-- `Layout`: what `GlobalAlloc` may be asked for. -/
structure Layout (w : PtrWidth) where
  size : ℕ
  align : ℕ
  size_pos : 0 < size
  align_pow : ∃ k, align = 2 ^ k
  fits : (size + align - 1) / align * align ≤ w.isizeMax

/-- `GlobalAlloc::alloc`. -/
def alloc (p : Platform) (k : Kernel) (h : Heap) (layout : Layout p.width) : Option (Heap × ℕ) :=
  match classFor layout.size layout.align with
  | some idx => allocSmall p k h idx
  | none =>
    if layout.align > gran then some (h, 0)
    else
      let (ptr, h) := map p k h (roundUp p.width layout.size gran)
      some (h, ptr)

/-- `GlobalAlloc::dealloc`. -/
def dealloc (p : Platform) (k : Kernel) (h : Heap) (ptr : ℕ) (layout : Layout p.width) :
    Option Heap :=
  if ptr = 0 then some h
  else
    match classFor layout.size layout.align with
    | some idx => freeSmall p h idx ptr
    | none => some (munmap p k h ptr (roundUp p.width layout.size gran))

end PureStd.Alloc
