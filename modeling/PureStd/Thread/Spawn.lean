/-
`Builder::spawn`, `thread_start` and `JoinHandle` of `src/thread.rs`.

A call of `spawn` maps a stack, allocates a packet that the handle and the thread share
through an `Arc`, and boxes a payload for the thread.  The thread takes the payload out of
its box, runs the closure, publishes the value in the packet, wakes who joins and releases
the packet; `thread_exit` then gives the stack back on macOS and keeps it on Linux.  If the
thread cannot be created, `spawn` reclaims everything.  The handle is joined, dropped, or
asked any number of times whether the thread has finished.

The parent and the child take turns in any order.  An access to the packet or to the payload
after it was freed sets `fault`.
-/
import PureStd.Lib.Machine
import PureStd.Lib.WordMask
import PureStd.Target

namespace PureStd.Thread.Spawn

open Sleeper

/-- The caller of `spawn` and the thread that it spawns. -/
inductive Side where
  | parent
  | child
deriving DecidableEq, Repr

/-- A mapped region. -/
structure Stack where
  base : ℕ
  size : ℕ
deriving DecidableEq, Repr

/-- `DEFAULT_STACK`. -/
def defaultStack : ℕ := 2 * 1024 * 1024

/-- The size of the stack for the size that `Builder::stack_size` has set: up to a multiple of
16 KiB. -/
def stackSize (w : PtrWidth) (size : Option ℕ) : ℕ :=
  w.wrap (size.getD defaultStack + 0x3fff) &&& (w.size - 1 - 0x3fff)

/-- `stack_top`. -/
def stackTop (w : PtrWidth) (k : Stack) : ℕ := w.wrap (k.base + k.size) &&& (w.size - 1 - 15)

/-- Why `spawn` failed. -/
inductive SpawnError where
  /-- The error of `mmap_anon`. -/
  | map (errno : ℕ)
  /-- "failed to spawn OS thread", of the kind `Other`. -/
  | os
deriving DecidableEq, Repr

variable {V : Type*}

/-- How it ends for the parent. -/
inductive Outcome (V : Type*) where
  | failed (e : SpawnError)
  /-- The handle was dropped. -/
  | detached
  | joined (v : V)
  /-- `expect("thread finished without producing a result")`. -/
  | panicked
deriving DecidableEq, Repr

/-- Where a thread is. -/
inductive Pc (V : Type*) where
  /-- `spawn`: `mmap_anon`. -/
  | mapStack
  /-- `spawn`: `Arc::new(Packet { .. })`. -/
  | newPacket (k : Stack)
  /-- `spawn`: `packet.clone()` and `Box::new(Payload { .. })`. -/
  | newPayload (k : Stack)
  /-- `spawn`: `spawn_os`. -/
  | spawnOs (k : Stack)
  /-- `spawn`, after an error: `drop(Box::from_raw(arg))`. -/
  | dropPayload (k : Stack)
  /-- `spawn`, after an error: `munmap(base, stack_size)`. -/
  | unmap (k : Stack)
  /-- The parent releases its reference to the packet. -/
  | dropPacket (o : Outcome V)
  /-- The parent has a handle. -/
  | handle
  /-- `is_finished`: the load. -/
  | loadState
  /-- `is_finished` has returned. -/
  | answered (b : Bool)
  /-- `join`: `futex_wait(&self.packet.state, 0)`. -/
  | joinWait (w : WaitPc)
  /-- `join`: `take()` and `expect(..)`. -/
  | joinTake
  | ended (o : Outcome V)
  /-- The thread has not begun. -/
  | unborn
  /-- `thread_start`: the closure runs. -/
  | body (k : Stack)
  /-- `thread_start`: `*packet.result.get() = Some(value)`. -/
  | publish (k : Stack) (v : V)
  /-- `thread_start`: `packet.state.store(1)`. -/
  | store (k : Stack)
  /-- `thread_start`: `futex_wake(&packet.state)`. -/
  | wake (k : Stack)
  /-- `thread_start`: `drop(packet)`. -/
  | release (k : Stack)
  /-- `thread_start`: `thread_exit(stack_base, stack_size)`. -/
  | exit (k : Stack)
  | exited
deriving DecidableEq, Repr

/-- What the two threads share. -/
structure Job (V : Type*) where
  /-- The region that is mapped for the stack. -/
  stack : Option Stack
  /-- The packet is allocated. -/
  packet : Bool
  /-- The count of the `Arc`. -/
  refs : ℕ
  state : UInt32
  result : Option V
  /-- The contents of the box, while it is allocated: the arguments of `thread_exit`. -/
  payload : Option Stack
  /-- The stack pointer of the thread that the kernel has created. -/
  sp : Option ℕ
  /-- Something was used after it was freed. -/
  fault : Bool
  /-- History: the parent has a reference to the packet. -/
  parentRef : Bool
  /-- History: the payload or the child has a reference to the packet. -/
  childRef : Bool
  /-- History: the value that the closure has returned. -/
  produced : Option V
  /-- History: `join` has taken the result. -/
  taken : Bool
  /-- History: `is_finished` has returned `true`. -/
  seen : Bool
deriving DecidableEq, Repr

/-- Before the call of `spawn`. -/
def Job.new (V : Type*) : Job V :=
  { stack := none, packet := false, refs := 0, state := 0, result := none, payload := none,
    sp := none, fault := false, parentRef := false, childRef := false, produced := none,
    taken := false, seen := false }

/-- `Arc::new(Packet { state: 0, result: None })`. -/
def Job.newPacket (d : Job V) : Job V :=
  { d with packet := true, refs := 1, state := 0, result := none, parentRef := true }

/-- An access to the packet. -/
def Job.touch (d : Job V) : Job V := if d.packet then d else { d with fault := true }

/-- `packet.clone()` and `Box::new(Payload { .. })`. -/
def Job.box (d : Job V) (k : Stack) : Job V :=
  { d.touch with refs := d.refs + 1, payload := some k, childRef := true }

/-- `drop` of a reference to the packet, which frees it if there is no other. -/
def Job.drop (d : Job V) : Job V :=
  if d.packet then
    { d with refs := d.refs - 1, packet := decide (d.refs ≠ 1),
             result := if d.refs = 1 then none else d.result }
  else { d with fault := true }

/-- The payload leaves its box, which is freed. -/
def Job.unbox (d : Job V) : Job V :=
  { d with payload := none, fault := d.fault || d.payload.isNone }

/-- `munmap`. -/
def Job.unmap (d : Job V) (k : Stack) : Job V :=
  { d with stack := if d.stack = some k then none else d.stack }

/-- What a thread may choose to do, and what the kernel may answer. -/
inductive Choice (V : Type*) where
  /-- `mmap` returns an address. -/
  | map (base : ℕ)
  /-- `mmap` fails. -/
  | refuseMap (errno : ℕ)
  /-- `spawn_os` returns `Ok`: the kernel has created the thread. -/
  | grant
  /-- `spawn_os` fails. -/
  | refuse
  | isFinished
  | resume
  | join
  /-- The handle is dropped. -/
  | detach
  /-- The closure returns. -/
  | finish (v : V)
deriving DecidableEq, Repr

/-- The operations of the two threads. -/
def exec (os : Os) : Side → Pc V → Job V → Option (Pc V × Job V)
  | .parent, .newPacket k, d => some (.newPayload k, d.newPacket)
  | .parent, .newPayload k, d => some (.spawnOs k, d.box k)
  | .parent, .dropPayload k, d => some (.unmap k, { d.drop.unbox with childRef := false })
  | .parent, .unmap k, d => some (.dropPacket (.failed .os), d.unmap k)
  | .parent, .dropPacket o, d => some (.ended o, { d.drop with parentRef := false })
  | .parent, .loadState, d =>
    some (.answered (d.state = 1), { d.touch with seen := d.seen || d.state = 1 })
  | .parent, .joinWait w, d =>
    (w.exec d.state 0).map fun w => (if w = .done then .joinTake else .joinWait w, d.touch)
  | .parent, .joinTake, d =>
    match d.result with
    | some v => some (.dropPacket (.joined v), { d.touch with result := none, taken := true })
    | none => some (.ended .panicked, d.touch)
  | .child, .unborn, d =>
    match d.sp, d.payload with
    | some _, some k => some (.body k, d.unbox)
    | some _, none => some (.exited, d.unbox)
    | none, _ => none
  | .child, .publish k v, d => some (.store k, { d.touch with result := some v })
  | .child, .store k, d => some (.wake k, { d.touch with state := 1 })
  | .child, .release k, d => some (.exit k, { d.drop with childRef := false })
  | .child, .exit k, d => some (.exited, if os = .macos then d.unmap k else d)
  | _, _, _ => none

/-- The choices of the threads and of the kernel.  It maps whole pages below the end of the
address space, and no empty region. -/
def choose (w : PtrWidth) (size : Option ℕ) :
    Side → Choice V → Pc V → Job V → Option (Pc V × Job V)
  | .parent, .map base, .mapStack, d =>
    let k : Stack := ⟨base, stackSize w size⟩
    if 0 < k.size ∧ 4096 ∣ base ∧ base + k.size < w.size then
      some (.newPacket k, { d with stack := some k })
    else none
  | .parent, .refuseMap errno, .mapStack, d => some (.ended (.failed (.map errno)), d)
  | .parent, .grant, .spawnOs k, d => some (.handle, { d with sp := some (stackTop w k) })
  | .parent, .refuse, .spawnOs k, d => some (.dropPayload k, d)
  | .parent, .isFinished, .handle, d => some (.loadState, d)
  | .parent, .resume, .answered _, d => some (.handle, d)
  | .parent, .join, .handle, d => some (.joinWait .load, d)
  | .parent, .detach, .handle, d => some (.dropPacket .detached, d)
  | .child, .finish v, .body k, d => some (.publish k v, { d with produced := some v })
  | _, _, _, _ => none

instance : Sleeper (Pc V) Unit where
  asleepOn
    | .joinWait .asleep => some ()
    | _ => none
  awaken
    | .joinWait _ => .joinWait .load
    | pc => pc

/-- One call of `spawn`, what the caller does with the handle, and the thread. -/
def machine (w : PtrWidth) (os : Os) (size : Option ℕ) (V : Type*) :
    Machine Side (Pc V) Unit (Job V) (Choice V) where
  start
    | .parent => .mapStack
    | .child => .unborn
  init := .new V
  exec := exec os
  choose := choose w size
  waker
    | .wake k => some (false, (), .release k)
    | _ => none

/-- The stack on which the thread runs, from its first instruction on. -/
def Pc.runsOn : Pc V → Option Stack
  | .body k | .publish k _ | .store k | .wake k | .release k | .exit k => some k
  | _ => none

/-! ### The size of the stack -/

lemma stackSize_eq (w : PtrWidth) (size : Option ℕ) :
    stackSize w size = w.wrap (size.getD defaultStack + 0x3fff) / 2 ^ 14 * 2 ^ 14 :=
  and_clear_low (k := 14) (by cases w <;> decide) (Nat.mod_lt _ (by cases w <;> decide))

/-- A stack is not smaller than what was asked for: a sum that wraps around is rounded to
nothing, and `mmap` refuses that. -/
lemma le_stackSize {w : PtrWidth} {size : Option ℕ} (h : size.getD defaultStack < w.size)
    (hpos : 0 < stackSize w size) : size.getD defaultStack ≤ stackSize w size := by
  rw [stackSize_eq] at hpos ⊢
  by_cases hwrap : size.getD defaultStack + 0x3fff < w.size
  · rw [PtrWidth.wrap_of_lt hwrap]
    omega
  · have hsize : 2 ^ 14 ≤ w.size := by cases w <;> decide
    have hsmall : w.wrap (size.getD defaultStack + 0x3fff) < 2 ^ 14 := by
      rw [PtrWidth.wrap, Nat.mod_eq_sub_mod (by omega), Nat.mod_eq_of_lt] <;> omega
    rw [Nat.div_eq_of_lt hsmall] at hpos
    omega

/-- The stack pointer of the thread is the end of the region. -/
lemma stackTop_eq {w : PtrWidth} {size : Option ℕ} {base : ℕ} (hbase : 4096 ∣ base)
    (h : base + stackSize w size < w.size) :
    stackTop w ⟨base, stackSize w size⟩ = base + stackSize w size ∧
      16 ∣ base + stackSize w size := by
  have hdvd : 16 ∣ base + stackSize w size := by
    refine Nat.dvd_add (dvd_trans (by norm_num) hbase) ?_
    rw [stackSize_eq]
    exact dvd_mul_of_dvd_right (by norm_num) _
  refine ⟨?_, hdvd⟩
  rw [stackTop, PtrWidth.wrap_of_lt h]
  refine (and_clear_low (n := w.bits) (k := 4) (by cases w <;> decide) h).trans ?_
  exact Nat.div_mul_cancel hdvd

end PureStd.Thread.Spawn
