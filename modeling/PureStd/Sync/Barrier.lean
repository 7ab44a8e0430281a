/-
`Barrier` of `src/sync.rs`, as a program over its mutex and condition variable.

Every access to a field of `BarrierState` is one operation of a thread (`Barrier.exec`);
`lock`, the drop of the guard, `wait` and `notify_all` are calls of the functions of
`sync.rs` (`Barrier.call`).  The last thread of a generation notifies while it has the guard.
Any number of threads call `Barrier::wait` any number of times.

The history is recorded next to the data of the source: the calls in the order in which they
add to `count`, with the generation that each has read, the number of generations that are
complete, and the calls that have returned.
-/
import PureStd.Sync.Program
import PureStd.Target

namespace PureStd.Sync.Barrier

/-- `BarrierState` and the history. -/
structure Data where
  count : ℕ
  generation : ℕ
  /-- The generations that the calls have read, in the order of `count += 1`. -/
  arrivals : List ℕ
  /-- The number of times that `generation` was incremented. -/
  completed : ℕ
  /-- The calls that have returned, and whether they returned a leader. -/
  answers : List (ℕ × Bool)
deriving DecidableEq, Repr

/-- `Barrier::new`. -/
def Data.new : Data := ⟨0, 0, [], 0, []⟩

/-- Program points; `i` is the number of the call, and `g` the local variable `gen`. -/
inductive Ctl where
  | idle
  /-- `self.state.lock()`. -/
  | lock
  /-- `let gen = state.generation`. -/
  | read
  /-- `state.count += 1`. -/
  | add (g : ℕ)
  /-- `if state.count < self.n`. -/
  | test (i g : ℕ)
  /-- `while gen == state.generation`. -/
  | check (i g : ℕ)
  /-- `self.cv.wait(state)`. -/
  | wait (i g : ℕ)
  /-- `state.count = 0`. -/
  | reset (i : ℕ)
  /-- `state.generation = state.generation.wrapping_add(1)`. -/
  | bump (i : ℕ)
  /-- `self.cv.notify_all()`. -/
  | notify (i : ℕ)
  /-- The guard is dropped. -/
  | unlock (i : ℕ) (leader : Bool)
  /-- `Barrier::wait` returns. -/
  | ret (i : ℕ) (leader : Bool)
  /-- The program has the answer. -/
  | returned (leader : Bool)
deriving DecidableEq, Repr

/-- The operations on the fields of `BarrierState`, and the returns. -/
def exec (n : ℕ) (w : PtrWidth) : Ctl → Data → Option (Ctl × Data)
  | .read, d => some (.add d.generation, d)
  | .add g, d =>
    some (.test d.arrivals.length g, { d with
      count := d.count + 1
      arrivals := d.arrivals ++ [g] })
  | .test i g, d => some (if d.count < n then .check i g else .reset i, d)
  | .check i g, d => some (if g = d.generation then .wait i g else .unlock i false, d)
  | .reset i, d => some (.bump i, { d with count := 0 })
  | .bump i, d =>
    some (.notify i, { d with
      generation := w.wrap (d.generation + 1)
      completed := d.completed + 1 })
  | .ret i leader, d => some (.returned leader, { d with answers := d.answers ++ [(i, leader)] })
  | _, _ => none

/-- What a thread may do. -/
inductive Choice where
  /-- It calls `Barrier::wait`. -/
  | wait
  /-- It goes on after the call. -/
  | resume

/-- The decisions of a thread. -/
def choose : Choice → Ctl → Data → Option (Ctl × Data)
  | .wait, .idle, d => some (.lock, d)
  | .resume, .returned _, d => some (.idle, d)
  | _, _, _ => none

/-- The calls of the functions of `sync.rs`. -/
def call : Ctl → Option (Call Unit × Ctl)
  | .lock => some (.lock, .read)
  | .wait i g => some (.wait (), .check i g)
  | .notify i => some (.notify true (), .unlock i true)
  | .unlock i leader => some (.unlock, .ret i leader)
  | _ => none

/-- Threads that use one barrier for `n` threads. -/
def program (n : ℕ) (w : PtrWidth) : Program Unit Ctl Data Choice where
  start := .idle
  init := .new
  exec := exec n w
  choose := choose
  call := call

/-! ### The guard -/

/-- The thread has the guard. -/
def Ctl.locked : Ctl → Bool
  | idle => false
  | lock => false
  | ret _ _ => false
  | returned _ => false
  | _ => true

/-- Where `lock`, `wait` and `notify_all` return. -/
def Ctl.landing : Ctl → Bool
  | read => true
  | check _ _ => true
  | unlock _ _ => true
  | _ => false

/-- The guard is where the source has it. -/
def discipline (n : ℕ) (w : PtrWidth) : Discipline (program n w) where
  locked := Ctl.locked
  landing := Ctl.landing
  landing_locked k h := by cases k <;> first | rfl | exact absurd h (by simp [Ctl.landing])
  start := rfl
  exec k d k' d' h := by
    change exec n w k d = some (k', d') at h
    cases k <;> simp only [exec, Option.some.injEq, Prod.mk.injEq, reduceCtorEq] at h
    all_goals
      rw [← h.1]
      repeat' split
      all_goals rfl
  choose x k d k' d' h := by
    change choose x k d = some (k', d') at h
    cases x <;> cases k <;>
      simp only [choose, Option.some.injEq, Prod.mk.injEq, reduceCtorEq] at h
    all_goals
      rw [← h.1]
      rfl
  call k c k' h := by
    change call k = some (c, k') at h
    cases k <;> simp only [call, Option.some.injEq, Prod.mk.injEq, reduceCtorEq] at h
    all_goals
      obtain ⟨rfl, rfl⟩ := h
      first | exact ⟨rfl, rfl⟩ | exact ⟨rfl, fun _ => rfl⟩

end PureStd.Sync.Barrier
