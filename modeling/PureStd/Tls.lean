/-
`thread_local!` of `src/tls.rs`.

A run of a process: threads start and exit, and call `LocalKey::with` on any keys, also from
inside an `init` function or a closure given to `with`.  The kernel gives a starting thread
an id that no live thread has; the id of a thread that has exited may come back.  Each of
the two statements of `with` that lock the registry is one step.  A panic aborts the
process, so it has no step.

A value is known by its box.  The boxes, the lookups and the runs of the closures are
recorded.
-/
import Mathlib.Data.Nat.Notation
import Mathlib.Logic.Function.Basic
import PureStd.Lib.Transition

namespace PureStd.Tls

/-- A `with` call that has called other code. -/
inductive Frame (Key : Type*) where
  /-- `(self.init)()`. -/
  | init (k : Key)
  /-- `f(value)`, with the value in box `p`. -/
  | inside (k : Key) (p : ℕ)
deriving DecidableEq, Repr

/-- What a thread does next. -/
inductive Op (Key : Type*) where
  /-- It runs the code on top of its stack. -/
  | run
  /-- `reg.lock().unwrap().get(&(tid, key)).copied()`. -/
  | lookup (k : Key)
  /-- `reg.lock().unwrap().insert((tid, key), p)`. -/
  | insert (k : Key) (p : ℕ)
deriving DecidableEq, Repr

/-- A thread, with its kernel id. -/
inductive Thread (Key : Type*) where
  | unborn
  | live (tid : UInt64) (op : Op Key) (stack : List (Frame Key))
  | exited (tid : UInt64)
deriving DecidableEq, Repr

/-- The id that a thread has or had. -/
def Thread.tid? {Key : Type*} : Thread Key → Option UInt64
  | unborn => none
  | live tid _ _ => some tid
  | exited tid => some tid

structure State (Tid Key : Type*) where
  /-- `REGISTRY`. -/
  registry : UInt64 × Key → Option ℕ
  threads : Tid → Thread Key
  /-- The boxes: the thread that ran `init`, and the key. -/
  boxes : List (Tid × Key)
  /-- The lookups and what they found. -/
  looked : List (Tid × Key × Option ℕ)
  /-- The closures that have begun to run, with their boxes. -/
  ran : List (Tid × Key × ℕ)
  /-- The calls that a thread made on a key while it ran `init` for that key. -/
  reentered : List (Tid × Key)

variable {Tid Key : Type*}

/-- No thread has started. -/
def State.start : State Tid Key where
  registry _ := none
  threads _ := .unborn
  boxes := []
  looked := []
  ran := []
  reentered := []

/-- What the code of a thread may do. -/
inductive Choice (Key : Type*) where
  /-- `with` on a key. -/
  | call (k : Key)
  /-- The `init` function or the closure on top of the stack returns. -/
  | ret
  /-- `thread_exit`. -/
  | exit

variable [DecidableEq Tid] [DecidableEq Key]

/-- Thread `t` goes on as `th`. -/
def State.goto (s : State Tid Key) (t : Tid) (th : Thread Key) : State Tid Key :=
  { s with threads := Function.update s.threads t th }

/-- The accesses of `with` to the registry. -/
def State.exec (s : State Tid Key) (t : Tid) : Option (State Tid Key) :=
  match s.threads t with
  | .live tid (.lookup k) stack =>
    match s.registry (tid, k) with
    | some p => some { s.goto t (.live tid .run (.inside k p :: stack)) with
        looked := s.looked ++ [(t, k, some p)], ran := s.ran ++ [(t, k, p)] }
    | none => some { s.goto t (.live tid .run (.init k :: stack)) with
        looked := s.looked ++ [(t, k, none)] }
  | .live tid (.insert k p) stack => some { s.goto t (.live tid .run (.inside k p :: stack)) with
      registry := Function.update s.registry (tid, k) (some p), ran := s.ran ++ [(t, k, p)] }
  | _ => none

/-- A decision of the code of a thread. -/
def State.choose (s : State Tid Key) (t : Tid) : Choice Key → Option (State Tid Key)
  | .call k =>
    match s.threads t with
    | .live tid .run stack => some { s.goto t (.live tid (.lookup k) stack) with
        reentered := if .init k ∈ stack then s.reentered ++ [(t, k)] else s.reentered }
    | _ => none
  | .ret =>
    match s.threads t with
    -- `Box::into_raw(Box::new(..))`
    | .live tid .run (.init k :: stack) =>
      some { s.goto t (.live tid (.insert k s.boxes.length) stack) with
        boxes := s.boxes ++ [(t, k)] }
    | .live tid .run (.inside _ _ :: stack) => some (s.goto t (.live tid .run stack))
    | _ => none
  | .exit =>
    match s.threads t with
    | .live tid .run [] => some (s.goto t (.exited tid))
    | _ => none

/-- One step of the process. -/
inductive Step : State Tid Key → State Tid Key → Prop
  /-- The kernel starts a thread, with an id that no live thread has. -/
  | start {s : State Tid Key} (t : Tid) (tid : UInt64) (ht : s.threads t = .unborn)
      (hfree : ∀ u op stack, s.threads u ≠ .live tid op stack) :
      Step s (s.goto t (.live tid .run []))
  | exec {s s' : State Tid Key} (t : Tid) (h : s.exec t = some s') : Step s s'
  | choose {s s' : State Tid Key} (t : Tid) (x : Choice Key) (h : s.choose t x = some s') :
      Step s s'

/-- The states that the runs of a process reach. -/
def Reaches (s : State Tid Key) : Prop := Reachable (fun s => s = State.start) Step s

variable {s s' : State Tid Key} {t u : Tid} {k : Key}

/-- One turn of a schedule: a thread, with its choice if it makes one. -/
def State.turn (s : State Tid Key) : Tid × Option (Choice Key) → State Tid Key
  | (t, none) => (s.exec t).getD s
  | (t, some x) => (s.choose t x).getD s

lemma turn_step (s : State Tid Key) (a : Tid × Option (Choice Key)) :
    Step s (s.turn a) ∨ s.turn a = s := by
  obtain ⟨t, _ | x⟩ := a
  · cases h : s.exec t with
    | none => exact Or.inr (by simp [State.turn, h])
    | some s' => exact Or.inl (.exec t (by simp [State.turn, h]))
  · cases h : s.choose t x with
    | none => exact Or.inr (by simp [State.turn, h])
    | some s' => exact Or.inl (.choose t x (by simp [State.turn, h]))

/-! ### What a step can do -/

/-- The steps of thread `t`, one by one. -/
inductive Move (s : State Tid Key) (t : Tid) : State Tid Key → Prop
  | start (tid : UInt64) (ht : s.threads t = .unborn)
      (hfree : ∀ u op stack, s.threads u ≠ .live tid op stack) :
      Move s t (s.goto t (.live tid .run []))
  | exit (tid : UInt64) (ht : s.threads t = .live tid .run []) :
      Move s t (s.goto t (.exited tid))
  | call (tid : UInt64) (k : Key) (stack : List (Frame Key))
      (ht : s.threads t = .live tid .run stack) :
      Move s t { s.goto t (.live tid (.lookup k) stack) with
        reentered := if .init k ∈ stack then s.reentered ++ [(t, k)] else s.reentered }
  | hit (tid : UInt64) (k : Key) (p : ℕ) (stack : List (Frame Key))
      (ht : s.threads t = .live tid (.lookup k) stack) (hp : s.registry (tid, k) = some p) :
      Move s t { s.goto t (.live tid .run (.inside k p :: stack)) with
        looked := s.looked ++ [(t, k, some p)], ran := s.ran ++ [(t, k, p)] }
  | miss (tid : UInt64) (k : Key) (stack : List (Frame Key))
      (ht : s.threads t = .live tid (.lookup k) stack) (hp : s.registry (tid, k) = none) :
      Move s t { s.goto t (.live tid .run (.init k :: stack)) with
        looked := s.looked ++ [(t, k, none)] }
  | create (tid : UInt64) (k : Key) (stack : List (Frame Key))
      (ht : s.threads t = .live tid .run (.init k :: stack)) :
      Move s t { s.goto t (.live tid (.insert k s.boxes.length) stack) with
        boxes := s.boxes ++ [(t, k)] }
  | insert (tid : UInt64) (k : Key) (p : ℕ) (stack : List (Frame Key))
      (ht : s.threads t = .live tid (.insert k p) stack) :
      Move s t { s.goto t (.live tid .run (.inside k p :: stack)) with
        registry := Function.update s.registry (tid, k) (some p), ran := s.ran ++ [(t, k, p)] }
  | leave (tid : UInt64) (k : Key) (p : ℕ) (stack : List (Frame Key))
      (ht : s.threads t = .live tid .run (.inside k p :: stack)) :
      Move s t (s.goto t (.live tid .run stack))

lemma Step.move (h : Step s s') : ∃ t, Move s t s' := by
  cases h with
  | start t tid ht hfree => exact ⟨t, .start tid ht hfree⟩
  | exec t h =>
    unfold State.exec at h
    split at h
    · rename_i tid k stack ht
      split at h
      · rename_i p hp
        cases h
        exact ⟨t, .hit tid k p stack ht hp⟩
      · rename_i hp
        cases h
        exact ⟨t, .miss tid k stack ht hp⟩
    · rename_i tid k p stack ht
      cases h
      exact ⟨t, .insert tid k p stack ht⟩
    · cases h
  | choose t x h =>
    unfold State.choose at h
    cases x with
    | call k =>
      dsimp only at h
      split at h
      · rename_i tid stack ht
        cases h
        exact ⟨t, .call tid k stack ht⟩
      · cases h
    | ret =>
      dsimp only at h
      split at h
      · rename_i tid k stack ht
        cases h
        exact ⟨t, .create tid k stack ht⟩
      · rename_i tid k p stack ht
        cases h
        exact ⟨t, .leave tid k p stack ht⟩
      · cases h
    | exit =>
      dsimp only at h
      split at h
      · rename_i tid ht
        cases h
        exact ⟨t, .exit tid ht⟩
      · cases h

end PureStd.Tls
