/-
Standard output, `src/io.rs`, as a program over the mutex `STDOUT_LOCK`.

A call that prints passes its message to `write_all` in fragments, and `write_all` passes each
fragment to `write` until the kernel has taken all of it.  There are three routes.  `_print` (the
macros `print!` and `println!`) takes the lock once and writes under it.  On a handle from
`stdout()`, the calls `write!`, `writeln!` and `write_all` are the provided methods of `Write` over
`Stdout::write`, which takes the lock for one `write` to the descriptor.  On a `StdoutLock` the
same methods write under the lock that the program holds.

The kernel takes any number of the bytes it is given, at least one, or answers `EINTR`
(`Choice.wrote`, `Choice.interrupted`); other errors are not modelled.  The data is what is written
to the descriptor, each byte with the number of the call it belongs to, and the history: the calls
made, those that have returned, and those for which the kernel took less than it was given.
-/
import PureStd.Sync.Program

namespace PureStd.Io.Stdout

open Sync

/-- How a call writes. -/
inductive Route where
  /-- `print!` and `println!`. -/
  | print
  /-- `write!`, `writeln!` and `write_all` on a `Stdout`. -/
  | handle
  /-- The same on a `StdoutLock`. -/
  | locked
deriving DecidableEq, Repr

/-- A call, with the fragments of its message; `write_all` has one. -/
structure Printed where
  route : Route
  frags : List (List UInt8)
deriving DecidableEq, Repr

/-- A call in progress. -/
structure Job where
  /-- The number of the call. -/
  id : ℕ
  /-- What the kernel has taken. -/
  written : List UInt8
  /-- `buf` of `write_all`. -/
  rest : List UInt8
  /-- The fragments that `fmt::write` has still to pass on. -/
  frags : List (List UInt8)
deriving DecidableEq, Repr

/-- A call of which nothing has been passed on. -/
def Job.new (id : ℕ) (frags : List (List UInt8)) : Job := ⟨id, [], [], frags⟩

/-- The descriptor and the history. -/
structure Data where
  /-- What was written to descriptor 1. -/
  out : List (ℕ × UInt8)
  calls : List Printed
  /-- The calls that have returned. -/
  done : List ℕ
  /-- The calls for which a `write` was short. -/
  short : List ℕ
deriving DecidableEq, Repr

/-- Program points. -/
inductive Ctl where
  | idle
  /-- `_print`: `stdout().lock()`. -/
  | printLock (id : ℕ) (frags : List (List UInt8))
  /-- `write_fmt` or `write_all`. -/
  | body (r : Route) (j : Job)
  /-- `_print`: the `StdoutLock` is dropped. -/
  | printUnlock (j : Job)
  /-- `_print` returns. -/
  | printRet (j : Job)
  /-- `Stdout::write`: `self.lock()`. -/
  | writeLock (j : Job)
  /-- `Stdout::write`: `l.write(buf)`. -/
  | writeFd (j : Job)
  /-- `Stdout::write`: `l` is dropped. -/
  | writeUnlock (j : Job)
  /-- The program calls `Stdout::lock`. -/
  | lock
  /-- The program has a `StdoutLock`. -/
  | holding
  /-- The program drops its `StdoutLock`. -/
  | unlock
deriving DecidableEq, Repr

/-- A call returns. -/
def Data.finish (d : Data) (j : Job) : Data := { d with done := j.id :: d.done }

/-- A call is made. -/
def Data.begin (d : Data) (r : Route) (frags : List (List UInt8)) : Data :=
  { d with calls := d.calls ++ [⟨r, frags⟩] }

/-- The kernel takes `n` bytes. -/
def Data.put (d : Data) (j : Job) (n : ℕ) : Data :=
  { d with
    out := d.out ++ (j.rest.take n).map (j.id, ·)
    short := if n < j.rest.length then j.id :: d.short else d.short }

/-- `buf = &buf[n..]`. -/
def Job.take (j : Job) (n : ℕ) : Job :=
  { j with written := j.written ++ j.rest.take n, rest := j.rest.drop n }

/-- The steps between the calls of `write`. -/
def exec : Ctl → Data → Option (Ctl × Data)
  | .body r j, d =>
    if j.rest = [] then
      match j.frags with
      | f :: fs => some (.body r { j with rest := f, frags := fs }, d)
      | [] =>
        match r with
        | .print => some (.printUnlock j, d)
        | .handle => some (.idle, d.finish j)
        | .locked => some (.holding, d.finish j)
    else if r = .handle then some (.writeLock j, d)
    else none
  | .printRet j, d => some (.idle, d.finish j)
  | _, _ => none

/-- A thread at a `write` to the descriptor, and where it goes on. -/
def Ctl.writing : Ctl → Option (Job × (Job → Ctl))
  | body .print j => some (j, body .print)
  | body .locked j => some (j, body .locked)
  | writeFd j => some (j, writeUnlock)
  | _ => none

/-- What the program and the kernel may decide. -/
inductive Choice where
  /-- A thread makes a call. -/
  | call (r : Route) (frags : List (List UInt8))
  /-- A thread takes a `StdoutLock`. -/
  | lock
  /-- A thread drops its `StdoutLock`. -/
  | drop
  /-- The kernel takes `n` bytes. -/
  | wrote (n : ℕ)
  /-- The kernel answers `EINTR`, and `Fd::write` tries again. -/
  | interrupted
deriving DecidableEq, Repr

/-- The decisions. -/
def choose : Choice → Ctl → Data → Option (Ctl × Data)
  | .call .print frags, .idle, d =>
    some (.printLock d.calls.length frags, d.begin .print frags)
  | .call .handle frags, .idle, d =>
    some (.body .handle (.new d.calls.length frags), d.begin .handle frags)
  | .call .locked frags, .holding, d =>
    some (.body .locked (.new d.calls.length frags), d.begin .locked frags)
  | .lock, .idle, d => some (.lock, d)
  | .drop, .holding, d => some (.unlock, d)
  | .wrote n, k, d =>
    match k.writing with
    | some (j, back) =>
      if 1 ≤ n ∧ n ≤ j.rest.length then some (back (j.take n), d.put j n) else none
    | none => none
  | .interrupted, k, d =>
    match k.writing with
    | some (j, _) => if j.rest ≠ [] then some (k, d) else none
    | none => none
  | _, _, _ => none

/-- The calls of `Mutex::lock` and the drops of its guard. -/
def call : Ctl → Option (Call Unit × Ctl)
  | .printLock id frags => some (.lock, .body .print (.new id frags))
  | .printUnlock j => some (.unlock, .printRet j)
  | .writeLock j => some (.lock, .writeFd j)
  | .writeUnlock j => some (.unlock, .body .handle j)
  | .lock => some (.lock, .holding)
  | .unlock => some (.unlock, .idle)
  | _ => none

/-- A program whose threads print. -/
def program : Program Unit Ctl Data Choice where
  start := .idle
  init := ⟨[], [], [], []⟩
  exec := exec
  choose := choose
  call := call

/-! ### The guard of `STDOUT_LOCK` -/

/-- The thread has the guard. -/
def Ctl.locked : Ctl → Bool
  | body .print _ => true
  | body .locked _ => true
  | printUnlock _ => true
  | writeFd _ => true
  | writeUnlock _ => true
  | holding => true
  | unlock => true
  | _ => false

/-- Where `lock` returns. -/
def Ctl.landing : Ctl → Bool
  | body .print j => j.written = []
  | writeFd _ => true
  | holding => true
  | _ => false

/-- Where a thread writes, and where it goes on. -/
lemma writing_cases {k : Ctl} {j : Job} {back : Job → Ctl} (h : k.writing = some (j, back)) :
    (k = .body .print j ∧ back = .body .print) ∨ (k = .body .locked j ∧ back = .body .locked) ∨
      (k = .writeFd j ∧ back = .writeUnlock) := by
  cases k with
  | body r j =>
    cases r <;> simp only [Ctl.writing, Option.some.injEq, Prod.mk.injEq, reduceCtorEq] at h
    all_goals
      obtain ⟨rfl, rfl⟩ := h
      simp
  | writeFd j =>
    obtain ⟨rfl, rfl⟩ := by simpa [Ctl.writing] using h
    exact Or.inr (Or.inr ⟨rfl, rfl⟩)
  | _ => exact absurd h (by simp [Ctl.writing])

/-- A thread that writes goes on with the guard it has. -/
lemma writing_locked {k : Ctl} {j : Job} {back : Job → Ctl} (h : k.writing = some (j, back)) :
    k.locked = true ∧ ∀ j', (back j').locked = true := by
  rcases writing_cases h with ⟨rfl, rfl⟩ | ⟨rfl, rfl⟩ | ⟨rfl, rfl⟩ <;> exact ⟨rfl, fun _ => rfl⟩

/-- The guard of `STDOUT_LOCK` is where the source has it. -/
def discipline : Discipline program where
  locked := Ctl.locked
  landing := Ctl.landing
  landing_locked k h := by
    cases k with
    | body r j => cases r <;> first | rfl | exact absurd h (by simp [Ctl.landing])
    | writeFd j => rfl
    | holding => rfl
    | _ => exact absurd h (by simp [Ctl.landing])
  start := rfl
  exec k d k' d' h := by
    change exec k d = some (k', d') at h
    cases k with
    | body r j =>
      simp only [exec] at h
      split at h
      · split at h
        · obtain ⟨rfl, -⟩ := by simpa using h
          cases r <;> rfl
        · cases r <;> obtain ⟨rfl, -⟩ := by simpa using h
          all_goals rfl
      · split at h
        · rename_i hr
          obtain ⟨rfl, -⟩ := by simpa using h
          rw [hr]
          rfl
        · exact absurd h (by simp)
    | printRet j =>
      obtain ⟨rfl, -⟩ := by simpa [exec] using h
      rfl
    | _ => exact absurd h (by simp [exec])
  choose x k d k' d' h := by
    change choose x k d = some (k', d') at h
    cases x with
    | call r frags =>
      cases r <;> cases k <;>
        simp only [choose, Option.some.injEq, Prod.mk.injEq, reduceCtorEq] at h
      all_goals
        rw [← h.1]
        rfl
    | lock | drop =>
      cases k <;> simp only [choose, Option.some.injEq, Prod.mk.injEq, reduceCtorEq] at h
      rw [← h.1]
      rfl
    | wrote =>
      simp only [choose] at h
      split at h
      · rename_i j back hw
        split at h
        · obtain ⟨rfl, -⟩ := by simpa using h
          rw [(writing_locked hw).1, (writing_locked hw).2]
        · exact absurd h (by simp)
      · exact absurd h (by simp)
    | interrupted =>
      simp only [choose] at h
      split at h
      · split at h
        · obtain ⟨rfl, -⟩ := by simpa using h
          rfl
        · exact absurd h (by simp)
      · exact absurd h (by simp)
  call k c k' h := by
    change call k = some (c, k') at h
    cases k <;> simp only [call, Option.some.injEq, Prod.mk.injEq, reduceCtorEq] at h
    all_goals
      obtain ⟨rfl, rfl⟩ := h
      exact ⟨rfl, rfl⟩

end PureStd.Io.Stdout
