/-
Futexes.

A futex is a 32-bit word on whose address threads sleep.  `futex_wait` is a loop of
three steps: a load of the word, the system call, which puts the thread to sleep if the
word still has the expected value, and the wake-up, after which the loop starts over.
`futex_wake` wakes one sleeper, and which one is up to the kernel; `futex_wake_all`
wakes all of them, and a sleeper may also wake up for no reason (`Futex.Rouses`).

The positions of the threads are of any type `P` that says where a thread sleeps and
how it looks once it is awake (`Sleeper`).
-/
import Mathlib.Logic.Function.Basic
import Mathlib.Tactic

namespace PureStd

/-- Where a thread is in `futex_wait`. -/
inductive WaitPc where
  /-- About to load the word. -/
  | load
  /-- About to enter the kernel, which compares once more. -/
  | enter
  /-- In the kernel. -/
  | asleep
  /-- The loop has ended. -/
  | done
deriving DecidableEq, Repr

/-- A step of `futex_wait` for a word that holds `cur`.  A thread that is asleep has no
step of its own. -/
def WaitPc.exec (cur expected : UInt32) : WaitPc → Option WaitPc
  | load => some (if cur = expected then enter else done)
  | enter => some (if cur = expected then asleep else load)
  | asleep => none
  | done => none

/-- A thread falls asleep only while the word has the expected value. -/
lemma WaitPc.eq_of_exec_asleep {cur expected : UInt32} {w : WaitPc}
    (h : w.exec cur expected = some .asleep) : cur = expected := by
  cases w with
  | load =>
    simp only [WaitPc.exec, Option.some.injEq] at h
    split at h <;> exact absurd h (by simp)
  | enter =>
    by_contra hne
    exact absurd h (by simp [WaitPc.exec, hne])
  | asleep | done => exact absurd h (by simp [WaitPc.exec])

/-- The loop ends only at another value. -/
lemma WaitPc.ne_of_exec_done {cur expected : UInt32} {w : WaitPc}
    (h : w.exec cur expected = some .done) : cur ≠ expected := by
  rintro rfl
  cases w <;> exact absurd h (by simp [WaitPc.exec])

/-- Positions of threads that may sleep on addresses of type `A`. -/
class Sleeper (P : Type*) (A : outParam Type*) where
  /-- The address on which a thread in this position sleeps. -/
  asleepOn : P → Option A
  /-- The position of the thread after it woke up. -/
  awaken : P → P

namespace Futex

open Sleeper

variable {Tid P A : Type*} [DecidableEq Tid] [DecidableEq A] [Sleeper P A]

/-- `futex_wake`: some thread that sleeps on `a` wakes up, if there is one. -/
def WakeOne (a : A) (pc pc' : Tid → P) : Prop :=
  (∃ u, asleepOn (pc u) = some a ∧ pc' = Function.update pc u (awaken (pc u))) ∨
    ((∀ u, asleepOn (pc u) ≠ some a) ∧ pc' = pc)

/-- `futex_wake_all`: all threads that sleep on `a` wake up. -/
def wakeAll (a : A) (pc : Tid → P) : Tid → P := fun u =>
  if asleepOn (pc u) = some a then awaken (pc u) else pc u

/-- `futex_wake` or `futex_wake_all`. -/
def Wake (all : Bool) (a : A) (pc pc' : Tid → P) : Prop :=
  if all then pc' = wakeAll a pc else WakeOne a pc pc'

variable {a : A} {pc pc' : Tid → P}

/-- What happens to sleepers: a thread calls `futex_wake` or `futex_wake_all`, or a thread in
the kernel wakes up for no reason.  `waker` gives the call that a thread is about to make: all
sleepers or one, the address, and where the thread goes on. -/
inductive Rouses (waker : Tid → P → Option (Bool × A × P)) (pc : Tid → P) : (Tid → P) → Prop
  | wake (t : Tid) {all : Bool} {a : A} {next : P} {pc' : Tid → P}
      (h : waker t (pc t) = some (all, a, next))
      (hwake : Wake all a (Function.update pc t next) pc') : Rouses waker pc pc'
  | spurious (t : Tid) {a : A} (h : asleepOn (pc t) = some a) :
      Rouses waker pc (Function.update pc t (awaken (pc t)))

/-- A wake-up leaves each thread as it was or wakes it. -/
lemma Wake.cases {all : Bool} (h : Wake all a pc pc') (u : Tid) :
    pc' u = pc u ∨ (asleepOn (pc u) = some a ∧ pc' u = awaken (pc u)) := by
  cases all with
  | false =>
    rcases h with ⟨v, hv, rfl⟩ | ⟨-, rfl⟩
    · by_cases huv : u = v
      · subst huv
        exact Or.inr ⟨hv, Function.update_self ..⟩
      · exact Or.inl (Function.update_of_ne huv ..)
    · exact Or.inl rfl
  | true =>
    obtain rfl : pc' = wakeAll a pc := h
    by_cases hu : asleepOn (pc u) = some a
    · exact Or.inr ⟨hu, if_pos hu⟩
    · exact Or.inl (if_neg hu)

/-- What holds of a thread, also after its call of `futex_wake`, and stays so when it wakes up,
holds afterwards. -/
lemma Rouses.keeps {waker : Tid → P → Option (Bool × A × P)} (h : Rouses waker pc pc') {u : Tid}
    {K : P → Prop} (hwake : ∀ {all a next}, waker u (pc u) = some (all, a, next) → K next)
    (hawake : ∀ {p} {a : A}, asleepOn p = some a → K p → K (awaken p)) (hu : K (pc u)) :
    K (pc' u) := by
  cases h with
  | @wake t all a next _ h hw =>
    have hmoved : K (Function.update pc t next u) := by
      by_cases hut : u = t
      · subst hut
        rw [Function.update_self]
        exact hwake h
      · rwa [Function.update_of_ne hut]
    rcases hw.cases u with heq | ⟨ha, heq⟩
    · rwa [heq]
    · rw [heq]
      exact hawake ha hmoved
  | @spurious t a h =>
    by_cases hut : u = t
    · subst hut
      rw [Function.update_self]
      exact hawake h hu
    · rwa [Function.update_of_ne hut]

/-- A wake-up on an address on which somebody sleeps wakes somebody. -/
lemma Wake.exists_awoken {all : Bool} (h : Wake all a pc pc') {v : Tid}
    (hv : asleepOn (pc v) = some a) :
    ∃ u, asleepOn (pc u) = some a ∧ pc' u = awaken (pc u) := by
  cases all with
  | false =>
    rcases h with ⟨u, hu, rfl⟩ | ⟨hno, -⟩
    · exact ⟨u, hu, Function.update_self ..⟩
    · exact absurd hv (hno v)
  | true =>
    obtain rfl : pc' = wakeAll a pc := h
    exact ⟨v, hv, if_pos hv⟩

omit [DecidableEq Tid] in
/-- After `futex_wake_all` nobody sleeps on the address, if who wakes up is awake. -/
lemma asleepOn_wakeAll (hawaken : ∀ p : P, asleepOn (awaken p) = none) (a : A) (pc : Tid → P)
    (u : Tid) : asleepOn (wakeAll a pc u) ≠ some a := by
  rw [wakeAll]
  split
  · rw [hawaken]
    simp
  · assumption

end Futex

end PureStd
