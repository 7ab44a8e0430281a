/-
`Child::wait`, `src/process.rs`.

`wait` calls `wait4` with the pid of the child until it is not interrupted.  The kernel hands out
the status of a process once, and then the pid is free for another process.  The status is not
remembered, so a call of `wait` after one that returned `Ok` asks for a pid that does not belong
to the child any more (`wait_stable_iff`).

Processes are told apart by an identity that is never used again; the child has the identity 0.
Other processes are made and end at any time, and a zombie may be reaped by somebody else.
-/
import PureStd.Lib.Transition
import Mathlib.Logic.Function.Basic
import Mathlib.Tactic

namespace PureStd.Process.Wait

/-! ### The code -/

/-- `EINTR`. -/
def eintr : ℕ := 4

/-- `ECHILD`. -/
def echild : ℕ := 10

/-- The body of the loop of `wait`, for what `wait4` has returned; `none` is another turn. -/
def turn : Except ℕ ℤ → Option (Except ℕ ℤ)
  | .ok status => some (.ok status)
  | .error e => if e = eintr then none else some (.error e)

/-! ### The processes -/

/-- A child process of the caller. -/
structure Proc where
  id : ℕ
  /-- The status of a process that has ended. -/
  status : Option ℤ
deriving DecidableEq, Repr

/-- What happens in the calls of `wait`. -/
inductive Event where
  | called
  /-- `wait4`, with the process that has the pid at this time. -/
  | issued (target : Option ℕ)
  | returned (r : Except ℕ ℤ)

/-- The processes by their pids, and the calls of `wait` on the `Child` so far. -/
structure World where
  procs : ℕ → Option Proc
  /-- The identity of the next process. -/
  next : ℕ
  /-- The caller is in `wait4`. -/
  waiting : Bool
  /-- The status that `wait` returned first. -/
  first : Option ℤ
  /-- What has happened since. -/
  later : List Event

namespace World

/-- The identity of the process with a pid. -/
def target (w : World) (pid : ℕ) : Option ℕ := (w.procs pid).map Proc.id

/-- Record events that come after the first status. -/
def record (w : World) (es : List Event) : World :=
  if w.first.isSome then { w with later := w.later ++ es } else w

/-- `wait` returns. -/
def leave (w : World) (r : Except ℕ ℤ) : World :=
  match w.first, r with
  | none, .ok status => { w with waiting := false, first := some status }
  | _, _ => { w.record [.returned r] with waiting := false }

/-- `wait4` returns `r` to the loop. -/
def answer (w : World) (pid : ℕ) (r : Except ℕ ℤ) : World :=
  match turn r with
  | some r => w.leave r
  | none => w.record [.issued (w.target pid)]

end World

/-- The child runs or has ended, and `wait` was not called yet. -/
structure Start (pid : ℕ) (w : World) : Prop where
  child : w.target pid = some 0
  others : ∀ q, q ≠ pid → w.target q ≠ some 0
  next : 0 < w.next
  waiting : w.waiting = false
  first : w.first = none
  later : w.later = []

/-- One step of the caller or of another process. -/
inductive Step (pid : ℕ) (w : World) : World → Prop where
  /-- `wait` is called. -/
  | call (h : w.waiting = false) :
      Step pid w { w.record [.called, .issued (w.target pid)] with waiting := true }
  /-- `wait4` finds that the process has ended, and reaps it. -/
  | reap {id : ℕ} {status : ℤ} (h : w.waiting = true)
      (hproc : w.procs pid = some ⟨id, some status⟩) :
      Step pid w ({ w with procs := Function.update w.procs pid none }.answer pid (.ok status))
  /-- `wait4` finds no child with the pid. -/
  | noChild (h : w.waiting = true) (hproc : w.procs pid = none) :
      Step pid w (w.answer pid (.error echild))
  /-- A signal interrupts `wait4`. -/
  | interrupt (h : w.waiting = true) : Step pid w (w.answer pid (.error eintr))
  /-- A process is made, with any pid that is free. -/
  | fork {q : ℕ} (hfree : w.procs q = none) :
      Step pid w
        { w with procs := Function.update w.procs q (some ⟨w.next, none⟩), next := w.next + 1 }
  /-- A process ends. -/
  | exit {q id : ℕ} (status : ℤ) (hproc : w.procs q = some ⟨id, none⟩) :
      Step pid w { w with procs := Function.update w.procs q (some ⟨id, some status⟩) }
  /-- A process is reaped by somebody else. -/
  | vanish {q id : ℕ} {status : ℤ} (hproc : w.procs q = some ⟨id, some status⟩) :
      Step pid w { w with procs := Function.update w.procs q none }

/-! ### What is to hold -/

/-- After the first status every call of `wait` returns it, and every `wait4` is about the child and
not about a pid that is free or belongs to another process. -/
def World.Stable (w : World) : Prop :=
  ∀ status, w.first = some status →
    (∀ r, .returned r ∈ w.later → r = .ok status) ∧
      ∀ target, .issued target ∈ w.later → target = some 0

/-! ### Every run -/

/-- The child has its pid until a status was returned, and what is recorded since then begins with
a call that did not find it. -/
structure Inv (pid : ℕ) (w : World) : Prop where
  only : ∀ q, w.target q = some 0 → q = pid
  next : 0 < w.next
  gone : w.first ≠ none → w.target pid ≠ some 0
  idle : w.first ≠ none → w.later = [] → w.waiting = false
  before : w.first = none → w.later = []
  late : w.later ≠ [] → .called ∈ w.later ∧ ∃ target ≠ some 0, .issued target ∈ w.later

variable {pid : ℕ} {w w' : World}

lemma Start.inv (h : Start pid w) : Inv pid w where
  only q hq := by_contra fun hne => h.others q hne hq
  next := h.next
  gone hfirst := absurd h.first hfirst
  idle hfirst := absurd h.first hfirst
  before _ := h.later
  late hlater := absurd h.later hlater

namespace Inv

/-- A change of the processes that does not bring the child back. -/
lemma change (h : Inv pid w) {procs : ℕ → Option Proc} {next : ℕ} (hnext : 0 < next)
    (hprocs : ∀ q, (procs q).map Proc.id = some 0 → w.target q = some 0) :
    Inv pid { w with procs := procs, next := next } where
  __ := h
  only q hq := h.only q (hprocs q hq)
  next := hnext
  gone hfirst hpid := h.gone hfirst (hprocs pid hpid)

/-- A pid gets another process, or none. -/
lemma update (h : Inv pid w) {q next : ℕ} {p : Option Proc} (hnext : 0 < next)
    (hp : p.map Proc.id = some 0 → w.target q = some 0) :
    Inv pid { w with procs := Function.update w.procs q p, next := next } := by
  refine h.change hnext fun q' hq' => ?_
  by_cases heq : q' = q
  · subst heq
    rw [Function.update_self] at hq'
    exact hp hq'
  · rwa [Function.update_of_ne heq] at hq'

/-- Events are recorded in a call that is known to be late, or they begin one. -/
lemma record (h : Inv pid w) (es : List Event)
    (hes : w.first ≠ none → w.later ≠ [] ∨
      (.called ∈ es ∧ ∃ target ≠ some 0, .issued target ∈ es)) (waiting : Bool) :
    Inv pid { w.record es with waiting := waiting } := by
  rw [World.record]
  split
  · rename_i hfirst
    have hfirst : w.first ≠ none := Option.isSome_iff_ne_none.1 hfirst
    have hlate : .called ∈ w.later ++ es ∧ ∃ target ≠ some 0, .issued target ∈ w.later ++ es := by
      rcases hes hfirst with hlater | ⟨hcalled, target, hne, hissued⟩
      · obtain ⟨hcalled, target, hne, hissued⟩ := h.late hlater
        exact ⟨List.mem_append_left _ hcalled, target, hne, List.mem_append_left _ hissued⟩
      · exact ⟨List.mem_append_right _ hcalled, target, hne, List.mem_append_right _ hissued⟩
    refine ⟨h.only, h.next, h.gone, fun _ hnil => ?_, fun hnone => absurd hnone hfirst,
      fun _ => hlate⟩
    have hmem := hlate.1
    change w.later ++ es = [] at hnil
    rw [hnil] at hmem
    cases hmem
  · rename_i hfirst
    have hfirst : w.first = none := Option.not_isSome_iff_eq_none.1 hfirst
    exact ⟨h.only, h.next, h.gone, fun hsome => absurd hfirst hsome, h.before, h.late⟩

/-- A thread in `wait4` after the first status is in a late call. -/
lemma later_ne_nil (h : Inv pid w) (hwaiting : w.waiting = true) (hfirst : w.first ≠ none) :
    w.later ≠ [] := by
  intro hnil
  rw [h.idle hfirst hnil] at hwaiting
  cases hwaiting

lemma leave (h : Inv pid w) (hwaiting : w.waiting = true) {r : Except ℕ ℤ}
    (hr : ∀ status, r = .ok status → w.target pid ≠ some 0) : Inv pid (w.leave r) := by
  unfold World.leave
  split
  · rename_i status hfirst
    have hlater := h.before hfirst
    exact ⟨h.only, h.next, fun _ => hr status rfl, fun _ _ => rfl,
      fun hnone => absurd hnone (by simp), fun hne => absurd hlater hne⟩
  · exact h.record _ (fun hfirst => Or.inl (h.later_ne_nil hwaiting hfirst)) false

lemma answer (h : Inv pid w) (hwaiting : w.waiting = true) {r : Except ℕ ℤ}
    (hr : ∀ status, r = .ok status → w.target pid ≠ some 0) : Inv pid (w.answer pid r) := by
  have hretry := h.record [.issued (w.target pid)]
    (fun hfirst => Or.inl (h.later_ne_nil hwaiting hfirst)) true
  have hsame : { w.record [.issued (w.target pid)] with waiting := true } =
      w.record [.issued (w.target pid)] := by
    rw [World.record]
    split <;> simp [← hwaiting]
  rw [hsame] at hretry
  cases r with
  | ok status => exact h.leave hwaiting hr
  | error e =>
    rw [World.answer, turn]
    split
    · rename_i r' hr'
      split at hr'
      · cases hr'
      · cases hr'
        exact h.leave hwaiting fun _ hok => by cases hok
    · exact hretry

end Inv

lemma Inv.step (h : Inv pid w) (hstep : Step pid w w') : Inv pid w' := by
  cases hstep with
  | call hw =>
    exact h.record _ (fun hfirst => Or.inr ⟨by simp, _, h.gone hfirst, by simp⟩) true
  | @reap id status hw hproc =>
    have hgone := h.update (q := pid) (p := none) h.next (by simp)
    exact hgone.answer hw fun _ _ => by simp [World.target]
  | noChild hw | interrupt hw => exact h.answer hw fun _ hr => by cases hr
  | fork hfree =>
    exact h.update (Nat.succ_pos _) fun hid => by
      have hnext := h.next
      simp at hid
      omega
  | exit status hproc => exact h.update h.next fun hid => by simpa [World.target, hproc] using hid
  | vanish hproc => exact h.update h.next (by simp)

/-- In every run, the calls of `wait` are stable if and only if `wait` is not called again after it
has returned a status. -/
theorem wait_stable_iff (h : Reachable (Start pid) (Step pid) w) :
    w.Stable ↔ .called ∉ w.later := by
  have hinv : Inv pid w := h.induct (fun w hw => hw.inv) fun w w' _ ih hstep => ih.step hstep
  cases hfirst : w.first with
  | none =>
    rw [hinv.before hfirst]
    simp [World.Stable, hfirst]
  | some status =>
    by_cases hnil : w.later = []
    · simp [World.Stable, hnil]
    · obtain ⟨hcalled, target, hne, hissued⟩ := hinv.late hnil
      refine ⟨fun hstable => ?_, fun hnot => absurd hcalled hnot⟩
      exact absurd ((hstable status hfirst).2 target hissued) hne

/-- The child has ended with status 7, under the pid 100. -/
def ended : World := ⟨fun q => if q = 100 then some ⟨0, some 7⟩ else none, 1, false, none, []⟩

lemma start_ended : Start 100 ended where
  child := rfl
  others q hq := by simp [World.target, ended, hq]
  next := Nat.one_pos
  waiting := rfl
  first := rfl
  later := rfl

/-- The child was reaped by a call of `wait`. -/
def reaped : World := ⟨Function.update ended.procs 100 none, 1, false, some 7, []⟩

lemma reaches_reaped : Reachable (Start 100) (Step 100) reaped := by
  have hcall : Step 100 ended { ended with waiting := true } := .call rfl
  have hreap : Step 100 { ended with waiting := true } reaped :=
    .reap rfl (show ended.procs 100 = some ⟨0, some 7⟩ from rfl)
  exact ((Reachable.start start_ended).next hcall).next hreap

/-- A single call is stable. -/
theorem wait_stable_once :
    Reachable (Start 100) (Step 100) reaped ∧ (reaped.Stable ↔ .called ∉ reaped.later) :=
  ⟨reaches_reaped, wait_stable_iff reaches_reaped⟩

/-- After another call, which has found no child. -/
def failed : World :=
  { reaped with later := [.called, .issued none, .returned (.error echild)] }

lemma reaches_failed : Reachable (Start 100) (Step 100) failed := by
  have hcall : Step 100 reaped
      { reaped with waiting := true, later := [.called, .issued none] } := .call rfl
  have hnone : Step 100 { reaped with waiting := true, later := [.called, .issued none] } failed :=
    .noChild rfl rfl
  exact (reaches_reaped.next hcall).next hnone

/-- Another process gets the pid, ends with status 9, and is reaped by another call. -/
def other : World :=
  ⟨Function.update (Function.update (Function.update reaped.procs 100 (some ⟨1, none⟩)) 100
    (some ⟨1, some 9⟩)) 100 none, 2, false, some 7,
    [.called, .issued (some 1), .returned (.ok 9)]⟩

lemma reaches_other : Reachable (Start 100) (Step 100) other := by
  let forked : World :=
    { reaped with procs := Function.update reaped.procs 100 (some ⟨1, none⟩), next := 2 }
  let dead : World :=
    { forked with procs := Function.update forked.procs 100 (some ⟨1, some 9⟩) }
  let called : World := { dead with waiting := true, later := [.called, .issued (some 1)] }
  have hfork : Step 100 reaped forked := .fork rfl
  have hexit : Step 100 forked dead := .exit 9 (show forked.procs 100 = some ⟨1, none⟩ from rfl)
  have hcall : Step 100 dead called := .call rfl
  have hreap : Step 100 called other :=
    .reap rfl (show called.procs 100 = some ⟨1, some 9⟩ from rfl)
  exact (((reaches_reaped.next hfork).next hexit).next hcall).next hreap

/-- A second call of `wait` fails for want of a child, or it reaps another process and returns its
status. -/
theorem wait_again :
    (Reachable (Start 100) (Step 100) failed ∧ failed.first = some 7 ∧
      .returned (.error echild) ∈ failed.later ∧ ¬ failed.Stable) ∧
    (Reachable (Start 100) (Step 100) other ∧ other.first = some 7 ∧
      .returned (.ok 9) ∈ other.later ∧ .issued (some 1) ∈ other.later ∧ ¬ other.Stable) := by
  refine ⟨⟨reaches_failed, rfl, by simp [failed], fun h => ?_⟩,
    ⟨reaches_other, rfl, by simp [other], by simp [other], fun h => ?_⟩⟩
  · have hok := (h 7 rfl).1 (.error echild) (by simp [failed])
    cases hok
  · have hchild := (h 7 rfl).2 (some 1) (by simp [other])
    cases hchild

end PureStd.Process.Wait
