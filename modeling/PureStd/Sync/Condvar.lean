/-
A notification of one waiter may be swallowed.

`notify_one` moves the sequence and then wakes one of the threads that sleep on it.  A
thread that begins to wait between the two captures the new sequence and goes to sleep on
it.  If the kernel picks that thread, it finds the sequence unchanged and sleeps again,
and the threads that were waiting at the notification all sleep on (`notify_swallowed`).

This is the only way.  An `Episode` follows a run from the increment of a notification
on, with the waiters of then that have stayed in the same call of `wait`.  They have
captured a sequence that is not the current one, so they do not go to sleep any more once
they are awake; `notify_all` wakes all of them, and so does `notify_one` with one of them
if no thread that came later sleeps when it calls `futex_wake` (`notify_wakes`).  A notifier
that has the mutex meets no such thread: who captures the sequence has the mutex, too.
-/
import PureStd.Sync.Mutex

namespace PureStd.Sync

open Sleeper

variable {Tid ι κ D : Type*} [DecidableEq ι]

/-! ### Waiting -/

/-- The sequence that a thread has captured in a call of `wait` on `cv` which has not
returned from `futex_wait` yet. -/
def Pc.captured (cv : ι) : Pc ι κ → Option UInt32
  | unlockSwap (.sleepOn cv' seq _) => if cv' = cv then some seq else none
  | unlockWake (.sleepOn cv' seq _) => if cv' = cv then some seq else none
  | cvWait .done _ _ _ => none
  | cvWait _ cv' seq _ => if cv' = cv then some seq else none
  | _ => none

-- A thread that sleeps in `wait` has captured the sequence of the condvar it sleeps on only.
example (cv cv' : ι) (seq : UInt32) (k : κ) : (Pc.cvWait .asleep cv' seq k).captured cv =
    if cv' = cv then some seq else none := by
  simp only [Pc.captured]

/-- The threads that wait on `cv`. -/
def State.waiters (cv : ι) (s : State Tid ι κ D) : Set Tid :=
  {u | ((s.pc u).captured cv).isSome = true}

/-- The next operations of the thread lead it out of `futex_wait`. -/
inductive Pc.WillLeave : Words ι → Pc ι κ → Prop
  | out {m : Words ι} (k : κ) : WillLeave m (.lockCas k)
  | exec {m m' : Words ι} {pc pc' : Pc ι κ} (h : pc.exec m = some (m', pc', 0))
      (h' : WillLeave m' pc') : WillLeave m pc
  | wake {m : Words ι} {pc next : Pc ι κ} {all : Bool} {a : Addr ι}
      (h : pc.waker = some (all, a, next)) (h' : WillLeave m next) : WillLeave m pc

variable {cv : ι} {q : UInt32} {pc pc' : Pc ι κ} {a : Addr ι} {all : Bool} {m : Words ι} {u : Tid}

omit [DecidableEq ι] in
lemma not_asleep_enter (c : Call ι) (k : Bool → κ) : asleepOn (c.enter k) = none := by
  cases c <;> rfl

lemma captured_enter (c : Call ι) (k : Bool → κ) : (c.enter k).captured cv = none := by
  cases c <;> rfl

lemma captured_awaken (h : asleepOn pc = some a) : (awaken pc).captured cv = pc.captured cv := by
  cases pc with
  | cvWait w cv' seq k => cases w <;> first | rfl | exact absurd h (by simp [asleepOn])
  | _ => rfl

lemma captured_resume (c : Cont ι κ) :
    c.resume.captured cv = (Pc.unlockWake c : Pc ι κ).captured cv := by
  cases c <;> rfl

lemma captured_waker {next : Pc ι κ} (h : pc.waker = some (all, a, next)) :
    next.captured cv = pc.captured cv := by
  rcases waker_cases h with ⟨c, rfl, -, -, rfl⟩ | ⟨cv', k, rfl, -, rfl⟩
  · exact captured_resume c
  · rfl

omit [DecidableEq ι] in
lemma not_asleep_waker {next : Pc ι κ} (h : pc.waker = some (all, a, next)) :
    asleepOn next = none := by
  rcases waker_cases h with ⟨c, -, -, -, rfl⟩ | ⟨cv', k, -, -, rfl⟩
  · cases c <;> rfl
  · rfl

/-- Who sleeps on the sequence has captured one. -/
lemma captured_of_asleep (h : asleepOn pc = some (.seq cv)) : (pc.captured cv).isSome = true := by
  cases pc with
  | cvWait w cv' seq k =>
    cases w with
    | asleep =>
      obtain rfl : cv' = cv := by simpa [asleepOn] using h
      simp [Pc.captured]
    | _ => exact absurd h (by simp [asleepOn])
  | lockWait w k => cases w <;> exact absurd h (by simp [asleepOn])
  | _ => exact absurd h (by simp [asleepOn])

/-- What a thread has captured after a move it had captured before, or it had the mutex and
had captured nothing. -/
def Pc.Keeps (cv : ι) (pc pc' : Pc ι κ) : Prop :=
  ∀ q, pc'.captured cv = some q → pc.captured cv = some q ∨ (pc.captured cv = none ∧ 0 < pc.held)

lemma Pc.Keeps.eq {q q' : UInt32} (h : pc.Keeps cv pc') (hq : pc.captured cv = some q)
    (hq' : pc'.captured cv = some q') : q' = q := by
  rcases h q' hq' with hsame | ⟨hnone, -⟩
  · exact Option.some.inj (hsame.symm.trans hq)
  · exact absurd (hnone.symm.trans hq) (by simp)

/-- A thread keeps what it has captured, and falls asleep only on the current sequence. -/
structure Pc.Heeds (cv : ι) (m : Words ι) (pc pc' : Pc ι κ) : Prop where
  keeps : pc.Keeps cv pc'
  asleep : asleepOn pc' = some (.seq cv) →
    asleepOn pc = some (.seq cv) ∨ pc'.captured cv = some (m.seq cv)

lemma Pc.Heeds.of_eq (h : pc'.captured cv = pc.captured cv)
    (ha : asleepOn pc' = some (.seq cv) → asleepOn pc = some (.seq cv)) : pc.Heeds cv m pc' :=
  ⟨fun _ hq => Or.inl (h.symm.trans hq), fun h => Or.inl (ha h)⟩

lemma Pc.Heeds.of_awake (h : pc'.captured cv = none) (ha : asleepOn pc' = none) :
    pc.Heeds cv m pc' :=
  ⟨fun _ hq => absurd (h.symm.trans hq) (by simp), fun h => absurd (ha.symm.trans h) (by simp)⟩

lemma exec_captured {m' : Words ι} {g : ℕ} (h : pc.exec m = some (m', pc', g)) :
    pc.Heeds cv m' pc' := by
  cases Pc.exec_executes h with
  | unlock c _ =>
    refine .of_eq ?_ fun hasleep => ?_
    · rw [captured_resume]
      cases c <;> rfl
    · cases c <;> exact absurd hasleep (by simp [asleepOn, Cont.resume])
  | unlockContended c _ =>
    refine .of_eq ?_ fun hasleep => absurd hasleep (by simp [asleepOn])
    cases c <;> rfl
  | cvLoad cv' k =>
    exact ⟨fun _ _ => Or.inr ⟨rfl, Nat.one_pos⟩,
      fun hasleep => absurd hasleep (by simp [asleepOn])⟩
  | cvWait w w' cv' seq k hw hwait =>
    refine ⟨fun q hq => Or.inl (Eq.trans ?_ hq), fun hasleep => Or.inr ?_⟩
    · cases w with
      | load | enter => cases w' <;> first | rfl | exact absurd rfl hwait
      | asleep | done => cases hw
    · -- the kernel has compared the word with the captured sequence
      cases w' with
      | asleep =>
        obtain rfl : cv' = cv := by simpa [asleepOn] using hasleep
        simp [Pc.captured, WaitPc.eq_of_exec_asleep hw]
      | _ => exact absurd hasleep (by simp [asleepOn])
  | lockWait w w' k _ _ =>
    refine .of_eq rfl fun hasleep => ?_
    cases w' <;> exact absurd hasleep (by simp [asleepOn])
  | _ => exact .of_awake rfl rfl

/-- A thread that is awake and has captured another sequence than the current one leaves
`futex_wait`. -/
lemma willLeave_of_captured (h : pc.captured cv = some q) (hq : q ≠ m.seq cv)
    (hawake : asleepOn pc = none) : pc.WillLeave m := by
  have hload : ∀ (m : Words ι) (k : κ), q ≠ m.seq cv →
      Pc.WillLeave m (.cvWait .load cv q k) := fun m k hq =>
    .exec (show _ = some (m, .lockCas k, 0) by simp [Pc.exec, WaitPc.exec, hq.symm]) (.out k)
  have hresume : ∀ (m : Words ι) (c : Cont ι κ), q ≠ m.seq cv →
      (Pc.unlockWake c : Pc ι κ).captured cv = some q → c.resume.WillLeave m := by
    rintro m (k | ⟨cv', seq, k⟩) hq hc
    · exact absurd hc (by simp [Pc.captured])
    · obtain ⟨rfl, rfl⟩ := by simpa [Pc.captured] using hc
      exact hload m k hq
  cases pc with
  | unlockSwap c =>
    have hc : (Pc.unlockWake c : Pc ι κ).captured cv = some q := by cases c <;> exact h
    by_cases h2 : m.mutex = 2
    · exact .exec (show _ = some ({ m with mutex := 0 }, .unlockWake c, 0) by simp [Pc.exec, h2])
        (.wake rfl (hresume _ c hq hc))
    · exact .exec (show _ = some ({ m with mutex := 0 }, c.resume, 0) by simp [Pc.exec, h2])
        (hresume _ c hq hc)
  | unlockWake c => exact .wake rfl (hresume m c hq h)
  | cvWait w cv' seq k =>
    cases w with
    | load =>
      obtain ⟨rfl, rfl⟩ := by simpa [Pc.captured] using h
      exact hload m k hq
    | enter =>
      obtain ⟨rfl, rfl⟩ := by simpa [Pc.captured] using h
      exact .exec (by simp [Pc.exec, WaitPc.exec, hq.symm]) (hload m k hq)
    | asleep => exact absurd hawake (by simp [asleepOn])
    | done => exact absurd h (by simp [Pc.captured])
  | _ => exact absurd h (by simp [Pc.captured])

lemma addr_of_captured (h : (pc.captured cv).isSome = true) (ha : asleepOn pc = some a) :
    a = .seq cv := by
  cases pc with
  | cvWait w cv' seq k =>
    cases w with
    | asleep =>
      obtain rfl : cv' = cv := by
        by_contra hne
        simp [Pc.captured, hne] at h
      simpa [asleepOn] using ha.symm
    | _ => exact absurd ha (by simp [asleepOn])
  | lockWait w k => exact absurd h (by simp [Pc.captured])
  | _ => exact absurd ha (by simp [asleepOn])

section Steps

variable [DecidableEq Tid] {C : Client ι κ D} {s s' : State Tid ι κ D}

/-- What a thread has captured stays so as long as it waits, and a thread falls asleep
only on the current sequence. -/
lemma step_captured (h : C.Step s s') : ∀ u, (s.pc u).Heeds cv s'.words (s'.pc u) := by
  have hone : ∀ {t : Tid} {pc : Pc ι κ}, (s.pc t).Heeds cv s'.words pc →
      ∀ u, (s.pc u).Heeds cv s'.words (Function.update s.pc t pc u) := fun hpc =>
    (Function.forall_update_iff s.pc fun u => (s.pc u).Heeds cv s'.words).2
      ⟨hpc, fun _ _ => .of_eq rfl id⟩
  cases h with
  | exec t h => exact hone (exec_captured h)
  | @rouse pc hrouse =>
    intro u
    obtain ⟨hcap, hasleep⟩ : (pc u).captured cv = (s.pc u).captured cv ∧
        (asleepOn (pc u) = some (.seq cv) → asleepOn (s.pc u) = some (.seq cv)) := by
      refine hrouse.keeps (K := fun p => p.captured cv = (s.pc u).captured cv ∧
        (asleepOn p = some (.seq cv) → asleepOn (s.pc u) = some (.seq cv))) ?_ ?_ ⟨rfl, id⟩
      · intro all a next hw
        exact ⟨captured_waker hw,
          fun ha => absurd ((not_asleep_waker hw).symm.trans ha) (by simp)⟩
      · intro p a ha hp
        exact ⟨(captured_awaken ha).trans hp.1,
          fun ha => absurd ((asleepOn_awaken p).symm.trans ha) (by simp)⟩
    exact .of_eq hcap hasleep
  | act t _ _ => exact hone (.of_awake rfl rfl)
  | @call t k c k' _ _ _ => exact hone (.of_awake (captured_enter c k') (not_asleep_enter c k'))
  | give t u htu h h' hgive hguard => exact fun _ => .of_eq rfl id

/-- A thread that sleeps stays where it is, or wakes up. -/
lemma step_asleep (h : C.Step s s') (ha : asleepOn (s.pc u) = some a) :
    s'.pc u = s.pc u ∨ asleepOn (s'.pc u) = none := by
  -- the thread that moves was awake
  have hmoves : ∀ {t : Tid} {pc : Pc ι κ}, asleepOn (s.pc t) = none →
      Function.update s.pc t pc u = s.pc u := by
    intro t pc ht
    refine Function.update_of_ne (fun hut => ?_) _ _
    subst hut
    exact absurd (ha.symm.trans ht) (by simp)
  cases h with
  | @exec t m pc g h =>
    refine Or.inl (hmoves (Option.eq_none_iff_forall_ne_some.2 fun b hb => ?_))
    cases hpc : s.pc t with
    | lockWait w | cvWait w => cases w <;> simp_all [asleepOn, Pc.exec, WaitPc.exec]
    | _ => simp [hpc, asleepOn] at hb
  | rouse hrouse =>
    exact hrouse.keeps (K := fun p => p = s.pc u ∨ asleepOn p = none)
      (fun hw => Or.inr (not_asleep_waker hw))
      (fun _ _ => Or.inr (asleepOn_awaken _)) (Or.inl rfl)
  | act _ h | call _ h => exact Or.inl (hmoves (by rw [h]; rfl))
  | give t u htu h h' hgive hguard => exact Or.inl rfl

/-- Between the increment and its `futex_wake` a notifier neither gets nor loses a guard. -/
lemma step_guards (h : C.Step s s') {t : Tid} {k : κ} (ht : s.pc t = .notifyWake all cv k) :
    s'.guards t = s.guards t := by
  cases h with
  | @exec _ _ _ _ h | @call _ _ _ _ h _ _ =>
    refine Function.update_of_ne (fun htu => ?_) ..
    rw [← htu, ht] at h
    cases h
  | rouse | act => rfl
  | @give u v k' k'' huv h h' hgive hguard =>
    have hne : ∀ {w : Tid} {k : κ}, s.pc w = .run k → t ≠ w := by
      rintro w k hw rfl
      rw [ht] at hw
      cases hw
    show Function.update (Function.update s.guards u _) v _ t = _
    rw [Function.update_of_ne (hne h'), Function.update_of_ne (hne h)]

/-- While a notifier has the mutex, nobody captures a sequence. -/
lemma waiters_of_guard (hs : C.Reaches s) (h : C.Step s s') {t : Tid} (ht : (s.pc t).held = 0)
    (hguard : 0 < s.guards t) : s'.waiters cv ⊆ s.waiters cv := by
  intro u hu
  obtain ⟨q, hq⟩ := Option.isSome_iff_exists.1 hu
  rcases (step_captured h u).keeps q hq with hsame | ⟨-, hheld⟩
  · exact Option.isSome_iff_exists.2 ⟨q, hsame⟩
  · obtain ⟨o, ho⟩ := reaches_owned hs
    have hu : o = some u := ho.owner_of_pos (Nat.add_pos_left hheld _)
    have ht' : o = some t := ho.owner_of_pos (Nat.add_pos_right _ hguard)
    obtain rfl := Option.some.inj (hu.symm.trans ht')
    exact absurd ht hheld.ne'

end Steps

/-! ### Notifications -/

section Episodes

variable [DecidableEq Tid]

/-- The sequence does not move to a value that a waiter has captured.  It takes `2 ^ 32`
notifications during one call of `wait` to break this. -/
def NoWrap (cv : ι) (s s' : State Tid ι κ D) : Prop :=
  s'.words.seq cv ≠ s.words.seq cv → ∀ u, (s.pc u).captured cv ≠ some (s'.words.seq cv)

/-- A run from the increment of a notification of `t` on.  The threads in `W` were waiting
at the increment, and those in `R` have stayed in that call of `wait`; `woken` tells
whether `t` has called `futex_wake`.  The state in which `notify_one` calls it is subject to
`ok`. -/
inductive Episode (C : Client ι κ D) (ok : Set Tid → State Tid ι κ D → Prop) (t : Tid)
    (all : Bool) (cv : ι) : Set Tid → Set Tid → (woken : Bool) → State Tid ι κ D → Prop
  /-- `self.seq.fetch_add(1)`. -/
  | add {s : State Tid ι κ D} {k : κ} (hs : C.Reaches s) (ht : s.pc t = .notifyAdd all cv k)
      (hwrap : NoWrap cv s (s.advance t)) :
      Episode C ok t all cv (s.waiters cv) (s.waiters cv) false (s.advance t)
  /-- The other threads go on. -/
  | rest {W R : Set Tid} {s s' : State Tid ι κ D} (hs : Episode C ok t all cv W R false s)
      (h : C.Step s s') (ht : s'.pc t = s.pc t) (hwrap : NoWrap cv s s') :
      Episode C ok t all cv W (R ∩ s'.waiters cv) false s'
  /-- `futex_wake` or `futex_wake_all`. -/
  | wake {W R : Set Tid} {s : State Tid ι κ D} {k : κ} {pc : Tid → Pc ι κ}
      (hs : Episode C ok t all cv W R false s) (ht : s.pc t = .notifyWake all cv k)
      (hwake : Futex.Wake all (.seq cv) (Function.update s.pc t (.run k)) pc)
      (hok : all = false → ok R s) :
      Episode C ok t all cv W (R ∩ State.waiters cv { s with pc := pc }) true { s with pc := pc }
  /-- All threads go on. -/
  | later {W R : Set Tid} {s s' : State Tid ι κ D} (hs : Episode C ok t all cv W R true s)
      (h : C.Step s s') (hwrap : NoWrap cv s s') :
      Episode C ok t all cv W (R ∩ s'.waiters cv) true s'

/-- Nobody sleeps on the sequence but threads that were waiting at the increment, or the
notifier has the mutex. -/
def Undisturbed (cv : ι) (t : Tid) (R : Set Tid) (s : State Tid ι κ D) : Prop :=
  (∀ u, asleepOn (s.pc u) = some (.seq cv) → u ∈ R) ∨ 0 < s.guards t

/-- The thread has left the call of `wait` that it was in, or it is awake and leaves. -/
def Freed (R : Set Tid) (s : State Tid ι κ D) (u : Tid) : Prop :=
  u ∈ R → asleepOn (s.pc u) = none ∧ (s.pc u).WillLeave s.words

/-- The threads that have stayed wait for another sequence than the current one. -/
def Stale (cv : ι) (R : Set Tid) (s : State Tid ι κ D) : Prop :=
  ∀ u ∈ R, ∃ q, (s.pc u).captured cv = some q ∧ q ≠ s.words.seq cv

variable {C : Client ι κ D} {ok : Set Tid → State Tid ι κ D → Prop} {t : Tid} {W R : Set Tid}
  {woken : Bool} {s s' : State Tid ι κ D}

lemma Stale.step (h : Stale cv R s) (hstep : C.Step s s') (hwrap : NoWrap cv s s') :
    Stale cv (R ∩ s'.waiters cv) s' := by
  rintro u ⟨hu, hwaits⟩
  obtain ⟨q, hq, hne⟩ := h u hu
  obtain ⟨q', hq'⟩ := Option.isSome_iff_exists.1 hwaits
  obtain rfl := (step_captured hstep u).keeps.eq hq hq'
  refine ⟨q', hq', fun heq => ?_⟩
  by_cases hseq : s'.words.seq cv = s.words.seq cv
  · exact hne (heq.trans hseq)
  · exact hwrap hseq u (by rw [hq, heq])

/-- Who has stayed and is awake does not go to sleep again. -/
lemma Stale.awake (h : Stale cv R s) (hstep : C.Step s s') (hwrap : NoWrap cv s s')
    (hu : u ∈ R ∩ s'.waiters cv) (hawake : asleepOn (s.pc u) = none) :
    asleepOn (s'.pc u) = none := by
  obtain ⟨q, hq, hne⟩ := h.step hstep hwrap u hu
  refine Option.eq_none_iff_forall_ne_some.2 fun a ha => ?_
  obtain rfl := addr_of_captured hu.2 ha
  rcases (step_captured hstep u).asleep ha with hasleep | hcur
  · exact absurd (hawake.symm.trans hasleep) (by simp)
  · exact hne (Option.some.inj (hq.symm.trans hcur))

omit [DecidableEq Tid] in
lemma Stale.freed (h : Stale cv R s) (hawake : u ∈ R → asleepOn (s.pc u) = none) : Freed R s u := by
  intro hu
  obtain ⟨q, hq, hne⟩ := h u hu
  exact ⟨hawake hu, willLeave_of_captured hq hne (hawake hu)⟩

/-- The steps of an episode keep the captured sequences stale. -/
lemma Episode.stale (h : Episode C ok t all cv W R woken s) : R ⊆ W ∧ Stale cv R s := by
  induction h with
  | @add s k hs ht hwrap =>
    refine ⟨subset_rfl, fun u hu => ?_⟩
    have hmoved : (s.advance t).words.seq cv ≠ s.words.seq cv := by
      simp [State.advance, ht, Pc.exec]
    have hsame : ((s.advance t).pc u).captured cv = (s.pc u).captured cv := by
      by_cases hut : u = t
      · subst hut
        simp [State.advance, ht, Pc.exec, Pc.captured]
      · simp [State.advance, ht, Pc.exec, Function.update_of_ne hut]
    obtain ⟨q, hq⟩ := Option.isSome_iff_exists.1 hu
    exact ⟨q, hsame.trans hq, fun heq => hwrap hmoved u (by rw [hq, heq])⟩
  | rest _ h _ hwrap ih | later _ h hwrap ih =>
    exact ⟨Set.inter_subset_left.trans ih.1, ih.2.step h hwrap⟩
  | @wake W R s k pc _ ht hwake _ ih =>
    have hstep : C.Step s { s with pc := pc } := .rouse (.wake t (by rw [ht]; rfl) hwake)
    exact ⟨Set.inter_subset_left.trans ih.1, ih.2.step hstep fun h => absurd rfl h⟩

/-- After a notification of all, those who have stayed are awake. -/
lemma Episode.awake_all (h : Episode C ok t true cv W R woken s) (hwoken : woken = true) :
    ∀ u ∈ R, asleepOn (s.pc u) = none := by
  induction h with
  | add | rest => exact absurd hwoken (by simp)
  | @wake W R s k pc hs ht hwake _ _ =>
    rintro u ⟨-, hu⟩
    refine Option.eq_none_iff_forall_ne_some.2 fun a ha => ?_
    obtain rfl := addr_of_captured hu ha
    obtain rfl : pc = Futex.wakeAll (.seq cv) (Function.update s.pc t (.run k)) := hwake
    exact Futex.asleepOn_wakeAll asleepOn_awaken _ _ u ha
  | later hs h hwrap ih => exact fun u hu => hs.stale.2.awake h hwrap hu (ih rfl u hu.1)

lemma Episode.reaches (h : Episode C ok t all cv W R woken s) : C.Reaches s := by
  induction h with
  | add hs _ _ => exact hs.advance t
  | rest _ h _ _ ih => exact ih.next h
  | wake _ ht hwake _ ih => exact ih.next (.rouse (.wake t (by rw [ht]; rfl) hwake))
  | later _ h _ ih => exact ih.next h

/-- Until its `futex_wake`, the notifier stays where it is after the increment. -/
lemma Episode.notifier (h : Episode C ok t all cv W R woken s) (hwoken : woken = false) :
    ∃ k, s.pc t = .notifyWake all cv k := by
  induction h with
  | @add s k hs ht hwrap => exact ⟨k, by simp [State.advance, ht, Pc.exec]⟩
  | rest _ _ ht _ ih =>
    obtain ⟨k, hk⟩ := ih rfl
    exact ⟨k, ht.trans hk⟩
  | wake | later => exact absurd hwoken (by simp)

/-- If the notifier has the mutex, nobody has come after the increment. -/
lemma Episode.waiters_subset (h : Episode C ok t all cv W R woken s) (hwoken : woken = false)
    (hguard : 0 < s.guards t) : s.waiters cv ⊆ R := by
  induction h with
  | @add s k hs ht hwrap =>
    have hexec : (s.pc t).exec s.words = some ({ s.words with
        seq := Function.update s.words.seq cv (s.words.seq cv + 1) },
        .notifyWake all cv k, 0) := by
      rw [ht, Pc.exec]
    refine waiters_of_guard hs (t := t) ?_ (by rw [ht]; rfl) ?_
    · simp only [State.advance, hexec]
      exact .exec t hexec
    · simpa [State.advance, hexec] using hguard
  | @rest W R s s' hs h ht hwrap ih =>
    obtain ⟨k, hk⟩ := hs.notifier rfl
    rw [step_guards h hk] at hguard
    have hsub : s'.waiters cv ⊆ s.waiters cv :=
      waiters_of_guard hs.reaches h (by rw [hk]; rfl) hguard
    exact fun u hu => ⟨ih rfl hguard (hsub hu), hu⟩
  | wake | later => exact absurd hwoken (by simp)

/-- After a notification of one that meets no late sleeper, one of the waiters has left or is
awake. -/
lemma Episode.awake_one (h : Episode C (Undisturbed cv t) t false cv W R woken s)
    (hwoken : woken = true) (hW : W.Nonempty) : ∃ u ∈ W, u ∈ R → asleepOn (s.pc u) = none := by
  induction h with
  | add | rest => exact absurd hwoken (by simp)
  | @wake W R s k pc hs ht hwake hok _ =>
    by_cases hsleep : ∃ v, asleepOn (Function.update s.pc t (.run k) v) = some (.seq cv)
    · -- the kernel picks a sleeper, who was waiting at the increment
      obtain ⟨v, hv⟩ := hsleep
      obtain ⟨u, hu, hpc⟩ := hwake.exists_awoken hv
      have hut : u ≠ t := by
        rintro rfl
        rw [Function.update_self] at hu
        exact absurd hu (by simp [asleepOn])
      have hawake : asleepOn (pc u) = none := by rw [hpc, asleepOn_awaken]
      rw [Function.update_of_ne hut] at hu
      refine ⟨u, hs.stale.1 ?_, fun _ => hawake⟩
      rcases hok rfl with hall | hguard
      · exact hall u hu
      · exact hs.waiters_subset rfl hguard (captured_of_asleep hu)
    · -- nobody sleeps on the sequence
      obtain ⟨u, hu⟩ := hW
      refine ⟨u, hu, fun hR => Option.eq_none_iff_forall_ne_some.2 fun a ha => ?_⟩
      obtain rfl := addr_of_captured hR.2 ha
      rcases hwake.cases u with heq | ⟨hasleep, -⟩
      · exact hsleep ⟨u, by rw [← heq]; exact ha⟩
      · exact hsleep ⟨u, hasleep⟩
  | later hs h hwrap ih =>
    obtain ⟨u, hu, hawake⟩ := ih rfl hW
    exact ⟨u, hu, fun hR => hs.stale.2.awake h hwrap hR (hawake hR.1)⟩

/-- If, when `notify_one` calls `futex_wake`, only threads that were waiting at the increment
sleep on the sequence, or the notifier has the mutex, then one of those threads has left
`futex_wait` afterwards, or is awake and leaves.  After the `futex_wake` of `notify_all`, this
is so for all of them. -/
theorem notify_wakes (C : Client ι κ D) (h : Episode C (Undisturbed cv t) t all cv W R true s) :
    (all = false → W.Nonempty → ∃ u ∈ W, Freed R s u) ∧ (all = true → ∀ u ∈ W, Freed R s u) := by
  have hstale := h.stale.2
  refine ⟨?_, ?_⟩
  · rintro rfl hW
    obtain ⟨u, hu, hawake⟩ := h.awake_one rfl hW
    exact ⟨u, hu, hstale.freed hawake⟩
  · rintro rfl u -
    exact hstale.freed (h.awake_all rfl u)

/-- Another thread does its next operation, and the sequence stays. -/
lemma Episode.rest_advance (hs : Episode C ok t all cv W R false s) (u : Tid) (hut : t ≠ u)
    (hexec : ((s.pc u).exec s.words).isSome = true)
    (hseq : (s.advance u).words.seq cv = s.words.seq cv) :
    Episode C ok t all cv W (R ∩ (s.advance u).waiters cv) false (s.advance u) := by
  obtain ⟨⟨m, pc, g⟩, h⟩ := Option.isSome_iff_exists.1 hexec
  refine .rest hs ?_ ?_ fun hne => absurd hseq hne
  · simp only [State.advance, h]
    exact .exec u h
  · simp [State.advance, h, hut]

/-- The same after `futex_wake`, for any thread. -/
lemma Episode.later_advance (hs : Episode C ok t all cv W R true s) (u : Tid)
    (hexec : ((s.pc u).exec s.words).isSome = true)
    (hseq : (s.advance u).words.seq cv = s.words.seq cv) :
    Episode C ok t all cv W (R ∩ (s.advance u).waiters cv) true (s.advance u) := by
  obtain ⟨⟨m, pc, g⟩, h⟩ := Option.isSome_iff_exists.1 hexec
  refine .later hs ?_ fun hne => absurd hseq hne
  simp only [State.advance, h]
  exact .exec u h

end Episodes

/-! ### Two notifications -/

/-- Thread 0 sleeps in `wait`, thread 2 has called `wait` too and not captured the sequence
yet, and thread 1 is about to notify one. -/
def notifying : State ℕ Unit Unit Unit :=
  let asleep := (((((anyStart.enter 0 .lock fun _ => ()).advance 0).enter 0 (.wait ())
    fun _ => ()).advance 0).advance 0 |>.advance 0 |>.advance 0)
  let waits := ((asleep.enter 2 .lock fun _ => ()).advance 2).enter 2 (.wait ()) fun _ => ()
  waits.enter 1 (.notify false ()) fun _ => ()

lemma notifying_reached : anyClient.Reaches notifying := by
  have hlocked := (anyStart_reached.enter 0 .lock (fun _ => ()) rfl trivial (by decide)).advance 0
  have hwait := hlocked.enter 0 (.wait ()) (fun _ => ()) rfl trivial (by decide)
  have hasleep := (((hwait.advance 0).advance 0).advance 0).advance 0
  have hlocked' := (hasleep.enter 2 .lock (fun _ => ()) rfl trivial (by decide)).advance 2
  have hwaits := hlocked'.enter 2 (.wait ()) (fun _ => ()) rfl trivial (by decide)
  exact hwaits.enter 1 (.notify false ()) (fun _ => ()) rfl trivial (by decide)

lemma notifying_waiters : notifying.waiters () = {0} := by
  ext u
  rcases u with _ | _ | _ | u
  · exact iff_of_true rfl rfl
  · exact iff_of_false (show ¬ (false = true) by simp) (by simp)
  · exact iff_of_false (show ¬ (false = true) by simp) (by simp)
  · exact iff_of_false (show ¬ (false = true) by simp) (by simp)

/-- The increment. -/
lemma notifying_episode (ok : Set ℕ → State ℕ Unit Unit Unit → Prop) :
    Episode anyClient ok 1 false () (notifying.waiters ()) (notifying.waiters ()) false
      (notifying.advance 1) := by
  refine .add notifying_reached rfl fun _ => ?_
  intro u h
  have hu : u = 0 := by
    have : u ∈ notifying.waiters () := Option.isSome_iff_exists.2 ⟨_, h⟩
    rwa [notifying_waiters] at this
  subst hu
  exact absurd (show some (0 : UInt32) = some 1 from h) (by decide)

/-- Thread 1 wakes thread 0. -/
theorem notify_wakes_sleeper : ∃ (W R : Set ℕ) (s : State ℕ Unit Unit Unit),
    Episode anyClient (Undisturbed () 1) 1 false () W R true s ∧ W = {0} ∧
      s.pc 0 = .cvWait .load () 0 () ∧ ∃ u ∈ W, Freed R s u := by
  have hwake := Episode.wake (notifying_episode (Undisturbed () 1)) (k := ()) rfl
    (Or.inl ⟨0, rfl, rfl⟩) fun _ => Or.inl <| by
      rintro (_ | _ | _ | u) hu
      · exact rfl
      all_goals exact absurd (show (none : Option (Addr Unit)) = some _ from hu) (by simp)
  exact ⟨_, _, _, hwake, notifying_waiters, rfl,
    (notify_wakes anyClient hwake).1 rfl ⟨0, notifying_waiters.symm ▸ rfl⟩⟩

/-- Thread 2 captures the sequence after the increment and goes to sleep, and thread 1
wakes it instead of thread 0.  It sleeps on, and nobody is going to wake thread 0. -/
theorem notify_swallowed : ∃ (W R : Set ℕ) (s : State ℕ Unit Unit Unit),
    Episode anyClient (fun _ _ => True) 1 false () W R true s ∧ W.Nonempty ∧
      (∀ u ∈ W, u ∈ R ∧ asleepOn (s.pc u) = some (.seq ())) ∧ ∀ u, (s.pc u).waker = none := by
  have hadd := notifying_episode fun _ _ => True
  have hlate := (((hadd.rest_advance 2 (by decide) rfl rfl).rest_advance 2 (by decide) rfl
    rfl).rest_advance 2 (by decide) rfl rfl).rest_advance 2 (by decide) rfl rfl
  have hwake := Episode.wake hlate (k := ()) rfl (Or.inl ⟨2, rfl, rfl⟩) fun _ => trivial
  have hagain := (hwake.later_advance 2 rfl rfl).later_advance 2 rfl rfl
  refine ⟨_, _, _, hagain, ⟨0, notifying_waiters.symm ▸ rfl⟩, fun u hu => ?_, ?_⟩
  · rw [notifying_waiters] at hu
    obtain rfl : u = 0 := hu
    exact ⟨⟨⟨⟨⟨⟨⟨⟨rfl, rfl⟩, rfl⟩, rfl⟩, rfl⟩, rfl⟩, rfl⟩, rfl⟩, rfl⟩
  · rintro (_ | _ | _ | u) <;> rfl

end PureStd.Sync
