/-
A receiver may sleep forever on a disconnected channel.

`recv` reads `senders` under the lock of the queue and then captures the sequence of the
condition variable, on which it goes to sleep.  The last `Sender::drop` takes `senders`
to 0 and moves the sequence on, without the lock.  If both fall between the two steps of
`recv`, the receiver captures a sequence that nobody will move on (`stranded_receiver`).

This is the only way.  In a run in which the sequence, once there is no sender, only
moves to a value on which no receiver is going to sleep, a receiver is never left asleep
(`receiver_not_stranded`): as long as the channel is disconnected, somebody has still to
move the sequence on, or nobody goes to sleep on it.
-/
import PureStd.Sync.Mpsc

namespace PureStd.Sync.Mpsc

open Sleeper

variable {Tid V : Type*}

/-! ### Sleeping on a disconnected channel -/

/-- The thread has still to notify, or to finish a notification. -/
def Notifies : Pc Unit (Ctl V) → Prop
  | .run .dropNotify => True
  | .run (.sendNotify _) => True
  | .notifyAdd _ _ _ => True
  | .notifyWake _ _ _ => True
  | _ => False

/-- A receiver sleeps on the sequence as it is, the channel is empty and without senders,
and nobody is about to notify. -/
def Stranded (s : State Tid Unit (Ctl V) (Chan V)) : Prop :=
  (∃ t k, s.pc t = .cvWait .asleep () (s.words.seq ()) k) ∧ s.data.queue = [] ∧
    s.data.senders = 0 ∧ ∀ u, ¬ Notifies (s.pc u)

/-- The thread is a receiver that goes to sleep, or sleeps, if the sequence is `q`: it has
seen a sender and not captured the sequence yet, or it has captured `q`. -/
def WaitsOn (q : UInt32) : Pc Unit (Ctl V) → Prop
  | .run (.recvWait _ _) => True
  | .cvLoad _ _ => True
  | .unlockSwap (.sleepOn _ seq _) => seq = q
  | .unlockWake (.sleepOn _ seq _) => seq = q
  | .cvWait _ _ seq _ => seq = q
  | _ => False

variable [DecidableEq Tid] {q : UInt32} {pc : Pc Unit (Ctl V)} {k : Ctl V} {g : ℕ}
  {s : State Tid Unit (Ctl V) (Chan V)}

/-- A step that, if there is no sender, moves the sequence only to a value on which no
receiver goes to sleep. -/
def CleanStep (s s' : State Tid Unit (Ctl V) (Chan V)) : Prop :=
  (program V).client.Step s s' ∧ (s.data.senders = 0 → s'.words.seq () ≠ s.words.seq () →
    ∀ u, ¬ WaitsOn (s'.words.seq ()) (s.pc u))

/-- The runs of such steps. -/
def CleanReaches (s : State Tid Unit (Ctl V) (Chan V)) : Prop :=
  Reachable (program V).client.Starts CleanStep s

/-! ### A run that strands the receiver -/

/-- Thread 0 calls `recv` and sees a sender; thread 1 drops the only sender; thread 0
captures the sequence and goes to sleep. -/
theorem stranded_receiver : ∃ s : State ℕ Unit (Ctl ℕ) (Chan ℕ),
    (program ℕ).client.Reaches s ∧ Stranded s := by
  refine ⟨_, reaches_play reaches_begin ((0, some (.receive .recv)) ::
    List.replicate 4 (0, none) ++ (1, some (.drop 0)) :: List.replicate 4 (1, none) ++
    List.replicate 5 (0, none)),
    ⟨0, .recvPop .recv 0, rfl⟩, rfl, rfl, ?_⟩
  rintro (_ | _ | u) h
  · exact h
  · exact h
  · exact h

/-! ### Runs that do not -/

/-- The thread has dropped the last sender and has still to move the sequence on. -/
def Announces : Pc Unit (Ctl V) → Prop
  | .run .dropNotify => True
  | .notifyAdd true _ _ => True
  | _ => False

/-- Somebody has still to move the sequence on, or nobody goes to sleep on `q`. -/
def Settled (q : UInt32) (pc : Tid → Pc Unit (Ctl V)) : Prop :=
  (∃ u, Announces (pc u)) ∨ ∀ u, ¬ WaitsOn q (pc u)

/-- A disconnected channel is settled. -/
def Announced (s : State Tid Unit (Ctl V) (Chan V)) : Prop :=
  s.data.senders = 0 → Settled (s.words.seq ()) s.pc

omit [DecidableEq Tid] in
lemma Settled.congr {pc pc' : Tid → Pc Unit (Ctl V)} (h : Settled q pc)
    (hann : ∀ u, Announces (pc u) → Announces (pc' u))
    (hwaits : ∀ u, WaitsOn q (pc' u) → WaitsOn q (pc u)) : Settled q pc' := by
  rcases h with ⟨u, hu⟩ | hno
  · exact Or.inl ⟨u, hann u hu⟩
  · exact Or.inr fun u hw => hno u (hwaits u hw)

/-- One thread goes on. -/
lemma Settled.update {pc : Tid → Pc Unit (Ctl V)} (h : Settled q pc) {t : Tid}
    {pc' : Pc Unit (Ctl V)} (hann : Announces (pc t) → Announces pc')
    (hwaits : WaitsOn q pc' → WaitsOn q (pc t)) : Settled q (Function.update pc t pc') := by
  refine h.congr (fun u hu => ?_) (fun u hu => ?_)
  · by_cases hut : u = t
    · subst hut
      rw [Function.update_self]
      exact hann hu
    · rwa [Function.update_of_ne hut]
  · by_cases hut : u = t
    · subst hut
      rw [Function.update_self] at hu
      exact hwaits hu
    · rwa [Function.update_of_ne hut] at hu

lemma Announces.notifies (h : Announces pc) : Notifies pc := by
  cases pc with
  | run k => cases k <;> first | exact h | exact h.elim
  | notifyAdd all cv k => trivial
  | _ => exact h.elim

lemma waitsOn_awaken (h : WaitsOn q (awaken pc)) : WaitsOn q pc := by
  cases pc <;> exact h

lemma announces_awaken (h : Announces pc) : Announces (awaken pc) := by
  cases pc <;> exact h

/-- A thread that waits in the program has seen a sender. -/
lemma waitsOn_run : WaitsOn q (.run k : Pc Unit (Ctl V)) ↔ ∃ op id, k = .recvWait op id := by
  cases k <;> simp [WaitsOn]

/-- No function of `sync.rs` returns to the point where `recv` calls `wait`. -/
lemma not_waitsOn_run (hok : (discipline V).GuardOk g pc) (hctl : k = pc.ctl)
    (hpc : ∀ k, pc ≠ .run k) : ¬ WaitsOn q (.run k : Pc Unit (Ctl V)) := by
  rw [waitsOn_run]
  rintro ⟨op, id, rfl⟩
  exact hpc _ (hok.eq_run (by rw [← hctl]; rfl) (by rw [← hctl]; rfl)).1

/-- An operation inside `sync.rs` makes no thread wait on a value on which it did not
wait before, and the one that announces moves the sequence. -/
lemma exec_waitsOn {m m' : Words Unit} {pc' : Pc Unit (Ctl V)} {n : ℕ}
    (h : pc.exec m = some (m', pc', n)) (hok : (discipline V).GuardOk g pc) :
    (∀ q, WaitsOn q pc' → WaitsOn q pc) ∧ (Announces pc → m'.seq () ≠ m.seq ()) := by
  have hrun : ∀ q k, pc' = .run k → (∀ k, pc ≠ .run k) → ¬ WaitsOn q pc' := by
    rintro q k rfl hpc
    exact not_waitsOn_run hok (Discipline.exec_ctl h hok).2 hpc
  cases Pc.exec_executes h with
  | lock k | swap k => exact ⟨fun q hq => absurd hq (hrun q k rfl (by simp)), False.elim⟩
  | tryLock | tryTaken => exact hok.elim
  | unlock c _ =>
    refine ⟨fun q hq => ?_, False.elim⟩
    cases c with
    | ret k => exact absurd hq (hrun q k rfl (by simp))
    | sleepOn cv seq k => exact hq
  | unlockContended c _ => exact ⟨fun q hq => by cases c <;> exact hq, False.elim⟩
  | cvLoad cv k => exact ⟨fun _ _ => trivial, False.elim⟩
  | cvWaited w cv seq k _ => exact ⟨fun q hq => hq.elim, False.elim⟩
  | notifyAdd all cv k => exact ⟨fun q hq => hq, fun _ => by simp⟩
  | _ => exact ⟨fun q hq => hq, False.elim⟩

/-- A call of `futex_wake` makes no thread wait. -/
lemma waker_waitsOn {next : Pc Unit (Ctl V)} {all : Bool} {a : Addr Unit}
    (h : pc.waker = some (all, a, next)) (hok : (discipline V).GuardOk g pc) :
    (∀ q, WaitsOn q next → WaitsOn q pc) ∧ ¬ Announces pc := by
  have hctl := ctl_waker h
  rcases waker_cases h with ⟨c, rfl, -, -, rfl⟩ | ⟨cv, k, rfl, -, rfl⟩
  · refine ⟨fun q hq => ?_, id⟩
    cases c with
    | ret k => exact absurd hq (not_waitsOn_run hok hctl (by simp))
    | sleepOn cv seq k => exact hq
  · exact ⟨fun q hq => absurd hq (not_waitsOn_run hok hctl (by simp)), id⟩

/-- A step of the program that leaves the channel without senders is the drop of the last
one, or there was none before; then the thread has not seen a sender. -/
lemma act_senders {k' : Ctl V} {d d' : Chan V}
    (h : exec k d = some (k', d') ∨ ∃ x, choose x k d = some (k', d')) (hd : d'.senders = 0) :
    k' = .dropNotify ∨
      (d.senders = 0 ∧ k ≠ .dropNotify ∧ ∀ op id, k' ≠ .recvWait op id) := by
  rcases h with h | ⟨x, h⟩
  · cases k <;> simp only [exec, Option.some.injEq, Prod.mk.injEq, reduceCtorEq] at h
    case recvPop op id =>
      refine Or.inr ?_
      split at h <;> obtain ⟨rfl, rfl⟩ := by simpa using h
      · exact ⟨hd, by simp⟩
      · exact ⟨hd, by simp⟩
    case dropSub hdl id =>
      obtain ⟨rfl, rfl⟩ := h
      by_cases hone : d.senders = 1
      · exact Or.inl (if_pos hone)
      · change d.senders - 1 = 0 at hd
        exact Or.inr ⟨by omega, by simp [hone]⟩
    case cloneAdd hdl id =>
      obtain ⟨rfl, rfl⟩ := h
      exact absurd hd (Nat.succ_ne_zero _)
    case recvCheck op id =>
      obtain ⟨rfl, rfl⟩ := h
      exact Or.inr ⟨hd, by simp [hd]⟩
    case sendCheck m =>
      obtain ⟨rfl, rfl⟩ := h
      refine Or.inr ⟨hd, by simp, fun op id => ?_⟩
      split <;> simp
    all_goals
      obtain ⟨rfl, rfl⟩ := h
      exact Or.inr ⟨hd, by simp⟩
  · refine Or.inr ?_
    cases x <;> cases k <;> simp only [choose, reduceCtorEq] at h
    all_goals first | split at h | skip
    all_goals simp only [Option.some.injEq, Prod.mk.injEq, reduceCtorEq] at h
    all_goals obtain ⟨rfl, rfl⟩ := h
    all_goals exact ⟨hd, by simp⟩

/-- A call does not make a thread wait that has not seen a sender, and the call of
`notify_all` announces. -/
lemma call_waitsOn {k' : Ctl V} {c : Call Unit} (h : call k = some (c, k')) :
    (∀ q, WaitsOn q (c.enter fun _ => k' : Pc Unit (Ctl V)) → WaitsOn q (.run k)) ∧
      (Announces (.run k : Pc Unit (Ctl V)) →
        Announces (c.enter fun _ => k' : Pc Unit (Ctl V))) := by
  cases k <;> simp only [call, Option.some.injEq, Prod.mk.injEq, reduceCtorEq] at h
  all_goals obtain ⟨rfl, rfl⟩ := h
  all_goals exact ⟨fun _ hq => hq, fun ha => ha⟩

/-- Every step of a clean run keeps the channel announced. -/
lemma step_announced {s' : State Tid Unit (Ctl V) (Chan V)} (h : CleanStep s s')
    (hok : (discipline V).Guarded s) (hs : Announced s) : Announced s' := by
  obtain ⟨hstep, hclean⟩ := h
  intro hd
  cases hstep with
  | @exec t m pc g h =>
    obtain ⟨hwaits, hann⟩ := exec_waitsOn h (hok t)
    show Settled (m.seq ()) (Function.update s.pc t pc)
    by_cases hseq : m.seq () = s.words.seq ()
    · rw [hseq]
      exact (hs hd).update (fun ha => absurd hseq (hann ha)) (hwaits _)
    · -- the sequence moves: in a clean run nobody goes to sleep on its new value
      exact Or.inr ((Function.forall_update_iff s.pc fun _ pc => ¬ WaitsOn (m.seq ()) pc).2
        ⟨fun hw => hclean hd hseq t (hwaits _ hw), fun u _ => hclean hd hseq u⟩)
  | @rouse pc hrouse =>
    have hthread : ∀ u, (Announces (s.pc u) → Announces (pc u)) ∧
        ∀ q, WaitsOn q (pc u) → WaitsOn q (s.pc u) := by
      intro u
      refine hrouse.keeps (K := fun p => (Announces (s.pc u) → Announces p) ∧
        ∀ q, WaitsOn q p → WaitsOn q (s.pc u)) (fun hw => ?_) (fun _ hp => ?_) ⟨id, fun _ => id⟩
      · obtain ⟨hwaits, hann⟩ := waker_waitsOn hw (hok u)
        exact ⟨fun ha => absurd ha hann, hwaits⟩
      · exact ⟨fun ha => announces_awaken (hp.1 ha), fun q hq => hp.2 q (waitsOn_awaken hq)⟩
    exact (hs hd).congr (fun u => (hthread u).1) fun u => (hthread u).2 _
  | @act t k k' d ht hact =>
    rcases act_senders hact hd with rfl | ⟨hzero, hk, hk'⟩
    · -- the drop of the last sender has still to notify
      exact Or.inl ⟨t, by simp [Announces]⟩
    · refine (hs hzero).update (fun ha => ?_) (fun hw => ?_)
      · rw [ht] at ha
        cases k <;> first | exact absurd rfl hk | exact ha.elim
      · obtain ⟨op, id, rfl⟩ := waitsOn_run.1 hw
        exact absurd rfl (hk' op id)
  | @call t k c k' ht hcall hguard =>
    obtain ⟨k₁, hcall, rfl⟩ := hcall
    obtain ⟨hwaits, hann⟩ := call_waitsOn hcall
    rw [← ht] at hwaits hann
    exact (hs hd).update hann (hwaits _)
  | give t u htu h h' hgive hguard => exact hgive.elim

lemma cleanReaches_announced (h : CleanReaches s) : Announced s := by
  refine Reachable.induct (P := Announced) h ?_ fun s s' hreach hs hstep => ?_
  · rintro s ⟨-, hdata, -, -⟩ hzero
    rw [show s.data = channel from hdata] at hzero
    exact absurd hzero (by simp [channel])
  · have hreach' : (program V).client.Reaches s := hreach.mono fun _ _ hstep => hstep.1
    exact step_announced hstep ((discipline V).reaches_view hreach').1 hs

/-- A receiver is not left asleep on a disconnected channel in any run in which the
sequence, once there is no sender, moves only to values on which no receiver goes to
sleep. -/
theorem receiver_not_stranded {s : State Tid Unit (Ctl V) (Chan V)} (h : CleanReaches s) :
    ¬ Stranded s := by
  rintro ⟨⟨t, k, ht⟩, -, hzero, hquiet⟩
  rcases cleanReaches_announced h hzero with ⟨u, hu⟩ | hno
  · exact hquiet u hu.notifies
  · refine hno t ?_
    rw [ht]
    exact rfl

/-- There is a sender, or the sequence does not move. -/
def calm (s : State Tid Unit (Ctl V) (Chan V)) (a : Tid × Option (Choice V)) : Bool :=
  s.data.senders != 0 || ((program V).turn s a).words.seq () == s.words.seq ()

lemma cleanStep_of_calm {a : Tid × Option (Choice V)} (h : calm s a = true) :
    CleanStep s ((program V).turn s a) ∨ (program V).turn s a = s := by
  refine (turn_step a).imp_left fun hstep => ⟨hstep, fun hzero hseq => ?_⟩
  simp [calm, hzero, hseq] at h

/-- The receiver sleeps when the last sender is dropped, and is woken up. -/
theorem receiver_not_stranded_asleep : ∃ s : State ℕ Unit (Ctl ℕ) (Chan ℕ),
    CleanReaches s ∧ s.data.senders = 0 ∧
      s.pc 0 = .cvWait .load () 0 (.recvPop .recv 0) ∧ ¬ Stranded s := by
  have hstart : CleanReaches ((program ℕ).begin : State ℕ Unit (Ctl ℕ) (Chan ℕ)) :=
    .start ⟨rfl, rfl, fun _ => ⟨_, rfl, rfl⟩, fun _ => rfl⟩
  have hasleep : CleanReaches _ := hstart.foldl_of_allTurns calm (fun _ _ => cleanStep_of_calm)
    ((0, some (.receive .recv)) :: List.replicate 9 (0, none) ++
      (1, some (.drop 0)) :: List.replicate 2 (1, none)) rfl
  -- the sequence goes from 0, which the receiver has captured, to 1
  have hmoved : CleanReaches _ := .next hasleep ⟨.exec 1 rfl, fun _ _ => by
    rintro (_ | _ | u) h
    · exact absurd (show (0 : UInt32) = 1 from h) (by decide)
    · exact h
    · exact h⟩
  have hwoken : CleanReaches _ := hmoved.foldl_of_allTurns calm (fun _ _ => cleanStep_of_calm)
    [(1, none)] rfl
  exact ⟨_, hwoken, rfl, rfl, receiver_not_stranded hwoken⟩

end PureStd.Sync.Mpsc
