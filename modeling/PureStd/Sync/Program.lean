/-
Programs that follow the discipline of guards.

A `Program` is a client in executable form.  The control state of a thread is the
program point it is at, or the one that the function of `sync.rs` it is in returns to
(`Pc.ctl`).

A program has a `Discipline` if its control state tells whether a thread has a guard.
Then the mutex and the condition variable may be forgotten: seen through control states
and data (`State.view`), a run is a run of a system in which a thread with the guard
moves only while no other thread is inside (`reaches_view`).  Invariants of a disciplined
program are proved in that system.
-/
import PureStd.Sync.Mutex

namespace PureStd.Sync

open Sleeper

variable {Tid ι κ D X : Type*} {pc : Pc ι κ} {g : ℕ} {k : κ} {m : Words ι}

/-- A program in executable form.  A thread that has no operation and no call at a
program point waits for a choice of type `X`. -/
structure Program (ι κ D X : Type*) where
  /-- Where the threads begin. -/
  start : κ
  /-- The data at the beginning. -/
  init : D
  /-- The next operation at a program point. -/
  exec : κ → D → Option (κ × D)
  /-- What the program may choose to do at a program point. -/
  choose : X → κ → D → Option (κ × D)
  /-- The call at a program point, and where it returns to. -/
  call : κ → Option (Call ι × κ)

/-- The program as a client of the mutex. -/
def Program.client (P : Program ι κ D X) : Client ι κ D where
  start k := k = P.start
  init d := d = P.init
  act k d k' d' := P.exec k d = some (k', d') ∨ ∃ x, P.choose x k d = some (k', d')
  call k c k' := ∃ k₁, P.call k = some (c, k₁) ∧ k' = fun _ => k₁
  give _ _ := False

section Schedule

variable [DecidableEq Tid] [DecidableEq ι]

/-- All threads at the beginning. -/
def Program.begin (P : Program ι κ D X) : State Tid ι κ D :=
  ⟨Words.new, P.init, fun _ => .run P.start, fun _ => 0⟩

/-- Thread `t` takes the step that is next, if there is one that is not a choice. -/
def Program.go (P : Program ι κ D X) (s : State Tid ι κ D) (t : Tid) : State Tid ι κ D :=
  match s.pc t with
  | .run k =>
    match P.exec k s.data with
    | some (k', d) => { s with data := d, pc := Function.update s.pc t (.run k') }
    | none =>
      match P.call k with
      | some (c, k') =>
        if c.takesGuard = true → 0 < s.guards t then s.enter t c fun _ => k' else s
      | none => s
  | .notifyWake true cv k =>
    { s with pc := Futex.wakeAll (.seq cv) (Function.update s.pc t (.run k)) }
  | _ => s.advance t

/-- Thread `t` makes a choice. -/
def Program.pick (P : Program ι κ D X) (s : State Tid ι κ D) (t : Tid) (x : X) :
    State Tid ι κ D :=
  match s.pc t with
  | .run k =>
    match P.choose x k s.data with
    | some (k', d) => { s with data := d, pc := Function.update s.pc t (.run k') }
    | none => s
  | _ => s

/-- One turn of a schedule: a thread, with its choice if it makes one. -/
def Program.turn (P : Program ι κ D X) (s : State Tid ι κ D) : Tid × Option X → State Tid ι κ D
  | (t, none) => P.go s t
  | (t, some x) => P.pick s t x

/-- A schedule. -/
def Program.play (P : Program ι κ D X) (s : State Tid ι κ D) (turns : List (Tid × Option X)) :
    State Tid ι κ D :=
  turns.foldl P.turn s

variable {P : Program ι κ D X} {s : State Tid ι κ D}

/-- A turn is a step of the system, or nothing. -/
lemma turn_step (a : Tid × Option X) : P.client.Step s (P.turn s a) ∨ P.turn s a = s := by
  obtain ⟨t, _ | x⟩ := a
  · change P.client.Step s (P.go s t) ∨ P.go s t = s
    rw [Program.go]
    split
    · rename_i k hk
      split
      · rename_i k' d hexec
        exact Or.inl (.act t hk (Or.inl hexec))
      · split
        · rename_i c k' hcall
          split
          · rename_i hguard
            exact Or.inl (.call t hk ⟨k', hcall, rfl⟩ hguard)
          · exact Or.inr rfl
        · exact Or.inr rfl
    · rename_i cv k hk
      exact Or.inl (.rouse (.wake t (show _ = some (true, _, _) by rw [hk]; rfl) rfl))
    · rw [State.advance]
      split
      · rename_i hexec
        exact Or.inl (.exec t hexec)
      · exact Or.inr rfl
  · change P.client.Step s (P.pick s t x) ∨ P.pick s t x = s
    rw [Program.pick]
    split
    · rename_i k hk
      split
      · rename_i k' d hchoose
        exact Or.inl (.act t hk (Or.inr ⟨x, hchoose⟩))
      · exact Or.inr rfl
    · exact Or.inr rfl

lemma reaches_play (hs : P.client.Reaches s) (turns : List (Tid × Option X)) :
    P.client.Reaches (P.play s turns) :=
  hs.foldl (fun _ a => turn_step a) turns

lemma reaches_begin : P.client.Reaches (P.begin : State Tid ι κ D) :=
  .start ⟨rfl, rfl, fun _ => ⟨_, rfl, rfl⟩, fun _ => rfl⟩

end Schedule

/-! ### Control states -/

/-- The program point of a thread, or the one that it returns to. -/
def Pc.ctl : Pc ι κ → κ
  | run k => k
  | lockCas k => k
  | lockSwap k => k
  | lockWait _ k => k
  | tryCas k => k true
  | unlockSwap (.ret k) => k
  | unlockSwap (.sleepOn _ _ k) => k
  | unlockWake (.ret k) => k
  | unlockWake (.sleepOn _ _ k) => k
  | cvLoad _ k => k
  | cvWait _ _ _ k => k
  | notifyAdd _ _ k => k
  | notifyWake _ _ k => k

@[simp] lemma ctl_enter (c : Call ι) (k : Bool → κ) : (c.enter k).ctl = k true := by
  cases c <;> rfl

@[simp] lemma ctl_awaken (pc : Pc ι κ) : (awaken pc).ctl = pc.ctl := by cases pc <;> rfl

lemma ctl_waker {next : Pc ι κ} {all : Bool} {a : Addr ι} (h : pc.waker = some (all, a, next)) :
    next.ctl = pc.ctl := by
  rcases waker_cases h with ⟨c, rfl, -, -, rfl⟩ | ⟨cv, k, rfl, -, rfl⟩
  · cases c <;> rfl
  · rfl

/-! ### The discipline -/

/-- The control state tells whether a thread has a guard.  The points where `lock` and
`wait` return, and where a notification with the guard returns, are `landing` points: a
thread with such a control state may still be on its way. -/
structure Discipline (P : Program ι κ D X) where
  locked : κ → Bool
  landing : κ → Bool
  landing_locked : ∀ k, landing k = true → locked k = true
  start : locked P.start = false
  exec : ∀ k d k' d', P.exec k d = some (k', d') → locked k' = locked k
  choose : ∀ x k d k' d', P.choose x k d = some (k', d') → locked k' = locked k
  call : ∀ k c k', P.call k = some (c, k') →
    match c with
    | .lock => locked k = false ∧ landing k' = true
    | .tryLock => False
    | .unlock => locked k = true ∧ locked k' = false
    | .wait _ => locked k = true ∧ landing k' = true
    | .notify _ _ => locked k' = locked k ∧ (locked k' = true → landing k' = true)

namespace Discipline

variable {P : Program ι κ D X} (L : Discipline P)

/-- A thread with `g` guards is where it may be. -/
def GuardOk (g : ℕ) : Pc ι κ → Prop
  | .run k => g = (L.locked k).toNat
  | .lockCas k => L.landing k = true ∧ g = 0
  | .lockSwap k => L.landing k = true ∧ g = 0
  | .lockWait _ k => L.landing k = true ∧ g = 0
  | .tryCas _ => False
  | .unlockSwap (.ret k) => L.locked k = false ∧ g = 0
  | .unlockSwap (.sleepOn _ _ k) => L.landing k = true ∧ g = 0
  | .unlockWake (.ret k) => L.locked k = false ∧ g = 0
  | .unlockWake (.sleepOn _ _ k) => L.landing k = true ∧ g = 0
  | .cvLoad _ k => L.landing k = true ∧ g = 0
  | .cvWait _ _ _ k => L.landing k = true ∧ g = 0
  | .notifyAdd _ _ k => g = (L.locked k).toNat ∧ (L.locked k = true → L.landing k = true)
  | .notifyWake _ _ k => g = (L.locked k).toNat ∧ (L.locked k = true → L.landing k = true)

variable {L}

lemma guardOk_awaken (h : L.GuardOk g pc) : L.GuardOk g (awaken pc) := by
  cases pc <;> exact h

/-- A thread that has got its guard is at its landing point. -/
lemma guardOk_landed (h : L.landing k = true) : L.GuardOk 1 (.run k : Pc ι κ) := by
  rw [GuardOk, L.landing_locked k h]
  rfl

/-- A thread that has given its guard back is at a point without a guard. -/
lemma guardOk_resume {c : Cont ι κ} (h : L.GuardOk g (.unlockWake c)) : L.GuardOk g c.resume := by
  cases c with
  | ret k =>
    obtain ⟨hk, rfl⟩ := h
    rw [Cont.resume, GuardOk, hk]
    rfl
  | sleepOn cv seq k => exact h

/-- What an operation of `sync.rs` does: the guards stay right, and the control state
stays the same. -/
lemma exec_ctl [DecidableEq ι] {m' : Words ι} {pc' : Pc ι κ} {n : ℕ}
    (h : pc.exec m = some (m', pc', n)) (hok : L.GuardOk g pc) :
    L.GuardOk (g + n) pc' ∧ pc'.ctl = pc.ctl := by
  have hlock : ∀ {k : κ}, L.landing k = true ∧ g = 0 → L.GuardOk (g + 1) (.run k : Pc ι κ) := by
    rintro k ⟨hland, rfl⟩
    exact guardOk_landed hland
  cases Pc.exec_executes h with
  | lock | swap => exact ⟨hlock hok, rfl⟩
  | tryLock | tryTaken => exact hok.elim
  | unlock c _ =>
    have hwake : L.GuardOk g (.unlockWake c) := by cases c <;> exact hok
    exact ⟨guardOk_resume hwake, by cases c <;> rfl⟩
  | unlockContended c _ => exact ⟨by cases c <;> exact hok, by cases c <;> rfl⟩
  | _ => exact ⟨hok, rfl⟩

lemma guardOk_waker {next : Pc ι κ} {all : Bool} {a : Addr ι} (h : pc.waker = some (all, a, next))
    (hok : L.GuardOk g pc) : L.GuardOk g next := by
  rcases waker_cases h with ⟨c, rfl, -, -, rfl⟩ | ⟨cv, k, rfl, -, rfl⟩
  · exact guardOk_resume hok
  · exact hok.1

lemma guardOk_enter {k' : κ} {c : Call ι} (h : P.call k = some (c, k'))
    (hok : L.GuardOk g (.run k : Pc ι κ)) :
    L.GuardOk (g - c.takesGuard.toNat) (c.enter fun _ => k') := by
  have hcall := L.call k c k' h
  rw [GuardOk] at hok
  cases c with
  | lock | unlock | wait => exact ⟨hcall.2, by rw [hok, hcall.1]; rfl⟩
  | tryLock => exact hcall.elim
  | notify all cv => exact ⟨by rw [hok, hcall.1]; rfl, hcall.2⟩

/-- A thread inside is in the program, unless it is on its way to its landing point. -/
lemma GuardOk.eq_run (h : L.GuardOk g pc) (hlocked : L.locked pc.ctl = true)
    (hland : L.landing pc.ctl = false) : pc = .run pc.ctl ∧ g = 1 := by
  cases pc with
  | run k =>
    rw [GuardOk, show L.locked k = true from hlocked] at h
    exact ⟨rfl, h⟩
  | tryCas k => exact h.elim
  | unlockSwap c | unlockWake c =>
    cases c with
    | ret k => exact absurd (h.1.symm.trans hlocked) (by simp)
    | sleepOn cv seq k => exact absurd (h.1.symm.trans hland) (by simp)
  | notifyAdd | notifyWake => exact absurd ((h.2 hlocked).symm.trans hland) (by simp)
  | _ => exact absurd (h.1.symm.trans hland) (by simp)

end Discipline

/-! ### The system without the mutex -/

/-- What is left of a state if the functions of `sync.rs` are forgotten. -/
@[ext] structure View (Tid κ D : Type*) where
  data : D
  ctl : Tid → κ

/-- The view of a state. -/
def State.view (s : State Tid ι κ D) : View Tid κ D := ⟨s.data, fun t => (s.pc t).ctl⟩

/-- A thread goes from one program point to the next: an operation, a choice or a call. -/
inductive Program.Moves (P : Program ι κ D X) : κ → D → κ → D → Prop
  | exec {k k' : κ} {d d' : D} (h : P.exec k d = some (k', d')) : Moves P k d k' d'
  | choose {k k' : κ} {d d' : D} (x : X) (h : P.choose x k d = some (k', d')) : Moves P k d k' d'
  | call {k k' : κ} {d : D} {c : Call ι} (h : P.call k = some (c, k')) : Moves P k d k' d

namespace Discipline

variable [DecidableEq Tid] {P : Program ι κ D X} (L : Discipline P)

/-- The other threads are not inside. -/
def Alone (v : View Tid κ D) (t : Tid) : Prop :=
  ∀ u, u ≠ t → L.locked (v.ctl u) = true → L.landing (v.ctl u) = true

/-- One thread moves; with the guard it does so alone. -/
inductive ViewStep : View Tid κ D → View Tid κ D → Prop
  | move {v : View Tid κ D} (t : Tid) {k : κ} {d : D} (h : P.Moves (v.ctl t) v.data k d)
      (halone : L.locked (v.ctl t) = true → L.Alone v t) :
      ViewStep v ⟨d, Function.update v.ctl t k⟩

/-- The runs of the system without the mutex. -/
def ViewReaches (v : View Tid κ D) : Prop :=
  Reachable (fun v => v = ⟨P.init, fun _ => P.start⟩) L.ViewStep v

variable {L} {s s' : State Tid ι κ D} {t : Tid}

/-- All threads are where their guards allow them to be. -/
def Guarded (L : Discipline P) (s : State Tid ι κ D) : Prop :=
  ∀ t, L.GuardOk (s.guards t) (s.pc t)

lemma view_update {d : D} {g : Tid → ℕ} :
    State.view ⟨m, d, Function.update s.pc t pc, g⟩ =
      ⟨d, Function.update s.view.ctl t pc.ctl⟩ := by
  ext u
  · rfl
  · by_cases hu : u = t
    · subst hu
      simp [State.view]
    · simp [State.view, hu]

/-- The control state of `t` does not change. -/
lemma view_update_same {g : Tid → ℕ} (h : pc.ctl = (s.pc t).ctl) :
    State.view ⟨m, s.data, Function.update s.pc t pc, g⟩ = s.view := by
  rw [view_update, h]
  exact View.ext rfl (Function.update_eq_self t s.view.ctl)

omit [DecidableEq Tid] in
/-- A thread of the program that has a guard is alone. -/
lemma Guarded.alone (hok : L.Guarded s) (hmutex : ∀ t u, 0 < s.holds t → 0 < s.holds u → t = u)
    (ht : s.pc t = .run k) (hk : L.locked k = true) : L.Alone s.view t := by
  intro u hut hlocked
  by_contra hland
  refine hut (hmutex u t ?_ ?_)
  · rw [State.holds, ((hok u).eq_run hlocked (eq_false_of_ne_true hland)).2]
    exact Nat.succ_pos _
  · have hg := hok t
    rw [ht, GuardOk, hk] at hg
    rw [State.holds, hg]
    exact Nat.succ_pos _

/-- Only the thread that moves has to be looked at. -/
lemma Guarded.update (hok : L.Guarded s) (hg : L.GuardOk g pc) (u : Tid) :
    L.GuardOk (Function.update s.guards t g u) (Function.update s.pc t pc u) := by
  by_cases hu : u = t
  · subst hu
    simpa using hg
  · simpa [hu] using hok u

lemma Guarded.update_pc (hok : L.Guarded s) (hg : L.GuardOk (s.guards t) pc) (u : Tid) :
    L.GuardOk (s.guards u) (Function.update s.pc t pc u) := by
  have hu := hok.update (t := t) hg u
  rwa [Function.update_eq_self] at hu

variable [DecidableEq ι]

/-- A wake is not visible: it changes no guard and no program point. -/
lemma rouse_view {pc : Tid → Pc ι κ} (h : Futex.Rouses (fun _ => Pc.waker) s.pc pc)
    (hok : L.Guarded s) : L.Guarded { s with pc := pc } ∧ State.view { s with pc := pc } = s.view :=
  ⟨fun u => h.keeps (K := L.GuardOk (s.guards u)) (fun hw => guardOk_waker hw (hok u))
      (fun _ => guardOk_awaken) (hok u),
    View.ext rfl (funext fun u => h.keeps (u := u) (K := fun p => p.ctl = (s.pc u).ctl)
      ctl_waker (fun _ hp => (ctl_awaken _).trans hp) rfl)⟩

/-- A step is one of the program, or it is not visible. -/
lemma step_view (h : P.client.Step s s') (hok : L.Guarded s)
    (hmutex : ∀ t u, 0 < s.holds t → 0 < s.holds u → t = u) :
    L.Guarded s' ∧ (s'.view = s.view ∨ L.ViewStep s.view s'.view) := by
  cases h with
  | @exec t m pc g h =>
    obtain ⟨hg, hctl⟩ := exec_ctl h (hok t)
    exact ⟨hok.update hg, Or.inl (view_update_same hctl)⟩
  | rouse hrouse =>
    obtain ⟨hg, hview⟩ := rouse_view hrouse hok
    exact ⟨hg, Or.inl hview⟩
  | @act t k k' d ht hact =>
    have hmoves : P.Moves k s.data k' d := hact.elim .exec fun ⟨x, h⟩ => .choose x h
    have hlocked : L.locked k' = L.locked k :=
      hact.elim (L.exec k s.data k' d) fun ⟨x, h⟩ => L.choose x k s.data k' d h
    have hctl : s.view.ctl t = k := congrArg Pc.ctl ht
    refine ⟨hok.update_pc ?_, Or.inr ?_⟩
    · have hg := hok t
      rw [ht, GuardOk, ← hlocked] at hg
      exact hg
    · rw [view_update]
      exact .move t (by rw [hctl]; exact hmoves) (by rw [hctl]; exact hok.alone hmutex ht)
  | @call t k c k' ht hcall hguard =>
    obtain ⟨k₁, hcall, rfl⟩ := hcall
    have hctl : s.view.ctl t = k := congrArg Pc.ctl ht
    refine ⟨hok.update ?_, Or.inr ?_⟩
    · have hg := hok t
      rw [ht] at hg
      exact guardOk_enter hcall hg
    · rw [view_update, ctl_enter]
      exact .move t (by rw [hctl]; exact .call hcall) (by rw [hctl]; exact hok.alone hmutex ht)
  | give t u htu h h' hgive hguard => exact hgive.elim

/-- Without the mutex and the condition variables, a run of a disciplined program is a
run in which a thread with the guard moves alone. -/
lemma reaches_view (L : Discipline P) (h : P.client.Reaches s) :
    L.Guarded s ∧ L.ViewReaches s.view := by
  refine Reachable.induct (P := fun s => L.Guarded s ∧ L.ViewReaches s.view) h ?_ ?_
  · rintro s ⟨-, hdata, hpc, hguards⟩
    have hrun : ∀ t, s.pc t = .run P.start := by
      intro t
      obtain ⟨k, rfl, hk⟩ := hpc t
      exact hk
    refine ⟨fun t => ?_, .start (View.ext hdata (funext fun t => ?_))⟩
    · rw [hrun t, hguards t, GuardOk, L.start]
      rfl
    · exact congrArg Pc.ctl (hrun t)
  · rintro s s' hreach ⟨hok, hview⟩ hstep
    obtain ⟨o, ho⟩ := reaches_owned hreach
    have hmutex : ∀ t u, 0 < s.holds t → 0 < s.holds u → t = u := fun t u ht hu =>
      Option.some.inj ((ho.owner_of_pos ht).symm.trans (ho.owner_of_pos hu))
    obtain ⟨hok', heq | hmove⟩ := step_view hstep hok hmutex
    · exact ⟨hok', by rwa [heq]⟩
    · exact ⟨hok', .next hview hmove⟩

end Discipline

end PureStd.Sync
