/-
The mutex excludes and never loses a wake-up.

`Pc.held` counts the guard that a thread has given to a function which has not released
the mutex yet, so `State.holds` says whether a thread is between taking the mutex and
releasing it.  What an operation does to the mutex is said once, in `exec_held`: it
takes the free mutex, or it releases it, or it leaves both the word and the holder as
they are.  At every moment the word is that of an abstract mutex with an owner
(`Owned`).

For wake-ups the invariant follows the baton: as long as somebody sleeps on the word,
the word is 2, or a thread that released the mutex has still to call `futex_wake`, or a
thread in the contended path is awake.
-/
import PureStd.Sync.Runtime

namespace PureStd.Sync

open Sleeper

variable {Tid ι κ D : Type*} {m : Words ι} {pc : Pc ι κ} {g : ℕ} {a : Addr ι} {t : Tid}

/-! ### Holding the mutex -/

/-- The guard that a thread has given to a function that has not released it yet. -/
def Pc.held : Pc ι κ → ℕ
  | unlockSwap _ => 1
  | cvLoad _ _ => 1
  | _ => 0

/-- The number of times that a thread is between taking and releasing the mutex. -/
def State.holds (s : State Tid ι κ D) (t : Tid) : ℕ := (s.pc t).held + s.guards t

@[simp] lemma held_resume (c : Cont ι κ) : c.resume.held = 0 := by cases c <;> rfl

@[simp] lemma held_enter (c : Call ι) (k : Bool → κ) :
    (c.enter k).held = c.takesGuard.toNat := by cases c <;> rfl

@[simp] lemma held_awaken (pc : Pc ι κ) : (awaken pc).held = pc.held := by cases pc <;> rfl

/-- What an operation does to the mutex: it takes it, releases it, or neither. -/
lemma exec_held [DecidableEq ι] {m' : Words ι} {pc' : Pc ι κ} (h : pc.exec m = some (m', pc', g)) :
    (m.mutex = 0 ∧ m'.mutex ≠ 0 ∧ pc'.held + g = pc.held + 1) ∨
    (m'.mutex = 0 ∧ pc'.held + g + 1 = pc.held) ∨
    ((m'.mutex = 0 ↔ m.mutex = 0) ∧ pc'.held + g = pc.held) := by
  cases Pc.exec_executes h with
  | lock _ hzero | swap _ hzero | tryLock _ hzero => exact Or.inl ⟨hzero, by simp, rfl⟩
  | swapTaken k hne => exact Or.inr (Or.inr ⟨by simp [hne], rfl⟩)
  | unlock c _ => exact Or.inr (Or.inl ⟨rfl, by rw [held_resume]; rfl⟩)
  | unlockContended c _ => exact Or.inr (Or.inl ⟨rfl, rfl⟩)
  | _ => exact Or.inr (Or.inr ⟨Iff.rfl, rfl⟩)

/-- A thread calls `futex_wake` at the end of `raw_unlock` or of a notification. -/
lemma waker_cases {next : Pc ι κ} {all : Bool} (h : pc.waker = some (all, a, next)) :
    (∃ c, pc = .unlockWake c ∧ all = false ∧ a = .mutex ∧ next = c.resume) ∨
    ∃ cv k, pc = .notifyWake all cv k ∧ a = .seq cv ∧ next = .run k := by
  cases pc with
  | unlockWake c =>
    obtain ⟨rfl, rfl, rfl⟩ := by simpa [Pc.waker] using h
    exact Or.inl ⟨c, rfl, rfl, rfl, rfl⟩
  | notifyWake all cv k =>
    obtain ⟨rfl, rfl, rfl⟩ := by simpa [Pc.waker] using h
    exact Or.inr ⟨cv, k, rfl, rfl, rfl⟩
  | _ => exact absurd h (by simp [Pc.waker])

section Exclusion

variable [DecidableEq Tid] {s : State Tid ι κ D} {o : Option Tid}

/-- The mutex is that of an abstract mutex owned by `o`. -/
def State.Owned (s : State Tid ι κ D) (o : Option Tid) : Prop :=
  (∀ t, s.holds t = if o = some t then 1 else 0) ∧ (s.words.mutex = 0 ↔ o = none)

lemma State.Owned.owner_of_pos (h : s.Owned o) (ht : 0 < s.holds t) : o = some t := by
  by_contra hno
  rw [h.1 t, if_neg hno] at ht
  exact absurd ht (by simp)

/-- Nobody's part in the mutex has changed. -/
lemma State.Owned.congr {s' : State Tid ι κ D} (h : s.Owned o)
    (hword : s'.words.mutex = 0 ↔ s.words.mutex = 0) (hholds : ∀ t, s'.holds t = s.holds t) :
    s'.Owned o :=
  ⟨fun t => (hholds t).trans (h.1 t), hword.trans h.2⟩

/-- With the guard, the mutex changes hands. -/
lemma give_owned {u : Tid} {k k' : κ} (htu : t ≠ u) (h : s.pc t = .run k) (h' : s.pc u = .run k')
    (hguard : 0 < s.guards t) (ho : s.Owned o) :
    State.Owned { s with
      guards := Function.update (Function.update s.guards t (s.guards t - 1)) u
        (s.guards u + 1) } (some u) := by
  obtain rfl : o = some t := ho.owner_of_pos (by rw [State.holds]; omega)
  have hone := ho.1 t
  have hzero := ho.1 u
  simp only [State.holds, h, h', Pc.held, if_true, Option.some.injEq, if_neg htu] at hone hzero
  refine ⟨fun v => ?_, by simpa using ho.2⟩
  by_cases hvu : v = u
  · subst hvu
    simp only [State.holds, Function.update_self, h', Pc.held, if_true]
    omega
  · by_cases hvt : v = t
    · subst hvt
      simp only [State.holds, Function.update_of_ne hvu, Function.update_self, h, Pc.held]
      rw [if_neg fun heq => hvu (Option.some.inj heq).symm]
      omega
    · have hv := ho.1 v
      simp only [State.holds] at hv
      simp only [State.holds, Function.update_of_ne hvu, Function.update_of_ne hvt, hv]
      rw [if_neg fun heq => hvt (Option.some.inj heq).symm,
        if_neg fun heq => hvu (Option.some.inj heq).symm]

variable [DecidableEq ι] {C : Client ι κ D} {s' : State Tid ι κ D}

/-- An operation inside `sync.rs` takes the mutex to an abstract mutex again. -/
lemma exec_owned (h : (s.pc t).exec s.words = some (m, pc, g)) (ho : s.Owned o) :
    ∃ o', State.Owned { s with
      words := m
      pc := Function.update s.pc t pc
      guards := Function.update s.guards t (s.guards t + g) } o' := by
  set s' : State Tid ι κ D := { s with
    words := m
    pc := Function.update s.pc t pc
    guards := Function.update s.guards t (s.guards t + g) } with hs'
  have hother : ∀ u, u ≠ t → s'.holds u = s.holds u := by
    intro u hu
    simp [hs', State.holds, hu]
  have hself : s'.holds t = pc.held + s.guards t + g := by
    simp [hs', State.holds, Nat.add_assoc]
  rcases exec_held h with ⟨hfree, htaken, hheld⟩ | ⟨hfree, hheld⟩ | ⟨hword, hheld⟩
  · -- `t` takes the free mutex
    obtain rfl := ho.2.1 hfree
    have hzero := ho.1 t
    simp only [State.holds, reduceCtorEq, if_false] at hzero
    refine ⟨some t, fun u => ?_, by simpa using htaken⟩
    by_cases hu : u = t
    · subst hu
      rw [hself, if_pos rfl]
      omega
    · rw [hother u hu, ho.1 u, if_neg (by simp),
        if_neg fun heq => hu (Option.some.inj heq).symm]
  · -- `t` releases the mutex, so it was the owner
    obtain rfl : o = some t := ho.owner_of_pos (by rw [State.holds]; omega)
    have hone := ho.1 t
    simp only [State.holds, if_true] at hone
    refine ⟨none, fun u => ?_, by simpa using hfree⟩
    by_cases hu : u = t
    · subst hu
      rw [hself, if_neg (by simp)]
      omega
    · rw [hother u hu, ho.1 u, if_neg fun heq => hu (Option.some.inj heq).symm,
        if_neg (by simp)]
  · refine ⟨o, ho.congr hword fun u => ?_⟩
    by_cases hu : u = t
    · subst hu
      rw [hself, State.holds]
      omega
    · exact hother u hu

/-- A wake-up leaves the holder as it is. -/
lemma held_rouse {pc pc' : Tid → Pc ι κ} (h : Futex.Rouses (fun _ => Pc.waker) pc pc') (u : Tid) :
    (pc' u).held = (pc u).held := by
  refine h.keeps (K := fun p => p.held = (pc u).held) (fun hw => ?_)
    (fun _ hp => (held_awaken _).trans hp) rfl
  rcases waker_cases hw with ⟨c, hpc, -, -, rfl⟩ | ⟨cv, k, hpc, -, rfl⟩
  · rw [hpc, held_resume]
    rfl
  · rw [hpc]
    rfl

/-- Every step takes the mutex to an abstract mutex again. -/
lemma step_owned (h : C.Step s s') (ho : s.Owned o) : ∃ o', s'.Owned o' := by
  cases h with
  | exec t h => exact exec_owned h ho
  | rouse hrouse =>
    exact ⟨o, ho.congr Iff.rfl fun u => congrArg (· + s.guards u) (held_rouse hrouse u)⟩
  | @act t k k' d h hact =>
    refine ⟨o, ho.congr Iff.rfl fun u => ?_⟩
    by_cases hu : u = t
    · simp [State.holds, hu, h, Pc.held]
    · simp [State.holds, hu]
  | @call t k c k' h hcall hguard =>
    refine ⟨o, ho.congr Iff.rfl fun u => ?_⟩
    by_cases hu : u = t
    · subst hu
      have hrun : (s.pc u).held = 0 := by rw [h]; rfl
      simp only [State.holds, Function.update_self, held_enter, hrun]
      cases hc : c.takesGuard with
      | false => simp
      | true =>
        -- the guard that the call takes is still counted
        have := hguard hc
        simp only [Bool.toNat_true]
        omega
    · simp [State.holds, hu]
  | give t u htu h h' hgive hguard => exact ⟨some u, give_owned htu h h' hguard ho⟩

lemma reaches_owned (h : C.Reaches s) : ∃ o, s.Owned o := by
  refine Reachable.induct (P := fun s => ∃ o, s.Owned o) h ?_
    fun s s' _ ⟨o, ho⟩ hstep => step_owned hstep ho
  rintro s ⟨hwords, -, hpc, hguards⟩
  refine ⟨none, fun t => ?_, ?_⟩
  · obtain ⟨k, -, hk⟩ := hpc t
    rw [State.holds, hk, hguards t]
    simp [Pc.held]
  · rw [hwords]
    simp [Words.new]

/-- At most one thread is between taking and releasing the mutex, and it took it once;
the word is 0 exactly if there is none. -/
theorem mutex_excludes (C : Client ι κ D) {s : State Tid ι κ D} (h : C.Reaches s) :
    (∀ t u, 0 < s.holds t → 0 < s.holds u → t = u) ∧ (∀ t, s.holds t ≤ 1) ∧
      (s.words.mutex = 0 ↔ ∀ t, s.holds t = 0) := by
  obtain ⟨o, ho⟩ := reaches_owned h
  refine ⟨fun t u ht hu => ?_, fun t => ?_, ?_⟩
  · exact Option.some.inj ((ho.owner_of_pos ht).symm.trans (ho.owner_of_pos hu))
  · rw [ho.1 t]
    split <;> simp
  · rw [ho.2]
    constructor
    · rintro rfl t
      rw [ho.1 t, if_neg (by simp)]
    · intro hall
      cases o with
      | none => rfl
      | some t =>
        have := ho.1 t
        rw [hall t, if_pos rfl] at this
        exact absurd this (by simp)

/-- A thread has taken the mutex with the first operation of `lock`. -/
theorem mutex_excludes_locked : ∃ s : State ℕ Unit Unit Unit, anyClient.Reaches s ∧
    s.holds 0 = 1 ∧ ∀ u, 0 < s.holds u → 0 = u := by
  have hreach := (anyStart_reached.enter 0 .lock (fun _ => ()) rfl trivial (by decide)).advance 0
  exact ⟨_, hreach, rfl, fun u hu => (mutex_excludes anyClient hreach).1 0 u (by decide) hu⟩

end Exclusion

/-! ### Wake-ups -/

/-- The thread is awake in the contended path of `raw_lock`. -/
def Pc.contended : Pc ι κ → Bool
  | lockSwap _ => true
  | lockWait .load _ => true
  | lockWait .enter _ => true
  | _ => false

/-- The next operations of the thread, which leave the words as they are, lead it to the
swap of 2 into the word of the mutex. -/
inductive Pc.WillSwap [DecidableEq ι] (m : Words ι) : Pc ι κ → Prop
  | swap (k : κ) : WillSwap m (.lockSwap k)
  | exec {pc pc' : Pc ι κ} (h : pc.exec m = some (m, pc', 0)) (h' : WillSwap m pc') :
      WillSwap m pc

/-- A thread in the contended path goes to the swap unless the word is 2. -/
lemma willSwap_of_contended [DecidableEq ι] (h : pc.contended = true) (hm : m.mutex ≠ 2) :
    pc.WillSwap m := by
  have hload : ∀ k : κ, Pc.WillSwap m (.lockWait .load k) := fun k =>
    .exec (by simp [Pc.exec, WaitPc.exec, hm]) (.swap k)
  cases pc with
  | lockSwap k => exact .swap k
  | lockWait w k =>
    cases w with
    | load => exact hload k
    | enter => exact .exec (by simp [Pc.exec, WaitPc.exec, hm]) (hload k)
    | asleep | done => exact absurd h (by simp [Pc.contended])
  | _ => exact absurd h (by simp [Pc.contended])

/-- The baton: somebody will see to those who sleep on the word. -/
def Baton (m : Words ι) (pc : Tid → Pc ι κ) : Prop :=
  m.mutex = 2 ∨ (∃ u c, pc u = .unlockWake c) ∨ ∃ u, (pc u).contended = true

/-- The baton stays with a thread that does not move. -/
lemma Baton.congr {pc pc' : Tid → Pc ι κ} (h : Baton m pc)
    (hsame : ∀ u, (∃ c, pc u = .unlockWake c) ∨ (pc u).contended = true → pc' u = pc u) :
    Baton m pc' := by
  rcases h with h | ⟨u, c, hu⟩ | ⟨u, hu⟩
  · exact Or.inl h
  · exact Or.inr (Or.inl ⟨u, c, by rw [hsame u (Or.inl ⟨c, hu⟩), hu]⟩)
  · exact Or.inr (Or.inr ⟨u, by rw [hsame u (Or.inr hu), hu]⟩)

/-- What an operation does to the baton.  A thread falls asleep only on 2, and keeps the
baton until the word is 2; the word stops to be 2 only when it has to be passed on. -/
lemma exec_baton [DecidableEq ι] {m' : Words ι} {pc' : Pc ι κ} (h : pc.exec m = some (m', pc', g)) :
    (asleepOn pc' = some .mutex → m'.mutex = 2) ∧
    (pc.contended = true → m'.mutex = 2 ∨ pc'.contended = true) ∧
    (m.mutex = 2 → m'.mutex = 2 ∨ ∃ c, pc' = .unlockWake c) ∧ ∀ c, pc ≠ .unlockWake c := by
  cases Pc.exec_executes h with
  | lock _ hzero | tryLock _ hzero => simp [hzero, Pc.contended, asleepOn]
  | lockTaken | tryTaken => simp +contextual [Pc.contended, asleepOn]
  | swap | swapTaken => simp [asleepOn]
  | lockWait w w' k hw hwait =>
    cases w' with
    | load | enter => simp +contextual [asleepOn, Pc.contended]
    | asleep => simp [WaitPc.eq_of_exec_asleep hw]
    | done => exact absurd rfl hwait
  | lockWaited | cvLoad | cvWaited | notifyAdd => simp +contextual [asleepOn, Pc.contended]
  | unlock c hne => cases c <;> simp [hne, asleepOn, Cont.resume, Pc.contended]
  | unlockContended c _ => simp [asleepOn, Pc.contended]
  | cvWait w w' cv seq k _ _ =>
    refine ⟨fun hasleep => ?_, by simp [Pc.contended], Or.inl, by simp⟩
    cases w' <;> simp [asleepOn] at hasleep

/-- A thread that wakes up from the word of the mutex is in the contended path. -/
lemma contended_awaken (h : asleepOn pc = some .mutex) : (awaken pc).contended = true := by
  cases pc with
  | lockWait w k => rfl
  | cvWait w cv seq k => cases w <;> simp [asleepOn] at h
  | _ => exact absurd h (by simp [asleepOn])

lemma asleepOn_awaken (pc : Pc ι κ) : asleepOn (awaken pc) = none := by
  cases pc <;> rfl

/-- A sleeping thread does not have the baton. -/
lemma not_baton_of_asleep (h : asleepOn pc = some a) :
    ¬ ((∃ c, pc = .unlockWake c) ∨ pc.contended = true) := by
  rintro (⟨c, rfl⟩ | hcont)
  · exact absurd h (by simp [asleepOn])
  · cases pc with
    | lockWait w k => cases w <;> simp [asleepOn, Pc.contended] at h hcont
    | lockSwap k => exact absurd h (by simp [asleepOn])
    | _ => exact absurd hcont (by simp [Pc.contended])

section WakeUps

variable [DecidableEq Tid] {s s' : State Tid ι κ D} {v : Tid}

/-- A thread of the program does not have the baton, and a call does not sleep. -/
lemma run_passes {k : κ} (h : s.pc t = .run k) (hpc : asleepOn pc = none)
    (hs : (∃ v, asleepOn (s.pc v) = some .mutex) → Baton s.words s.pc)
    (hv : asleepOn (Function.update s.pc t pc v) = some .mutex) :
    Baton s.words (Function.update s.pc t pc) := by
  have hvt : v ≠ t := by
    rintro rfl
    rw [Function.update_self, hpc] at hv
    exact absurd hv (by simp)
  rw [Function.update_of_ne hvt] at hv
  refine (hs ⟨v, hv⟩).congr fun u hu => Function.update_of_ne ?_ ..
  rintro rfl
  rw [h] at hu
  simp [Pc.contended] at hu

variable [DecidableEq ι] {C : Client ι κ D}

/-- An operation inside `sync.rs` passes the baton on as long as somebody sleeps. -/
lemma exec_passes (h : (s.pc t).exec s.words = some (m, pc, g))
    (hs : (∃ v, asleepOn (s.pc v) = some .mutex) → Baton s.words s.pc)
    (hv : asleepOn (Function.update s.pc t pc v) = some .mutex) :
    Baton m (Function.update s.pc t pc) := by
  obtain ⟨hasleep, hcont, hword, hnot⟩ := exec_baton h
  by_cases hm : m.mutex = 2
  · exact Or.inl hm
  · by_cases hold : s.words.mutex = 2
    · -- the word stops to be 2: `t` has still to call `futex_wake`
      obtain ⟨c, rfl⟩ := (hword hold).resolve_left hm
      exact Or.inr (Or.inl ⟨t, c, Function.update_self ..⟩)
    · -- nobody falls asleep, so the sleeper slept before
      have hvt : v ≠ t := by
        rintro rfl
        rw [Function.update_self] at hv
        exact hm (hasleep hv)
      rw [Function.update_of_ne hvt] at hv
      rcases hs ⟨v, hv⟩ with h2 | ⟨u, c, hu⟩ | ⟨u, hu⟩
      · exact absurd h2 hold
      · have hut : u ≠ t := by
          rintro rfl
          exact hnot c hu
        exact Or.inr (Or.inl ⟨u, c, by rw [Function.update_of_ne hut, hu]⟩)
      · by_cases hut : u = t
        · subst hut
          exact Or.inr (Or.inr ⟨u, by
            rw [Function.update_self]
            exact (hcont hu).resolve_left hm⟩)
        · exact Or.inr (Or.inr ⟨u, by rw [Function.update_of_ne hut, hu]⟩)

/-- So does a call of `futex_wake`. -/
lemma wake_passes {all : Bool} {next : Pc ι κ} {pc : Tid → Pc ι κ}
    (h : (s.pc t).waker = some (all, a, next))
    (hwake : Futex.Wake all a (Function.update s.pc t next) pc)
    (hs : (∃ v, asleepOn (s.pc v) = some .mutex) → Baton s.words s.pc)
    (hv : asleepOn (pc v) = some .mutex) : Baton s.words pc := by
  have hkeep : ∀ u, u ≠ t → (∃ c, s.pc u = .unlockWake c) ∨ (s.pc u).contended = true →
      pc u = s.pc u := by
    intro u hut hu
    rcases hwake.cases u with heq | ⟨hasleep, -⟩
    · rw [heq, Function.update_of_ne hut]
    · rw [Function.update_of_ne hut] at hasleep
      exact absurd hu (not_baton_of_asleep hasleep)
  have hv' : asleepOn (Function.update s.pc t next v) = some .mutex := by
    rcases hwake.cases v with heq | ⟨-, heq⟩
    · rwa [← heq]
    · rw [heq, asleepOn_awaken] at hv
      exact absurd hv (by simp)
  rcases waker_cases h with ⟨c, -, -, rfl, -⟩ | ⟨cv, k, ht, rfl, rfl⟩
  · -- the wake-up of `raw_unlock` reaches a sleeper, who takes the baton
    obtain ⟨u, hu, hpc⟩ := hwake.exists_awoken hv'
    exact Or.inr (Or.inr ⟨u, by
      rw [hpc]
      exact contended_awaken hu⟩)
  · -- that of a notification does not concern the mutex
    have hvt : v ≠ t := by
      rintro rfl
      rw [Function.update_self] at hv'
      exact absurd hv' (by simp [asleepOn])
    rw [Function.update_of_ne hvt] at hv'
    refine (hs ⟨v, hv'⟩).congr fun u hu => hkeep u ?_ hu
    rintro rfl
    rw [ht] at hu
    simp [Pc.contended] at hu

/-- Every step passes the baton on as long as somebody sleeps. -/
lemma step_baton (h : C.Step s s')
    (hs : (∃ v, asleepOn (s.pc v) = some .mutex) → Baton s.words s.pc) :
    (∃ v, asleepOn (s'.pc v) = some .mutex) → Baton s'.words s'.pc := by
  rintro ⟨v, hv⟩
  cases h with
  | exec t h => exact exec_passes h hs hv
  | @rouse pc hrouse =>
    cases hrouse with
    | wake t h hwake => exact wake_passes (s := s) h hwake hs hv
    | @spurious t a h =>
      by_cases ha : a = .mutex
      · subst ha
        refine Or.inr (Or.inr ⟨t, ?_⟩)
        simp only [Function.update_self]
        exact contended_awaken h
      · have hvt : v ≠ t := by
          rintro rfl
          simp only [Function.update_self, asleepOn_awaken] at hv
          exact absurd hv (by simp)
        simp only [Function.update_of_ne hvt] at hv
        refine (hs ⟨v, hv⟩).congr fun u hu => Function.update_of_ne ?_ ..
        rintro rfl
        exact not_baton_of_asleep h hu
  | act t h hact => exact run_passes h rfl hs hv
  | @call t k c k' h hcall hguard => exact run_passes h (by cases c <;> rfl) hs hv
  | give t u htu h h' hgive hguard => exact hs ⟨v, hv⟩

/-- If a thread sleeps on the word of the mutex, the word is 2, or a thread that released
the mutex has still to call `futex_wake`, or a thread in the contended path is awake and
goes to the swap of 2 into the word.  So the mutex is never free with a sleeper and
nobody to wake it. -/
theorem mutex_wakes (C : Client ι κ D) {s : State Tid ι κ D} (h : C.Reaches s) {t : Tid}
    (ht : asleepOn (s.pc t) = some .mutex) :
    (s.words.mutex = 2 ∨ (∃ u c, s.pc u = .unlockWake c) ∨
      ∃ u, (s.pc u).contended = true ∧ (s.pc u).WillSwap s.words) ∧
    (s.words.mutex = 0 → (∃ u c, s.pc u = .unlockWake c) ∨
      ∃ u, (s.pc u).contended = true ∧ (s.pc u).WillSwap s.words) := by
  have hbaton : Baton s.words s.pc := by
    refine Reachable.induct
      (P := fun s => (∃ v, asleepOn (s.pc v) = some .mutex) → Baton s.words s.pc) h ?_
      (fun s s' _ hs hstep => step_baton hstep hs) ⟨t, ht⟩
    rintro s ⟨-, -, hpc, -⟩ ⟨v, hv⟩
    obtain ⟨k, -, hk⟩ := hpc v
    rw [hk] at hv
    exact absurd hv (by simp [asleepOn])
  have hcases : s.words.mutex = 2 ∨ (∃ u c, s.pc u = .unlockWake c) ∨
      ∃ u, (s.pc u).contended = true ∧ (s.pc u).WillSwap s.words := by
    rcases hbaton with h2 | hwake | ⟨u, hu⟩
    · exact Or.inl h2
    · exact Or.inr (Or.inl hwake)
    · by_cases h2 : s.words.mutex = 2
      · exact Or.inl h2
      · exact Or.inr (Or.inr ⟨u, hu, willSwap_of_contended hu h2⟩)
  refine ⟨hcases, fun hfree => hcases.resolve_left ?_⟩
  rw [hfree]
  decide

/-- Thread 0 holds the mutex and thread 1 has gone to sleep on it. -/
theorem mutex_wakes_contended : ∃ s : State ℕ Unit Unit Unit, anyClient.Reaches s ∧
    asleepOn (s.pc 1) = some .mutex ∧ s.holds 0 = 1 ∧
    (s.words.mutex = 2 ∨ (∃ u c, s.pc u = .unlockWake c) ∨
      ∃ u, (s.pc u).contended = true ∧ (s.pc u).WillSwap s.words) := by
  have hheld := (anyStart_reached.enter 0 .lock (fun _ => ()) rfl trivial (by decide)).advance 0
  have hcall := hheld.enter 1 .lock (fun _ => ()) rfl trivial (by decide)
  have hreach := (((hcall.advance 1).advance 1).advance 1).advance 1
  exact ⟨_, hreach, rfl, rfl, (mutex_wakes anyClient hreach (t := 1) rfl).1⟩

end WakeUps

end PureStd.Sync
