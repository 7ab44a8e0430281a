/-
Threads that share data and sleep on futexes.

A `Machine` says what a thread in a position of type `P` does next to shared data of type
`S`: an operation, a choice of type `X`, or a call of `futex_wake`.  Threads take turns in
any order, `futex_wake` picks any sleeper, and sleepers may wake up for no reason.  Steps are
sequentially consistent: every thread sees an operation as soon as it is made.

Two rules give invariants.  With `Machine.Local`, every thread has an assertion about the
shared data that its own steps keep and that the steps of the others do not break.  With
`Machine.Handoff`, sleepers are looked after: while somebody sleeps, the data satisfies a
condition, or some thread has still to call `futex_wake`.
-/
import PureStd.Lib.Futex
import PureStd.Lib.Transition

namespace PureStd

open Sleeper

variable {Tid P A S X : Type*}

/-- Threads in positions of type `P` over shared data of type `S`. -/
structure Machine (Tid P A S X : Type*) where
  /-- Where a thread begins. -/
  start : Tid → P
  /-- The data at the beginning. -/
  init : S
  /-- The next operation of a thread. -/
  exec : Tid → P → S → Option (P × S)
  /-- What a thread may choose to do. -/
  choose : Tid → X → P → S → Option (P × S)
  /-- The `futex_wake` that a thread is about to call: all sleepers or one, the address, and
  where the thread goes on. -/
  waker : P → Option (Bool × A × P)

namespace Machine

/-- The shared data and the positions of the threads. -/
@[ext] structure State (Tid P S : Type*) where
  shared : S
  pc : Tid → P

/-- A thread goes on by an operation or a choice. -/
inductive Moves (M : Machine Tid P A S X) (t : Tid) : P → S → P → S → Prop
  | exec {p p' : P} {d d' : S} (h : M.exec t p d = some (p', d')) : Moves M t p d p' d'
  | choose {p p' : P} {d d' : S} (x : X) (h : M.choose t x p d = some (p', d')) :
      Moves M t p d p' d'

variable [DecidableEq Tid] [DecidableEq A] [Sleeper P A]

/-- One atomic step of some thread. -/
inductive Step (M : Machine Tid P A S X) : State Tid P S → State Tid P S → Prop
  | move {s : State Tid P S} (t : Tid) {p : P} {d : S} (h : M.Moves t (s.pc t) s.shared p d) :
      Step M s ⟨d, Function.update s.pc t p⟩
  /-- Sleepers wake up. -/
  | rouse {s : State Tid P S} {pc : Tid → P} (h : Futex.Rouses (fun _ => M.waker) s.pc pc) :
      Step M s ⟨s.shared, pc⟩

/-- The beginning. -/
def begin (M : Machine Tid P A S X) : State Tid P S := ⟨M.init, M.start⟩

/-- The states that the runs of a machine reach. -/
def Reaches (M : Machine Tid P A S X) (s : State Tid P S) : Prop :=
  Reachable (fun s => s = M.begin) M.Step s

variable {M : Machine Tid P A S X} {s s' : State Tid P S}

/-- A thread that is neither asleep nor about to call `futex_wake` stays where it is in a step of
another thread. -/
lemma Step.of_awake (h : M.Step s s') {t : Tid} (hawake : asleepOn (s.pc t) = none)
    (hwaker : M.waker (s.pc t) = none) :
    s'.pc t = s.pc t ∨ M.Moves t (s.pc t) s.shared (s'.pc t) s'.shared := by
  cases h with
  | @move u p d hmove =>
    by_cases htu : t = u
    · subst htu
      refine Or.inr ?_
      change M.Moves t (s.pc t) s.shared (Function.update s.pc t p t) d
      rwa [Function.update_self]
    · exact Or.inl (Function.update_of_ne htu ..)
  | rouse h =>
    refine Or.inl (h.keeps (u := t) (K := (· = s.pc t)) (fun hw => ?_) (fun hasleep hp => ?_) rfl)
    · cases hwaker.symm.trans hw
    · rw [hp, hawake] at hasleep
      cases hasleep

/-! ### Schedules -/

/-- One turn of a schedule: a thread makes a choice, or it goes on.  It wakes all sleepers if
that is what it is about to do. -/
def turn (M : Machine Tid P A S X) (s : State Tid P S) : Tid × Option X → State Tid P S
  | (t, some x) =>
    match M.choose t x (s.pc t) s.shared with
    | some (p, d) => ⟨d, Function.update s.pc t p⟩
    | none => s
  | (t, none) =>
    match M.exec t (s.pc t) s.shared with
    | some (p, d) => ⟨d, Function.update s.pc t p⟩
    | none =>
      match M.waker (s.pc t) with
      | some (true, a, next) => ⟨s.shared, Futex.wakeAll a (Function.update s.pc t next)⟩
      | _ => s

/-- A turn is a step of the machine, or nothing. -/
lemma turn_step (s : State Tid P S) (a : Tid × Option X) :
    M.Step s (M.turn s a) ∨ M.turn s a = s := by
  obtain ⟨t, _ | x⟩ := a
  · rw [turn]
    split
    · exact Or.inl (.move t (.exec ‹_›))
    · split
      · rename_i a next hwaker
        exact Or.inl (.rouse (.wake t hwaker (show Futex.Wake true a _ _ from rfl)))
      · exact Or.inr rfl
  · rw [turn]
    split
    · exact Or.inl (.move t (.choose x ‹_›))
    · exact Or.inr rfl

lemma reaches_begin : M.Reaches M.begin := .start rfl

lemma Reaches.play (h : M.Reaches s) (turns : List (Tid × Option X)) :
    M.Reaches (turns.foldl M.turn s) :=
  h.foldl turn_step turns

/-! ### Assertions of threads -/

/-- The data satisfies `G`, and every thread satisfies its assertion `L`. -/
structure Local (M : Machine Tid P A S X) (G : S → Prop) (L : Tid → P → S → Prop) : Prop where
  init : G M.init
  start : ∀ t, L t (M.start t) M.init
  /-- The thread that moves keeps its own assertion, and does not break the others. -/
  moves : ∀ t p d p' d', M.Moves t p d p' d' → G d → L t p d →
    G d' ∧ L t p' d' ∧ ∀ u q, u ≠ t → L u q d → L u q d'
  waker : ∀ t p d all a next, M.waker p = some (all, a, next) → L t p d → L t next d
  awaken : ∀ t p d a, asleepOn p = some a → L t p d → L t (awaken p) d

lemma Local.step {G : S → Prop} {L : Tid → P → S → Prop} (h : M.Local G L) (hstep : M.Step s s')
    (hG : G s.shared) (hL : ∀ t, L t (s.pc t) s.shared) :
    G s'.shared ∧ ∀ t, L t (s'.pc t) s'.shared := by
  cases hstep with
  | @move t p d hmove =>
    obtain ⟨hG', hself, hother⟩ := h.moves t _ _ _ _ hmove hG (hL t)
    refine ⟨hG', (Function.forall_update_iff s.pc fun u q => L u q d).2 ⟨hself, fun u hu => ?_⟩⟩
    exact hother u _ hu (hL u)
  | rouse hrouse =>
    exact ⟨hG, fun u => hrouse.keeps (u := u) (K := fun p => L u p s.shared)
      (fun hw => h.waker u _ _ _ _ _ hw (hL u)) (h.awaken u _ _ _) (hL u)⟩

/-- The assertions hold in every reachable state. -/
lemma Local.reaches {G : S → Prop} {L : Tid → P → S → Prop} (h : M.Local G L)
    (hs : M.Reaches s) : G s.shared ∧ ∀ t, L t (s.pc t) s.shared := by
  refine Reachable.induct (P := fun s => G s.shared ∧ ∀ t, L t (s.pc t) s.shared) hs ?_
    fun s s' _ ih hstep => h.step hstep ih.1 ih.2
  rintro s rfl
  exact ⟨h.init, h.start⟩

/-! ### Sleepers -/

/-- While somebody sleeps on `a`, the data satisfies `Held`, or there is a `Bearer`: a thread
that has still to call `futex_wake` on `a`.  The assertions `L` of the threads are known. -/
structure Handoff (M : Machine Tid P A S X) (L : Tid → P → S → Prop) (a : A) (Held : S → Prop)
    (Bearer : P → Prop) : Prop where
  start : ∀ t, asleepOn (M.start t) ≠ some a
  /-- A thread falls asleep only on data that is held. -/
  sleeps : ∀ t p d p' d', M.Moves t p d p' d' → L t p d → asleepOn p' = some a → Held d'
  /-- Who makes the data not held becomes a bearer, and a bearer stays one. -/
  keeps : ∀ t p d p' d', M.Moves t p d p' d' → L t p d → Held d ∨ Bearer p → Held d' ∨ Bearer p'
  wakes : ∀ p all b next, M.waker p = some (all, b, next) →
    asleepOn next = none ∧ (Bearer p → b = a)
  awake : ∀ p, Bearer p → asleepOn p = none
  awaken : ∀ p : P, asleepOn (awaken p) = none

/-- Those who sleep on `a` are looked after. -/
def Attended (a : A) (Held : S → Prop) (Bearer : P → Prop) (d : S) (pc : Tid → P) : Prop :=
  (∃ v, asleepOn (pc v) = some a) → Held d ∨ ∃ u, Bearer (pc u)

namespace Handoff

variable {L : Tid → P → S → Prop} {a : A} {Held : S → Prop} {Bearer : P → Prop} {d d' : S}
  {pc pc' : Tid → P} {t : Tid} {p next : P}

omit [DecidableEq A] in
lemma move (h : M.Handoff L a Held Bearer) (hmove : M.Moves t (pc t) d p d')
    (hL : L t (pc t) d) (hs : Attended a Held Bearer d pc) :
    Attended a Held Bearer d' (Function.update pc t p) := by
  rintro ⟨v, hv⟩
  by_cases hvt : v = t
  · subst hvt
    rw [Function.update_self] at hv
    exact Or.inl (h.sleeps v _ _ _ _ hmove hL hv)
  · rw [Function.update_of_ne hvt] at hv
    -- the bearer may be the thread that moves
    have hmine : Held d ∨ Bearer (pc t) → Held d' ∨ ∃ u, Bearer (Function.update pc t p u) :=
      fun hd => (h.keeps t _ _ _ _ hmove hL hd).imp_right fun hp =>
        ⟨t, by rwa [Function.update_self]⟩
    rcases hs ⟨v, hv⟩ with hheld | ⟨u, hu⟩
    · exact hmine (Or.inl hheld)
    · by_cases hut : u = t
      · exact hmine (Or.inr (hut ▸ hu))
      · exact Or.inr ⟨u, by rwa [Function.update_of_ne hut]⟩

/-- A call of `futex_wake` that is not one of a bearer on `a` leaves the bearers. -/
lemma wake_other (h : M.Handoff L a Held Bearer) {all : Bool} {b : A}
    (hw : M.waker (pc t) = some (all, b, next))
    (hwake : Futex.Wake all b (Function.update pc t next) pc') (hb : ¬ Bearer (pc t))
    (hs : Held d ∨ ∃ u, Bearer (pc u)) : Held d ∨ ∃ u, Bearer (pc' u) := by
  refine hs.imp_right fun ⟨u, hu⟩ => ⟨u, ?_⟩
  have hut : u ≠ t := by
    rintro rfl
    exact hb hu
  rcases hwake.cases u with heq | ⟨hasleep, -⟩
  · rwa [heq, Function.update_of_ne hut]
  · rw [Function.update_of_ne hut, h.awake _ hu] at hasleep
    exact absurd hasleep (by simp)

/-- Who sleeps after a call of `futex_wake` slept before and was not picked. -/
lemma asleep_of_wake (h : M.Handoff L a Held Bearer) {all : Bool} {b : A}
    (hw : M.waker (pc t) = some (all, b, next))
    (hwake : Futex.Wake all b (Function.update pc t next) pc') {v : Tid}
    (hv : asleepOn (pc' v) = some a) :
    asleepOn (Function.update pc t next v) = some a ∧ asleepOn (pc v) = some a := by
  have hupd : asleepOn (Function.update pc t next v) = some a := by
    rcases hwake.cases v with heq | ⟨-, heq⟩
    · rwa [heq] at hv
    · rw [heq, h.awaken] at hv
      exact absurd hv (by simp)
  refine ⟨hupd, ?_⟩
  by_cases hvt : v = t
  · rw [hvt, Function.update_self, (h.wakes _ _ _ _ hw).1] at hupd
    exact absurd hupd (by simp)
  · rwa [Function.update_of_ne hvt] at hupd

/-- A bearer wakes everybody, if it wakes all sleepers or there is only one. -/
lemma wake_bearer (h : M.Handoff L a Held Bearer) {all : Bool} {b : A}
    (hw : M.waker (pc t) = some (all, b, next))
    (hwake : Futex.Wake all b (Function.update pc t next) pc') (hb : Bearer (pc t))
    (hone : all = true ∨
      ∀ v v', asleepOn (pc v) = some a → asleepOn (pc v') = some a → v = v') (v : Tid) :
    asleepOn (pc' v) ≠ some a := by
  intro hv
  obtain rfl := (h.wakes _ _ _ _ hw).2 hb
  obtain ⟨hupd, hvs⟩ := h.asleep_of_wake hw hwake hv
  rcases hone with rfl | hone
  · obtain rfl : pc' = Futex.wakeAll b (Function.update pc t next) := hwake
    exact Futex.asleepOn_wakeAll h.awaken _ _ v hv
  · obtain ⟨u, hu, hpc⟩ := hwake.exists_awoken hupd
    have hus : asleepOn (pc u) = some b := by
      by_cases hut : u = t
      · rw [hut, Function.update_self, (h.wakes _ _ _ _ hw).1] at hu
        exact absurd hu (by simp)
      · rwa [Function.update_of_ne hut] at hu
    obtain rfl := hone u v hus hvs
    rw [hpc, h.awaken] at hv
    exact absurd hv (by simp)

omit [DecidableEq A] in
lemma spurious (h : M.Handoff L a Held Bearer) {b : A} (ht : asleepOn (pc t) = some b)
    (hs : Attended a Held Bearer d pc) :
    Attended a Held Bearer d (Function.update pc t (Sleeper.awaken (pc t))) := by
  rintro ⟨v, hv⟩
  have hvt : v ≠ t := by
    rintro rfl
    rw [Function.update_self, h.awaken] at hv
    exact absurd hv (by simp)
  rw [Function.update_of_ne hvt] at hv
  refine (hs ⟨v, hv⟩).imp_right fun ⟨u, hu⟩ => ⟨u, ?_⟩
  have hut : u ≠ t := by
    rintro rfl
    rw [h.awake _ hu] at ht
    exact absurd ht (by simp)
  rwa [Function.update_of_ne hut]

/-- In every reachable state the sleepers are looked after, if a bearer wakes all of them or
there is only one. -/
lemma reaches (h : M.Handoff L a Held Bearer)
    (hL : ∀ s, M.Reaches s → ∀ t, L t (s.pc t) s.shared)
    (hone : (∀ p all b next, Bearer p → M.waker p = some (all, b, next) → all = true) ∨
      ∀ s, M.Reaches s → ∀ v v', asleepOn (s.pc v) = some a → asleepOn (s.pc v') = some a → v = v')
    (hs : M.Reaches s) : Attended a Held Bearer s.shared s.pc := by
  refine Reachable.induct (P := fun s => Attended a Held Bearer s.shared s.pc) hs ?_ ?_
  · rintro s rfl ⟨u, hu⟩
    exact absurd hu (h.start u)
  · intro s s' hreach ih hstep
    cases hstep with
    | move t hmove => exact h.move hmove (hL s hreach t) ih
    | @rouse pc hrouse =>
      cases hrouse with
      | @wake t all b next _ hw hwake =>
        rintro ⟨v, hv⟩
        by_cases hb : Bearer (s.pc t)
        · refine absurd hv (h.wake_bearer hw hwake hb ?_ v)
          exact hone.imp (fun hall => hall _ _ _ _ hb hw) fun hlone => hlone s hreach
        · exact h.wake_other hw hwake hb (ih ⟨v, (h.asleep_of_wake hw hwake hv).2⟩)
      | spurious t ht => exact h.spurious ht ih

end Handoff

end Machine

end PureStd
