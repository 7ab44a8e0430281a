/-
What `scope` and `join` wait for.

The caller of `scope` sleeps on `wake` in a loop.  A stale token makes the loop go round once
more, and the caller overwrites it with 0 before it loads `running` again.  But the store may
reach the memory after the load, and there it may overwrite the token of the last thread, whose
`futex_wake` has found nobody asleep; then the caller sleeps for ever (`scope_stranded`).

This is the only way.  If the caller loads `running` only when its stores have reached the
memory, then, while it waits and `running` is 0, the store of 1 to `wake` is ahead, or it has
been made and a `futex_wake` is ahead of the caller that sleeps (`fencedReaches_minded`).  A
thread that sleeps in `join` is woken by the thread that it joins in any case
(`reaches_roused`), `scope` returns when all closures have run to their ends, and every `join`
returns the value of its closure (`scope_completes`).
-/
import PureStd.Thread.ScopeResults

namespace PureStd.Thread.Scope

open Sleeper

variable {Tid V : Type*}

/-- The closure of `u` has returned a value and written it to the slot, where it is unless the
handle has been joined. -/
def State.Completed (s : State Tid V) (u : Tid) : Prop :=
  (s.pc (some u)).phase.wrote = true ∧
    ∃ v, s.produced u = some v ∧ (s.handle u = true → s.slot u = some v)

/-- `join` finds a result in the packet and a value in the slot, and the value that it returns
is the one that the closure has returned. -/
def State.Delivers (s : State Tid V) : Prop :=
  (∀ t u, s.pc t = .run (.joinResult u) → s.result u = some ()) ∧
    (∀ t u, s.pc t = .run (.joinTake u) → ∃ v, s.slot u = some v ∧ s.produced u = some v) ∧
    ∀ t u v, s.pc t = .run (.joined u v) → s.produced u = some v

/-! ### Positions -/

section Runs

variable {s s' : State Tid V} {a : Bool} {holder : Tid → Holder Tid V} {pc : Pc Tid V} {u : Tid}

lemma asleepOn_awaken (pc : Pc Tid V) : asleepOn (awaken pc) = none := by
  rcases pc with (_ | _ | _ | _ | _ | _) | (_ | _ | _ | _) | _ <;> rfl

lemma claim_of_asleepOn {t : Option Tid} (h : asleepOn pc = some (.state u)) :
    pc.claim t = some (u, .waiting t) := by
  rcases pc with (_ | _ | ⟨_ | _ | _ | _, u'⟩ | _ | _ | _) | (_ | ⟨_ | _ | _ | _, _⟩ | _ | _) | _
  case run.joinWait.asleep =>
    obtain rfl : u' = u := by simpa [asleepOn] using h
    rfl
  all_goals exact absurd h (by simp [asleepOn])

lemma awaken_ne_exited (h : pc ≠ .wrapper .exited) : awaken pc ≠ .wrapper .exited := by
  rcases pc with (_ | _ | _ | _ | _ | _) | (_ | _ | _ | _) | c
  case wrapper => exact h
  all_goals simp [awaken]

lemma eq_waitWake_of_asleepOn (h : asleepOn pc = some .wake) :
    ∃ r, pc = .caller (.waitWake .asleep r) := by
  rcases pc with (_ | _ | ⟨_ | _ | _ | _, _⟩ | _ | _ | _) | (_ | ⟨_ | _ | _ | _, r⟩ | _ | _) | _
  case caller.waitWake.asleep => exact ⟨r, rfl⟩
  all_goals exact absurd h (by simp [asleepOn])

/-- Only the caller sleeps on `wake`. -/
lemma eq_none_of_asleepOn_wake {t : Option Tid} (hfits : pc.Fits t) (h : asleepOn pc = some .wake) :
    t = none := by
  obtain ⟨r, rfl⟩ := eq_waitWake_of_asleepOn h
  cases t with
  | none => rfl
  | some u => exact absurd hfits id

lemma awaken_eq_waitWake {w : WaitPc} {r : V} (h : awaken pc = .caller (.waitWake w r)) :
    ∃ w₀, pc = .caller (.waitWake w₀ r) ∧ w = .load := by
  rcases pc with (_ | _ | _ | _ | _ | _) | (_ | ⟨w₀, r₀⟩ | _ | _) | _
  case caller.waitWake =>
    obtain ⟨rfl, rfl⟩ := by simpa [awaken] using h
    exact ⟨w₀, rfl, rfl⟩
  all_goals exact absurd h (by simp [awaken])

lemma wrote_of_not_counted (hfits : pc.Fits (some u)) (hcounted : pc.counted = false)
    (hborn : pc ≠ .wrapper .unborn) : pc.phase.wrote = true := by
  rcases pc with k | p | c
  · exact absurd hcounted (by simp [Pc.counted])
  · exact absurd hfits id
  · cases c with
    | unborn => exact absurd rfl hborn
    | starting | writeSlot | subRunning => exact absurd hcounted (by simp [Pc.counted])
    | storeWake | futexWake | writeResult | storeState | wakeJoiner | exited => rfl

lemma eq_wakeJoiner (hfits : pc.Fits (some u)) (hphase : pc.phase = .published)
    (hexit : pc ≠ .wrapper .exited) : pc = .wrapper .wakeJoiner := by
  rcases pc with k | p | c
  · exact absurd hphase (by simp [Pc.phase])
  · exact absurd hfits id
  · cases c with
    | wakeJoiner => rfl
    | exited => exact absurd rfl hexit
    | unborn | starting | writeSlot | subRunning | storeWake | futexWake | writeResult
    | storeState => exact absurd hphase (by simp [Pc.phase])

lemma Accounted.completed (hs : Accounted s holder) (hwrote : (s.pc (some u)).phase.wrote = true) :
    s.Completed u := by
  obtain ⟨v, hproduced, hslot⟩ := (hs.record u).value hwrote
  exact ⟨hwrote, v, hproduced, fun hfree => hslot (hs.handle u hfree)⟩

/-- What `join` takes is there, and it is what the closure has returned. -/
lemma Accounted.delivers (hs : Accounted s holder) : s.Delivers := by
  refine ⟨fun t u ht => ?_, fun t u ht => ?_, fun t u v ht => ?_⟩
  · obtain ⟨-, v, hcells⟩ := (hs.record_claim (h := .seen t) (by rw [ht]; rfl)).of_seen
    exact congrArg Cells.result hcells
  · obtain ⟨-, v, hcells⟩ := (hs.record_claim (h := .taking t) (by rw [ht]; rfl)).of_taking
    exact ⟨v, congrArg Cells.slot hcells, congrArg Cells.produced hcells⟩
  · have hcells := (hs.record_claim (h := .taken v) (t := t) (by rw [ht]; rfl)).of_taken
    exact congrArg Cells.produced hcells

variable [DecidableEq Tid]

/-! ### Nobody sleeps on the state of a thread that has exited -/

/-- Whoever sleeps on the state of a thread will be woken by it. -/
def Roused (s : State Tid V) : Prop :=
  ∀ t u, asleepOn (s.pc t) = some (.state u) → s.pc (some u) ≠ .wrapper .exited

namespace Roused

variable {t : Option Tid}

/-- A thread that goes on has not exited, and where it falls asleep it will be woken. -/
lemma stays (hs : Roused s) (hpc : s'.pc = Function.update s.pc t pc)
    (hexit : pc ≠ .wrapper .exited)
    (hasleep : ∀ u, asleepOn pc = some (.state u) → s.pc (some u) ≠ .wrapper .exited) :
    Roused s' := by
  have hother : ∀ u, s.pc (some u) ≠ .wrapper .exited → s'.pc (some u) ≠ .wrapper .exited := by
    intro u hu
    rw [hpc]
    by_cases ht : some u = t
    · rwa [ht, Function.update_self]
    · rwa [Function.update_of_ne ht]
  intro t' u hu
  rw [hpc] at hu
  by_cases ht : t' = t
  · rw [ht, Function.update_self] at hu
    exact hother u (hasleep u hu)
  · rw [Function.update_of_ne ht] at hu
    exact hother u (hs t' u hu)

/-- A thread wakes who joins it, and exits. -/
lemma exit (hs : Roused s) (hacc : Accounted s holder) {f : Option Tid → Pc Tid V}
    (hu : s.pc (some u) = .wrapper .wakeJoiner) (hpc : s'.pc = f)
    (hwake : Futex.WakeOne (.state u) (Function.update s.pc (some u) (.wrapper .exited)) f) :
    Roused s' := by
  -- who sleeps on the state slept before, and only one thread can
  have hbefore : ∀ t, asleepOn (Function.update s.pc (some u) (.wrapper .exited) t) =
      some (.state u) → holder u = .waiting t := by
    intro t ht
    by_cases htu : t = some u
    · rw [htu, Function.update_self] at ht
      exact absurd ht (by simp [asleepOn])
    · rw [Function.update_of_ne htu] at ht
      exact hacc.claim t u _ (claim_of_asleepOn ht)
  have hmoved : ∀ t u', asleepOn (f t) = some (.state u') → u' ≠ u := by
    rintro t u' ht rfl
    rcases hwake with ⟨v, hv, rfl⟩ | ⟨hno, rfl⟩
    · by_cases htv : t = v
      · rw [htv, Function.update_self, asleepOn_awaken] at ht
        exact absurd ht (by simp)
      · rw [Function.update_of_ne htv] at ht
        have := (hbefore v hv).symm.trans (hbefore t ht)
        exact htv (by simpa using this.symm)
    · exact hno t ht
  have hpos : ∀ t, f t = Function.update s.pc (some u) (.wrapper .exited) t ∨
      f t = awaken (Function.update s.pc (some u) (.wrapper .exited) t) := by
    intro t
    rcases (show Futex.Wake false _ _ f from hwake).cases t with heq | ⟨-, heq⟩
    · exact Or.inl heq
    · exact Or.inr heq
  intro t u' ht
  rw [hpc] at ht ⊢
  have hne := hmoved t u' ht
  have hslept : asleepOn (s.pc t) = some (.state u') := by
    rcases hpos t with heq | heq
    · rw [heq] at ht
      by_cases htu : t = some u
      · rw [htu, Function.update_self] at ht
        exact absurd ht (by simp [asleepOn])
      · rwa [Function.update_of_ne htu] at ht
    · rw [heq, asleepOn_awaken] at ht
      exact absurd ht (by simp)
  have hold := hs t u' hslept
  rcases hpos (some u') with heq | heq
  · rw [heq, Function.update_of_ne (by simpa using hne)]
    exact hold
  · rw [heq, Function.update_of_ne (by simpa using hne)]
    exact awaken_ne_exited hold

end Roused

lemma step_roused (h : Step a s s') (hacc : Accounted s holder) (hs : Roused s) : Roused s' := by
  cases step_moves h with
  | create t u ht =>
    have hborn : Roused (s.goto (some u) (.run .body)) :=
      hs.stays rfl (by simp) (by simp [asleepOn])
    exact hborn.stays (t := t) rfl (by simp) (by simp [asleepOn])
  | joinWait t u w w' ht hw =>
    refine hs.stays rfl (by simp) fun u' hu' hexit => ?_
    -- a thread falls asleep only while the state is 0
    by_cases hdone : w' = .done
    · rw [if_pos hdone] at hu'
      exact absurd hu' (by simp [asleepOn])
    · rw [if_neg hdone] at hu'
      cases w' with
      | asleep =>
        obtain rfl : u = u' := by simpa [asleepOn] using hu'
        exact (hacc.record_of hexit).state_of_published (WaitPc.eq_of_exec_asleep hw)
      | load | enter | done => exact absurd hu' (by simp [asleepOn])
  | joinResult | joinTake | clearWake | writeSlot | storeWake | writeResult | storeState | join
  | leave | finish | resume => exact hs.stays rfl (by simp) (by simp [asleepOn])
  | loadRunning r ht =>
    refine hs.stays rfl (by simp) ?_
    split <;> simp [asleepOn]
  | waitWake w w' r ht _ _ =>
    refine hs.stays rfl (by simp) ?_
    split
    · simp [asleepOn]
    · cases w' <;> simp [asleepOn]
  | subRunning u ht =>
    refine hs.stays rfl ?_ ?_
    · split <;> simp
    · split <;> simp [asleepOn]
  | spawn t u ht hu =>
    have hcounted : Roused (s.goto (some u) (.wrapper .starting)) :=
      hs.stays rfl (by simp) (by simp [asleepOn])
    exact hcounted.stays (t := t) rfl (by simp) (by simp [asleepOn])
  | rouse hrouse =>
    rcases rouses_cases hrouse with ⟨t, b, next, hcall, hwake⟩ | ⟨t, b, hasleep, rfl⟩
    · rcases (waker_cases hcall).2 with ⟨u, rfl, ht, rfl, rfl⟩ | ⟨u, rfl, ht, rfl, rfl⟩
      · have hmoved : Roused (s.goto (some u) (.wrapper .writeResult)) :=
          hs.stays rfl (by simp) (by simp [asleepOn])
        rcases hwake with ⟨v, hv, rfl⟩ | ⟨-, rfl⟩
        · refine hmoved.stays rfl (awaken_ne_exited ?_) (by simp [asleepOn_awaken])
          intro hexit
          exact absurd hv (by simp [hexit, asleepOn])
        · exact hmoved
      · exact hs.exit hacc ht rfl hwake
    · refine hs.stays rfl (awaken_ne_exited ?_) (by simp [asleepOn_awaken])
      intro hexit
      exact absurd hasleep (by simp [hexit, asleepOn])
  | commit _ => exact hs

lemma reaches_roused (h : Reaches s) : Roused s := by
  refine Reachable.induct (P := Roused) h ?_ ?_
  · rintro s rfl (_ | t) u ht <;> exact absurd ht (by simp [State.start, asleepOn])
  · rintro s s' hreach hs ⟨a, hstep⟩
    obtain ⟨holder, hacc⟩ := reaches_accounted hreach
    exact step_roused hstep hacc hs

/-! ### The caller is woken -/

/-- A step in which the caller loads `running` only if its stores to `wake` have reached the
memory. -/
def FencedStep (s s' : State Tid V) : Prop :=
  (∃ a, Step a s s') ∧ ∀ r, s.pc none = .caller (.loadRunning r) →
    s'.pc none ≠ .caller (.loadRunning r) → s.stored = []

/-- The runs of such steps. -/
def FencedReaches (s : State Tid V) : Prop :=
  Reachable (fun s => s = State.start) FencedStep s

lemma FencedReaches.reaches (h : FencedReaches s) : Reaches s := h.mono fun _ _ hstep => hstep.1

/-- While the caller waits, its stores have reached the memory; if `running` is 0, a store of 1
to `wake` is ahead, or `wake` is 1 and, if the caller sleeps, a `futex_wake` is ahead. -/
def Minded (s : State Tid V) : Prop :=
  ∀ w r, s.pc none = .caller (.waitWake w r) → s.stored = [] ∧ (s.running = 0 →
    (∃ u, s.pc (some u) = .wrapper .storeWake) ∨
      (s.wake = 1 ∧ (w = .asleep → ∃ u, s.pc (some u) = .wrapper .futexWake)))

namespace Minded

variable {t : Option Tid}

/-- A step of a thread that has nothing to do with `wake`, or by which the caller does not fall
asleep. -/
lemma stays (hs : Minded s) (hpc : s'.pc = Function.update s.pc t pc)
    (hrunning : s'.running = s.running) (hwake : s'.wake = s.wake) (hbuf : s'.stored = s.stored)
    (hstore : s.pc t ≠ .wrapper .storeWake) (hfutex : s.pc t ≠ .wrapper .futexWake)
    (hcaller : ∀ w r, pc = .caller (.waitWake w r) →
      ∃ w₀, s.pc t = .caller (.waitWake w₀ r) ∧ (w = .asleep → w₀ = .asleep)) : Minded s' := by
  have hother : ∀ {p}, s.pc t ≠ p → (∃ u, s.pc (some u) = p) → ∃ u, s'.pc (some u) = p := by
    rintro p hp ⟨u, hu⟩
    refine ⟨u, ?_⟩
    rw [hpc, Function.update_of_ne ?_, hu]
    rintro rfl
    exact hp hu
  intro w r hw
  obtain ⟨w₀, hw₀, hasleep⟩ : ∃ w₀, s.pc none = .caller (.waitWake w₀ r) ∧
      (w = .asleep → w₀ = .asleep) := by
    rw [hpc] at hw
    by_cases ht : none = t
    · subst ht
      rw [Function.update_self] at hw
      exact hcaller w r hw
    · rw [Function.update_of_ne ht] at hw
      exact ⟨w, hw, id⟩
  obtain ⟨hempty, hahead⟩ := hs w₀ r hw₀
  refine ⟨hbuf.trans hempty, fun hzero => ?_⟩
  refine (hahead (hrunning ▸ hzero)).imp (hother hstore) fun ⟨hone, hsleep⟩ => ?_
  exact ⟨hwake.trans hone, fun hw => hother hfutex (hsleep (hasleep hw))⟩

/-- A sleeper wakes up. -/
lemma awakened (hs : Minded s) {b : Addr Tid} (ht : asleepOn (s.pc t) = some b) :
    Minded (s.goto t (awaken (s.pc t))) := by
  refine hs.stays rfl rfl rfl rfl (fun h => absurd ht (by simp [h, asleepOn]))
    (fun h => absurd ht (by simp [h, asleepOn])) fun w r hw => ?_
  obtain ⟨w₀, hw₀, rfl⟩ := awaken_eq_waitWake hw
  exact ⟨w₀, hw₀, fun h => absurd h (by simp)⟩

/-- The `futex_wake` on `wake` wakes the caller, who is the only one to sleep there. -/
lemma woken (hs : Minded s) (hinv : Inv s.running s.pc) (hu : s.pc (some u) = .wrapper .futexWake)
    {f : Option Tid → Pc Tid V}
    (hwake : Futex.WakeOne .wake (Function.update s.pc (some u) (.wrapper .writeResult)) f) :
    Minded { s with pc := f } := by
  have hwake' : Futex.Wake false .wake (Function.update s.pc (some u) (.wrapper .writeResult)) f :=
    hwake
  have hstore : (∃ v, s.pc (some v) = .wrapper .storeWake) →
      ∃ v, f (some v) = .wrapper .storeWake := by
    rintro ⟨v, hv⟩
    have hupd : Function.update s.pc (some u) (.wrapper .writeResult) (some v) =
        .wrapper .storeWake := by
      rw [Function.update_of_ne, hv]
      rintro h
      exact absurd (hu.symm.trans (h ▸ hv)) (by simp)
    refine ⟨v, ?_⟩
    rcases hwake'.cases (some v) with heq | ⟨hasleep, -⟩
    · rw [heq, hupd]
    · exact absurd hasleep (by simp [hupd, asleepOn])
  intro w r hw
  have hw : f none = .caller (.waitWake w r) := hw
  have hnone : Function.update s.pc (some u) (.wrapper .writeResult) none = s.pc none :=
    Function.update_of_ne (by simp) ..
  by_cases hasleep : asleepOn (s.pc none) = some .wake
  · -- the caller is awake now
    obtain ⟨t, ht, heq⟩ := hwake'.exists_awoken (v := none) (hnone ▸ hasleep)
    obtain rfl : t = none := by
      by_cases htu : t = some u
      · rw [htu, Function.update_self] at ht
        exact absurd ht (by simp [asleepOn])
      · rw [Function.update_of_ne htu] at ht
        exact eq_none_of_asleepOn_wake (hinv.fits t) ht
    rw [hnone] at heq
    obtain ⟨w₀, hw₀, rfl⟩ := awaken_eq_waitWake (heq.symm.trans hw)
    refine ⟨(hs w₀ r hw₀).1, fun hzero => ?_⟩
    exact ((hs w₀ r hw₀).2 hzero).imp hstore fun ⟨hone, _⟩ => ⟨hone, fun h => absurd h (by simp)⟩
  · rcases hwake'.cases none with heq | ⟨h, -⟩
    · rw [hnone, hw] at heq
      refine ⟨(hs w r heq.symm).1, fun hzero => ?_⟩
      refine ((hs w r heq.symm).2 hzero).imp hstore fun ⟨hone, _⟩ => ⟨hone, ?_⟩
      rintro rfl
      rw [← heq] at hasleep
      exact absurd rfl hasleep
    · rw [hnone] at h
      exact absurd h hasleep

end Minded

/-- A step of a run in which the caller does not load `running` before its stores. -/
lemma step_minded (h : FencedStep s s') (hinv : Inv s.running s.pc) (hs : Minded s) :
    Minded s' := by
  obtain ⟨⟨a, h⟩, hfenced⟩ := h
  cases step_moves h with
  | create t u ht =>
    have hu := hinv.created t u (by rw [ht]; rfl)
    have hborn : Minded (s.goto (some u) (.run .body)) :=
      hs.stays rfl rfl rfl rfl (by simp [hu]) (by simp [hu]) (by simp)
    have hpos : ∀ c, (s.goto (some u) (.run .body)).pc t ≠ .wrapper c := by
      intro c
      show Function.update s.pc (some u) _ t ≠ _
      rw [Function.update_apply]
      split <;> simp [ht]
    exact hborn.stays (t := t) rfl rfl rfl rfl (hpos _) (hpos _) (by simp)
  | joinWait _ _ _ _ ht | joinResult _ _ ht | joinTake _ _ _ ht | writeSlot _ _ ht
  | writeResult _ ht | storeState _ ht | join _ _ ht | leave _ ht | finish _ _ ht
  | resume _ _ _ ht => exact hs.stays rfl rfl rfl rfl (by simp [ht]) (by simp [ht]) (by simp)
  | loadRunning r ht =>
    by_cases hzero : s.running = 0
    · rw [if_pos hzero]
      exact hs.stays rfl rfl rfl rfl (by simp [ht]) (by simp [ht]) (by simp)
    · refine fun _ _ _ => ⟨hfenced r ht ?_, fun h => absurd h hzero⟩
      simp [State.goto, hzero]
  | waitWake w w' r ht _ hw =>
    obtain ⟨hempty, hahead⟩ := hs w r ht
    have hown : s.ownWake = s.wake := by rw [State.ownWake, hempty]; rfl
    rw [hown] at hw
    by_cases hasleep : w' = .asleep
    · -- `wake` is 0, so the store is ahead
      subst hasleep
      have hwake : s.wake = 0 := WaitPc.eq_of_exec_asleep hw
      refine fun _ _ _ => ⟨hempty, fun hzero => ?_⟩
      rcases hahead hzero with ⟨u, hu⟩ | ⟨hone, -⟩
      · exact Or.inl ⟨u, by simpa [State.goto] using hu⟩
      · exact absurd (hwake.symm.trans hone) (by decide)
    · refine hs.stays rfl rfl rfl rfl (by simp [ht]) (by simp [ht]) fun w₁ r₁ h₁ => ?_
      split at h₁
      · exact absurd h₁ (by simp)
      · obtain ⟨rfl, rfl⟩ := by simpa using h₁
        exact ⟨w, ht, fun h => absurd h hasleep⟩
  | clearWake r ht =>
    intro w r₁ h₁
    exact absurd h₁ (by simp [State.goto])
  | subRunning u ht =>
    intro w r hw
    have hw : s.pc none = .caller (.waitWake w r) := by simpa [State.goto] using hw
    refine ⟨(hs w r hw).1, fun hzero => ?_⟩
    have hone : s.running = 1 := by
      have hpos : s.running ≠ 0 := by
        intro h0
        rw [h0] at hinv
        exact absurd (hinv.not_counted u) (by simp [ht, Pc.counted])
      have : s.running - 1 = 0 := hzero
      omega
    refine Or.inl ⟨u, ?_⟩
    show Function.update s.pc (some u) _ (some u) = _
    rw [Function.update_self, if_pos hone]
  | storeWake u ht =>
    intro w r hw
    have hw : s.pc none = .caller (.waitWake w r) := by simpa [State.goto] using hw
    exact ⟨(hs w r hw).1, fun _ => Or.inr ⟨rfl, fun _ => ⟨u, Function.update_self ..⟩⟩⟩
  | spawn t u ht hu =>
    intro w r hw
    have hcaller : s.pc none = .caller (.waitWake w r) := by
      cases t with
      | none => exact absurd hw (by simp [State.goto])
      | some t => simpa [State.goto] using hw
    exact ⟨(hs w r hcaller).1, fun h => absurd h (Nat.succ_ne_zero _)⟩
  | rouse hrouse =>
    rcases rouses_cases hrouse with ⟨t, b, next, hcall, hwake⟩ | ⟨t, b, hasleep, rfl⟩
    · rcases (waker_cases hcall).2 with ⟨u, rfl, ht, rfl, rfl⟩ | ⟨u, rfl, ht, rfl, rfl⟩
      · exact hs.woken hinv ht hwake
      · have hmoved : Minded (s.goto (some u) (.wrapper .exited)) :=
          hs.stays rfl rfl rfl rfl (by simp [ht]) (by simp [ht]) (by simp)
        rcases hwake with ⟨v, hv, rfl⟩ | ⟨-, rfl⟩
        · exact hmoved.awakened hv
        · exact hmoved
    · exact hs.awakened hasleep
  | commit hstored =>
    -- while the caller waits, there is nothing to commit
    intro w r hw
    exact absurd (hstored.symm.trans (hs w r hw).1) (by simp)

lemma fencedReaches_minded (h : FencedReaches s) : Minded s := by
  refine Reachable.induct (P := Minded) h ?_ ?_
  · rintro s rfl w r hw
    exact absurd hw (by simp [State.start])
  · rintro s s' hreach hs hstep
    exact step_minded hstep (reaches_inv (FencedReaches.reaches hreach)) hs

/-! ### Completion -/

/-- In every reachable state: if `scope` has returned, every closure that was spawned has run
to its end and has written its slot; `join` finds what it takes and returns the value of its
closure; and a thread that sleeps in `join` is going to be woken.  If, in addition, the caller
has loaded `running` only when its stores had reached the memory, and it sleeps while `running`
is 0, then some thread has still to store 1 to `wake` or to call `futex_wake`. -/
theorem scope_completes (h : Reaches s) :
    (s.Returned → ∀ u, s.pc (some u) ≠ .wrapper .unborn → s.Completed u) ∧ s.Delivers ∧
      (∀ t u, asleepOn (s.pc t) = some (.state u) →
        s.pc (some u) ≠ .wrapper .exited ∧
          (s.state u ≠ 0 → s.pc (some u) = .wrapper .wakeJoiner)) ∧
      (FencedReaches s → asleepOn (s.pc none) = some .wake → s.running = 0 →
        ∃ u, s.pc (some u) = .wrapper .storeWake ∨ s.pc (some u) = .wrapper .futexWake) := by
  have hinv := reaches_inv h
  obtain ⟨holder, hacc⟩ := reaches_accounted h
  refine ⟨fun hret u hborn => ?_, hacc.delivers, fun t u ht => ?_, fun hfenced hasleep hzero => ?_⟩
  · rw [running_of_returned h hret] at hinv
    exact hacc.completed (wrote_of_not_counted (hinv.fits _) (hinv.not_counted u) hborn)
  · have hexit := reaches_roused h t u ht
    refine ⟨hexit, fun hstate => ?_⟩
    exact eq_wakeJoiner (hinv.fits _) ((hacc.record u).published_of_state hstate) hexit
  · obtain ⟨r, hr⟩ := eq_waitWake_of_asleepOn hasleep
    rcases (fencedReaches_minded hfenced .asleep r hr).2 hzero with ⟨u, hu⟩ | ⟨-, hfutex⟩
    · exact ⟨u, Or.inl hu⟩
    · obtain ⟨u, hu⟩ := hfutex rfl
      exact ⟨u, Or.inr hu⟩

/-- The caller has no store on its way when it loads `running`. -/
def fenced (s : State Tid V) (_ : Option Tid × Option (Choice Tid V)) : Bool :=
  match s.pc none with
  | .caller (.loadRunning _) => s.stored.isEmpty
  | _ => true

lemma fencedStep_of_fenced {s : State Tid V} {a : Option Tid × Option (Choice Tid V)}
    (h : fenced s a = true) : FencedStep s (s.turn a) ∨ s.turn a = s := by
  refine (turn_step s a).imp_left fun hstep => ⟨hstep, fun r hr _ => ?_⟩
  rw [fenced, hr] at h
  exact List.isEmpty_iff.1 h

end Runs

/-- Thread 0 spawns thread 1 and joins it.  In one run the caller falls asleep before thread 0
takes `running` to 0, in another one it reads 0 and returns. -/
theorem scope_completes_nested :
    (∃ s : State ℕ ℕ, FencedReaches s ∧ asleepOn (s.pc none) = some .wake ∧ s.running = 0 ∧
      ∃ u, s.pc (some u) = .wrapper .storeWake ∨ s.pc (some u) = .wrapper .futexWake) ∧
    ∃ s : State ℕ ℕ, Reaches s ∧ s.Returned ∧ s.Completed 0 ∧ s.Completed 1 := by
  have hstart : FencedReaches (State.start : State ℕ ℕ) := .start rfl
  have hjoined : FencedReaches _ := hstart.foldl_of_allTurns fenced
    (fun _ _ => fencedStep_of_fenced) [(none, some (.spawn 0)), (none, none),
      (some 0, some (.spawn 1)), (some 0, none), (some 1, some (.finish 7)), (some 1, none),
      (some 1, none), (some 1, none), (some 1, none), (some 0, some (.join 1)), (some 0, none),
      (some 0, none), (some 0, none), (some 0, some .resume), (some 0, some (.finish 8)),
      (some 0, none)] rfl
  have hasleep : FencedReaches _ := hjoined.foldl_of_allTurns fenced
    (fun _ _ => fencedStep_of_fenced) [(none, some (.finish 9)), (none, none), (none, none),
      (none, none), (some 0, none)] rfl
  have hreturned : Reaches _ := hjoined.reaches.foldl turn_step [(some 0, none),
    (none, some (.finish 9)), (none, none)]
  refine ⟨⟨_, hasleep, rfl, rfl, (scope_completes hasleep.reaches).2.2.2 hasleep rfl rfl⟩, _,
    hreturned, ⟨9, rfl⟩, ?_, ?_⟩
  · refine (scope_completes hreturned).1 ⟨9, rfl⟩ 0 fun h => ?_
    exact absurd (show (.wrapper .storeWake : Pc ℕ ℕ) = .wrapper .unborn from h) (by simp)
  · refine (scope_completes hreturned).1 ⟨9, rfl⟩ 1 fun h => ?_
    exact absurd (show (.wrapper .wakeJoiner : Pc ℕ ℕ) = .wrapper .unborn from h) (by simp)

/-- Thread 0 ends before the caller spawns thread 1, and leaves a token in `wake`.  The caller
takes it: it stores 0 and loads 1 from `running`.  Thread 1 ends, stores its token and wakes
nobody.  Then the 0 of the caller reaches the memory, and the caller goes to sleep. -/
theorem scope_stranded : ∃ s : State ℕ Unit, Reaches s ∧ asleepOn (s.pc none) = some .wake ∧
    s.running = 0 ∧ s.stored = [] ∧
      ∀ u, s.pc (some u) ≠ .wrapper .storeWake ∧ s.pc (some u) ≠ .wrapper .futexWake := by
  have hstart : Reaches (State.start : State ℕ Unit) := .start rfl
  have htoken : Reaches _ := hstart.foldl turn_step [(none, some (.spawn 0)), (none, none),
    (some 0, some (.finish ())), (some 0, none), (some 0, none), (some 0, none)]
  have hended : Reaches _ := htoken.next ⟨false, .rouse (.wake (some 0) rfl (Or.inr ⟨by
    rintro (_ | _ | u) <;> exact (Option.some_ne_none _).symm, rfl⟩))⟩
  have htaken : Reaches _ := hended.foldl turn_step [(none, some (.spawn 1)), (none, none),
    (none, some (.finish ())), (none, none), (none, none), (none, none), (none, none),
    (some 1, some (.finish ())), (some 1, none), (some 1, none), (some 1, none)]
  have hwoken : Reaches _ := htaken.next ⟨false, .rouse (.wake (some 1) rfl (Or.inr ⟨by
    rintro (_ | _ | _ | u) <;> exact (Option.some_ne_none _).symm, rfl⟩))⟩
  have hlost : Reaches _ := hwoken.next ⟨false, .commit (rfl : _ = [(0 : UInt32)])⟩
  have hasleep : Reaches _ := hlost.foldl turn_step [(none, none), (none, none)]
  have hpast : ∀ {pc : Pc ℕ Unit}, pc = .wrapper .writeResult ∨ pc = .wrapper .unborn →
      pc ≠ .wrapper .storeWake ∧ pc ≠ .wrapper .futexWake := by
    rintro _ (rfl | rfl) <;> simp
  refine ⟨_, hasleep, rfl, rfl, rfl, ?_⟩
  rintro (_ | _ | u)
  exacts [hpast (Or.inl rfl), hpast (Or.inl rfl), hpast (Or.inr rfl)]

end PureStd.Thread.Scope
