/-
A scoped thread may write to a scope that is gone.

The last scoped thread takes `running` to 0 and then stores to `wake`.  The caller of
`scope` returns as soon as it reads 0 from `running`, so it may return between the two,
and the store goes to a dead stack frame (`scope_touched`).

This is the only way.  If `scope` returns only while no thread has its store to `wake`
ahead, nobody accesses `ScopeData` afterwards (`scope_outlives`): `running` counts the
threads that can still spawn or subtract, so all of them are done when the caller reads 0.
-/
import PureStd.Thread.Scope
import Mathlib.Data.Finset.Card

namespace PureStd.Thread.Scope

open Sleeper

variable {Tid V : Type*} {t : Option Tid} {pc : Pc Tid V} {u : Tid}

/-! ### Steps as `ScopeData` sees them -/

/-- A scoped thread in this position is counted by `running`. -/
def Pc.counted : Pc Tid V → Bool
  | run _ => true
  | wrapper .starting => true
  | wrapper (.writeSlot _) => true
  | wrapper .subRunning => true
  | _ => false

/-- The thread that a thread is about to create. -/
def Pc.creates : Pc Tid V → Option Tid
  | run (.spawning u) => some u
  | _ => none

/-- The caller is not in the wrapper of a scoped thread, nor the other way round. -/
def Pc.Fits : Option Tid → Pc Tid V → Prop
  | none, wrapper _ => False
  | some _, caller _ => False
  | _, _ => True

lemma fits_awaken (h : pc.Fits t) : (awaken pc).Fits t := by
  cases t <;> rcases pc with (_ | _ | _ | _ | _ | _) | (_ | _ | _ | _) | _ <;> exact h

/-- A change of position that neither `running` nor the creation of threads has to do
with, that does not end the scope and has no store to `wake` ahead. -/
structure Quiet (t : Option Tid) (pc pc' : Pc Tid V) : Prop where
  counted : t ≠ none → pc'.counted = pc.counted
  creates : pc.creates = none ∧ pc'.creates = none
  born : pc ≠ .wrapper .starting ∧ pc ≠ .wrapper .unborn
  fits : pc.Fits t → pc'.Fits t
  store : pc' ≠ .wrapper .storeWake
  returns : ∀ r, pc' ≠ .caller (.returned r)
  alive : ∀ r, pc ≠ .caller (.returned r)

/-- Inside the closure, a thread that is not creating one goes on quietly. -/
lemma quiet_run {k k' : Task Tid V} (hk : (Pc.run k).creates = none)
    (hk' : (Pc.run k').creates = none) : Quiet t (.run k : Pc Tid V) (.run k') :=
  ⟨fun _ => rfl, ⟨hk, hk'⟩, by simp, fun _ => by cases t <;> trivial, by simp, by simp, by simp⟩

/-- So does the caller in the loop. -/
lemma quiet_caller {p p' : Caller V} (hp : ∀ r, p ≠ .returned r) (hp' : ∀ r, p' ≠ .returned r) :
    Quiet none (.caller p : Pc Tid V) (.caller p') :=
  ⟨fun _ => rfl, ⟨rfl, rfl⟩, by simp, fun _ => trivial, by simp, fun r => by simpa using hp' r,
    fun r => by simpa using hp r⟩

/-- So does a scoped thread in its wrapper that is counted as before. -/
lemma quiet_wrapper {c c' : Wrapper V}
    (hcounted : (Pc.wrapper c' : Pc Tid V).counted = (Pc.wrapper c : Pc Tid V).counted)
    (hstarting : c ≠ .starting) (hunborn : c ≠ .unborn) (hstore : c' ≠ .storeWake) :
    Quiet (some u) (.wrapper c : Pc Tid V) (.wrapper c') :=
  ⟨fun _ => hcounted, ⟨rfl, rfl⟩, by simp [hstarting, hunborn], fun _ => trivial,
    by simpa using hstore, by simp, by simp⟩

/-- And a thread that wakes up. -/
lemma quiet_awaken {b : Addr Tid} (h : asleepOn pc = some b) : Quiet t pc (awaken pc) := by
  rcases pc with (_ | _ | ⟨w, u⟩ | _ | _ | _) | (_ | ⟨w, r⟩ | _ | _) | c
  case run.joinWait => exact quiet_run rfl rfl
  case caller.waitWake =>
    exact ⟨fun _ => rfl, ⟨rfl, rfl⟩, by simp, fun h => fits_awaken h, by simp [awaken],
      by simp [awaken], by simp⟩
  all_goals exact absurd h (by simp [asleepOn])

lemma quiet_waker {next : Pc Tid V} {all : Bool} {b : Addr Tid}
    (h : waker t pc = some (all, b, next)) : Quiet t pc next := by
  rcases (waker_cases h).2 with ⟨u, rfl, rfl, rfl, rfl⟩ | ⟨u, rfl, rfl, rfl, rfl⟩ <;>
    exact quiet_wrapper rfl (by simp) (by simp) (by simp)

section Effect

variable [DecidableEq Tid]

/-- What a step does to the positions and to `running`. -/
inductive Effect (s s' : State Tid V) : Bool → Prop
  /-- A store reaches the memory. -/
  | commit (hpc : s'.pc = s.pc) (hrunning : s'.running = s.running) : Effect s s' false
  /-- A thread goes on; if it accesses `ScopeData`, it is the caller in the loop, or it
  stores to `wake`. -/
  | move {a : Bool} (t : Option Tid) (pc : Pc Tid V) (hpc : s'.pc = Function.update s.pc t pc)
      (hrunning : s'.running = s.running) (hquiet : Quiet t (s.pc t) pc)
      (haccess : a = true → t = none ∨ s.pc t = .wrapper .storeWake) : Effect s s' a
  /-- A thread goes on and wakes another one up. -/
  | wake (t u : Option Tid) (pc pc' : Pc Tid V)
      (hpc : s'.pc = Function.update (Function.update s.pc t pc) u pc')
      (hrunning : s'.running = s.running) (hquiet : Quiet t (s.pc t) pc)
      (hquiet' : Quiet u (Function.update s.pc t pc u) pc') : Effect s s' false
  /-- `running.fetch_add(1)`. -/
  | spawn (t : Option Tid) (u : Tid) (ht : s.pc t = .run .body)
      (hu : s.pc (some u) = .wrapper .unborn)
      (hpc : s'.pc = Function.update (Function.update s.pc (some u) (.wrapper .starting)) t
        (.run (.spawning u)))
      (hrunning : s'.running = s.running + 1) : Effect s s' true
  /-- A thread is created. -/
  | create (t : Option Tid) (u : Tid) (ht : s.pc t = .run (.spawning u))
      (hpc : s'.pc = Function.update (Function.update s.pc (some u) (.run .body)) t (.run .body))
      (hrunning : s'.running = s.running) : Effect s s' false
  /-- `running.fetch_sub(1)`. -/
  | sub (u : Tid) (hu : s.pc (some u) = .wrapper .subRunning)
      (hpc : s'.pc = Function.update s.pc (some u)
        (.wrapper (if s.running = 1 then .storeWake else .writeResult)))
      (hrunning : s'.running = s.running - 1) : Effect s s' true
  /-- The caller reads 0. -/
  | leave (r : V) (hr : s.pc none = .caller (.loadRunning r)) (hzero : s.running = 0)
      (hpc : s'.pc = Function.update s.pc none (.caller (.returned r)))
      (hrunning : s'.running = s.running) : Effect s s' true

variable {s s' : State Tid V} {a : Bool}

/-- What a step does. -/
lemma step_effect (h : Step a s s') : Effect s s' a := by
  cases step_moves h with
  | create t u ht => exact .create t u ht rfl rfl
  | joinWait t u w w' ht hw =>
    refine .move t _ rfl rfl ?_ (by simp)
    rw [ht]
    refine quiet_run rfl ?_
    split <;> rfl
  | joinResult t _ ht | joinTake t _ _ ht | join t _ ht | resume t _ _ ht =>
    refine .move t _ rfl rfl ?_ (by simp)
    rw [ht]
    exact quiet_run rfl rfl
  | loadRunning r ht =>
    by_cases hzero : s.running = 0
    · exact .leave r ht hzero (by simp [State.goto, hzero]) rfl
    · refine .move none _ rfl rfl ?_ fun _ => Or.inl rfl
      rw [ht, if_neg hzero]
      exact quiet_caller (by simp) (by simp)
  | waitWake w w' r ht _ hw =>
    refine .move none _ rfl rfl ?_ fun _ => Or.inl rfl
    rw [ht]
    refine quiet_caller (by simp) fun r => ?_
    split <;> simp
  | clearWake r ht =>
    refine .move none _ rfl rfl ?_ fun _ => Or.inl rfl
    rw [ht]
    exact quiet_caller (by simp) (by simp)
  | writeSlot u _ ht | writeResult u ht | storeState u ht =>
    refine .move (some u) _ rfl rfl ?_ (by simp)
    rw [ht]
    exact quiet_wrapper rfl (by simp) (by simp) (by simp)
  | subRunning u ht => exact .sub u ht rfl rfl
  | storeWake u ht =>
    refine .move (some u) _ rfl rfl ?_ fun _ => Or.inr ht
    rw [ht]
    exact quiet_wrapper rfl (by simp) (by simp) (by simp)
  | spawn t u ht hu => exact .spawn t u ht hu rfl rfl
  | leave v ht =>
    refine .move none _ rfl rfl ?_ (by simp)
    rw [ht]
    exact ⟨fun h => absurd rfl h, ⟨rfl, rfl⟩, by simp, fun _ => trivial, by simp, by simp,
      by simp⟩
  | finish u v ht =>
    refine .move (some u) _ rfl rfl ?_ (by simp)
    rw [ht]
    exact ⟨fun _ => rfl, ⟨rfl, rfl⟩, by simp, fun _ => trivial, by simp, by simp, by simp⟩
  | rouse hrouse =>
    rcases rouses_cases hrouse with ⟨t, b, next, hcall, hwake⟩ | ⟨t, b, hasleep, rfl⟩
    · rcases hwake with ⟨u, hu, rfl⟩ | ⟨-, rfl⟩
      · exact .wake t u _ _ rfl rfl (quiet_waker hcall) (quiet_awaken hu)
      · exact .move t _ rfl rfl (quiet_waker hcall) (by simp)
    · exact .move t _ rfl rfl (quiet_awaken hasleep) (by simp)
  | commit _ => exact .commit rfl rfl

end Effect

/-! ### What `running` counts -/

/-- `running` is the number of scoped threads that are counted; a thread that somebody is
about to create has not started. -/
structure Inv (n : ℕ) (pc : Option Tid → Pc Tid V) : Prop where
  count : ∃ S : Finset Tid, S.card = n ∧ ∀ u, u ∈ S ↔ (pc (some u)).counted = true
  fits : ∀ t, (pc t).Fits t
  created : ∀ t u, (pc t).creates = some u → pc (some u) = .wrapper .starting
  unique : Distinct fun t => (pc t).creates

namespace Inv

variable {n : ℕ} {pc : Option Tid → Pc Tid V}

/-- If `running` is 0, no scoped thread is counted. -/
lemma not_counted (h : Inv 0 pc) (u : Tid) : (pc (some u)).counted = false := by
  obtain ⟨S, hcard, hS⟩ := h.count
  refine eq_false_of_ne_true fun hu => ?_
  have := (hS u).2 hu
  rw [Finset.card_eq_zero.1 hcard] at this
  exact absurd this (Finset.notMem_empty u)

/-- A thread that is not about to start is created by nobody. -/
lemma not_created (h : Inv n pc) (ht : pc t ≠ .wrapper .starting) :
    ∀ t' u, t' ≠ t → (pc t').creates = some u → some u ≠ t := by
  rintro t' u - hu rfl
  exact ht (h.created t' u hu)

variable [DecidableEq Tid] {pc' : Pc Tid V}

/-- A thread goes on that is counted as before. -/
lemma count_update (h : Inv n pc) (hc : t ≠ none → pc'.counted = (pc t).counted) :
    ∃ S : Finset Tid, S.card = n ∧
      ∀ u, u ∈ S ↔ (Function.update pc t pc' (some u)).counted = true := by
  obtain ⟨S, hcard, hS⟩ := h.count
  refine ⟨S, hcard, fun u => ?_⟩
  rw [hS u]
  by_cases ht : some u = t
  · subst ht
    rw [Function.update_self, hc (by simp)]
  · rw [Function.update_of_ne ht]

/-- One thread goes on.  If it is going to create a thread, that one is counted and
nobody else creates it; and nobody else is going to create the thread itself. -/
lemma update (h : Inv n pc) {m : ℕ}
    (hcount : ∃ S : Finset Tid, S.card = m ∧
      ∀ u, u ∈ S ↔ (Function.update pc t pc' (some u)).counted = true)
    (hfits : pc'.Fits t)
    (hcreates : ∀ u, pc'.creates = some u →
      pc (some u) = .wrapper .starting ∧ some u ≠ t ∧ ∀ t', (pc t').creates ≠ some u)
    (hborn : ∀ t' u, t' ≠ t → (pc t').creates = some u → some u ≠ t) :
    Inv m (Function.update pc t pc') := by
  refine ⟨hcount, (Function.forall_update_iff pc fun t' p => p.Fits t').2
    ⟨hfits, fun t' _ => h.fits t'⟩, ?_,
    h.unique.update_comp fun u hu => Or.inr (hcreates u hu).2.2⟩
  refine (Function.forall_update_iff pc fun _ p => ∀ u, p.creates = some u →
    Function.update pc t pc' (some u) = .wrapper .starting).2 ⟨fun u hu => ?_, fun t' ht u hu => ?_⟩
  · obtain ⟨hstarting, hne, -⟩ := hcreates u hu
    rwa [Function.update_of_ne hne]
  · rw [Function.update_of_ne (hborn t' u ht hu)]
    exact h.created t' u hu

lemma quiet (h : Inv n pc) (hq : Quiet t (pc t) pc') : Inv n (Function.update pc t pc') :=
  h.update (h.count_update hq.counted) (hq.fits (h.fits t))
    (fun u hu => absurd (hq.creates.2.symm.trans hu) (by simp)) (h.not_created hq.born.1)

/-- `running.fetch_sub(1)`. -/
lemma sub (h : Inv n pc) {c : Wrapper V} (hu : pc (some u) = .wrapper .subRunning)
    (hc : (Pc.wrapper c : Pc Tid V).counted = false) :
    Inv (n - 1) (Function.update pc (some u) (.wrapper c)) := by
  obtain ⟨S, hcard, hS⟩ := h.count
  have hmem : u ∈ S := (hS u).2 (by rw [hu]; rfl)
  refine h.update ⟨S.erase u, ?_, fun v => ?_⟩ trivial
    (fun _ hv => absurd hv (by simp [Pc.creates])) (h.not_created (by simp [hu]))
  · rw [Finset.card_erase_of_mem hmem, hcard]
  · by_cases hv : v = u
    · subst hv
      simp [hc]
    · simp [hv, hS v]

/-- `running.fetch_add(1)`. -/
lemma spawn (h : Inv n pc) (ht : pc t = .run .body) (hu : pc (some u) = .wrapper .unborn) :
    Inv (n + 1) (Function.update (Function.update pc (some u) (.wrapper .starting)) t
      (.run (.spawning u))) := by
  have hne : some u ≠ t := by
    rintro rfl
    exact absurd (ht.symm.trans hu) (by simp)
  have hnone : ∀ t', (pc t').creates ≠ some u := by
    intro t' ht'
    exact absurd (hu.symm.trans (h.created t' u ht')) (by simp)
  -- first the new thread is counted, then its creator goes on
  have hcounted : Inv (n + 1) (Function.update pc (some u) (.wrapper .starting)) := by
    obtain ⟨S, hcard, hS⟩ := h.count
    have hnot : u ∉ S := by
      rw [hS u, hu]
      simp [Pc.counted]
    refine h.update ⟨insert u S, ?_, fun v => ?_⟩ trivial
      (fun _ hv => absurd hv (by simp [Pc.creates])) (h.not_created (by simp [hu]))
    · rw [Finset.card_insert_of_notMem hnot, hcard]
    · by_cases hv : v = u
      · subst hv
        simp [Pc.counted]
      · simp [hv, hS v]
  have ht' : Function.update pc (some u) (.wrapper .starting) t = .run .body := by
    rw [Function.update_of_ne hne.symm, ht]
  refine hcounted.update (hcounted.count_update fun _ => by rw [ht']; rfl)
    (by cases t <;> trivial) (fun v hv => ?_) (hcounted.not_created (by simp [ht']))
  obtain rfl : u = v := by simpa [Pc.creates] using hv
  refine ⟨Function.update_self .., hne, fun t' => ?_⟩
  by_cases htu : t' = some u
  · rw [htu, Function.update_self]
    simp [Pc.creates]
  · rw [Function.update_of_ne htu]
    exact hnone t'

/-- A thread is created. -/
lemma create (h : Inv n pc) (ht : pc t = .run (.spawning u)) :
    Inv n (Function.update (Function.update pc (some u) (.run .body)) t (.run .body)) := by
  have hu : pc (some u) = .wrapper .starting := h.created t u (by rw [ht]; rfl)
  have hne : some u ≠ t := by
    rintro rfl
    exact absurd (ht.symm.trans hu) (by simp)
  -- first the creator goes on; then nobody creates the new thread
  have hcreator : Inv n (Function.update pc t (.run .body)) :=
    h.update (h.count_update fun _ => by rw [ht]; rfl) (by cases t <;> trivial)
      (fun _ hv => absurd hv (by simp [Pc.creates])) (h.not_created (by simp [ht]))
  rw [Function.update_comm hne]
  refine hcreator.update (hcreator.count_update fun _ => ?_) trivial
    (fun _ hv => absurd hv (by simp [Pc.creates])) fun t' v _ hv heq => ?_
  · rw [Function.update_of_ne hne, hu]
    rfl
  · obtain rfl := Option.some.inj heq
    by_cases htt : t' = t
    · rw [htt, Function.update_self] at hv
      exact absurd hv (by simp [Pc.creates])
    · rw [Function.update_of_ne htt] at hv
      exact htt (h.unique t' t v hv (congrArg Pc.creates ht))

end Inv

lemma start_inv : Inv 0 (State.start : State Tid V).pc where
  count := ⟨∅, rfl, fun u => by simp [State.start, Pc.counted]⟩
  fits t := by cases t <;> trivial
  created t u h := by cases t <;> exact absurd h (by simp [State.start, Pc.creates])
  unique t _ u h := by cases t <;> exact absurd h (by simp [State.start, Pc.creates])

section Runs

variable [DecidableEq Tid] {s s' : State Tid V} {a : Bool}

lemma step_inv (h : Step a s s') (hs : Inv s.running s.pc) : Inv s'.running s'.pc := by
  cases step_effect h with
  | commit hpc hrunning => rwa [hpc, hrunning]
  | move t pc hpc hrunning hquiet _ =>
    rw [hpc, hrunning]
    exact hs.quiet hquiet
  | wake t u pc pc' hpc hrunning hquiet hquiet' =>
    rw [hpc, hrunning]
    exact (hs.quiet hquiet).quiet hquiet'
  | spawn t u ht hu hpc hrunning =>
    rw [hpc, hrunning]
    exact hs.spawn ht hu
  | create t u ht hpc hrunning =>
    rw [hpc, hrunning]
    exact hs.create ht
  | sub u hu hpc hrunning =>
    rw [hpc, hrunning]
    refine hs.sub hu ?_
    split <;> rfl
  | leave r hr hzero hpc hrunning =>
    rw [hpc, hrunning]
    exact hs.update (hs.count_update fun h => absurd rfl h) trivial
      (fun _ hv => absurd hv (by simp [Pc.creates])) (hs.not_created (by simp [hr]))

lemma reaches_inv (h : Reaches s) : Inv s.running s.pc :=
  Reachable.induct (P := fun s => Inv s.running s.pc) h (by rintro s rfl; exact start_inv)
    fun _ _ _ hs ⟨_, hstep⟩ => step_inv hstep hs

/-! ### After the return of `scope` -/

/-- A step by which `scope` returns only if no thread has its store to `wake` ahead. -/
def OrderlyStep (s s' : State Tid V) : Prop :=
  (∃ a, Step a s s') ∧
    (¬ s.Returned → s'.Returned → ∀ u, s.pc (some u) ≠ .wrapper .storeWake)

/-- The runs of such steps. -/
def OrderlyReaches (s : State Tid V) : Prop :=
  Reachable (fun s => s = State.start) OrderlyStep s

/-- Once `scope` has returned, nobody is counted and nobody has a store ahead. -/
def Finished (s : State Tid V) : Prop :=
  s.Returned → s.running = 0 ∧ ∀ u, s.pc (some u) ≠ .wrapper .storeWake

omit [DecidableEq Tid] in
/-- A thread in its closure is counted, or is the caller, which has not returned. -/
lemma not_run_of_returned (hinv : Inv s.running s.pc) (hs : s.Returned) (hzero : s.running = 0)
    (t : Option Tid) (k : Task Tid V) : s.pc t ≠ .run k := by
  intro hk
  obtain ⟨r, hr⟩ := hs
  cases t with
  | none => exact absurd (hr.symm.trans hk) (by simp)
  | some u =>
    rw [hzero] at hinv
    exact absurd (hinv.not_counted u) (by simp [hk, Pc.counted])

lemma update_ne {f : Option Tid → Pc Tid V} {t' : Option Tid} {p : Pc Tid V} (hf : f t' ≠ p)
    (hpc : pc ≠ p) : Function.update f t pc t' ≠ p := by
  rw [Function.update_apply]
  split
  · exact hpc
  · exact hf

/-- After the return of `scope`, a step does not access `ScopeData`, and this stays so. -/
lemma step_finished (h : Step a s s') (hinv : Inv s.running s.pc) (hs : s.Returned)
    (hfin : Finished s) : a = false ∧ s'.running = 0 ∧
      ∀ u, s'.pc (some u) ≠ .wrapper .storeWake := by
  obtain ⟨hzero, hstore⟩ := hfin hs
  have hcounted : ∀ u, (s.pc (some u)).counted = false := by
    rw [hzero] at hinv
    exact hinv.not_counted
  have hrun := not_run_of_returned hinv hs hzero
  obtain ⟨r, hr⟩ := hs
  cases step_effect h with
  | commit hpc hrunning => exact ⟨rfl, hrunning.trans hzero, by rwa [hpc]⟩
  | move t pc hpc hrunning hquiet haccess =>
    refine ⟨?_, hrunning.trans hzero, ?_⟩
    · refine eq_false_of_ne_true fun ha => ?_
      rcases haccess ha with rfl | ht
      · exact hquiet.alive r hr
      · cases t with
        | none => exact absurd (hr.symm.trans ht) (by simp)
        | some u => exact hstore u ht
    · rw [hpc]
      exact fun u => update_ne (hstore u) hquiet.store
  | wake t u pc pc' hpc hrunning hquiet hquiet' =>
    refine ⟨rfl, hrunning.trans hzero, ?_⟩
    rw [hpc]
    exact fun v => update_ne (update_ne (hstore v) hquiet.store) hquiet'.store
  | spawn t _ ht | create t _ ht => exact absurd ht (hrun t _)
  | sub u hu => exact absurd (hcounted u) (by simp [hu, Pc.counted])
  | leave r' hr' => exact absurd (hr.symm.trans hr') (by simp)

/-- `scope` returns when the caller reads 0. -/
lemma step_returns (h : Step a s s') (hs : ¬ s.Returned) (hs' : s'.Returned) :
    s'.running = 0 ∧ ∀ u, s'.pc (some u) = s.pc (some u) := by
  obtain ⟨r, hr⟩ := hs'
  have hno : s.pc none ≠ .caller (.returned r) := fun h => hs ⟨r, h⟩
  cases step_effect h with
  | commit hpc _ =>
    rw [hpc] at hr
    exact absurd hr hno
  | move t pc hpc hrunning hquiet haccess =>
    rw [hpc] at hr
    exact absurd hr (update_ne hno (hquiet.returns r))
  | wake t u pc pc' hpc hrunning hquiet hquiet' =>
    rw [hpc] at hr
    exact absurd hr (update_ne (update_ne hno (hquiet.returns r)) (hquiet'.returns r))
  | spawn _ _ _ _ hpc | create _ _ _ hpc =>
    rw [hpc] at hr
    exact absurd hr (update_ne (update_ne hno (by simp)) (by simp))
  | sub u hu hpc =>
    rw [hpc] at hr
    exact absurd hr (update_ne hno (by simp))
  | leave r' hr' hzero hpc hrunning =>
    refine ⟨hrunning.trans hzero, fun u => ?_⟩
    rw [hpc, Function.update_of_ne (by simp)]

/-- Once `scope` has returned, `running` is 0. -/
lemma running_of_returned (h : Reaches s) : s.Returned → s.running = 0 := by
  refine Reachable.induct (P := fun s : State Tid V => s.Returned → s.running = 0) h ?_ ?_
  · rintro s rfl -
    rfl
  · rintro s s' hreach ih ⟨a, hstep⟩ hret
    by_cases hs : s.Returned
    · have hinv := reaches_inv hreach
      have hzero := ih hs
      have hrun := not_run_of_returned hinv hs hzero
      cases step_effect hstep with
      | commit _ hrunning | move _ _ _ hrunning | wake _ _ _ _ _ hrunning
      | leave _ _ _ _ hrunning => exact hrunning.trans hzero
      | spawn t _ ht | create t _ ht => exact absurd ht (hrun t _)
      | sub u hu hpc hrunning => rw [hrunning, hzero]
    · exact (step_returns hstep hs hret).1

lemma OrderlyReaches.reaches (h : OrderlyReaches s) : Reaches s := h.mono fun _ _ hstep => hstep.1

lemma orderlyReaches_finished (h : OrderlyReaches s) : Finished s := by
  refine Reachable.induct (P := Finished) h ?_ ?_
  · rintro s rfl ⟨r, hr⟩
    exact absurd hr (by simp [State.start])
  · rintro s s' hreach hfin ⟨⟨a, hstep⟩, horderly⟩ hret
    by_cases hs : s.Returned
    · exact (step_finished hstep (reaches_inv (OrderlyReaches.reaches hreach)) hs hfin).2
    · obtain ⟨hzero, hsame⟩ := step_returns hstep hs hret
      refine ⟨hzero, fun u => ?_⟩
      rw [hsame u]
      exact horderly hs hret u

/-- In a run in which `scope` returns only while no thread has its store to `wake` ahead,
nobody accesses `ScopeData` after `scope` has returned. -/
theorem scope_outlives (h : OrderlyReaches s) (hs : s.Returned) : ∀ s', ¬ Step true s s' := by
  intro s' hstep
  have := (step_finished hstep (reaches_inv h.reaches) hs (orderlyReaches_finished h)).1
  exact absurd this (by simp)

/-- The turn does not lead to the return of `scope`. -/
def keepsOpen (s : State Tid V) (a : Option Tid × Option (Choice Tid V)) : Bool :=
  match (s.turn a).pc none with
  | .caller (.returned _) => false
  | _ => true

lemma orderlyStep_of_keepsOpen {s : State Tid V} {a : Option Tid × Option (Choice Tid V)}
    (h : keepsOpen s a = true) : OrderlyStep s (s.turn a) ∨ s.turn a = s := by
  refine (turn_step s a).imp_left fun hstep => ⟨hstep, fun _ ⟨r, hr⟩ => ?_⟩
  simp [keepsOpen, hr] at h

end Runs

/-- A thread has ended up to its `futex_wake` when the caller reads 0. -/
theorem scope_outlives_joined : ∃ s : State ℕ Unit, OrderlyReaches s ∧ s.Returned ∧
    s.pc (some 0) = .wrapper .futexWake ∧ ∀ s', ¬ Step true s s' := by
  have hstart : OrderlyReaches (State.start : State ℕ Unit) := .start rfl
  have hended : OrderlyReaches _ := hstart.foldl_of_allTurns keepsOpen
    (fun _ _ => orderlyStep_of_keepsOpen) [(none, some (.spawn 0)), (none, none),
      (none, some (.finish ())), (some 0, some (.finish ())), (some 0, none), (some 0, none),
      (some 0, none)] rfl
  have hreturned : OrderlyReaches _ := .next hended ⟨⟨true, .exec none rfl⟩, fun _ _ => by
    rintro (_ | u) h
    · exact absurd (show (.wrapper .futexWake : Pc ℕ Unit) = .wrapper .storeWake from h) (by simp)
    · exact absurd (show (.wrapper .unborn : Pc ℕ Unit) = .wrapper .storeWake from h) (by simp)⟩
  exact ⟨_, hreturned, ⟨(), rfl⟩, rfl, scope_outlives hreturned ⟨(), rfl⟩⟩

/-- The caller spawns a thread, which ends and takes `running` to 0; the caller reads 0
and returns; then the thread stores to `wake`. -/
theorem scope_touched : ∃ s s' : State ℕ Unit, Reaches s ∧ s.Returned ∧ Step true s s' := by
  have hstart : Reaches (State.start : State ℕ Unit) := .start rfl
  have hreach : Reaches _ := hstart.foldl turn_step [(none, some (.spawn 0)), (none, none),
    (none, some (.finish ())), (some 0, some (.finish ())), (some 0, none), (some 0, none),
    (none, none)]
  exact ⟨_, _, hreach, ⟨(), rfl⟩, .exec (some 0) rfl⟩

end PureStd.Thread.Scope
