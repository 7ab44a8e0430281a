/-
Nobody is left behind at a barrier.

The last call of a generation moves the sequence and then wakes everybody, with the guard.
So a call that sleeps belongs to the generation that is not complete, or the last call of its
generation is still in `notify_all`, as long as fewer than `2 ^ 32` generations are completed
meanwhile.
-/
import PureStd.Sync.BarrierSequence

namespace PureStd.Sync.Barrier

open Sleeper

variable {Tid : Type*} {n : ℕ} {w : PtrWidth} {s s' : State Tid Unit Ctl Data} {t u : Tid}

/-! ### Generations -/

lemma ofNat_inj {a b : ℕ} (hab : a ≤ b) (hlt : b < a + 2 ^ 32)
    (h : UInt32.ofNat b = UInt32.ofNat a) : b = a := by
  have hmod := congrArg UInt32.toNat h
  rw [UInt32.toNat_ofNat', UInt32.toNat_ofNat'] at hmod
  omega

/-- A call whose captured sequence is the current one. -/
lemma Tuned.current (h : Tuned n s) (hs : Sound n w s) {i g : ℕ}
    (hctl : (s.pc t).ctl = .check i g) (hcap : (s.pc t).captured () = some (s.words.seq ()))
    (hlt : s.data.completed < i / n + 2 ^ 32) :
    s.data.completed = i / n ∨ ∃ u j, BeforeAdd j (s.pc u) ∧ j / n = i / n := by
  have hwaits := hs.ok t
  rw [hctl] at hwaits
  have hle := hwaits.le
  obtain ⟨i', g', hctl', hq⟩ := (h.knows t).captured hcap
  cases hctl.symm.trans hctl'
  by_cases hadd : ∃ u j, BeforeAdd j (s.pc u)
  · obtain ⟨u, j, hu⟩ := hadd
    have hseq := (h.knows u).seq hu
    have hcompleted := (h.knows u).completed (finishing_of_beforeAdd hu)
    rw [hq, show (1 : UInt32) = UInt32.ofNat 1 from rfl, ← UInt32.ofNat_add] at hseq
    refine Or.inr ⟨u, j, hu, ?_⟩
    have hmod := congrArg UInt32.toNat hseq
    rw [UInt32.toNat_ofNat', UInt32.toNat_ofNat'] at hmod
    omega
  · refine Or.inl (ofNat_inj hle hlt ?_)
    rw [← hq]
    exact (h.seq fun u j hu => hadd ⟨u, j, hu⟩).symm

/-- The thread is on its way into `futex_wait`, and has not released the mutex yet. -/
def Begins : Pc Unit Ctl → Prop
  | .run (.wait _ _) => True
  | .cvLoad _ _ => True
  | .unlockSwap (.sleepOn _ _ _) => True
  | _ => False

/-- Call `j` is between its arrival and the end of `notify_all`. -/
def Completes (j : ℕ) (pc : Pc Unit Ctl) : Prop :=
  Finishing j pc ∨ pc.ctl.Open = true ∧ pc.ctl.number = some j

/-- A call that arrives at a generation or completes it is a call of that generation, and the
calls of the earlier ones have arrived. -/
lemma Sound.of_open (hs : Sound n w s) (hopen : (s.pc u).ctl.Open = true) :
    ∃ j, (s.pc u).ctl.number = some j ∧ j / n = s.data.completed ∧
      s.data.completed * n ≤ s.data.arrived := by
  have hfull {i : ℕ} (h : s.data.Full n w i) : s.data.completed * n ≤ s.data.arrived := by
    rw [h.arrived]
    exact Nat.mul_le_mul_right n (Nat.le_succ _)
  have hok := hs.ok u
  generalize (s.pc u).ctl = k at hok hopen
  cases k with
  | test j g =>
    obtain ⟨hlast, harrived, hpos, hle, -⟩ := hok
    exact ⟨j, rfl, (div_mod_of_succ (hlast.trans harrived) hpos hle).1,
      harrived ▸ Nat.le_add_right _ _⟩
  | reset j => exact ⟨j, rfl, hok.div_eq, hfull hok⟩
  | bump j => exact ⟨j, rfl, hok.1.div_eq, hfull hok.1⟩
  | _ => cases hopen

/-- Nobody arrives at a generation or completes one. -/
lemma Sound.settled_of_not (hs : Sound n w s) (h : ¬ ∃ u, (s.pc u).ctl.Open = true) :
    s.data.Settled n w :=
  hs.inv.settled fun u => eq_false_of_ne_true fun hu => h ⟨u, hu⟩

/-- A generation with all its arrivals is complete, or its last call is completing it. -/
lemma Sound.complete (hs : Sound n w s) {i : ℕ} (hle : i / n ≤ s.data.completed)
    (hfull : (i / n + 1) * n ≤ s.data.arrived) :
    i / n < s.data.completed ∨ ∃ u j, Completes j (s.pc u) ∧ j / n = i / n := by
  by_cases hopen : ∃ u, (s.pc u).ctl.Open = true
  · obtain ⟨u, hu⟩ := hopen
    obtain ⟨j, hj, hdiv, -⟩ := hs.of_open hu
    rcases hle.lt_or_eq with hlt | heq
    · exact Or.inl hlt
    · exact Or.inr ⟨u, j, Or.inr ⟨hu, hj⟩, hdiv.trans heq.symm⟩
  · have hsettled := hs.settled_of_not hopen
    refine Or.inl ?_
    by_contra hge
    obtain heq : s.data.completed = i / n := by omega
    have harrived : s.data.arrived = s.data.completed * n + s.data.count := hsettled.arrived
    have hcount : s.data.count < n := hsettled.count
    rw [heq] at harrived
    rw [add_mul, one_mul] at hfull
    omega

/-- Who is about to wait belongs to a generation that is not complete. -/
lemma Tuned.not_begins (h : Tuned n s) (hs : Sound n w s) {i g : ℕ}
    (hctl : (s.pc t).ctl = .check i g ∨ (s.pc t).ctl = .wait i g)
    (hfull : (i / n + 1) * n ≤ s.data.arrived) (hlt : s.data.completed < i / n + 2 ^ 32) :
    ¬ Begins (s.pc t) := by
  intro hb
  have hok := hs.ok t
  have hknows := h.knows t
  -- it has the mutex, and has found its own generation
  obtain ⟨hholds, hopen, hwaits, hgen⟩ : 0 < s.holds t ∧ (s.pc t).ctl.Open = false ∧
      s.data.Waits n w i g ∧ g = s.data.generation := by
    cases hpc : s.pc t with
    | run k =>
      rw [hpc] at hb hctl hok
      cases k with
      | wait i' g' =>
        obtain hctl | hctl := hctl <;> cases hctl
        exact ⟨hs.holds_of_locked hpc rfl, rfl, hok⟩
      | _ => exact hb.elim
    | cvLoad cv k =>
      rw [hpc] at hctl hok hknows
      obtain ⟨i', g', rfl, hgen⟩ := hknows
      obtain hctl | hctl := hctl <;> cases hctl
      refine ⟨?_, rfl, hok, hgen⟩
      rw [State.holds, hpc]
      exact Nat.add_pos_left Nat.one_pos _
    | unlockSwap c =>
      rw [hpc] at hb hctl hok hknows
      cases c with
      | ret k => exact hb.elim
      | sleepOn cv q k =>
        obtain ⟨i', g', rfl, -, hgen⟩ := hknows
        obtain hctl | hctl := hctl <;> cases hctl
        refine ⟨?_, rfl, hok, hgen⟩
        rw [State.holds, hpc]
        exact Nat.add_pos_left Nat.one_pos _
    | _ =>
      rw [hpc] at hb
      exact hb.elim
  obtain ⟨harrived, hcount, hsettled⟩ := hs.settled hholds hopen
  have heq : s.data.completed = i / n := ofNat_inj hwaits.le hlt
    (ofNat_eq_of_wrap (w := w) (by rw [← hsettled, ← hgen, hwaits.generation]))
  rw [heq] at harrived
  rw [add_mul, one_mul] at hfull
  omega

/-- All calls of the complete generations have arrived. -/
lemma Sound.le_arrived (hs : Sound n w s) : s.data.completed * n ≤ s.data.arrived := by
  by_cases hopen : ∃ u, (s.pc u).ctl.Open = true
  · obtain ⟨u, hu⟩ := hopen
    obtain ⟨j, -, -, hle⟩ := hs.of_open hu
    exact hle
  · exact (hs.settled_of_not hopen).arrived ▸ Nat.le_add_right _ _

/-! ### Sleeping -/

variable [DecidableEq Tid]

/-- Who sleeps waits for a generation that is not complete, or that is about to be notified. -/
def Rested (n : ℕ) (s : State Tid Unit Ctl Data) : Prop :=
  ∀ t i g, (s.pc t).ctl = .check i g → asleepOn (s.pc t) = some (.seq ()) →
    s.data.completed < i / n + 2 ^ 32 →
    s.data.completed = i / n ∨ ∃ u j, Finishing j (s.pc u) ∧ j / n = i / n

/-- A call in `notify_all` stays there until it has woken up everybody. -/
lemma Tuned.finishing (h : Tuned n s) (hstep : (program n w).client.Step s s') {j : ℕ}
    (hj : Finishing j (s.pc u)) :
    Finishing j (s'.pc u) ∨ ∀ v, asleepOn (s'.pc v) ≠ some (.seq ()) := by
  have hcases := (h.knows u).finishing_cases hj
  have hawake : asleepOn (s.pc u) = none := by
    rcases hcases with hpc | hpc | hpc <;> rw [hpc] <;> rfl
  have hother : ∀ {t : Tid} {pc : Pc Unit Ctl}, u ≠ t →
      Finishing j (Function.update s.pc t pc u) := by
    intro t pc hut
    rwa [Function.update_of_ne hut]
  cases hstep with
  | @exec t m pc g he =>
    by_cases hut : u = t
    · subst hut
      refine Or.inl ?_
      show Finishing j (Function.update s.pc u pc u)
      rw [Function.update_self]
      rcases hcases with hpc | hpc | hpc <;> rw [hpc] at he <;> cases he
      rfl
    · exact Or.inl (hother hut)
  | @rouse pc hrouse =>
    cases hrouse with
    | @wake t all a next _ hw hwake =>
      by_cases hut : u = t
      · subst hut
        rcases hcases with hpc | hpc | hpc <;> rw [hpc] at hw <;> cases hw
        obtain rfl : pc =
            Futex.wakeAll (.seq ()) (Function.update s.pc u (.run (.unlock j true))) := hwake
        exact Or.inr fun v => Futex.asleepOn_wakeAll asleepOn_awaken _ _ v
      · refine Or.inl ?_
        show Finishing j (pc u)
        rcases hwake.cases u with heq | ⟨hasleep, -⟩
        · rw [heq]
          exact hother hut
        · rw [Function.update_of_ne hut, hawake] at hasleep
          exact absurd hasleep (by simp)
    | @spurious t a ha =>
      by_cases hut : u = t
      · subst hut
        exact absurd (hawake.symm.trans ha) (by simp)
      · exact Or.inl (hother hut)
  | @act t k k' d ht hact =>
    by_cases hut : u = t
    · subst hut
      rcases hcases with hpc | hpc | hpc <;> cases ht.symm.trans hpc
      rcases act_cases hact with ⟨i, hk, -⟩ | ⟨-, hk, -⟩
      · cases hk
      · exact absurd rfl (hk j)
    · exact Or.inl (hother hut)
  | @call t k c k' ht hcall _ =>
    by_cases hut : u = t
    · subst hut
      rcases hcases with hpc | hpc | hpc <;> cases ht.symm.trans hpc
      obtain ⟨k₁, hcall, rfl⟩ := hcall
      cases hcall
      refine Or.inl ?_
      show Finishing j (Function.update s.pc u (.notifyAdd true () (.unlock j true)) u)
      rw [Function.update_self]
      rfl
    · exact Or.inl (hother hut)
  | give t u htu h h' hgive hguard => exact hgive.elim

/-- A generation is completed by its last call, while nobody is in `notify_all`. -/
lemma Tuned.completed (h : Tuned n s) (hs : Sound n w s)
    (hstep : (program n w).client.Step s s') :
    s'.data.completed = s.data.completed ∨ s'.data.completed = s.data.completed + 1 ∧
      (∀ u j, ¬ Finishing j (s.pc u)) ∧ ∃ t j, Finishing j (s'.pc t) := by
  cases hstep with
  | @act t k k' d ht hact =>
    rcases act_cases hact with ⟨j, rfl, rfl, hc⟩ | ⟨-, -, -, hc⟩
    · refine Or.inr ⟨hc, fun u i hu => ?_, t, j, ?_⟩
      · obtain rfl := h.alone hs (relies_of_finishing hu) (hs.holds_of_locked ht rfl)
        rw [ht] at hu
        exact hu
      · show Finishing j (Function.update s.pc t (.run (.notify j)) t)
        rw [Function.update_self]
        rfl
    · exact Or.inl hc
  | give t u htu h h' hgive hguard => exact hgive.elim
  | _ => exact Or.inl rfl

lemma Rested.step (hr : Rested n s) (h : Tuned n s) (hs : Sound n w s) (h' : Tuned n s')
    (hs' : Sound n w s') (hstep : (program n w).client.Step s s') : Rested n s' := by
  intro t i g hctl hasleep hlt
  have hcases : asleepOn (s.pc t) = some (.seq ()) ∨
      (s'.pc t).captured () = some (s'.words.seq ()) := (step_captured hstep t).2 hasleep
  rcases hcases with hold | hcur
  · -- the thread slept before
    have hsame : s'.pc t = s.pc t :=
      (step_asleep hstep hold).resolve_right (by rw [hasleep]; simp)
    rw [hsame] at hctl
    rcases h.completed hs hstep with hc | ⟨hc, hnone, u, j, hu⟩
    · rw [hc] at hlt ⊢
      refine (hr t i g hctl hold hlt).imp_right fun ⟨u, j, hu, hj⟩ => ⟨u, j, ?_, hj⟩
      exact (h.finishing hstep hu).resolve_right fun hno => hno t hasleep
    · -- its generation may be complete now
      have hcompleted := (h'.knows u).completed hu
      rcases hr t i g hctl hold (by omega) with heq | ⟨v, j', hv, -⟩
      · exact Or.inr ⟨u, j, hu, by omega⟩
      · exact absurd hv (hnone v j')
  · exact (h'.current hs' hctl hcur hlt).imp_right fun ⟨u, j, hu, hj⟩ =>
      ⟨u, j, finishing_of_beforeAdd hu, hj⟩

lemma reaches_rested (hn : 0 < n) (h : (program n w).client.Reaches s) : Rested n s := by
  refine Reachable.induct (P := Rested n) h ?_ fun s s' hs ih hstep => ?_
  · rintro s ⟨-, -, hpc, -⟩ t i g hctl
    obtain ⟨k, rfl, hk⟩ := hpc t
    rw [hk] at hctl
    cases hctl
  · have hs' := Reachable.next hs hstep
    exact ih.step (reaches_tuned hn hs) (reaches_sound hn hs) (reaches_tuned hn hs')
      (reaches_sound hn hs') hstep

/-! ### Results -/

/-- For every `n ≥ 1`, and in all runs of any number of threads that call `Barrier::wait` any
number of times: call `i` belongs to generation `i / n`, of which it has read the number.  No
call returns before all `n` calls of its generation have arrived, every call returns once,
and it returns a leader if and only if it was the last one to arrive.

When all calls of a generation have arrived, and fewer than `2 ^ 32` generations have been
completed after those before it, none of its calls begins to wait again; one that sleeps
sleeps only until the last call of the generation has notified it, and after that the calls
that are still in `Condvar::wait` are on their way out. -/
theorem barrier_generations (hn : 0 < n) (h : (program n w).client.Reaches s) :
    (∀ i g, s.data.arrivals[i]? = some g → g = w.wrap (i / n)) ∧
    (∀ i leader, (i, leader) ∈ s.data.answers → (i / n + 1) * n ≤ s.data.arrivals.length ∧
      (leader = true ↔ i % n + 1 = n)) ∧
    (s.data.answers.map Prod.fst).Nodup ∧
    ∀ t i g, (s.pc t).ctl = .check i g ∨ (s.pc t).ctl = .wait i g →
      (i / n + 1) * n ≤ s.data.arrivals.length → s.data.completed < i / n + 2 ^ 32 →
      ¬ Begins (s.pc t) ∧
      (asleepOn (s.pc t) = some (.seq ()) → ∃ u j, Completes j (s.pc u) ∧ j / n = i / n) ∧
      ((∀ u j, Completes j (s.pc u) → j / n ≠ i / n) →
        ∀ q, (s.pc t).captured () = some q →
          asleepOn (s.pc t) = none ∧ (s.pc t).WillLeave s.words) := by
  have hs := reaches_sound hn h
  have htuned := reaches_tuned hn h
  have hrested := reaches_rested hn h
  refine ⟨hs.inv.arrivals, fun i leader hi => ?_, hs.inv.nodup, fun t i g hctl hfull hlt => ?_⟩
  · have hleaves := hs.inv.answers (i, leader) hi
    exact ⟨(Nat.mul_le_mul_right n hleaves.lt).trans hs.le_arrived, hleaves.leader⟩
  · have hle : i / n ≤ s.data.completed := by
      have hok := hs.ok t
      rcases hctl with hctl | hctl <;> rw [hctl] at hok
      · exact hok.le
      · exact hok.1.le
    have hcheck : ∀ q, (s.pc t).captured () = some q →
        (s.pc t).ctl = .check i g ∧ q = UInt32.ofNat (i / n) := by
      intro q hq
      obtain ⟨i', g', hctl', hq'⟩ := (htuned.knows t).captured hq
      rw [hctl'] at hctl
      obtain hctl | hctl := hctl <;> cases hctl
      exact ⟨hctl', hq'⟩
    have hsleeps : asleepOn (s.pc t) = some (.seq ()) →
        ∃ u j, Completes j (s.pc u) ∧ j / n = i / n := by
      intro hasleep
      obtain ⟨q, hq⟩ := Option.isSome_iff_exists.1 (captured_of_asleep hasleep)
      rcases hs.complete hle hfull with hcomplete | hlast
      · rcases hrested t i g (hcheck q hq).1 hasleep hlt with heq | ⟨u, j, hu, hj⟩
        · exact absurd heq hcomplete.ne'
        · exact ⟨u, j, Or.inl hu, hj⟩
      · exact hlast
    refine ⟨htuned.not_begins hs hctl hfull hlt, hsleeps, fun hnone q hq => ?_⟩
    have hawake : asleepOn (s.pc t) = none := by
      refine Option.eq_none_iff_forall_ne_some.2 fun a ha => ?_
      obtain rfl := addr_of_captured (Option.isSome_iff_exists.2 ⟨q, hq⟩) ha
      obtain ⟨u, j, hu, hj⟩ := hsleeps ha
      exact hnone u j hu hj
    refine ⟨hawake, willLeave_of_captured hq (fun heq => ?_) hawake⟩
    -- the sequence has moved on
    have hcomplete := (hs.complete hle hfull).resolve_right fun ⟨u, j, hu, hj⟩ => hnone u j hu hj
    rcases htuned.current hs (hcheck q hq).1 (heq ▸ hq) hlt with hcur | ⟨u, j, hu, hj⟩
    · exact absurd hcur hcomplete.ne'
    · exact hnone u j (Or.inl (finishing_of_beforeAdd hu)) hj

/-- Two threads at a barrier for two: the first one sleeps, and the second one has just
notified it. -/
theorem barrier_generations_two : ∃ s : State ℕ Unit Ctl Data,
    (program 2 .w64).client.Reaches s ∧ s.data.arrivals = [0, 0] ∧ s.data.completed = 1 ∧
      s.pc 0 = .cvWait .load () 0 (.check 0 0) ∧ (s.pc 0).WillLeave s.words := by
  have hbegin : (program 2 .w64).client.Reaches (Program.begin _ : State ℕ Unit Ctl Data) :=
    reaches_begin
  have hreach := reaches_play hbegin
    ((0, some .wait) :: List.replicate 11 (0, none) ++
      (1, some .wait) :: List.replicate 10 (1, none))
  refine ⟨_, hreach, rfl, rfl, rfl, ?_⟩
  have hwaits := (barrier_generations (by decide) hreach).2.2.2 0 0 0 (Or.inl rfl) (by decide)
    (by decide)
  refine (hwaits.2.2 ?_ 0 rfl).2
  rintro (_ | _ | u) j (hj | ⟨hj, -⟩)
  all_goals exact absurd hj (by first | exact id | exact Bool.false_ne_true)

end PureStd.Sync.Barrier
