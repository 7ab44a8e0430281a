/-
The sequence of a barrier.

The sequence of the condition variable counts the generations, modulo `2 ^ 32`, and so does
what the calls that wait have captured: call `i` has captured `i / n`.  `Knows` says what a
thread inside a function of `sync.rs` relies on, and the mutex is what keeps the others from
changing it.
-/
import PureStd.Sync.BarrierGenerations
import PureStd.Sync.Condvar

namespace PureStd.Sync.Barrier

open Sleeper

variable {Tid : Type*} {n : ℕ} {w : PtrWidth}

/-! ### Notifying -/

/-- Call `j` is in `notify_all`, before the increment. -/
def BeforeAdd (j : ℕ) : Pc Unit Ctl → Prop
  | .run (.notify i) => i = j
  | .notifyAdd _ _ (.unlock i _) => i = j
  | _ => False

/-- Call `j` is in `notify_all`. -/
def Finishing (j : ℕ) : Pc Unit Ctl → Prop
  | .notifyWake _ _ (.unlock i _) => i = j
  | pc => BeforeAdd j pc

/-- The words and the data say what a thread in a function of `sync.rs` relies on. -/
def Knows (n : ℕ) (m : Words Unit) (d : Data) : Pc Unit Ctl → Prop
  | .cvLoad _ k => ∃ i g, k = .check i g ∧ g = d.generation
  | .unlockSwap (.sleepOn _ q k) =>
    ∃ i g, k = .check i g ∧ q = UInt32.ofNat (i / n) ∧ g = d.generation
  | .unlockWake (.sleepOn _ q k) => ∃ i g, k = .check i g ∧ q = UInt32.ofNat (i / n)
  | .cvWait _ _ q k => ∃ i g, k = .check i g ∧ q = UInt32.ofNat (i / n)
  | .run (.notify j) => m.seq () + 1 = UInt32.ofNat d.completed ∧ d.completed = j / n + 1
  | .notifyAdd all _ k => all = true ∧ ∃ j, k = .unlock j true ∧
      m.seq () + 1 = UInt32.ofNat d.completed ∧ d.completed = j / n + 1
  | .notifyWake all _ k => all = true ∧ ∃ j, k = .unlock j true ∧ d.completed = j / n + 1
  | _ => True

/-- The thread relies on something that others could change. -/
def Relies : Pc Unit Ctl → Prop
  | .cvLoad _ _ => True
  | .unlockSwap (.sleepOn _ _ _) => True
  | .run (.notify _) => True
  | .notifyAdd _ _ _ => True
  | .notifyWake _ _ _ => True
  | _ => False

variable {m m' : Words Unit} {d d' : Data} {pc pc' : Pc Unit Ctl} {k k' : Ctl} {g j : ℕ}

/-- What a thread knows does not depend on what it does not rely on. -/
lemma Knows.congr (h : Knows n m d pc)
    (hsame : Relies pc → m'.seq () = m.seq () ∧ d'.generation = d.generation ∧
      d'.completed = d.completed) : Knows n m' d' pc := by
  cases pc with
  | cvLoad cv k =>
    obtain ⟨-, hg, -⟩ := hsame trivial
    simpa only [Knows, hg] using h
  | unlockSwap c =>
    cases c with
    | ret k => trivial
    | sleepOn cv q k =>
      obtain ⟨-, hg, -⟩ := hsame trivial
      simpa only [Knows, hg] using h
  | unlockWake c =>
    cases c with
    | ret k => trivial
    | sleepOn cv q k => exact h
  | cvWait wt cv q k => exact h
  | run k =>
    cases k with
    | notify j =>
      obtain ⟨hs, -, hc⟩ := hsame trivial
      simpa only [Knows, hs, hc] using h
    | _ => trivial
  | notifyAdd all cv k =>
    obtain ⟨hs, -, hc⟩ := hsame trivial
    simpa only [Knows, hs, hc] using h
  | notifyWake all cv k =>
    obtain ⟨-, -, hc⟩ := hsame trivial
    simpa only [Knows, hc] using h
  | _ => trivial

lemma knows_run (h : ∀ j, k ≠ .notify j) : Knows n m d (.run k) := by
  cases k with
  | notify j => exact absurd rfl (h j)
  | _ => trivial

/-- A thread that relies on something is between taking and releasing the mutex. -/
lemma held_of_relies (hg : (discipline n w).GuardOk g pc) (hk : Knows n m d pc) (h : Relies pc) :
    0 < pc.held + g := by
  cases pc with
  | cvLoad | unlockSwap => exact Nat.add_pos_left Nat.one_pos g
  | run k =>
    cases k with
    | notify j =>
      obtain rfl : g = 1 := hg
      exact Nat.one_pos
    | _ => exact h.elim
  | notifyAdd | notifyWake =>
    obtain ⟨-, j, rfl, -⟩ := hk
    obtain rfl : g = 1 := hg.1
    exact Nat.one_pos
  | unlockWake c => cases c <;> exact h.elim
  | _ => exact h.elim

lemma relies_of_finishing (h : Finishing j pc) : Relies pc := by
  cases pc with
  | run k =>
    cases k with
    | notify i => trivial
    | _ => exact h.elim
  | notifyAdd | notifyWake => trivial
  | _ => exact h.elim

lemma finishing_of_beforeAdd (h : BeforeAdd j pc) : Finishing j pc := by
  cases pc with
  | notifyWake all cv k => exact h.elim
  | _ => exact h

/-- Where a call that is finishing is. -/
lemma Knows.finishing_cases (h : Knows n m d pc) (hj : Finishing j pc) :
    pc = .run (.notify j) ∨ pc = .notifyAdd true () (.unlock j true) ∨
      pc = .notifyWake true () (.unlock j true) := by
  cases pc with
  | run k =>
    cases k with
    | notify i =>
      obtain rfl : i = j := hj
      exact Or.inl rfl
    | _ => exact hj.elim
  | notifyAdd all cv k =>
    obtain ⟨rfl, i, rfl, -⟩ := h
    obtain rfl : i = j := hj
    exact Or.inr (Or.inl rfl)
  | notifyWake all cv k =>
    obtain ⟨rfl, i, rfl, -⟩ := h
    obtain rfl : i = j := hj
    exact Or.inr (Or.inr rfl)
  | _ => exact hj.elim

/-- What a call that is finishing knows. -/
lemma Knows.completed (h : Knows n m d pc) (hj : Finishing j pc) : d.completed = j / n + 1 := by
  rcases h.finishing_cases hj with rfl | rfl | rfl
  · exact h.2
  · obtain ⟨-, i, heq, -, hc⟩ := h
    cases heq
    exact hc
  · obtain ⟨-, i, heq, hc⟩ := h
    cases heq
    exact hc

lemma Knows.seq (h : Knows n m d pc) (hj : BeforeAdd j pc) :
    m.seq () + 1 = UInt32.ofNat d.completed := by
  rcases h.finishing_cases (finishing_of_beforeAdd hj) with rfl | rfl | rfl
  · exact h.1
  · obtain ⟨-, i, -, hs, -⟩ := h
    exact hs
  · exact hj.elim

/-- What a call has captured. -/
lemma Knows.captured {q : UInt32} (h : Knows n m d pc) (hq : pc.captured () = some q) :
    ∃ i g, pc.ctl = .check i g ∧ q = UInt32.ofNat (i / n) := by
  cases pc with
  | unlockSwap c =>
    cases c with
    | ret k => cases hq
    | sleepOn cv q' k =>
      obtain ⟨i, g, rfl, hq', -⟩ := h
      obtain rfl : q' = q := by simpa [Pc.captured] using hq
      exact ⟨i, g, rfl, hq'⟩
  | unlockWake c =>
    cases c with
    | ret k => cases hq
    | sleepOn cv q' k =>
      obtain ⟨i, g, rfl, hq'⟩ := h
      obtain rfl : q' = q := by simpa [Pc.captured] using hq
      exact ⟨i, g, rfl, hq'⟩
  | cvWait wt cv q' k =>
    obtain ⟨i, g, rfl, hq'⟩ := h
    cases wt with
    | done => cases hq
    | _ =>
      obtain rfl : q' = q := by simpa [Pc.captured] using hq
      exact ⟨i, g, rfl, hq'⟩
  | _ => cases hq

/-! ### The steps -/

lemma not_beforeAdd_run (h : ∀ j, k ≠ .notify j) (j : ℕ) : ¬ BeforeAdd j (.run k) := by
  cases k with
  | notify i => exact absurd rfl (h i)
  | _ => exact fun h => h

lemma ne_notify_of_landing (h : k.landing = true) (j : ℕ) : k ≠ .notify j := by
  rintro rfl
  cases h

lemma ne_notify_of_unlocked (h : k.locked = false) (j : ℕ) : k ≠ .notify j := by
  rintro rfl
  cases h

/-- What an operation does: it leaves the sequence, or it is the increment. -/
lemma exec_knows {g' : ℕ} (h : pc.exec m = some (m', pc', g')) (hg : (discipline n w).GuardOk g pc)
    (hk : Knows n m d pc)
    (hload : ∀ cv i g, pc = .cvLoad cv (.check i g) → m.seq () = UInt32.ofNat (i / n)) :
    Knows n m' d pc' ∧ ((m'.seq () = m.seq () ∧ ∀ j, ¬ BeforeAdd j pc) ∨
      Relies pc ∧ m'.seq () = UInt32.ofNat d.completed) := by
  cases Pc.exec_executes h with
  | lock | swap => exact ⟨knows_run (ne_notify_of_landing hg.1), Or.inl ⟨rfl, fun _ h => h⟩⟩
  | tryLock | tryTaken => exact hg.elim
  | unlock c _ =>
    cases c with
    | ret k => exact ⟨knows_run (ne_notify_of_unlocked hg.1), Or.inl ⟨rfl, fun _ h => h⟩⟩
    | sleepOn cv q k =>
      obtain ⟨i, g, rfl, hq, -⟩ := hk
      exact ⟨⟨i, g, rfl, hq⟩, Or.inl ⟨rfl, fun _ h => h⟩⟩
  | unlockContended c _ =>
    cases c with
    | ret k => exact ⟨trivial, Or.inl ⟨rfl, fun _ h => h⟩⟩
    | sleepOn cv q k =>
      obtain ⟨i, g, rfl, hq, -⟩ := hk
      exact ⟨⟨i, g, rfl, hq⟩, Or.inl ⟨rfl, fun _ h => h⟩⟩
  | cvLoad cv k =>
    obtain ⟨i, g, rfl, hgen⟩ := hk
    exact ⟨⟨i, g, rfl, hload cv i g rfl, hgen⟩, Or.inl ⟨rfl, fun _ h => h⟩⟩
  | cvWait wt wt' cv q k _ _ => exact ⟨hk, Or.inl ⟨rfl, fun _ h => h⟩⟩
  | notifyAdd all cv k =>
    obtain ⟨hall, j, rfl, hseq, hc⟩ := hk
    exact ⟨⟨hall, j, rfl, hc⟩, Or.inr ⟨trivial, by simpa using hseq⟩⟩
  | _ => exact ⟨trivial, Or.inl ⟨rfl, fun _ h => h⟩⟩

lemma knows_awaken (h : Knows n m d pc) : Knows n m d (awaken pc) := by
  cases pc <;> exact h

lemma beforeAdd_awaken (j : ℕ) : BeforeAdd j (awaken pc) ↔ BeforeAdd j pc := by
  cases pc <;> exact Iff.rfl

lemma waker_knows {all : Bool} {a : Addr Unit} (h : pc.waker = some (all, a, pc'))
    (hg : (discipline n w).GuardOk g pc) (hk : Knows n m d pc) :
    Knows n m d pc' ∧ ∀ j, ¬ BeforeAdd j pc := by
  rcases waker_cases h with ⟨c, rfl, -, -, rfl⟩ | ⟨cv, k, rfl, -, rfl⟩
  · cases c with
    | ret k => exact ⟨knows_run (ne_notify_of_unlocked hg.1), fun _ h => h⟩
    | sleepOn cv q k => exact ⟨hk, fun _ h => h⟩
  · obtain ⟨-, j, rfl, -⟩ := hk
    exact ⟨trivial, fun _ h => h⟩

/-- What an operation of the program does: it leaves the generation, or it is the increment. -/
lemma act_cases (h : (program n w).client.act k d k' d') :
    (∃ j, k = .bump j ∧ k' = .notify j ∧ d'.completed = d.completed + 1) ∨
    ((∀ j, k' ≠ .notify j) ∧ (∀ j, k ≠ .notify j) ∧ d'.generation = d.generation ∧
      d'.completed = d.completed) := by
  rcases h with h | ⟨x, h⟩
  · change exec n w k d = some (k', d') at h
    cases k with
    | bump j =>
      cases h
      exact Or.inl ⟨j, rfl, rfl, rfl⟩
    | test | check =>
      cases h
      refine Or.inr ⟨fun j => ?_, by simp, rfl, rfl⟩
      split <;> simp
    | _ =>
      cases h
      try exact Or.inr ⟨by simp, by simp, rfl, rfl⟩
  · obtain ⟨rfl, ⟨rfl, rfl⟩ | ⟨leader, rfl, rfl⟩⟩ := choose_cases h
    · exact Or.inr ⟨by simp, by simp, rfl, rfl⟩
    · exact Or.inr ⟨by simp, by simp, rfl, rfl⟩

/-- A call of a function of `sync.rs`. -/
lemma call_knows {c : Call Unit} (h : call k = some (c, k')) (hk : k.Ok n w d)
    (hknows : Knows n m d (.run k)) :
    Knows n m d (c.enter fun _ => k') ∧
      ∀ j, BeforeAdd j (.run k) → BeforeAdd j (c.enter fun _ => k') := by
  cases k with
  | lock | unlock =>
    cases h
    exact ⟨trivial, fun _ h => h⟩
  | wait i g =>
    cases h
    exact ⟨⟨i, g, rfl, hk.2⟩, fun _ h => h⟩
  | notify j =>
    cases h
    exact ⟨⟨rfl, j, rfl, hknows⟩, fun _ h => h⟩
  | _ => cases h

/-- The call that completes a generation belongs to it. -/
lemma Data.Full.div_eq (h : d.Full n w j) : j / n = d.completed := by
  obtain ⟨hlast, harrived, -⟩ := h
  have hn : 0 < n := Nat.pos_of_mul_pos_left (by omega : 0 < (d.completed + 1) * n)
  exact (div_mod_of_succ (k := n)
    (show j + 1 = d.completed * n + n by rw [hlast, harrived, add_mul, one_mul]) hn le_rfl).1

/-! ### Runs -/

variable {s s' : State Tid Unit Ctl Data} {t u : Tid}

/-- What is known about every reachable state. -/
structure Sound (n : ℕ) (w : PtrWidth) (s : State Tid Unit Ctl Data) : Prop where
  guarded : (discipline n w).Guarded s
  inv : Inv n w s.view
  mutex : ∀ t u, 0 < s.holds t → 0 < s.holds u → t = u

/-- The sequence counts the generations, and every thread may rely on what it relies on. -/
structure Tuned (n : ℕ) (s : State Tid Unit Ctl Data) : Prop where
  knows : ∀ t, Knows n s.words s.data (s.pc t)
  seq : (∀ t j, ¬ BeforeAdd j (s.pc t)) → s.words.seq () = UInt32.ofNat s.data.completed

/-- Who relies on something is alone between taking and releasing the mutex. -/
lemma Tuned.alone (h : Tuned n s) (hs : Sound n w s) (hu : Relies (s.pc u))
    (ht : 0 < s.holds t) : u = t :=
  hs.mutex u t (held_of_relies (hs.guarded u) (h.knows u) hu) ht

/-- A thread of the program with the guard is between taking and releasing the mutex. -/
lemma Sound.holds_of_locked (hs : Sound n w s) (ht : s.pc t = .run k) (hk : k.locked = true) :
    0 < s.holds t := by
  have hg := hs.guarded t
  rw [ht] at hg
  have hone : s.guards t = k.locked.toNat := hg
  rw [State.holds, hone, hk]
  exact Nat.succ_pos _

/-- What a thread at a program point knows. -/
lemma Sound.ok (hs : Sound n w s) (t : Tid) : (s.pc t).ctl.Ok n w s.data := hs.inv.ok t

/-- With the mutex and at no open point, a thread finds the fields settled. -/
lemma Sound.settled (hs : Sound n w s) (ht : 0 < s.holds t) (hopen : (s.pc t).ctl.Open = false) :
    s.data.Settled n w := by
  refine hs.inv.settled fun u => ?_
  by_contra hne
  obtain ⟨hlocked, hland⟩ := Ctl.locked_of_open (eq_true_of_ne_false hne)
  have hg := ((hs.guarded u).eq_run hlocked hland).2
  have hut : u = t := hs.mutex u t (by rw [State.holds, hg]; exact Nat.succ_pos _) ht
  subst hut
  exact hne hopen

lemma ofNat_eq_of_wrap {a b : ℕ} (h : w.wrap a = w.wrap b) : UInt32.ofNat a = UInt32.ofNat b := by
  have hdvd : 2 ^ 32 ∣ w.size := by
    cases w with
    | w32 => exact dvd_rfl
    | w64 => exact pow_dvd_pow 2 (by decide)
  refine UInt32.toNat_inj.1 ?_
  rw [UInt32.toNat_ofNat', UInt32.toNat_ofNat', ← Nat.mod_mod_of_dvd a hdvd,
    ← Nat.mod_mod_of_dvd b hdvd]
  exact congrArg (· % 2 ^ 32) h

/-- A thread that captures the sequence captures the number of its generation. -/
lemma Tuned.load (h : Tuned n s) (hs : Sound n w s) {cv : Unit} {i : ℕ}
    (ht : s.pc t = .cvLoad cv (.check i g)) : s.words.seq () = UInt32.ofNat (i / n) := by
  have hholds : 0 < s.holds t := by
    rw [State.holds, ht]
    exact Nat.add_pos_left Nat.one_pos _
  have hseq := h.seq fun u j hu => by
    obtain rfl := h.alone hs (relies_of_finishing (finishing_of_beforeAdd hu)) hholds
    rw [ht] at hu
    exact hu
  have hwaits := hs.ok t
  have hknows := h.knows t
  rw [ht] at hwaits hknows
  obtain ⟨i', g', heq, hgen⟩ := hknows
  cases heq
  have hsettled := hs.settled hholds (by rw [ht]; rfl)
  rw [hseq]
  refine ofNat_eq_of_wrap (w := w) ?_
  rw [← hsettled.generation]
  exact hgen.symm.trans hwaits.generation

variable [DecidableEq Tid]

/-- Nobody was before the increment, if nobody is and the thread that moves has not left it. -/
lemma not_beforeAdd_of_update {pc : Pc Unit Ctl}
    (hall : ∀ u j, ¬ BeforeAdd j (Function.update s.pc t pc u))
    (ht : ∀ j, BeforeAdd j (s.pc t) → BeforeAdd j pc) (u : Tid) (j : ℕ) :
    ¬ BeforeAdd j (s.pc u) := by
  have hu := hall u j
  by_cases hut : u = t
  · subst hut
    rw [Function.update_self] at hu
    exact fun hj => hu (ht j hj)
  · rwa [Function.update_of_ne hut] at hu

lemma Tuned.exec (h : Tuned n s) (hs : Sound n w s) {m : Words Unit} {pc : Pc Unit Ctl}
    (he : (s.pc t).exec s.words = some (m, pc, g)) (guards : Tid → ℕ) :
    Tuned n ⟨m, s.data, Function.update s.pc t pc, guards⟩ := by
  obtain ⟨hk, hseq⟩ := exec_knows he (hs.guarded t) (h.knows t) fun _ _ _ => h.load hs
  refine ⟨(Function.forall_update_iff s.pc fun _ pc => Knows n m s.data pc).2
    ⟨hk, fun u hut => (h.knows u).congr fun hu => ⟨?_, rfl, rfl⟩⟩, fun hall => ?_⟩
  · rcases hseq with ⟨hsame, -⟩ | ⟨ht, -⟩
    · exact hsame
    · exact absurd (h.alone hs hu (held_of_relies (hs.guarded t) (h.knows t) ht)) hut
  · rcases hseq with ⟨hsame, hnot⟩ | ⟨-, hnew⟩
    · exact hsame.trans (h.seq (not_beforeAdd_of_update hall fun j hj => absurd hj (hnot j)))
    · exact hnew

lemma Tuned.rouse (h : Tuned n s) (hs : Sound n w s) {pc : Tid → Pc Unit Ctl}
    (hrouse : Futex.Rouses (fun _ => Pc.waker) s.pc pc) : Tuned n { s with pc := pc } := by
  have hthread : ∀ u, Knows n s.words s.data (pc u) ∧
      ∀ j, BeforeAdd j (s.pc u) → BeforeAdd j (pc u) := by
    intro u
    refine hrouse.keeps (K := fun p => Knows n s.words s.data p ∧
      ∀ j, BeforeAdd j (s.pc u) → BeforeAdd j p) (fun hw => ?_) (fun _ hp => ?_)
      ⟨h.knows u, fun _ hj => hj⟩
    · obtain ⟨hk, hnot⟩ := waker_knows hw (hs.guarded u) (h.knows u)
      exact ⟨hk, fun j hj => absurd hj (hnot j)⟩
    · exact ⟨knows_awaken hp.1, fun j hj => (beforeAdd_awaken j).2 (hp.2 j hj)⟩
  exact ⟨fun u => (hthread u).1, fun hall => h.seq fun u j hj => hall u j ((hthread u).2 j hj)⟩

lemma Tuned.act (h : Tuned n s) (hs : Sound n w s) (ht : s.pc t = .run k)
    (hact : (program n w).client.act k s.data k' d) :
    Tuned n { s with data := d, pc := Function.update s.pc t (.run k') } := by
  rcases act_cases hact with ⟨j, rfl, rfl, hc⟩ | ⟨hne', hne, hgen, hc⟩
  · -- the last call of a generation, which has the guard
    have hholds := hs.holds_of_locked ht rfl
    have hnone : ∀ u j, ¬ BeforeAdd j (s.pc u) := by
      intro u j hu
      obtain rfl := h.alone hs (relies_of_finishing (finishing_of_beforeAdd hu)) hholds
      rw [ht] at hu
      exact hu
    have hok := hs.ok t
    rw [ht] at hok
    have hdiv := hok.1.div_eq
    refine ⟨(Function.forall_update_iff s.pc fun _ pc => Knows n s.words d pc).2
      ⟨⟨?_, by omega⟩, fun u hut => (h.knows u).congr fun hu => ?_⟩, fun hall => ?_⟩
    · rw [h.seq hnone, hc, UInt32.ofNat_add]
      rfl
    · exact absurd (h.alone hs hu hholds) hut
    · have hself : ¬ BeforeAdd j (Function.update s.pc t (.run (.notify j)) t) := hall t j
      rw [Function.update_self] at hself
      exact absurd rfl hself
  · refine ⟨(Function.forall_update_iff s.pc fun _ pc => Knows n s.words d pc).2
      ⟨knows_run hne', fun u _ => (h.knows u).congr fun _ => ⟨rfl, hgen, hc⟩⟩, fun hall => ?_⟩
    show s.words.seq () = UInt32.ofNat d.completed
    rw [hc]
    refine h.seq (not_beforeAdd_of_update hall fun j hj => ?_)
    rw [ht] at hj
    exact absurd hj (not_beforeAdd_run hne j)

lemma Tuned.call (h : Tuned n s) (hs : Sound n w s) {c : Call Unit} (ht : s.pc t = .run k)
    (hcall : call k = some (c, k')) (guards : Tid → ℕ) :
    Tuned n { s with pc := Function.update s.pc t (c.enter fun _ => k'), guards := guards } := by
  have hok := hs.ok t
  have hknows := h.knows t
  rw [ht] at hok hknows
  obtain ⟨hk, hkeep⟩ := call_knows hcall hok hknows
  refine ⟨(Function.forall_update_iff s.pc fun _ pc => Knows n s.words s.data pc).2
    ⟨hk, fun u _ => h.knows u⟩, fun hall => ?_⟩
  exact h.seq (not_beforeAdd_of_update hall fun j hj => hkeep j (ht ▸ hj))

lemma Tuned.step (h : Tuned n s) (hs : Sound n w s) (hstep : (program n w).client.Step s s') :
    Tuned n s' := by
  cases hstep with
  | exec t he => exact h.exec hs he _
  | rouse hrouse => exact h.rouse hs hrouse
  | act t ht hact => exact h.act hs ht hact
  | call t ht hcall _ =>
    obtain ⟨k', hcall, rfl⟩ := hcall
    exact h.call hs ht hcall _
  | give t u htu h h' hgive hguard => exact hgive.elim

lemma reaches_sound (hn : 0 < n) (h : (program n w).client.Reaches s) : Sound n w s := by
  obtain ⟨o, ho⟩ := reaches_owned h
  exact ⟨((discipline n w).reaches_view h).1, reaches_inv hn h, fun t u ht hu =>
    Option.some.inj ((ho.owner_of_pos ht).symm.trans (ho.owner_of_pos hu))⟩

lemma reaches_tuned (hn : 0 < n) (h : (program n w).client.Reaches s) : Tuned n s := by
  refine Reachable.induct (P := Tuned n) h ?_ fun s s' hs ih hstep =>
    ih.step (reaches_sound hn hs) hstep
  rintro s ⟨hwords, hdata, hpc, -⟩
  have hidle : ∀ t, s.pc t = .run .idle := by
    intro t
    obtain ⟨k, rfl, hk⟩ := hpc t
    exact hk
  refine ⟨fun t => by rw [hidle t]; trivial, fun _ => ?_⟩
  rw [hwords, show s.data = .new from hdata]
  rfl

end PureStd.Sync.Barrier
