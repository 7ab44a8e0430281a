/-
The results of scoped threads.

A scoped thread passes its result on in three writes: the slot, the result in the packet of
its handle, and the state on which `join` sleeps.  A handle is joined at most once, so a
result has one way to go: from the thread that produced it, through the slot, to the one
thread that joins the handle.  `Record` lists the stations of this way, and every reachable
state has a record for each scoped thread (`reaches_accounted`).
-/
import PureStd.Thread.ScopeLifetime

namespace PureStd.Thread.Scope

open Sleeper

variable {Tid V : Type*}

/-! ### The way of a result -/

/-- How far a scoped thread is with its result. -/
inductive Phase (V : Type*) where
  | fresh
  | inside
  | returned (v : V)
  /-- The slot is written. -/
  | written
  /-- The result in the packet is written, too. -/
  | resulted
  /-- The state is 1. -/
  | published

/-- The closure has run to its end, and the slot has been written. -/
def Phase.wrote : Phase V → Bool
  | written => true
  | resulted => true
  | published => true
  | _ => false

/-- The phase of a thread in this position. -/
def Pc.phase : Pc Tid V → Phase V
  | run _ => .inside
  | caller _ => .inside
  | wrapper .unborn => .fresh
  | wrapper .starting => .fresh
  | wrapper (.writeSlot v) => .returned v
  | wrapper .subRunning => .written
  | wrapper .storeWake => .written
  | wrapper .futexWake => .written
  | wrapper .writeResult => .written
  | wrapper .storeState => .resulted
  | wrapper .wakeJoiner => .published
  | wrapper .exited => .published

/-- Who has the handle of a scoped thread. -/
inductive Holder (Tid V : Type*) where
  | absent
  /-- Nobody has joined it yet. -/
  | free
  | waiting (t : Option Tid)
  /-- A thread that has seen the state 1. -/
  | seen (t : Option Tid)
  /-- A thread that has taken the result from the packet. -/
  | taking (t : Option Tid)
  /-- `join` has returned this value. -/
  | taken (v : V)

/-- Nobody has seen the state 1. -/
def Holder.Early (h : Holder Tid V) : Prop := h = free ∨ ∃ t, h = waiting t

/-- The thread that is in `join`. -/
def Holder.joiner : Holder Tid V → Option (Option Tid)
  | waiting t => some t
  | seen t => some t
  | taking t => some t
  | _ => none

/-- What the position of thread `t` says about a handle. -/
def Pc.claim (t : Option Tid) : Pc Tid V → Option (Tid × Holder Tid V)
  | run (.joinWait _ u) => some (u, .waiting t)
  | run (.joinResult u) => some (u, .seen t)
  | run (.joinTake u) => some (u, .taking t)
  | run (.joined u v) => some (u, .taken v)
  | _ => none

/-- The memory through which a result goes, and the value that the closure has returned. -/
structure Cells (V : Type*) where
  slot : Option V
  result : Option Unit
  state : UInt32
  produced : Option V

def State.cells (s : State Tid V) (u : Tid) : Cells V where
  slot := s.slot u
  result := s.result u
  state := s.state u
  produced := s.produced u

/-- The stations of a result. -/
inductive Record : Phase V → Holder Tid V → Cells V → Prop
  | fresh : Record .fresh .absent ⟨none, none, 0, none⟩
  | inside {h : Holder Tid V} (hearly : h.Early) : Record .inside h ⟨none, none, 0, none⟩
  | returned {h : Holder Tid V} (hearly : h.Early) (v : V) :
      Record (.returned v) h ⟨none, none, 0, some v⟩
  | written {h : Holder Tid V} (hearly : h.Early) (v : V) :
      Record .written h ⟨some v, none, 0, some v⟩
  | resulted {h : Holder Tid V} (hearly : h.Early) (v : V) :
      Record .resulted h ⟨some v, some (), 0, some v⟩
  | published {h : Holder Tid V} (hearly : h.Early) (v : V) :
      Record .published h ⟨some v, some (), 1, some v⟩
  | seen (t : Option Tid) (v : V) : Record .published (.seen t) ⟨some v, some (), 1, some v⟩
  | taking (t : Option Tid) (v : V) : Record .published (.taking t) ⟨some v, none, 1, some v⟩
  | taken (v : V) : Record .published (.taken v) ⟨none, none, 1, some v⟩

namespace Record

variable {p : Phase V} {h : Holder Tid V} {c : Cells V} {t : Option Tid} {v : V}

lemma of_fresh (hr : Record .fresh h c) : h = .absent ∧ c = ⟨none, none, 0, none⟩ := by
  cases hr
  exact ⟨rfl, rfl⟩

/-- The closure returns. -/
lemma finish (hr : Record .inside h c) (v : V) :
    Record (.returned v) h { c with produced := some v } := by
  cases hr with
  | inside hearly => exact .returned hearly v

lemma writeSlot (hr : Record (.returned v) h c) : Record .written h { c with slot := some v } := by
  cases hr with
  | returned hearly => exact .written hearly v

lemma writeResult (hr : Record .written h c) : Record .resulted h { c with result := some () } := by
  cases hr with
  | written hearly v => exact .resulted hearly v

lemma storeState (hr : Record .resulted h c) : Record .published h { c with state := 1 } := by
  cases hr with
  | resulted hearly v => exact .published hearly v

/-- The state is 1 from the last phase on. -/
lemma published_of_state (hr : Record p h c) (hc : c.state ≠ 0) : p = .published := by
  cases hr with
  | published | seen | taking | taken => rfl
  | fresh | inside | returned | written | resulted => exact absurd rfl hc

lemma state_of_published (hr : Record .published h c) : c.state ≠ 0 := by
  cases hr <;> simp

/-- A thread in `join` finds that the state is 1. -/
lemma see (hr : Record p (.waiting t) c) (hstate : c.state ≠ 0) : Record p (.seen t) c := by
  cases hr with
  | published _ v => exact .seen t v
  | inside | returned | written | resulted => exact absurd rfl hstate

lemma of_seen (hr : Record p (.seen t) c) :
    p = .published ∧ ∃ v, c = ⟨some v, some (), 1, some v⟩ := by
  cases hr with
  | seen _ v => exact ⟨rfl, v, rfl⟩
  | inside hearly | returned hearly | written hearly | resulted hearly | published hearly =>
    exact absurd hearly (by simp [Holder.Early])

lemma of_taking (hr : Record p (.taking t) c) :
    p = .published ∧ ∃ v, c = ⟨some v, none, 1, some v⟩ := by
  cases hr with
  | taking _ v => exact ⟨rfl, v, rfl⟩
  | inside hearly | returned hearly | written hearly | resulted hearly | published hearly =>
    exact absurd hearly (by simp [Holder.Early])

/-- It takes the result, and then the value. -/
lemma take (hr : Record p (.seen t) c) : Record p (.taking t) { c with result := none } := by
  obtain ⟨rfl, v, rfl⟩ := hr.of_seen
  exact .taking t v

lemma takeSlot (hr : Record p (.taking t) c) (hv : c.slot = some v) :
    Record p (.taken v : Holder Tid V) { c with slot := none } := by
  obtain ⟨rfl, v', rfl⟩ := hr.of_taking
  obtain rfl : v' = v := Option.some.inj hv
  exact .taken v'

lemma of_taken (hr : Record p (.taken v : Holder Tid V) c) : c = ⟨none, none, 1, some v⟩ := by
  cases hr with
  | taken => rfl
  | inside hearly | returned hearly | written hearly | resulted hearly | published hearly =>
    exact absurd hearly (by simp [Holder.Early])

/-- A thread that has written its slot has a value, and it is there while the handle is free. -/
lemma value (hr : Record p h c) (hp : p.wrote = true) :
    ∃ v, c.produced = some v ∧ (h = .free → c.slot = some v) := by
  cases hr with
  | fresh | inside | returned => exact absurd hp Bool.false_ne_true
  | written _ v | resulted _ v | published _ v | seen _ v | taking _ v =>
    exact ⟨v, rfl, fun _ => rfl⟩
  | taken v => exact ⟨v, rfl, fun h => absurd h (by simp)⟩

/-- A free handle is joined. -/
lemma join (hr : Record p (.free : Holder Tid V) c) (t : Option Tid) :
    Record p (.waiting t) c := by
  cases hr with
  | inside => exact .inside (Or.inr ⟨t, rfl⟩)
  | returned _ v => exact .returned (Or.inr ⟨t, rfl⟩) v
  | written _ v => exact .written (Or.inr ⟨t, rfl⟩) v
  | resulted _ v => exact .resulted (Or.inr ⟨t, rfl⟩) v
  | published _ v => exact .published (Or.inr ⟨t, rfl⟩) v

end Record

/-! ### Every result is accounted for -/

/-- The positions of the threads agree with `holder`, and every scoped thread has a record. -/
structure Accounted (s : State Tid V) (holder : Tid → Holder Tid V) : Prop where
  claim : ∀ t u h, (s.pc t).claim t = some (u, h) → holder u = h
  handle : ∀ u, s.handle u = true → holder u = .free
  record : ∀ u, Record (s.pc (some u)).phase (holder u) (s.cells u)

lemma start_accounted : Accounted (State.start : State Tid V) fun _ => .absent where
  claim t u h ht := by cases t <;> exact absurd ht (by simp [State.start, Pc.claim])
  handle u hu := absurd hu Bool.false_ne_true
  record u := .fresh

/-- A position that claims a handle is in the `join` of its own thread, or after it. -/
lemma joiner_of_claim {t : Option Tid} {pc : Pc Tid V} {u : Tid} {h : Holder Tid V}
    (hclaim : pc.claim t = some (u, h)) : h.joiner = some t ∨ ∃ v, h = .taken v := by
  rw [Pc.claim.eq_def] at hclaim
  split at hclaim
  · obtain ⟨-, rfl⟩ := by simpa using hclaim
    exact Or.inl rfl
  · obtain ⟨-, rfl⟩ := by simpa using hclaim
    exact Or.inl rfl
  · obtain ⟨-, rfl⟩ := by simpa using hclaim
    exact Or.inl rfl
  · obtain ⟨-, rfl⟩ := by simpa using hclaim
    exact Or.inr ⟨_, rfl⟩
  · exact absurd hclaim (by simp)

namespace Accounted

variable {s s' : State Tid V} {holder : Tid → Holder Tid V} {t : Option Tid} {u : Tid}
  {pc : Pc Tid V} {h : Holder Tid V}

lemma record_of (hs : Accounted s holder) (hu : s.pc (some u) = pc) :
    Record pc.phase (holder u) (s.cells u) :=
  hu ▸ hs.record u

lemma record_claim (hs : Accounted s holder) (ht : (s.pc t).claim t = some (u, h)) :
    Record (s.pc (some u)).phase h (s.cells u) :=
  hs.claim t u h ht ▸ hs.record u

/-- Nobody claims a handle that nobody has joined yet. -/
lemma not_claimed_of_unjoined (hs : Accounted s holder) (hu : (holder u).joiner = none)
    (hv : ∀ v, holder u ≠ .taken v) (t' : Option Tid) (h' : Holder Tid V) :
    (s.pc t').claim t' ≠ some (u, h') := by
  intro hclaim
  obtain rfl := hs.claim t' u h' hclaim
  rcases joiner_of_claim hclaim with hj | ⟨v, hj⟩
  · exact absurd (hu.symm.trans hj) (by simp)
  · exact hv v hj

/-- While a thread joins a handle, nobody else claims it. -/
lemma not_claimed_of_joiner (hs : Accounted s holder) (hu : (holder u).joiner = some t)
    {t' : Option Tid} (ht : t' ≠ t) (h' : Holder Tid V) : (s.pc t').claim t' ≠ some (u, h') := by
  intro hclaim
  obtain rfl := hs.claim t' u h' hclaim
  rcases joiner_of_claim hclaim with hj | ⟨v, hj⟩
  · exact ht (Option.some.inj (hj.symm.trans hu))
  · exact absurd hu (by simp [hj, Holder.joiner])

variable [DecidableEq Tid]

lemma phase_update {f : Option Tid → Pc Tid V} (h : pc.phase = (f t).phase) (t' : Option Tid) :
    (Function.update f t pc t').phase = (f t').phase := by
  by_cases ht : t' = t
  · rw [ht, Function.update_self, h]
  · rw [Function.update_of_ne ht]

lemma claim_update (hnew : ∀ u h, pc.claim t = some (u, h) → holder u = h)
    (hold : ∀ t', t' ≠ t → ∀ u h, (s.pc t').claim t' = some (u, h) → holder u = h) :
    ∀ t' u h, (Function.update s.pc t pc t').claim t' = some (u, h) → holder u = h :=
  (Function.forall_update_iff s.pc fun t' p => ∀ u h, p.claim t' = some (u, h) → holder u = h).2
    ⟨hnew, hold⟩

/-- A step of a thread that has nothing to do with results. -/
lemma stays (hs : Accounted s holder) (hpc : s'.pc = Function.update s.pc t pc)
    (hhandle : s'.handle = s.handle) (hcells : s'.cells = s.cells)
    (hphase : pc.phase = (s.pc t).phase)
    (hclaim : pc.claim t = none ∨ pc.claim t = (s.pc t).claim t) : Accounted s' holder := by
  refine ⟨?_, fun u hu => hs.handle u (hhandle ▸ hu), fun u => ?_⟩
  · rw [hpc]
    refine claim_update (fun u h ht => ?_) fun t' _ => hs.claim t'
    rcases hclaim with hnone | hsame
    · exact absurd (hnone.symm.trans ht) (by simp)
    · exact hs.claim t u h (hsame.symm.trans ht)
  · rw [hpc, phase_update hphase, hcells]
    exact hs.record u

/-- A scoped thread takes its result one station further. -/
lemma advance (hs : Accounted s holder) (hpc : s'.pc = Function.update s.pc (some u) pc)
    (hhandle : s'.handle = s.handle) (hcells : ∀ u', u' ≠ u → s'.cells u' = s.cells u')
    (hclaim : pc.claim (some u) = none) {c : Cells V} (hc : s'.cells u = c)
    (hrecord : Record pc.phase (holder u) c) : Accounted s' holder := by
  refine ⟨?_, fun u hu => hs.handle u (hhandle ▸ hu), fun u' => ?_⟩
  · rw [hpc]
    exact claim_update (fun u h ht => absurd (hclaim.symm.trans ht) (by simp))
      fun t' _ => hs.claim t'
  · rw [hpc]
    by_cases hu : u' = u
    · rw [hu, Function.update_self, hc]
      exact hrecord
    · rw [Function.update_of_ne (by simpa using hu), hcells u' hu]
      exact hs.record u'

/-- A thread goes on with a handle that nobody else claims. -/
lemma hand (hs : Accounted s holder) (hpc : s'.pc = Function.update s.pc t pc)
    (hphase : pc.phase = (s.pc t).phase) (hclaim : pc.claim t = some (u, h))
    (hother : ∀ t' h', t' ≠ t → (s.pc t').claim t' ≠ some (u, h'))
    (hhandle : ∀ u', s'.handle u' = true → u' ≠ u ∧ s.handle u' = true)
    (hcells : ∀ u', u' ≠ u → s'.cells u' = s.cells u') {c : Cells V} (hc : s'.cells u = c)
    (hrecord : Record (s.pc (some u)).phase h c) :
    Accounted s' (Function.update holder u h) := by
  refine ⟨?_, fun u' hu' => ?_, fun u' => ?_⟩
  · rw [hpc]
    refine claim_update (fun u' h' ht => ?_) fun t' ht u' h' ht' => ?_
    · rw [hclaim] at ht
      obtain ⟨rfl, rfl⟩ := by simpa using ht
      exact Function.update_self ..
    · have hu : u' ≠ u := by
        rintro rfl
        exact hother t' h' ht ht'
      rw [Function.update_of_ne hu]
      exact hs.claim t' u' h' ht'
  · obtain ⟨hu, hfree⟩ := hhandle u' hu'
    rw [Function.update_of_ne hu]
    exact hs.handle u' hfree
  · rw [hpc, phase_update hphase]
    by_cases hu : u' = u
    · rw [hu, Function.update_self, hc]
      exact hrecord
    · rw [Function.update_of_ne hu, hcells u' hu]
      exact hs.record u'

/-- The thread in `join` goes on with the handle. -/
lemma hand_joiner (hs : Accounted s holder) {h₀ : Holder Tid V}
    (hbefore : (s.pc t).claim t = some (u, h₀)) (hjoiner : h₀.joiner = some t)
    (hpc : s'.pc = Function.update s.pc t pc) (hphase : pc.phase = (s.pc t).phase)
    (hclaim : pc.claim t = some (u, h)) (hhandle : s'.handle = s.handle)
    (hcells : ∀ u', u' ≠ u → s'.cells u' = s.cells u') {c : Cells V} (hc : s'.cells u = c)
    (hrecord : Record (s.pc (some u)).phase h c) :
    Accounted s' (Function.update holder u h) := by
  have hholder : holder u = h₀ := hs.claim t u h₀ hbefore
  rw [← hholder] at hjoiner
  refine hs.hand hpc hphase hclaim (fun t' h' ht => hs.not_claimed_of_joiner hjoiner ht h')
    (fun u' hu' => ?_) hcells hc hrecord
  rw [hhandle] at hu'
  refine ⟨?_, hu'⟩
  rintro rfl
  exact absurd hjoiner (by simp [hs.handle u' hu', Holder.joiner])

/-- A thread is created, and there is a handle of it. -/
lemma create (hs : Accounted s holder) (ht : s.pc t = .run (.spawning u))
    (hu : s.pc (some u) = .wrapper .starting) :
    Accounted { (s.goto (some u) (.run .body)).goto t (.run .body) with
      handle := Function.update s.handle u true } (Function.update holder u .free) := by
  have hne : some u ≠ t := by
    rintro rfl
    exact absurd (ht.symm.trans hu) (by simp)
  obtain ⟨habsent, hcells⟩ := (hs.record_of hu).of_fresh
  refine ⟨fun t' u' h' ht' => ?_, fun u' hu' => ?_, fun u' => ?_⟩
  · have hclaim : (s.pc t').claim t' = some (u', h') := by
      simp only [State.goto, Function.update_apply] at ht'
      split at ht'
      · exact absurd ht' (by simp [Pc.claim])
      · split at ht'
        · exact absurd ht' (by simp [Pc.claim])
        · exact ht'
    have hu' : u' ≠ u := by
      rintro rfl
      exact hs.not_claimed_of_unjoined (by rw [habsent]; rfl) (by simp [habsent]) t' h' hclaim
    rw [Function.update_of_ne hu']
    exact hs.claim t' u' h' hclaim
  · by_cases hu'' : u' = u
    · rw [hu'', Function.update_self]
    · rw [Function.update_of_ne hu'']
      exact hs.handle u' (by simpa [hu''] using hu')
  · show Record (Function.update (Function.update s.pc (some u) _) t _ (some u')).phase _
      (s.cells u')
    by_cases hu' : u' = u
    · rw [hu', Function.update_self, Function.update_of_ne hne, Function.update_self, hcells]
      exact .inside (Or.inl rfl)
    · rw [Function.update_of_ne hu']
      have hsame : (Function.update (Function.update s.pc (some u) (.run .body)) t (.run .body)
          (some u')).phase = (s.pc (some u')).phase := by
        by_cases htu : some u' = t
        · rw [htu, Function.update_self, ht]
          rfl
        · rw [Function.update_of_ne htu, Function.update_of_ne (by simpa using hu')]
      rw [hsame]
      exact hs.record u'

end Accounted

lemma phase_awaken (pc : Pc Tid V) : (awaken pc).phase = pc.phase := by
  rcases pc with (_ | _ | _ | _ | _ | _) | (_ | _ | _ | _) | _ <;> rfl

lemma claim_awaken (t : Option Tid) (pc : Pc Tid V) : (awaken pc).claim t = pc.claim t := by
  rcases pc with (_ | _ | _ | _ | _ | _) | (_ | _ | _ | _) | _ <;> rfl

lemma phase_waker {t : Option Tid} {pc next : Pc Tid V} {all : Bool} {b : Addr Tid}
    (h : waker t pc = some (all, b, next)) : next.phase = pc.phase ∧ next.claim t = none := by
  rcases (waker_cases h).2 with ⟨u, rfl, rfl, rfl, rfl⟩ | ⟨u, rfl, rfl, rfl, rfl⟩ <;>
    exact ⟨rfl, rfl⟩

section Runs

variable [DecidableEq Tid] {s s' : State Tid V} {a : Bool} {holder : Tid → Holder Tid V}

lemma step_accounted (h : Step a s s') (hinv : Inv s.running s.pc) (hs : Accounted s holder) :
    ∃ holder', Accounted s' holder' := by
  cases step_moves h with
  | create t u ht => exact ⟨_, hs.create ht (hinv.created t u (by rw [ht]; rfl))⟩
  | joinWait t u w w' ht hw =>
    by_cases hdone : w' = .done
    · rw [if_pos hdone]
      have hrecord := hs.record_claim (t := t) (h := .waiting t) (by rw [ht]; rfl)
      -- the loop of `futex_wait` ends only at a state that is not 0
      exact ⟨_, hs.hand_joiner (by rw [ht]; rfl) rfl rfl (by rw [ht]; rfl) rfl rfl
        (fun _ _ => rfl) rfl (hrecord.see fun hzero => WaitPc.ne_of_exec_done (hdone ▸ hw) hzero)⟩
    · rw [if_neg hdone]
      exact ⟨holder, hs.stays rfl rfl rfl (by rw [ht]; rfl) (Or.inr (by rw [ht]; rfl))⟩
  | joinResult t u ht _ =>
    exact ⟨_, hs.hand_joiner (by rw [ht]; rfl) rfl rfl (by rw [ht]; rfl) rfl rfl
      (fun u' hu' => by simp [State.cells, State.goto, hu']) (by simp [State.cells, State.goto])
      (hs.record_claim (by rw [ht]; rfl)).take⟩
  | joinTake t u v ht hv =>
    exact ⟨_, hs.hand_joiner (by rw [ht]; rfl) rfl rfl (by rw [ht]; rfl) rfl rfl
      (fun u' hu' => by simp [State.cells, State.goto, hu']) (by simp [State.cells, State.goto])
      ((hs.record_claim (by rw [ht]; rfl)).takeSlot hv)⟩
  | loadRunning _ ht | waitWake _ _ _ ht | clearWake _ ht | storeWake _ ht | leave _ ht
  | resume _ _ _ ht => exact ⟨holder, hs.stays rfl rfl rfl (by rw [ht]; rfl) (Or.inl rfl)⟩
  | writeSlot u v ht =>
    exact ⟨holder, hs.advance rfl rfl (fun u' hu' => by simp [State.cells, State.goto, hu']) rfl
      (by simp [State.cells, State.goto]) (hs.record_of ht).writeSlot⟩
  | subRunning u ht =>
    refine ⟨holder, hs.stays rfl rfl rfl ?_ (Or.inl rfl)⟩
    rw [ht]
    split <;> rfl
  | writeResult u ht =>
    exact ⟨holder, hs.advance rfl rfl (fun u' hu' => by simp [State.cells, State.goto, hu']) rfl
      (by simp [State.cells, State.goto]) (hs.record_of ht).writeResult⟩
  | storeState u ht =>
    exact ⟨holder, hs.advance rfl rfl (fun u' hu' => by simp [State.cells, State.goto, hu']) rfl
      (by simp [State.cells, State.goto]) (hs.record_of ht).storeState⟩
  | spawn t u ht hu =>
    have hcounted : Accounted (s.goto (some u) (.wrapper .starting)) holder :=
      hs.stays rfl rfl rfl (by rw [hu]; rfl) (Or.inl rfl)
    have hne : t ≠ some u := by
      rintro rfl
      exact absurd (ht.symm.trans hu) (by simp)
    refine ⟨holder, hcounted.stays (t := t) rfl rfl rfl ?_ (Or.inl rfl)⟩
    show _ = (Function.update s.pc (some u) _ t).phase
    rw [Function.update_of_ne hne, ht]
    rfl
  | join t u ht hu =>
    have hfree : holder u = .free := hs.handle u hu
    have hrecord := hs.record u
    rw [hfree] at hrecord
    refine ⟨_, hs.hand rfl (by rw [ht]; rfl) rfl (fun t' h' _ => hs.not_claimed_of_unjoined
      (by rw [hfree]; rfl) (by simp [hfree]) t' h') (fun u' hu' => ?_) (fun _ _ => rfl)
      rfl (hrecord.join t)⟩
    by_cases huu : u' = u
    · exact absurd hu' (by simp [huu])
    · exact ⟨huu, by simpa [huu] using hu'⟩
  | finish u v ht =>
    exact ⟨holder, hs.advance rfl rfl (fun u' hu' => by simp [State.cells, State.goto, hu']) rfl
      (by simp [State.cells, State.goto]) ((hs.record_of ht).finish v)⟩
  | rouse hrouse =>
    rcases rouses_cases hrouse with ⟨t, b, next, hcall, hwake⟩ | ⟨t, b, -, rfl⟩
    · obtain ⟨hphase, hclaim⟩ := phase_waker hcall
      have hmoved : Accounted (s.goto t next) holder :=
        hs.stays rfl rfl rfl hphase (Or.inl hclaim)
      rcases hwake with ⟨u, -, rfl⟩ | ⟨-, rfl⟩
      · exact ⟨holder, hmoved.stays rfl rfl rfl (phase_awaken _) (Or.inr (claim_awaken u _))⟩
      · exact ⟨holder, hmoved⟩
    · exact ⟨holder, hs.stays rfl rfl rfl (phase_awaken _) (Or.inr (claim_awaken t _))⟩
  | commit _ => exact ⟨holder, hs.claim, hs.handle, hs.record⟩

lemma reaches_accounted (h : Reaches s) : ∃ holder, Accounted s holder := by
  refine Reachable.induct (P := fun s => ∃ holder, Accounted s holder) h ?_ ?_
  · rintro s rfl
    exact ⟨_, start_accounted⟩
  · rintro s s' hreach ⟨holder, hs⟩ ⟨a, hstep⟩
    exact step_accounted hstep (reaches_inv hreach) hs

end Runs

end PureStd.Thread.Scope
