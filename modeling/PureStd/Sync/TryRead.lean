/-
`RwLock::try_read` of `src/sync.rs`, call by call.

`try_read` loads the word and then tries once to add a reader to the word that it has loaded.
Another reader that comes or goes in between changes the word, and `try_read` returns `None`
although there is no writer.  It also does so if there are `2 ^ 31` read guards, which set the
high bit.  Otherwise it fails only on account of a writer (`tryRead_iff`).

A call is followed from its first moment on, with the locks that were seen at the load and at the
compare-exchange.
-/
import PureStd.Sync.RwLock

namespace PureStd.Sync.RwLock

open Sleeper

/-- How far a call of `try_read` has come. -/
inductive Phase where
  | before
  /-- The load has seen this lock. -/
  | between (load : Lock)
  /-- The load and the last operation have seen these locks, and a guard was returned or not. -/
  | after (load cas : Lock) (some : Bool)

variable {Tid : Type*}

/-- How far the call of `t` has come after a step. -/
def Phase.next (t : Tid) (ph : Phase) (s s' : Machine.State Tid Pc Lock) : Phase :=
  match ph, s'.pc t with
  | before, .tryReadCas _ => between s.shared
  | before, .tried b => after s.shared s.shared b
  | between load, .tried b => after load s.shared b
  | ph, _ => ph

variable [DecidableEq Tid]

/-- A call of `try_read` by `t` in a run: the locks at all its moments, the latest first, how far
it has come, and the state. -/
inductive Call (t : Tid) : List Lock → Phase → Machine.State Tid Pc Lock → Prop where
  | start {s s' : Machine.State Tid Pc Lock} (hs : (machine Tid).Reaches s)
      (hidle : s.pc t = .idle) (hstep : (machine Tid).Step s s')
      (hcall : s'.pc t = .tryReadLoad) : Call t [s'.shared] .before s'
  | next {ls : List Lock} {ph : Phase} {s s' : Machine.State Tid Pc Lock} (h : Call t ls ph s)
      (hopen : ∀ b, s.pc t ≠ .tried b) (hstep : (machine Tid).Step s s') :
      Call t (s'.shared :: ls) (ph.next t s s') s'

/-- The lock was write-held at some moment. -/
def WriteHeld (ls : List Lock) : Prop := ∃ d ∈ ls, 0 < d.writes

/-! ### The steps of a call -/

variable {t : Tid} {ls : List Lock} {ph : Phase} {s s' : Machine.State Tid Pc Lock}

/-- At the load, the thread stays where it is or loads the word. -/
lemma step_of_tryReadLoad (h : (machine Tid).Step s s') (hpc : s.pc t = .tryReadLoad) :
    s'.pc t = .tryReadLoad ∨
      (s.shared.state.toNat < 2 ^ 31 ∧ s'.pc t = .tryReadCas s.shared.state) ∨
      (¬ s.shared.state.toNat < 2 ^ 31 ∧ s'.pc t = .tried false) := by
  rcases h.of_awake (t := t) (by rw [hpc]; rfl) (by rw [hpc]; rfl) with hsame | hmove
  · exact Or.inl (hsame.trans hpc)
  · rw [hpc] at hmove
    cases hmove with
    | exec hexec =>
      change exec .tryReadLoad s.shared = _ at hexec
      unfold exec at hexec
      rw [Option.some.injEq, Prod.mk.injEq] at hexec
      rw [← and_rwWriter, ← hexec.1]
      by_cases hword : s.shared.state &&& rwWriter = 0
      · exact Or.inr (Or.inl ⟨hword, if_pos hword⟩)
      · exact Or.inr (Or.inr ⟨hword, if_neg hword⟩)
    | choose x hchoose =>
      cases x <;> cases hchoose

/-- At the compare-exchange, the thread stays where it is or compares. -/
lemma step_of_tryReadCas (h : (machine Tid).Step s s') {x : UInt32}
    (hpc : s.pc t = .tryReadCas x) :
    s'.pc t = .tryReadCas x ∨ s'.pc t = .tried (decide (s.shared.state = x)) := by
  rcases h.of_awake (t := t) (by rw [hpc]; rfl) (by rw [hpc]; rfl) with hsame | hmove
  · exact Or.inl (hsame.trans hpc)
  · rw [hpc] at hmove
    cases hmove with
    | exec hexec =>
      change exec (.tryReadCas x) s.shared = _ at hexec
      unfold exec at hexec
      rw [Option.some.injEq] at hexec
      by_cases hword : s.shared.state = x
      · rw [if_pos hword, Prod.mk.injEq] at hexec
        exact Or.inr (by rw [← hexec.1, decide_eq_true hword])
      · rw [if_neg hword, Prod.mk.injEq] at hexec
        exact Or.inr (by rw [← hexec.1, decide_eq_false hword])
    | choose y hchoose =>
      cases y <;> cases hchoose

/-- What is known of a call, by how far it has come. -/
def Phase.Ok (t : Tid) (ls : List Lock) (s : Machine.State Tid Pc Lock) : Phase → Prop
  | before => s.pc t = .tryReadLoad
  | between load => (load.Ok ∧ load ∈ ls) ∧ load.state.toNat < 2 ^ 31 ∧
      s.pc t = .tryReadCas load.state
  | after load cas b => (load.Ok ∧ load ∈ ls) ∧ (cas.Ok ∧ cas ∈ ls) ∧ s.pc t = .tried b ∧
      (b = true ↔ load.state.toNat < 2 ^ 31 ∧ cas.state = load.state)

lemma Call.ok (h : Call t ls ph s) :
    (machine Tid).Reaches s ∧ s.shared ∈ ls ∧ ph.Ok t ls s := by
  induction h with
  | start hs hidle hstep hcall => exact ⟨hs.next hstep, List.mem_cons_self, hcall⟩
  | @next ls ph s s' h hopen hstep ih =>
    obtain ⟨hs, hmem, hph⟩ := ih
    have hlock : s.shared.Ok ∧ s.shared ∈ s'.shared :: ls :=
      ⟨(machine_local.reaches hs).1, List.mem_cons_of_mem _ hmem⟩
    refine ⟨hs.next hstep, List.mem_cons_self, ?_⟩
    cases ph with
    | before =>
      rcases step_of_tryReadLoad hstep hph with hpc | ⟨hword, hpc⟩ | ⟨hword, hpc⟩
      · simp only [Phase.next, hpc]
        exact hpc
      · simp only [Phase.next, hpc]
        exact ⟨hlock, hword, hpc⟩
      · simp only [Phase.next, hpc]
        exact ⟨hlock, hlock, hpc, fun h => absurd h (by simp), fun h => absurd h.1 hword⟩
    | between load =>
      obtain ⟨⟨hload, hin⟩, hword, hcas⟩ := hph
      have hload : load.Ok ∧ load ∈ s'.shared :: ls := ⟨hload, List.mem_cons_of_mem _ hin⟩
      rcases step_of_tryReadCas hstep hcas with hpc | hpc
      · simp only [Phase.next, hpc]
        exact ⟨hload, hword, hpc⟩
      · simp only [Phase.next, hpc]
        refine ⟨hload, hlock, hpc, ?_⟩
        rw [decide_eq_true_iff]
        exact ⟨fun h => ⟨hword, h⟩, fun h => h.2⟩
    | after load cas b => exact absurd hph.2.2.1 (hopen b)

/-- A call of `try_read` that is over failed only on account of a writer if and only if the lock was
write-held at some moment of the call, or there were fewer than `2 ^ 31` read guards at its load and
as many at its compare-exchange. -/
theorem tryRead_iff {load cas : Lock} {b : Bool} (h : Call t ls (.after load cas b) s) :
    (b = false → WriteHeld ls) ↔ WriteHeld ls ∨ (load.reads < 2 ^ 31 ∧ cas.reads = load.reads) := by
  obtain ⟨-, -, ⟨hload, hlin⟩, ⟨hcas, hcin⟩, -, hb⟩ := h.ok
  by_cases hheld : WriteHeld ls
  · exact ⟨fun _ => Or.inl hheld, fun _ _ => hheld⟩
  · have hnone : ∀ d ∈ ls, d.writes = 0 := by
      intro d hd
      by_contra hpos
      exact hheld ⟨d, hd, by omega⟩
    have hlw := hload.word
    have hcw := hcas.word
    rw [hnone load hlin] at hlw
    rw [hnone cas hcin] at hcw
    have heq : cas.state = load.state ↔ cas.reads = load.reads := by
      rw [← UInt32.toNat_inj]
      omega
    rw [hlw, heq] at hb
    cases b with
    | true => simpa [hheld] using hb
    | false => simpa [hheld] using hb

/-! ### A reader comes in between -/

/-- A lock with read guards only, all of them live. -/
def onlyReaders (n : ℕ) : Lock := ⟨UInt32.ofNat n, n, 0, 0, 0⟩

/-- The locks at the moments of a call in which a reader comes. -/
def disturbed : List Lock :=
  List.replicate 2 (onlyReaders 1) ++ List.replicate 4 (onlyReaders 0)

/-- Thread 0 calls `try_read` and loads the word, thread 1 calls `read` and gets a guard, and then
thread 0 goes on. -/
lemma call_disturbed :
    ∃ s, Call (0 : ℕ) disturbed (.after (onlyReaders 0) (onlyReaders 1) false) s := by
  have hcall : Call (0 : ℕ) _ _ _ :=
    .start Machine.reaches_begin rfl (.move 0 (.choose .tryRead rfl)) rfl
  have hload := hcall.next (fun b h => by cases h) (.move 0 (.exec rfl))
  have hread := hload.next (fun b h => by cases h) (.move 1 (.choose .read rfl))
  have hreadLoad := hread.next (fun b h => by cases h) (.move 1 (.exec rfl))
  have hguard := hreadLoad.next (fun b h => by cases h) (.move 1 (.exec rfl))
  exact ⟨_, hguard.next (fun b h => by cases h) (.move 0 (.exec rfl))⟩

/-- In this call there is one read guard more at the compare-exchange than at the load. -/
theorem tryRead_disturbed :
    ∃ s, Call (0 : ℕ) disturbed (.after (onlyReaders 0) (onlyReaders 1) false) s ∧
      ((false = false → WriteHeld disturbed) ↔ WriteHeld disturbed ∨
        ((onlyReaders 0).reads < 2 ^ 31 ∧ (onlyReaders 1).reads = (onlyReaders 0).reads)) := by
  obtain ⟨s, h⟩ := call_disturbed
  exact ⟨s, h, tryRead_iff h⟩

/-- A call of `try_read` fails though the lock is never write-held. -/
theorem tryRead_fails :
    (∃ s, Call (0 : ℕ) disturbed (.after (onlyReaders 0) (onlyReaders 1) false) s) ∧
      ¬ WriteHeld disturbed := by
  refine ⟨call_disturbed, ?_⟩
  rintro ⟨d, hd, hpos⟩
  have hnone : ∀ d ∈ disturbed, d.writes = 0 := by decide
  rw [hnone d hd] at hpos
  exact absurd hpos (Nat.lt_irrefl 0)

end PureStd.Sync.RwLock
