/-
`Parker` of `src/thread.rs`: `park` and `unpark`.

The owner of the parker calls `park`, and any thread calls `unpark`, the owner included.
The word holds the token.  A second `unpark` that finds the token there does not wake the
owner: it relies on the first one, which has still to call `futex_wake`
(`park_tokens`).

The calls are counted next to the word: those of `unpark` from their swap on, and the
returns of `park`.
-/
import PureStd.Lib.Machine

namespace PureStd.Thread.Park

open Sleeper

/-- Where a thread is. -/
inductive Pc where
  | idle
  /-- `park`: the first `swap(0)`. -/
  | parkSwap
  /-- `park`: `futex_wait(&self.state, 0)`. -/
  | parkWait (w : WaitPc)
  /-- `park`: `swap(0)` in the loop. -/
  | parkRetry
  /-- `unpark`: `swap(1)`. -/
  | unparkSwap
  /-- `unpark`: `futex_wake(&self.state)`. -/
  | unparkWake
deriving DecidableEq, Repr

/-- A parker and its history. -/
structure Parker where
  state : UInt32
  /-- The calls of `unpark`. -/
  unparks : ℕ
  /-- The returns of `park`. -/
  returns : ℕ
  /-- The calls of `unpark` since the last return of `park`. -/
  since : ℕ
deriving DecidableEq, Repr

/-- `Parker::new`. -/
def Parker.new : Parker := ⟨0, 0, 0, 0⟩

/-- `swap(0)`; `park` returns if there was a token, or goes on to wait. -/
def Parker.take (d : Parker) : Pc × Parker :=
  if d.state = 1 then (.idle, { d with state := 0, returns := d.returns + 1, since := 0 })
  else (.parkWait .load, { d with state := 0 })

/-- The operations on the word. -/
def exec : Pc → Parker → Option (Pc × Parker)
  | .parkSwap, d => some d.take
  | .parkWait w, d => (w.exec d.state 0).map fun w =>
    (if w = .done then .parkRetry else .parkWait w, d)
  | .parkRetry, d => some d.take
  | .unparkSwap, d =>
    some (if d.state = 0 then .unparkWake else .idle,
      { d with state := 1, unparks := d.unparks + 1, since := d.since + 1 })
  | _, _ => none

/-- What a thread may do. -/
inductive Choice where
  | park
  | unpark
deriving DecidableEq, Repr

variable {Tid : Type*} {d d' : Parker} {t : Option Tid} {p p' : Pc}

/-- The owner, `none`, parks and unparks; the other threads unpark. -/
def choose : Option Tid → Choice → Pc → Parker → Option (Pc × Parker)
  | none, .park, .idle, d => some (.parkSwap, d)
  | _, .unpark, .idle, d => some (.unparkSwap, d)
  | _, _, _, _ => none

instance : Sleeper Pc Unit where
  asleepOn
    | .parkWait .asleep => some ()
    | _ => none
  awaken
    | .parkWait _ => .parkWait .load
    | pc => pc

/-- Threads that use one parker. -/
def machine (Tid : Type*) : Machine (Option Tid) Pc Unit Parker Choice where
  start _ := .idle
  init := .new
  exec _ := exec
  choose := choose
  waker
    | .unparkWake => some (false, (), .idle)
    | _ => none

/-- There is a token if `unpark` was called since the last return of `park`, and every
return of `park` has used up a call of `unpark`. -/
structure Parker.Ok (d : Parker) : Prop where
  token : (d.state = 0 ∧ d.since = 0) ∨ (d.state = 1 ∧ 0 < d.since)
  count : d.returns + d.state.toNat ≤ d.unparks

/-- Only the owner is in `park`. -/
def Pc.Owns : Option Tid → Pc → Prop
  | some _, parkSwap => False
  | some _, parkWait _ => False
  | some _, parkRetry => False
  | _, _ => True

lemma take_ok (h : d.Ok) (hp : p.Owns t) (hin : ∀ u, ¬ p.Owns (some u : Option Tid)) :
    d.take.2.Ok ∧ d.take.1.Owns t := by
  obtain ⟨htoken, hcount⟩ := h
  rw [Parker.take]
  split
  · rename_i hone
    rw [hone, show (1 : UInt32).toNat = 1 from rfl] at hcount
    refine ⟨⟨Or.inl ⟨rfl, rfl⟩, ?_⟩, by cases t <;> trivial⟩
    show d.returns + 1 + 0 ≤ d.unparks
    omega
  · rename_i hne
    obtain ⟨hzero, hsince⟩ := htoken.resolve_right fun h => hne h.1
    refine ⟨⟨Or.inl ⟨rfl, hsince⟩, by rwa [hzero] at hcount⟩, ?_⟩
    cases t with
    | none => trivial
    | some u => exact absurd hp (hin u)

/-- What a thread can do with the word. -/
lemma moves_cases (h : (machine Tid).Moves t p d p' d') :
    ((p = .parkSwap ∨ p = .parkRetry) ∧ p' = d.take.1 ∧ d' = d.take.2) ∨
    (∃ w w', p = .parkWait w ∧ w.exec d.state 0 = some w' ∧
      p' = (if w' = .done then .parkRetry else .parkWait w') ∧ d' = d) ∨
    (p = .unparkSwap ∧ p' = (if d.state = 0 then .unparkWake else .idle) ∧
      d' = { d with state := 1, unparks := d.unparks + 1, since := d.since + 1 }) ∨
    (p = .idle ∧ d' = d ∧ ((t = none ∧ p' = .parkSwap) ∨ p' = .unparkSwap)) := by
  cases h with
  | exec h =>
    change exec p d = some (p', d') at h
    cases p <;> simp only [exec, Option.some.injEq, reduceCtorEq] at h
    case parkSwap =>
      obtain ⟨rfl, rfl⟩ := Prod.mk.inj h
      exact Or.inl ⟨Or.inl rfl, rfl, rfl⟩
    case parkRetry =>
      obtain ⟨rfl, rfl⟩ := Prod.mk.inj h
      exact Or.inl ⟨Or.inr rfl, rfl, rfl⟩
    case parkWait w =>
      obtain ⟨w', hw', hw⟩ := Option.map_eq_some_iff.1 h
      obtain ⟨rfl, rfl⟩ := Prod.mk.inj hw
      exact Or.inr (Or.inl ⟨w, w', rfl, hw', rfl, rfl⟩)
    case unparkSwap =>
      obtain ⟨rfl, rfl⟩ := Prod.mk.inj h
      exact Or.inr (Or.inr (Or.inl ⟨rfl, rfl, rfl⟩))
  | choose x h =>
    change choose t x p d = some (p', d') at h
    cases t <;> cases x <;> cases p <;>
      simp only [choose, Option.some.injEq, Prod.mk.injEq, reduceCtorEq] at h
    all_goals
      obtain ⟨rfl, rfl⟩ := h
      simp

lemma moves_ok (h : (machine Tid).Moves t p d p' d') (hd : d.Ok) (hp : p.Owns t) :
    d'.Ok ∧ p'.Owns t := by
  rcases moves_cases h with ⟨rfl | rfl, rfl, rfl⟩ | ⟨w, w', rfl, -, rfl, rfl⟩ | ⟨rfl, rfl, rfl⟩ |
    ⟨rfl, rfl, ⟨rfl, rfl⟩ | rfl⟩
  · exact take_ok hd hp fun _ h => h
  · exact take_ok hd hp fun _ h => h
  · cases t with
    | none => exact ⟨hd, by split <;> trivial⟩
    | some u => exact hp.elim
  · refine ⟨⟨Or.inr ⟨rfl, Nat.succ_pos _⟩, ?_⟩, by cases t <;> split <;> trivial⟩
    show d.returns + 1 ≤ d.unparks + 1
    have := hd.count
    omega
  · exact ⟨hd, trivial⟩
  · exact ⟨hd, by cases t <;> trivial⟩

lemma owns_awaken (h : p.Owns t) : (awaken p).Owns t := by
  cases p <;> cases t <;> exact h

lemma machine_local [DecidableEq Tid] :
    (machine Tid).Local Parker.Ok fun t p _ => p.Owns t where
  init := ⟨Or.inl ⟨rfl, rfl⟩, le_refl _⟩
  start t := by cases t <;> trivial
  moves t p d p' d' h hd hp := ⟨(moves_ok h hd hp).1, (moves_ok h hd hp).2, fun _ _ _ hq => hq⟩
  waker t p d all a next h _ := by
    cases p <;> simp only [machine, Option.some.injEq, Prod.mk.injEq, reduceCtorEq] at h
    obtain ⟨-, -, rfl⟩ := h
    cases t <;> trivial
  awaken _ _ _ _ _ hp := owns_awaken hp

/-- The owner falls asleep only without a token, and who brings one has still to wake it. -/
lemma moves_handoff (h : (machine Tid).Moves t p d p' d') :
    (asleepOn p' = some () → d'.state = 0) ∧
      (d.state = 0 ∨ p = .unparkWake → d'.state = 0 ∨ p' = .unparkWake) := by
  have htake : d.take.2.state = 0 := by
    rw [Parker.take]
    split <;> rfl
  rcases moves_cases h with ⟨-, rfl, rfl⟩ | ⟨w, w', rfl, hw, rfl, rfl⟩ | ⟨rfl, rfl, rfl⟩ |
    ⟨rfl, rfl, hp'⟩
  · exact ⟨fun _ => htake, fun _ => Or.inl htake⟩
  · refine ⟨fun ha => ?_, fun hd => Or.inl (hd.resolve_right (by simp))⟩
    cases w' with
    | asleep => exact WaitPc.eq_of_exec_asleep hw
    | _ => exact absurd ha (by simp [asleepOn])
  · refine ⟨fun ha => ?_, fun hd => Or.inr (if_pos (hd.resolve_right (by simp)))⟩
    split at ha <;> exact absurd ha (by simp [asleepOn])
  · refine ⟨fun ha => ?_, fun hd => Or.inl (hd.resolve_right (by simp))⟩
    rcases hp' with ⟨-, rfl⟩ | rfl <;> exact absurd ha (by simp [asleepOn])

lemma machine_handoff [DecidableEq Tid] : (machine Tid).Handoff (fun t p _ => p.Owns t) ()
    (fun d => d.state = 0) (fun p => p = .unparkWake) where
  start _ := by simp [machine, asleepOn]
  sleeps t p d p' d' h _ := (moves_handoff h).1
  keeps t p d p' d' h _ := (moves_handoff h).2
  wakes p all b next h := by
    cases p <;> simp only [machine, Option.some.injEq, Prod.mk.injEq, reduceCtorEq] at h
    obtain ⟨-, -, rfl⟩ := h
    exact ⟨rfl, fun _ => rfl⟩
  awake p h := by rw [h]; rfl
  awaken p := by cases p <;> rfl

/-- Only the owner sleeps. -/
lemma owner_of_asleep (hp : p.Owns t) (ha : asleepOn p = some ()) : t = none := by
  cases t with
  | none => rfl
  | some u =>
    cases p <;> first | exact hp.elim | exact absurd ha (by simp [asleepOn])

variable [DecidableEq Tid]

/-- There are at most as many returns of `park` as calls of `unpark`.  If `unpark` was
called since the last return, a call of `park` returns with its first operation.  And if
the owner sleeps while there is a token, somebody has still to wake it. -/
theorem park_tokens {s : Machine.State (Option Tid) Pc Parker} (h : (machine Tid).Reaches s) :
    s.shared.returns ≤ s.shared.unparks ∧
      (s.pc none = .parkSwap → 0 < s.shared.since →
        ∃ d, exec (s.pc none) s.shared = some (.idle, d) ∧ d.returns = s.shared.returns + 1) ∧
      (asleepOn (s.pc none) = some () → s.shared.state = 1 → ∃ u, s.pc u = .unparkWake) := by
  obtain ⟨⟨htoken, hcount⟩, -⟩ := machine_local.reaches h
  refine ⟨by omega, fun hpark hsince => ?_, fun hasleep hone => ?_⟩
  · have hone : s.shared.state = 1 := by
      rcases htoken with ⟨-, hzero⟩ | ⟨hone, -⟩
      · omega
      · exact hone
    rw [hpark]
    exact ⟨{ s.shared with state := 0, returns := s.shared.returns + 1, since := 0 },
      by simp [exec, Parker.take, hone], rfl⟩
  · have hlone : ∀ s, (machine Tid).Reaches s → ∀ v v', asleepOn (s.pc v) = some () →
        asleepOn (s.pc v') = some () → v = v' := by
      intro s hs v v' hv hv'
      have howns := (machine_local.reaches hs).2
      rw [owner_of_asleep (howns v) hv, owner_of_asleep (howns v') hv']
    refine (machine_handoff.reaches (fun s hs => (machine_local.reaches hs).2) (Or.inr hlone) h
      ⟨none, hasleep⟩).resolve_left fun hzero => ?_
    rw [hone] at hzero
    exact absurd hzero (by decide)

/-- The owner sleeps; a first thread brings the token, and a second one finds it there. -/
theorem park_tokens_asleep : ∃ s : Machine.State (Option ℕ) Pc Parker, (machine ℕ).Reaches s ∧
    asleepOn (s.pc none) = some () ∧ s.shared.state = 1 ∧ s.shared.unparks = 2 ∧
    ∃ u, s.pc u = .unparkWake := by
  have hreach := (Machine.reaches_begin (M := machine ℕ)).play
    ((none, some .park) :: List.replicate 3 (none, none) ++
      [(some 0, some .unpark), (some 0, none), (some 1, some .unpark), (some 1, none)])
  exact ⟨_, hreach, rfl, rfl, rfl, (park_tokens hreach).2.2 rfl rfl⟩

end PureStd.Thread.Park
