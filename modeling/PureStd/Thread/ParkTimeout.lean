/-
`park_timeout` of the `Parker` of `src/thread.rs`, next to `unpark`.

The owner takes the token, or waits once for at most the given time and takes the token then.  The
time is handed to the kernel by `futex_wait_timeout` of `src/sys_thread.rs`: as a `timespec` on
Linux, as microseconds on macOS, where a duration below a microsecond becomes zero, which means
without a timeout (`park_timeout_iff`).  On WASI there is no wait at all.

The calls of `unpark` since the word was last emptied and the tokens that were taken are counted
next to the word.
-/
import PureStd.Lib.Machine
import PureStd.Thread.Sleep

namespace PureStd.Thread.ParkTimeout

open Sleeper Time

/-! ### The wait -/

/-- The backends of `src/sys_thread.rs`. -/
inductive Backend where
  | kernel (k : Kernel)
  | wasm
deriving DecidableEq, Repr

/-- How long the macOS kernel waits for a timeout of `us` microseconds, in nanoseconds; `none` is
forever. -/
def ulockLimit (us : ℕ) : Option ℕ := if us = 0 then none else some (us * 1000)

/-- `futex_wait_timeout` for a word that holds `value`, up to the system call: how long the kernel
is to wait.  No system call is made if the word has another value than expected. -/
def futexWaitTimeout (b : Backend) (value expected : UInt32) (dur : Duration) :
    Option (Option ℕ) :=
  match b with
  | .kernel (.linux a) =>
    (Time.futexWaitTimeout a value expected dur).map fun r => some (timeLimit (r.time a))
  | .kernel .macos =>
    if value ≠ expected then none else some (ulockLimit (min (asMicros dur) (2 ^ 32 - 1)))
  | .wasm => none

/-- The unit of the clock, in nanoseconds. -/
def Backend.unit : Backend → ℕ
  | kernel .macos => 1000
  | _ => 1

/-- A duration in nanoseconds, rounded up to the unit of the clock. -/
def Backend.roundUp (b : Backend) (d : Duration) : ℕ :=
  (asNanos d + (b.unit - 1)) / b.unit * b.unit

/-! ### The threads -/

/-- Where a thread is. -/
inductive Pc where
  | idle
  /-- `park_timeout`: the first `swap(0)`. -/
  | swap (dur : Duration)
  /-- `futex_wait_timeout`: the load. -/
  | load (dur : Duration)
  /-- `futex_wait_timeout`: the system call, which compares once more. -/
  | enter (dur : Duration) (limit : Option ℕ)
  /-- In the kernel. -/
  | asleep (dur : Duration) (limit : Option ℕ)
  /-- `park_timeout`: the last `swap(0)`. -/
  | consume
  /-- `unpark`: `swap(1)`. -/
  | unparkSwap
  /-- `unpark`: `futex_wake(&self.state)`. -/
  | unparkWake
deriving DecidableEq

/-- A parker and its history. -/
structure Parker where
  state : UInt32
  /-- The calls of `unpark` since the word was last emptied. -/
  since : ℕ
  /-- The tokens that were taken. -/
  taken : ℕ
deriving DecidableEq, Repr

/-- `Parker::new`. -/
def Parker.new : Parker := ⟨0, 0, 0⟩

/-- `swap(0)`. -/
def Parker.empty (p : Parker) : Parker := ⟨0, 0, p.taken + p.state.toNat⟩

/-- The operations on the word. -/
def exec (b : Backend) : Pc → Parker → Option (Pc × Parker)
  | .swap dur, p => some (if p.state = 1 then .idle else .load dur, p.empty)
  | .load dur, p =>
    match futexWaitTimeout b p.state 0 dur with
    | some limit => some (.enter dur limit, p)
    | none => some (.consume, p)
  | .enter dur limit, p => some (if p.state = 0 then .asleep dur limit else .consume, p)
  | .consume, p => some (.idle, p.empty)
  | .unparkSwap, p =>
    some (if p.state = 0 then .unparkWake else .idle, { p with state := 1, since := p.since + 1 })
  | _, _ => none

/-- What may happen to a thread. -/
inductive Choice where
  | parkTimeout (dur : Duration)
  | unpark
  /-- The time of the wait is over. -/
  | timeout

variable {Tid : Type*}

/-- The owner, `none`, parks and unparks; the other threads unpark. -/
def choose : Option Tid → Choice → Pc → Parker → Option (Pc × Parker)
  | none, .parkTimeout dur, .idle, p => some (.swap dur, p)
  | _, .unpark, .idle, p => some (.unparkSwap, p)
  | _, .timeout, .asleep _ (some _), p => some (.consume, p)
  | _, _, _, _ => none

instance : Sleeper Pc Unit where
  asleepOn
    | .asleep _ _ => some ()
    | _ => none
  awaken
    | .asleep _ _ => .consume
    | pc => pc

/-- Threads that use one parker. -/
def machine (b : Backend) (Tid : Type*) : Machine (Option Tid) Pc Unit Parker Choice where
  start _ := .idle
  init := .new
  exec _ := exec b
  choose := choose
  waker
    | .unparkWake => some (false, (), .idle)
    | _ => none

/-! ### What is to hold -/

/-- The operations that a call of `park_timeout` has still before it, the wait included. -/
def Pc.left : Pc → ℕ
  | swap _ => 5
  | load _ => 4
  | enter _ _ => 3
  | asleep _ _ => 2
  | consume => 1
  | _ => 0

/-- A call of `park_timeout(d)` comes to its end, and takes the token if there is one. -/
structure Ends (b : Backend) (d : Duration) (s : Machine.State (Option Tid) Pc Parker) : Prop where
  /-- The wait is bounded. -/
  bounded : ∀ limit, s.pc none = .asleep d limit → ∃ n, limit = some n ∧ n ≤ b.roundUp d
  /-- Outside of the wait the owner goes on by itself. -/
  goes_on : 0 < (s.pc none).left → asleepOn (s.pc none) = none →
    ∃ pc p, exec b (s.pc none) s.shared = some (pc, p) ∧ pc.left < (s.pc none).left
  /-- If `unpark` was called before the call or before the wait returned, its token is taken. -/
  consumes : s.pc none = .swap d ∨ s.pc none = .consume → 0 < s.shared.since →
    ∃ p, exec b (s.pc none) s.shared = some (.idle, p) ∧ p.state = 0 ∧
      p.taken = s.shared.taken + 1

/-- The durations that do not become zero. -/
def Positive : Backend → Duration → Prop
  | .kernel .macos, d => 0 < asMicros d
  | _, _ => True

/-! ### The limit of the wait -/

/-- The limit of a wait is within the duration, but for a duration that becomes zero there is
none. -/
lemma futexWaitTimeout_limit {b : Backend} {value expected : UInt32} {d : Duration}
    {limit : Option ℕ} (h : futexWaitTimeout b value expected d = some limit) :
    (Positive b d ∧ ∃ n, limit = some n ∧ n ≤ b.roundUp d) ∨ (¬ Positive b d ∧ limit = none) := by
  cases b with
  | kernel k =>
    cases k with
    | linux a =>
      obtain ⟨r, hr, rfl⟩ := Option.map_eq_some_iff.1 h
      have htime : r.time a = readTime a.ptrWidth.bytes (timespec d) := by
        rw [Time.futexWaitTimeout] at hr
        split at hr
        · cases hr
        · cases hr
          rw [Request.time, a.kernelWord_nr]
      have hle := (timeLimit_timespec a.ptrWidth d).1
      refine Or.inl ⟨trivial, _, rfl, ?_⟩
      rw [htime]
      simpa [Backend.roundUp, Backend.unit] using hle
    | macos =>
      rw [futexWaitTimeout] at h
      split at h
      · cases h
      · cases h
        rw [Positive, ulockLimit]
        by_cases hzero : asMicros d = 0
        · exact Or.inr ⟨by omega, if_pos (by omega)⟩
        · refine Or.inl ⟨by omega, _, if_neg (by omega), ?_⟩
          rw [Backend.roundUp, Backend.unit]
          rw [asMicros, asNanos] at *
          omega
  | wasm => cases h

/-! ### Every interleaving -/

/-- There is a token if `unpark` was called since the word was last emptied. -/
def Parker.Ok (p : Parker) : Prop :=
  (p.state = 0 ∧ p.since = 0) ∨ (p.state = 1 ∧ 0 < p.since)

/-- The limit of a wait is the one that `futex_wait_timeout` has computed. -/
def Pc.Timed (b : Backend) : Pc → Prop
  | enter dur limit | asleep dur limit =>
    ∃ value, futexWaitTimeout b value 0 dur = some limit
  | _ => True

lemma moves_ok {b : Backend} {t : Option Tid} {pc pc' : Pc} {p p' : Parker}
    (h : (machine b Tid).Moves t pc p pc' p') (hp : p.Ok) (hpc : pc.Timed b) :
    p'.Ok ∧ pc'.Timed b := by
  cases h with
  | exec h =>
    change exec b pc p = some (pc', p') at h
    cases pc <;> simp only [exec, Option.some.injEq, Prod.mk.injEq, reduceCtorEq] at h
    case swap dur =>
      obtain ⟨rfl, rfl⟩ := h
      exact ⟨Or.inl ⟨rfl, rfl⟩, by split <;> trivial⟩
    case load dur =>
      split at h
      · rename_i limit hlimit
        cases h
        exact ⟨hp, p.state, hlimit⟩
      · cases h
        exact ⟨hp, trivial⟩
    case enter dur limit =>
      obtain ⟨rfl, rfl⟩ := h
      exact ⟨hp, by split <;> trivial⟩
    case consume =>
      obtain ⟨rfl, rfl⟩ := h
      exact ⟨Or.inl ⟨rfl, rfl⟩, trivial⟩
    case unparkSwap =>
      obtain ⟨rfl, rfl⟩ := h
      exact ⟨Or.inr ⟨rfl, Nat.succ_pos _⟩, by split <;> trivial⟩
  | choose x h =>
    change choose t x pc p = some (pc', p') at h
    rw [choose.eq_def] at h
    split at h <;> cases h <;> exact ⟨hp, trivial⟩

lemma machine_local (b : Backend) :
    (machine b Tid).Local Parker.Ok fun _ pc _ => pc.Timed b where
  init := Or.inl ⟨rfl, rfl⟩
  start _ := trivial
  moves _ _ _ _ _ h hp hpc := ⟨(moves_ok h hp hpc).1, (moves_ok h hp hpc).2, fun _ _ _ hq => hq⟩
  waker t pc p all a next h _ := by
    cases pc <;> simp only [machine, Option.some.injEq, Prod.mk.injEq, reduceCtorEq] at h
    obtain ⟨-, -, rfl⟩ := h
    trivial
  awaken _ pc _ _ h _ := by
    cases pc <;> simp only [asleepOn, reduceCtorEq] at h
    trivial

/-- An operation of `park_timeout` brings it nearer to its end. -/
lemma exec_left (b : Backend) {pc : Pc} (p : Parker) (hpos : 0 < pc.left)
    (hawake : asleepOn pc = none) :
    ∃ pc' p', exec b pc p = some (pc', p') ∧ pc'.left < pc.left := by
  cases pc with
  | swap | enter => exact ⟨_, _, rfl, by split <;> simp [Pc.left]⟩
  | load dur =>
    rw [exec]
    split
    · exact ⟨_, _, rfl, by simp [Pc.left]⟩
    · exact ⟨_, _, rfl, by simp [Pc.left]⟩
  | asleep dur limit => cases hawake
  | consume => exact ⟨_, _, rfl, by simp [Pc.left]⟩
  | idle | unparkSwap | unparkWake => cases hpos

/-- The owner comes to every wait that it can ask for. -/
lemma reaches_asleep (Tid : Type*) [DecidableEq Tid] {b : Backend} {d : Duration} {limit : Option ℕ}
    (h : futexWaitTimeout b 0 0 d = some limit) :
    ∃ s, (machine b Tid).Reaches s ∧ s.pc none = .asleep d limit := by
  refine ⟨_, (Machine.reaches_begin (M := machine b Tid)).play
    ((none, some (.parkTimeout d)) :: List.replicate 3 (none, none)), ?_⟩
  simp [Machine.turn, machine, choose, exec, Machine.begin, Parker.empty, Parker.new, h]

/-- In every interleaving with calls of `unpark`, a call of `park_timeout` comes to its end and
takes the token if there is one, if and only if the duration does not become zero. -/
theorem park_timeout_iff [DecidableEq Tid] (b : Backend) (d : Duration) :
    (∀ s, (machine b Tid).Reaches s → Ends b d s) ↔ Positive b d := by
  constructor
  · intro h
    by_contra hneg
    obtain rfl : b = .kernel .macos := by
      rcases b with (a | _) | _
      · exact absurd trivial hneg
      · rfl
      · exact absurd trivial hneg
    obtain ⟨limit, hlimit⟩ : ∃ limit, futexWaitTimeout (.kernel .macos) 0 0 d = some limit :=
      ⟨_, rfl⟩
    obtain ⟨s, hs, hasleep⟩ := reaches_asleep Tid hlimit
    obtain ⟨n, rfl, -⟩ := (h s hs).bounded limit hasleep
    rcases futexWaitTimeout_limit hlimit with ⟨hpos, -⟩ | ⟨-, hnone⟩
    · exact hneg hpos
    · cases hnone
  · intro hpos s hs
    obtain ⟨hok, htimed⟩ := (machine_local b).reaches hs
    refine ⟨fun limit hasleep => ?_, exec_left b s.shared, fun hpc hsince => ?_⟩
    · have hlimit := htimed none
      rw [hasleep] at hlimit
      obtain ⟨value, hvalue⟩ := hlimit
      rcases futexWaitTimeout_limit hvalue with ⟨-, hn⟩ | ⟨hneg, -⟩
      · exact hn
      · exact absurd hpos hneg
    · obtain ⟨-, hzero⟩ | ⟨hone, -⟩ := hok
      · omega
      · rcases hpc with hpc | hpc <;> rw [hpc]
        · exact ⟨s.shared.empty, by simp [exec, hone], rfl, by simp [Parker.empty, hone]⟩
        · exact ⟨s.shared.empty, rfl, rfl, by simp [Parker.empty, hone]⟩

/-- Half a microsecond. -/
def halfMicro : Duration := fromNanos 500

/-- On macOS, `park_timeout` with half a microsecond goes to sleep without a timeout. -/
theorem park_timeout_forever : ∃ s, (machine (.kernel .macos) ℕ).Reaches s ∧
    s.pc none = .asleep halfMicro none ∧ ¬ Ends (.kernel .macos) halfMicro s := by
  obtain ⟨s, hs, hasleep⟩ := reaches_asleep ℕ
    (show futexWaitTimeout (.kernel .macos) 0 0 halfMicro = some none by decide)
  refine ⟨s, hs, hasleep, fun h => ?_⟩
  obtain ⟨n, hn, -⟩ := h.bounded none hasleep
  cases hn

end PureStd.Thread.ParkTimeout
