/-
`thread::sleep`, on the systems whose backend in `src/sys_thread.rs` waits in the kernel.

On Linux it is one call of `nanosleep`, on macOS a loop of waits on a word that never changes, of
at most `u32::MAX` microseconds each.  A signal may end any wait before its time; otherwise a wait
takes the time that was asked for, or longer.  Neither backend looks at what the kernel returns,
so a wait that was cut short is not made up for (`sleep_iff`).
-/
import PureStd.Time

namespace PureStd.Thread

open Time

/-! ### Durations -/

lemma fromNanos_secs_lt (n : UInt64) : n.toNat / 10 ^ 9 < 2 ^ 64 :=
  lt_of_le_of_lt (Nat.div_le_self _ _) n.toNat_lt

lemma fromNanos_nanos_lt (n : UInt64) : n.toNat % 10 ^ 9 < 10 ^ 9 := Nat.mod_lt _ (by norm_num)

/-- `Duration::from_nanos`. -/
def fromNanos (n : UInt64) : Duration :=
  ⟨n.toNat / 10 ^ 9, n.toNat % 10 ^ 9, fromNanos_secs_lt n, fromNanos_nanos_lt n⟩

/-- `Duration::as_nanos`. -/
def asNanos (d : Duration) : ℕ := d.secs * 10 ^ 9 + d.nanos

/-- `Duration::as_micros`. -/
def asMicros (d : Duration) : ℕ := d.secs * 10 ^ 6 + d.nanos / 1000

/-- The time that the Linux kernel waits, in nanoseconds.  A time that is not well formed is
refused, and the call returns at once. -/
def timeLimit (t : ℤ × ℤ) : ℕ :=
  if 0 ≤ t.1 ∧ 0 ≤ t.2 ∧ t.2 < 10 ^ 9 then t.1.toNat * 10 ^ 9 + t.2.toNat else 0

/-- What the kernel waits for a duration that crosses as a `timespec` is never longer, and it is
the duration only for those that cross unchanged. -/
lemma timeLimit_timespec (w : PtrWidth) (d : Duration) :
    timeLimit (readTime w.bytes (timespec d)) ≤ asNanos d ∧
      (timeLimit (readTime w.bytes (timespec d)) = asNanos d ↔ Sendable w d) := by
  have hsecs := d.secs_lt
  have hnanos := d.nanos_lt
  cases w with
  | w64 =>
    rw [PtrWidth.bytes, readTime_timespec_w64, timeLimit, asNanos, Sendable, signed, signed]
    norm_num at *
    split_ifs <;> omega
  | w32 =>
    rw [PtrWidth.bytes, readTime_timespec_w32, timeLimit, asNanos, Sendable, signed, signed]
    norm_num at *
    split_ifs <;> omega

/-! ### The code -/

/-- The systems whose kernel does the waiting. -/
inductive Kernel where
  | linux (a : LinuxArch)
  /-- On both processors. -/
  | macos
deriving DecidableEq, Repr

/-- One wait in the kernel, in nanoseconds. -/
structure Wait where
  asked : ℕ
  elapsed : ℕ
deriving DecidableEq, Repr

/-- A wait that a signal ends after the time `cut`, or that takes longer than asked by `late`. -/
def wait (cut : Option ℕ) (late asked : ℕ) : Wait :=
  match cut with
  | some t => ⟨asked, min t asked⟩
  | none => ⟨asked, asked + late⟩

/-- The loop of `sleep` on macOS, from the `i`-th wait on. -/
def ulockSleep (cut : ℕ → Option ℕ) (late : ℕ → ℕ) (us i : ℕ) : List Wait :=
  if 0 < us then
    let chunk := min us (2 ^ 32 - 1)
    -- what the kernel returns is not looked at
    wait (cut i) (late i) (chunk * 1000) :: ulockSleep cut late (us - chunk) (i + 1)
  else []
termination_by us

/-- `thread::sleep`: the waits that it makes before it returns. -/
def sleep (k : Kernel) (cut : ℕ → Option ℕ) (late : ℕ → ℕ) (dur : Duration) : List Wait :=
  match k with
  | .linux a => [wait (cut 0) (late 0) (timeLimit ((Time.sleep a dur).time a))]
  | .macos => ulockSleep cut late (asMicros dur) 0

/-- The time that has elapsed when the last wait is over. -/
def elapsed (ws : List Wait) : ℕ := (ws.map Wait.elapsed).sum

/-- The times that are asked for, which do not depend on how the waits go. -/
def asks (k : Kernel) (d : Duration) : List ℕ :=
  (sleep k (fun _ => none) (fun _ => 0) d).map Wait.asked

/-- The durations that are asked for in full. -/
def Whole : Kernel → Duration → Prop
  | .linux a, d => Sendable a.ptrWidth d
  | .macos, d => d.nanos % 1000 = 0

/-- No wait that is made ends before the time that it was asked for. -/
def Uninterrupted (k : Kernel) (d : Duration) (cut : ℕ → Option ℕ) : Prop :=
  ∀ i q t, (asks k d)[i]? = some q → cut i = some t → q ≤ t

/-! ### The waits -/

lemma wait_asked (cut : Option ℕ) (late asked : ℕ) : (wait cut late asked).asked = asked := by
  cases cut <;> rfl

/-- Without delays, no wait takes longer than asked, and it takes that long unless it is cut. -/
lemma wait_elapsed (cut : Option ℕ) (asked : ℕ) :
    (wait cut 0 asked).elapsed ≤ asked ∧
      ((wait cut 0 asked).elapsed = asked ↔ ∀ t, cut = some t → asked ≤ t) := by
  cases cut with
  | none => simp [wait]
  | some t => simp [wait]

lemma le_wait_elapsed (cut : Option ℕ) (late asked : ℕ) :
    (wait cut 0 asked).elapsed ≤ (wait cut late asked).elapsed := by
  cases cut with
  | none => simp [wait]
  | some t => exact le_refl _

/-- The waits for the times `qs`, from the `i`-th wait on. -/
def waits (cut : ℕ → Option ℕ) (late : ℕ → ℕ) : ℕ → List ℕ → List Wait
  | _, [] => []
  | i, q :: qs => wait (cut i) (late i) q :: waits cut late (i + 1) qs

lemma ulockSleep_eq_waits (cut cut' : ℕ → Option ℕ) (late late' : ℕ → ℕ) (us i : ℕ) :
    ulockSleep cut late us i = waits cut late i ((ulockSleep cut' late' us i).map Wait.asked) := by
  fun_induction ulockSleep cut late us i with
  | case1 us i hpos chunk ih =>
    have hother : ulockSleep cut' late' us i =
        wait (cut' i) (late' i) (chunk * 1000) ::
          ulockSleep cut' late' (us - chunk) (i + 1) := by
      rw [ulockSleep, if_pos hpos]
    rw [hother, List.map_cons, wait_asked, waits, ← ih]
  | case2 us i hzero =>
    rw [ulockSleep, if_neg hzero]
    rfl

/-- `sleep` makes the waits that it asks for. -/
lemma sleep_eq_waits (k : Kernel) (cut : ℕ → Option ℕ) (late : ℕ → ℕ) (d : Duration) :
    sleep k cut late d = waits cut late 0 (asks k d) := by
  cases k with
  | linux a => rfl
  | macos => exact ulockSleep_eq_waits cut _ late _ (asMicros d) 0

lemma asked_waits (cut : ℕ → Option ℕ) (late : ℕ → ℕ) (i : ℕ) (qs : List ℕ) :
    (waits cut late i qs).map Wait.asked = qs := by
  induction qs generalizing i with
  | nil => rfl
  | cons q qs ih => rw [waits, List.map_cons, wait_asked, ih]

lemma asked_sleep (k : Kernel) (cut : ℕ → Option ℕ) (late : ℕ → ℕ) (d : Duration) :
    (sleep k cut late d).map Wait.asked = asks k d := by
  rw [sleep_eq_waits, asked_waits]

/-- Delays do not shorten the waits. -/
lemma elapsed_waits_le (cut : ℕ → Option ℕ) (late : ℕ → ℕ) (i : ℕ) (qs : List ℕ) :
    elapsed (waits cut (fun _ => 0) i qs) ≤ elapsed (waits cut late i qs) := by
  induction qs generalizing i with
  | nil => exact le_refl _
  | cons q qs ih =>
    simp only [elapsed, waits, List.map_cons, List.sum_cons] at ih ⊢
    exact Nat.add_le_add (le_wait_elapsed _ _ _) (ih (i + 1))

/-- Without delays, the waits take the time that was asked for only if none of them is cut. -/
lemma elapsed_waits (cut : ℕ → Option ℕ) (i : ℕ) (qs : List ℕ) :
    elapsed (waits cut (fun _ => 0) i qs) ≤ qs.sum ∧
      (elapsed (waits cut (fun _ => 0) i qs) = qs.sum ↔
        ∀ j q t, qs[j]? = some q → cut (i + j) = some t → q ≤ t) := by
  induction qs generalizing i with
  | nil => simp [elapsed, waits]
  | cons q qs ih =>
    obtain ⟨hle, hiff⟩ := ih (i + 1)
    obtain ⟨hle', hiff'⟩ := wait_elapsed (cut i) q
    simp only [elapsed, waits, List.map_cons, List.sum_cons] at hle hiff ⊢
    refine ⟨by omega, ⟨fun heq j => ?_, fun h => ?_⟩⟩
    · cases j with
      | zero =>
        intro q' t hq
        obtain rfl : q = q' := by simpa using hq
        exact hiff'.1 (by omega) t
      | succ j =>
        intro q' t hq hcut
        exact hiff.1 (by omega) j q' t hq (by rw [← hcut]; congr 1; omega)
    · have hfirst := hiff'.2 fun t hcut => h 0 q t rfl hcut
      have hrest := hiff.2 fun j q' t hq hcut =>
        h (j + 1) q' t hq (by rw [← hcut]; congr 1; omega)
      omega

/-! ### The time that is asked for -/

lemma asked_ulockSleep (cut : ℕ → Option ℕ) (late : ℕ → ℕ) (us i : ℕ) :
    ((ulockSleep cut late us i).map Wait.asked).sum = us * 1000 := by
  fun_induction ulockSleep cut late us i with
  | case1 us i hpos chunk ih =>
    have hchunk : chunk ≤ us := min_le_left _ _
    rw [List.map_cons, List.sum_cons, wait_asked, ih]
    omega
  | case2 us i hzero =>
    simp only [List.map_nil, List.sum_nil]
    omega

/-- No more than the duration is asked for. -/
lemma asks_sum (k : Kernel) (d : Duration) :
    (asks k d).sum ≤ asNanos d ∧ ((asks k d).sum = asNanos d ↔ Whole k d) := by
  cases k with
  | linux a =>
    have htime : (Time.sleep a d).time a = readTime a.ptrWidth.bytes (timespec d) := by
      rw [Request.time, Time.sleep, a.kernelWord_nr]
    have hsum : (asks (.linux a) d).sum = timeLimit ((Time.sleep a d).time a) := by
      simp [asks, sleep, wait]
    rw [hsum, htime]
    exact timeLimit_timespec a.ptrWidth d
  | macos =>
    have hsum : (asks .macos d).sum = asMicros d * 1000 := asked_ulockSleep _ _ _ _
    rw [hsum, asMicros, asNanos, Whole]
    omega

/-- On every system that waits in the kernel, and however signals cut the waits, `sleep` returns,
after it has asked for no more than its duration.  It is sure to return only after that time if
and only if the duration is asked for in full and no wait is cut. -/
theorem sleep_iff (k : Kernel) (d : Duration) (cut : ℕ → Option ℕ) :
    ((∀ late, asNanos d ≤ elapsed (sleep k cut late d)) ↔ Whole k d ∧ Uninterrupted k d cut) ∧
      ∀ late, ((sleep k cut late d).map Wait.asked).sum ≤ asNanos d := by
  obtain ⟨hle, hwhole⟩ := asks_sum k d
  obtain ⟨hlate, hcut⟩ := elapsed_waits cut 0 (asks k d)
  simp only [Nat.zero_add] at hcut
  refine ⟨⟨fun h => ?_, fun ⟨hw, hu⟩ late => ?_⟩, fun late => ?_⟩
  · -- what is asked for lies between the time that elapses without delays and the duration
    have hnow := h fun _ => 0
    rw [sleep_eq_waits] at hnow
    exact ⟨hwhole.1 (by omega), hcut.1 (by omega)⟩
  · rw [sleep_eq_waits]
    have hdelay := elapsed_waits_le cut late 0 (asks k d)
    have hfull := hcut.2 hu
    have hall := hwhole.2 hw
    omega
  · rw [asked_sleep]
    exact hle

/-- A millisecond and a half. -/
def oneAndAHalfMilli : Duration := fromNanos 1500000

/-- Half a microsecond more than a microsecond. -/
def oneAndAHalfMicro : Duration := fromNanos 1500

/-- A signal after a millisecond ends a longer sleep on x86_64 Linux and on macOS, and without any
signal the half microsecond is not slept on macOS. -/
theorem sleep_short :
    elapsed (sleep (.linux .x86_64) (fun _ => some 1000000) (fun _ => 0) oneAndAHalfMilli) =
        1000000 ∧
      elapsed (sleep .macos (fun _ => some 1000000) (fun _ => 0) oneAndAHalfMilli) = 1000000 ∧
      asNanos oneAndAHalfMilli = 1500000 ∧
      elapsed (sleep .macos (fun _ => none) (fun _ => 0) oneAndAHalfMicro) = 1000 ∧
      asNanos oneAndAHalfMicro = 1500 := by
  refine ⟨by decide, ?_, by decide, ?_, by decide⟩
  · simp [sleep, asMicros, oneAndAHalfMilli, fromNanos, ulockSleep, elapsed, wait]
  · simp [sleep, asMicros, oneAndAHalfMicro, fromNanos, ulockSleep, elapsed, wait]

end PureStd.Thread
