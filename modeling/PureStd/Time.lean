/-
Durations and clock readings across the system-call boundary on Linux.

`sleep` and `futex_wait_timeout` of `src/sys_thread.rs` pass a duration as two words of 64
bits; `monotonic` and `gettimeofday` of `src/syscall.rs` hand the kernel a buffer of two
words of 64 bits to store a time in.  This is one piece of source for all Linux targets.
Which words the kernel reads and stores depends on the number of the system call, which
comes from the table of the target: on i686 and arm the numbers are those of the calls whose
`timespec` and `timeval` are two words of 32 bits.
-/
import PureStd.Lib.LittleEndian
import PureStd.Target
import Mathlib.Tactic

namespace PureStd.Time

open LittleEndian

/-! ### Targets and their system-call numbers -/

/-- The Linux targets. -/
inductive LinuxArch where
  | x86_64
  | aarch64
  | riscv64
  | i686
  | arm
deriving DecidableEq, Repr

/-- The calls that carry a time. -/
inductive TimeCall where
  | clockGettime
  | gettimeofday
  | nanosleep
  | futex
deriving DecidableEq, Repr

namespace LinuxArch

def ptrWidth : LinuxArch → PtrWidth
  | x86_64 | aarch64 | riscv64 => .w64
  | i686 | arm => .w32

/-- The constants of `arch::nr`. -/
def nr : LinuxArch → TimeCall → ℕ
  | x86_64, .clockGettime => 228
  | x86_64, .gettimeofday => 96
  | x86_64, .nanosleep => 35
  | x86_64, .futex => 202
  | aarch64, .clockGettime | riscv64, .clockGettime => 113
  | aarch64, .gettimeofday | riscv64, .gettimeofday => 169
  | aarch64, .nanosleep | riscv64, .nanosleep => 101
  | aarch64, .futex | riscv64, .futex => 98
  | i686, .clockGettime => 265
  | arm, .clockGettime => 263
  | i686, .gettimeofday | arm, .gettimeofday => 78
  | i686, .nanosleep | arm, .nanosleep => 162
  | i686, .futex | arm, .futex => 240

/-- The bytes of each of the two words in which the kernel reads or stores a time: 32-bit
kernels keep the old layout under the old numbers. -/
def kernelWord (a : LinuxArch) (number : ℕ) : ℕ :=
  if a.ptrWidth = .w32 ∧ number ∈ [78, 162, 240, 263, 265] then 4 else 8

/-- Each table gives the calls of its target's own word size. -/
lemma kernelWord_nr (a : LinuxArch) (c : TimeCall) : a.kernelWord (a.nr c) = a.ptrWidth.bytes := by
  cases a <;> cases c <;> decide

end LinuxArch

/-! ### The kernel's side -/

/-- A word of `w` bytes as the kernel's signed number. -/
def signed (w n : ℕ) : ℤ := if n < 2 ^ (8 * w - 1) then n else n - 2 ^ (8 * w)

lemma signed_of_lt {w n : ℕ} (h : n < 2 ^ (8 * w - 1)) : signed w n = n := if_pos h

/-- The time that the kernel reads from a buffer. -/
def readTime (w : ℕ) (buf : List UInt8) : ℤ × ℤ :=
  (signed w (leNat (buf.take w)), signed w (leNat ((buf.drop w).take w)))

/-- A time that the kernel stores in two words of `w` bytes; `unit` parts are a second. -/
structure KernelTime (w unit : ℕ) where
  sec : ℤ
  sub : ℕ
  sec_ge : -2 ^ (8 * w - 1) ≤ sec
  sec_lt : sec < 2 ^ (8 * w - 1)
  sub_lt : sub < unit

variable {w unit : ℕ}

/-- The buffer after the kernel has stored a time at its front. -/
def KernelTime.store (t : KernelTime w unit) (buf : List UInt8) : List UInt8 :=
  leBytes w (t.sec % 2 ^ (8 * w)).toNat ++ (leBytes w t.sub ++ buf.drop (2 * w))

/-- The order of the clock. -/
instance : LE (KernelTime w unit) where
  le t t' := t.sec < t'.sec ∨ t.sec = t'.sec ∧ t.sub ≤ t'.sub

/-! ### The program's side -/

/-- `Duration`. -/
structure Duration where
  secs : ℕ
  nanos : ℕ
  secs_lt : secs < 2 ^ 64
  nanos_lt : nanos < 10 ^ 9
deriving DecidableEq

/-- The derived order. -/
instance : LE Duration where
  le d d' := d.secs < d'.secs ∨ d.secs = d'.secs ∧ d.nanos ≤ d'.nanos

/-- `Duration::new`; `none` is the panic on overflow. -/
def Duration.new (secs nanos : ℕ) : Option Duration :=
  if h : secs + nanos / 10 ^ 9 < 2 ^ 64 then
    some ⟨secs + nanos / 10 ^ 9, nanos % 10 ^ 9, h, Nat.mod_lt _ (by norm_num)⟩
  else none

/-- A system call, as far as a time is passed: its number and the buffer with the time. -/
structure Request where
  number : ℕ
  buf : List UInt8

/-- `[dur.as_secs() as i64, dur.subsec_nanos() as i64]` in memory. -/
def timespec (dur : Duration) : List UInt8 := leBytes 8 dur.secs ++ leBytes 8 dur.nanos

/-- `sleep`. -/
def sleep (a : LinuxArch) (dur : Duration) : Request := ⟨a.nr .nanosleep, timespec dur⟩

/-- `futex_wait_timeout`: no call if the word has changed already. -/
def futexWaitTimeout (a : LinuxArch) (value expected : UInt32) (dur : Duration) :
    Option Request :=
  if value ≠ expected then none else some ⟨a.nr .futex, timespec dur⟩

/-- The time that the kernel reads from a system call's buffer. -/
def Request.time (a : LinuxArch) (r : Request) : ℤ × ℤ := readTime (a.kernelWord r.number) r.buf

/-- `[0; 2]` of words of 64 bits. -/
def zeroBuf : List UInt8 := List.replicate 16 0

/-- `monotonic`, when the kernel stores `t`. -/
def monotonic (t : KernelTime w (10 ^ 9)) : ℕ × ℕ :=
  (leNat ((t.store zeroBuf).take 8), leNat (((t.store zeroBuf).drop 8).take 8) % 2 ^ 32)

/-- `gettimeofday`, when the kernel stores `t`. -/
def gettimeofday (t : KernelTime w (10 ^ 6)) : ℕ × ℕ :=
  (leNat ((t.store zeroBuf).take 8), leNat (((t.store zeroBuf).drop 8).take 8))

/-- `Instant::now`. -/
def instantNow (t : KernelTime w (10 ^ 9)) : Option Duration :=
  Duration.new (monotonic t).1 (monotonic t).2

/-- `SystemTime::now`, with the product of `u32`s of a release build. -/
def systemTimeNow (t : KernelTime w (10 ^ 6)) : Option Duration :=
  Duration.new (gettimeofday t).1 ((gettimeofday t).2 % 2 ^ 32 * 1000 % 2 ^ 32)

/-! ### Durations that are passed on -/

/-- The durations that reach the kernel unchanged. -/
def Sendable : PtrWidth → Duration → Prop
  | .w64, d => d.secs < 2 ^ 63
  | .w32, d => d.secs < 2 ^ 31 ∧ d.nanos = 0

/-- The buffer read as two words of 64 bits. -/
lemma readTime_timespec_w64 (d : Duration) :
    readTime 8 (timespec d) = (signed 8 d.secs, signed 8 d.nanos) := by
  have hsecs : leNat (leBytes 8 d.secs) = d.secs := leNat_leBytes_of_lt d.secs_lt
  have hnanos : leNat (leBytes 8 d.nanos) = d.nanos :=
    leNat_leBytes_of_lt (d.nanos_lt.trans (by norm_num))
  have hfirst : (timespec d).take 8 = leBytes 8 d.secs := List.take_left' (length_leBytes 8 _)
  have hsecond : (timespec d).drop 8 = leBytes 8 d.nanos := List.drop_left' (length_leBytes 8 _)
  rw [readTime, hfirst, hsecond, List.take_of_length_le (by simp), hsecs, hnanos]

/-- The buffer read as two words of 32 bits: the second word is the upper half of the
seconds. -/
lemma readTime_timespec_w32 (d : Duration) :
    readTime 4 (timespec d) = (signed 4 (d.secs % 2 ^ 32), signed 4 (d.secs / 2 ^ 32)) := by
  have hbuf : timespec d =
      leBytes 4 d.secs ++ (leBytes 4 (d.secs / 256 ^ 4) ++ leBytes 8 d.nanos) := by
    rw [timespec, leBytes_add 4 4, List.append_assoc]
  have hfirst : (timespec d).take 4 = leBytes 4 d.secs := by
    rw [hbuf, List.take_left' (length_leBytes 4 _)]
  have hsecond : ((timespec d).drop 4).take 4 = leBytes 4 (d.secs / 256 ^ 4) := by
    rw [hbuf, List.drop_left' (length_leBytes 4 _), List.take_left' (length_leBytes 4 _)]
  have hupper : d.secs / 256 ^ 4 < 256 ^ 4 := by
    have hlt := d.secs_lt
    omega
  rw [readTime, hfirst, hsecond, leNat_leBytes, leNat_leBytes_of_lt hupper]
  norm_num

lemma readTime_timespec (w : PtrWidth) (d : Duration) :
    readTime w.bytes (timespec d) = ((d.secs : ℤ), (d.nanos : ℤ)) ↔ Sendable w d := by
  have hsecs := d.secs_lt
  have hnanos := d.nanos_lt
  cases w with
  | w64 =>
    rw [PtrWidth.bytes, readTime_timespec_w64, Prod.mk.injEq, Sendable, signed, signed]
    norm_num at *
    omega
  | w32 =>
    rw [PtrWidth.bytes, readTime_timespec_w32, Prod.mk.injEq, Sendable, signed, signed]
    norm_num at *
    split <;> split <;> omega

/-! ### Times that are read -/

/-- The clock readings that come back unchanged. -/
def Readable (p : PtrWidth) (t : KernelTime w unit) : Prop :=
  match p with
  | .w64 => 0 ≤ t.sec
  | .w32 => 0 ≤ t.sec ∧ t.sub = 0

/-- The two words of 64 bits after the kernel has stored a time in the zeroed buffer. -/
def storedPair : (w : PtrWidth) → KernelTime w.bytes unit → ℕ × ℕ
  | .w64, t => ((t.sec % 2 ^ 64).toNat, t.sub)
  | .w32, t => ((t.sec % 2 ^ 32).toNat + 2 ^ 32 * t.sub, 0)

lemma leNat_store (w : PtrWidth) (t : KernelTime w.bytes unit) (hunit : unit ≤ 2 ^ 32) :
    (leNat ((t.store zeroBuf).take 8), leNat (((t.store zeroBuf).drop 8).take 8)) =
      storedPair w t := by
  have hsub := t.sub_lt
  cases w with
  | w64 =>
    have hsec : (t.sec % 2 ^ 64).toNat < 256 ^ 8 := by omega
    have hbuf : t.store zeroBuf = leBytes 8 (t.sec % 2 ^ 64).toNat ++ leBytes 8 t.sub := by
      simp [KernelTime.store, PtrWidth.bytes, zeroBuf]
    rw [hbuf, List.take_left' (length_leBytes 8 _), List.drop_left' (length_leBytes 8 _),
      List.take_of_length_le (by simp), leNat_leBytes_of_lt hsec,
      leNat_leBytes_of_lt (by omega)]
    rfl
  | w32 =>
    have hsec : (t.sec % 2 ^ 32).toNat < 256 ^ 4 := by omega
    have hbuf : t.store zeroBuf =
        (leBytes 4 (t.sec % 2 ^ 32).toNat ++ leBytes 4 t.sub) ++ List.replicate 8 0 := by
      simp [KernelTime.store, PtrWidth.bytes, zeroBuf]
    have hlen : (leBytes 4 (t.sec % 2 ^ 32).toNat ++ leBytes 4 t.sub).length = 8 := by simp
    rw [hbuf, List.take_left' hlen, List.drop_left' hlen, List.take_of_length_le (by simp),
      leNat_append, leNat_leBytes_of_lt hsec, leNat_leBytes_of_lt (by omega),
      leNat_replicate_zero, length_leBytes, storedPair]
    norm_num

lemma storedPair_eq_iff (w : PtrWidth) (t : KernelTime w.bytes unit) :
    (((storedPair w t).1 : ℤ), (storedPair w t).2) = (t.sec, t.sub) ↔ Readable w t := by
  have hge := t.sec_ge
  have hlt := t.sec_lt
  cases w with
  | w64 | w32 =>
    rw [Prod.mk.injEq, Readable, storedPair]
    simp only [PtrWidth.bytes] at *
    norm_num at *
    omega

/-! ### The two clocks -/

lemma monotonic_eq (w : PtrWidth) (t : KernelTime w.bytes (10 ^ 9)) :
    monotonic t = storedPair w t := by
  have hstore := leNat_store w t (by norm_num)
  have hsub := t.sub_lt
  have hsmall : (storedPair w t).2 < 2 ^ 32 := by
    cases w with
    | w64 => exact hsub.trans (by norm_num)
    | w32 => exact Nat.two_pow_pos 32
  rw [← hstore] at hsmall ⊢
  rw [monotonic, Nat.mod_eq_of_lt hsmall]

lemma gettimeofday_eq (w : PtrWidth) (t : KernelTime w.bytes (10 ^ 6)) :
    gettimeofday t = storedPair w t :=
  leNat_store w t (by norm_num)

lemma Duration.new_of_lt {secs nanos : ℕ} (hs : secs < 2 ^ 64) (hn : nanos < 10 ^ 9) :
    Duration.new secs nanos = some ⟨secs, nanos, hs, hn⟩ := by
  have hdiv : nanos / 10 ^ 9 = 0 := Nat.div_eq_of_lt hn
  have hmod : nanos % 10 ^ 9 = nanos := Nat.mod_eq_of_lt hn
  rw [Duration.new, dif_pos (by rw [hdiv]; exact hs)]
  simp only [hdiv, hmod, Nat.add_zero]

/-- The seconds of a reading that comes back unchanged. -/
lemma Readable.secs {w : PtrWidth} {t : KernelTime w.bytes unit} (h : Readable w t) :
    (storedPair w t).1 < 2 ^ 64 ∧ ((storedPair w t).1 : ℤ) = t.sec ∧
      (storedPair w t).2 = t.sub := by
  have heq := (storedPair_eq_iff w t).2 h
  rw [Prod.mk.injEq] at heq
  have hlt := t.sec_lt
  refine ⟨?_, heq.1, heq.2⟩
  cases w with
  | w64 | w32 => simp only [PtrWidth.bytes] at hlt; omega

/-- An `Instant` of a reading that comes back unchanged has the seconds and nanoseconds of the
clock. -/
lemma instantNow_of_readable {w : PtrWidth} {t : KernelTime w.bytes (10 ^ 9)} (h : Readable w t) :
    ∃ i, instantNow t = some i ∧ (i.secs : ℤ) = t.sec ∧ i.nanos = t.sub := by
  obtain ⟨hlt, hsec, hsub⟩ := h.secs
  have hnanos : (storedPair w t).2 < 10 ^ 9 := hsub ▸ t.sub_lt
  refine ⟨⟨_, _, hlt, hnanos⟩, ?_, hsec, hsub⟩
  rw [instantNow, monotonic_eq, Duration.new_of_lt hlt hnanos]

/-- A `SystemTime` of a reading that comes back unchanged has the seconds of the clock and its
microseconds. -/
lemma systemTimeNow_of_readable {w : PtrWidth} {t : KernelTime w.bytes (10 ^ 6)}
    (h : Readable w t) :
    ∃ i, systemTimeNow t = some i ∧ (i.secs : ℤ) = t.sec ∧ i.nanos = 1000 * t.sub := by
  obtain ⟨hlt, hsec, hsub⟩ := h.secs
  have hsublt := t.sub_lt
  have hmul : (storedPair w t).2 % 2 ^ 32 * 1000 % 2 ^ 32 = 1000 * t.sub := by omega
  have hnanos : 1000 * t.sub < 10 ^ 9 := by omega
  refine ⟨⟨_, _, hlt, hnanos⟩, ?_, hsec, rfl⟩
  rw [systemTimeNow, gettimeofday_eq, hmul, Duration.new_of_lt hlt hnanos]

/-- Readings that come back unchanged give instants in the order of the clock. -/
lemma instantNow_le_iff {w : PtrWidth} {t t' : KernelTime w.bytes (10 ^ 9)} (h : Readable w t)
    (h' : Readable w t') :
    ∃ i i', instantNow t = some i ∧ instantNow t' = some i' ∧ (i ≤ i' ↔ t ≤ t') := by
  obtain ⟨i, hi, hsec, hsub⟩ := instantNow_of_readable h
  obtain ⟨i', hi', hsec', hsub'⟩ := instantNow_of_readable h'
  refine ⟨i, i', hi, hi', ?_⟩
  change _ ∨ _ ↔ _ ∨ _
  rw [← hsec, ← hsec', ← hsub, ← hsub']
  norm_cast

lemma systemTimeNow_le_iff {w : PtrWidth} {t t' : KernelTime w.bytes (10 ^ 6)}
    (h : Readable w t) (h' : Readable w t') :
    ∃ i i', systemTimeNow t = some i ∧ systemTimeNow t' = some i' ∧ (i ≤ i' ↔ t ≤ t') := by
  obtain ⟨i, hi, hsec, hsub⟩ := systemTimeNow_of_readable h
  obtain ⟨i', hi', hsec', hsub'⟩ := systemTimeNow_of_readable h'
  refine ⟨i, i', hi, hi', ?_⟩
  change _ ∨ _ ↔ _ ∨ _
  rw [← hsec, ← hsec', hsub, hsub']
  norm_cast
  omega

/-! ### What crosses unchanged -/

lemma sleep_time (a : LinuxArch) (d : Duration) :
    (sleep a d).time a = ((d.secs : ℤ), (d.nanos : ℤ)) ↔ Sendable a.ptrWidth d := by
  rw [Request.time, sleep, a.kernelWord_nr]
  exact readTime_timespec a.ptrWidth d

lemma futexWaitTimeout_time (a : LinuxArch) (expected : UInt32) (d : Duration) :
    ∃ r, futexWaitTimeout a expected expected d = some r ∧
      (r.time a = ((d.secs : ℤ), (d.nanos : ℤ)) ↔ Sendable a.ptrWidth d) := by
  refine ⟨⟨a.nr .futex, timespec d⟩, by simp [futexWaitTimeout], ?_⟩
  rw [Request.time, a.kernelWord_nr]
  exact readTime_timespec a.ptrWidth d

/-- On every Linux target, the durations that reach the kernel unchanged through `sleep` and
`futex_wait_timeout` and the clock readings that `monotonic` and `gettimeofday` return unchanged
are the sendable and the readable ones, and readable readings keep their order as `Instant` and
`SystemTime`. -/
theorem time_crosses_iff (a : LinuxArch) :
    (∀ d, (sleep a d).time a = ((d.secs : ℤ), (d.nanos : ℤ)) ↔ Sendable a.ptrWidth d) ∧
    (∀ expected d, ∃ r, futexWaitTimeout a expected expected d = some r ∧
      (r.time a = ((d.secs : ℤ), (d.nanos : ℤ)) ↔ Sendable a.ptrWidth d)) ∧
    (∀ t : KernelTime (a.kernelWord (a.nr .clockGettime)) (10 ^ 9),
      (((monotonic t).1 : ℤ), (monotonic t).2) = (t.sec, t.sub) ↔ Readable a.ptrWidth t) ∧
    (∀ t : KernelTime (a.kernelWord (a.nr .gettimeofday)) (10 ^ 6),
      (((gettimeofday t).1 : ℤ), (gettimeofday t).2) = (t.sec, t.sub) ↔
        Readable a.ptrWidth t) ∧
    (∀ t t' : KernelTime (a.kernelWord (a.nr .clockGettime)) (10 ^ 9), Readable a.ptrWidth t →
      Readable a.ptrWidth t' →
      ∃ i i', instantNow t = some i ∧ instantNow t' = some i' ∧ (i ≤ i' ↔ t ≤ t')) ∧
    (∀ t t' : KernelTime (a.kernelWord (a.nr .gettimeofday)) (10 ^ 6), Readable a.ptrWidth t →
      Readable a.ptrWidth t' →
      ∃ i i', systemTimeNow t = some i ∧ systemTimeNow t' = some i' ∧ (i ≤ i' ↔ t ≤ t')) := by
  refine ⟨sleep_time a, futexWaitTimeout_time a, ?_, ?_, ?_, ?_⟩ <;> rw [a.kernelWord_nr]
  · intro t
    rw [monotonic_eq]
    exact storedPair_eq_iff a.ptrWidth t
  · intro t
    rw [gettimeofday_eq]
    exact storedPair_eq_iff a.ptrWidth t
  · intro t t' h h'
    exact instantNow_le_iff h h'
  · intro t t' h h'
    exact systemTimeNow_le_iff h h'

/-- One second and a half. -/
def oneAndAHalf : Duration := ⟨1, 500000000, by norm_num, by norm_num⟩

/-- Two readings of the monotonic clock of i686, the earlier one first. -/
def earlier : KernelTime (LinuxArch.i686.kernelWord (LinuxArch.i686.nr .clockGettime)) (10 ^ 9) :=
  ⟨5, 7, by decide, by decide, by norm_num⟩

@[inherit_doc earlier]
def later : KernelTime (LinuxArch.i686.kernelWord (LinuxArch.i686.nr .clockGettime)) (10 ^ 9) :=
  ⟨6, 3, by decide, by decide, by norm_num⟩

/-- On i686 a sleep of one and a half seconds asks the kernel for one second, the clock reading
of 5 s and 7 ns comes back as another pair, and it makes a later `Instant` than that of 6 s and
3 ns. -/
theorem i686_time_garbled :
    ((sleep .i686 oneAndAHalf).time .i686 = (1, 0) ∧
      (sleep .i686 oneAndAHalf).time .i686 ≠
        ((oneAndAHalf.secs : ℤ), (oneAndAHalf.nanos : ℤ))) ∧
    (monotonic earlier = (5 + 7 * 2 ^ 32, 0) ∧
      (((monotonic earlier).1 : ℤ), (monotonic earlier).2) ≠ (earlier.sec, earlier.sub)) ∧
    earlier ≤ later ∧
      ∃ i i', instantNow earlier = some i ∧ instantNow later = some i' ∧ ¬ i ≤ i' := by
  refine ⟨⟨by decide, by decide⟩, ⟨by decide, by decide⟩, Or.inl (by decide), ?_⟩
  exact ⟨⟨5 + 7 * 2 ^ 32, 0, by norm_num, by norm_num⟩,
    ⟨6 + 3 * 2 ^ 32, 0, by norm_num, by norm_num⟩, by decide, by decide,
    fun h => by rcases h with h | h <;> simp at h⟩

end PureStd.Time
