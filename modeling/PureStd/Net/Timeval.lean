/-
Socket timeouts: `encode_timeval` of `src/net.rs` and the three functions that pass its result to
`setsockopt`.

The kernel reads a `timeval` of the target's layout.  The seconds are cast to its signed field,
which wraps around, and what is below a microsecond is dropped, so that a timeout of less than
that becomes zero, which means to wait forever (`timeout_iff`).
-/
import PureStd.Net.SockAddr
import PureStd.Time

namespace PureStd.Net

open LittleEndian Slice Time

/-! ### The code -/

/-- `Duration::subsec_micros`. -/
def subsecMicros (d : Duration) : ℕ := d.nanos / 1000

/-- `encode_timeval`: the bytes and the length that the kernel expects. -/
def encodeTimeval (os : Os) (w : PtrWidth) (dur : Option Duration) :
    Checked (List UInt8 × ℕ) :=
  let tv := List.replicate 16 0
  match os, w with
  | .linux, .w32 =>
    match dur with
    | some d => do
      let tv ← copy tv 0 4 (leBytes 4 d.secs)
      let tv ← copy tv 4 8 (leBytes 4 (subsecMicros d))
      return (tv, 8)
    | none => return (tv, 8)
  | .macos, _ =>
    match dur with
    | some d => do
      let tv ← copy tv 0 8 (leBytes 8 d.secs)
      let tv ← copy tv 8 12 (leBytes 4 (subsecMicros d))
      return (tv, 16)
    | none => return (tv, 16)
  | .linux, .w64 =>
    match dur with
    | some d => do
      let tv ← copy tv 0 8 (leBytes 8 d.secs)
      let tv ← copy tv 8 16 (leBytes 8 (subsecMicros d))
      return (tv, 16)
    | none => return (tv, 16)

/-- `SOL_SOCKET`. -/
def solSocket : Os → ℕ
  | .macos => 0xffff
  | .linux => 1

/-- `SO_RCVTIMEO`. -/
def soRcvtimeo : Os → ℕ
  | .macos => 0x1006
  | .linux => 20

/-- `SO_SNDTIMEO`. -/
def soSndtimeo : Os → ℕ
  | .macos => 0x1005
  | .linux => 21

/-- The arguments of `setsockopt` behind the descriptor. -/
structure SockOpt where
  level : ℕ
  name : ℕ
  value : List UInt8
  len : ℕ
deriving DecidableEq, Repr

def setTimeout (os : Os) (w : PtrWidth) (name : ℕ) (dur : Option Duration) : Checked SockOpt := do
  let (tv, tvlen) ← encodeTimeval os w dur
  return ⟨solSocket os, name, tv, tvlen⟩

/-- `set_read_timeout`, of `TcpStream` and of `UdpSocket`. -/
def setReadTimeout (os : Os) (w : PtrWidth) (dur : Option Duration) : Checked SockOpt :=
  setTimeout os w (soRcvtimeo os) dur

/-- `set_write_timeout`. -/
def setWriteTimeout (os : Os) (w : PtrWidth) (dur : Option Duration) : Checked SockOpt :=
  setTimeout os w (soSndtimeo os) dur

/-! ### The kernel's side -/

/-- The bytes of the seconds and of the microseconds in a `timeval`. -/
def timevalFields : Os → PtrWidth → ℕ × ℕ
  | .linux, w => (w.bytes, w.bytes)
  | .macos, _ => (8, 4)

/-- The size of a `timeval`, with its padding. -/
def timevalSize : Os → PtrWidth → ℕ
  | .linux, w => 2 * w.bytes
  | .macos, _ => 16

/-- The seconds and microseconds that the kernel reads, for one of the two options. -/
def SockOpt.timeval (os : Os) (w : PtrWidth) (o : SockOpt) : Option (ℤ × ℤ) :=
  if o.level = solSocket os ∧ (o.name = soRcvtimeo os ∨ o.name = soSndtimeo os) ∧
      timevalSize os w ≤ o.len then
    let (s, u) := timevalFields os w
    some (signed s (leNat (o.value.take s)), signed u (leNat ((o.value.drop s).take u)))
  else none

/-- The seconds that a `timeval` can have are below this bound. -/
def secsBound (os : Os) (w : PtrWidth) : ℕ := 2 ^ (8 * (timevalFields os w).1 - 1)

/-- What the kernel reads is a finite and positive timeout, and it is `d` up to a microsecond or
the longest timeout there is. -/
def Bounds (os : Os) (w : PtrWidth) (d : Duration) (tv : ℤ × ℤ) : Prop :=
  (0 ≤ tv.1 ∧ 0 ≤ tv.2 ∧ tv ≠ (0, 0)) ∧
    (|(tv.1 * 10 ^ 9 + tv.2 * 1000) - (d.secs * 10 ^ 9 + d.nanos)| ≤ 1000 ∨
      tv = ((secsBound os w : ℤ) - 1, 999999))

/-- A microsecond or more, and the seconds have room.  Longer ones can only hit the longest
timeout by accident, where the seconds wrap around. -/
def Encodable (os : Os) (w : PtrWidth) (d : Duration) : Prop :=
  ((0 < d.secs ∨ 1000 ≤ d.nanos) ∧ d.secs < secsBound os w) ∨
    (d.secs % (2 * secsBound os w) = secsBound os w - 1 ∧ subsecMicros d = 999999)

/-! ### What the kernel reads -/

lemma secsBound_cases (os : Os) (w : PtrWidth) :
    (os = .linux ∧ w = .w32 ∧ secsBound os w = 2 ^ 31) ∨ secsBound os w = 2 ^ 63 := by
  cases os <;> cases w <;> simp [secsBound, timevalFields, PtrWidth.bytes]

lemma subsecMicros_lt (d : Duration) : subsecMicros d < 10 ^ 6 := by
  have hnanos := d.nanos_lt
  rw [subsecMicros]
  omega

/-- Two fields written into the zeroed buffer one after the other. -/
lemma copy_copy (x y : List UInt8) {s u : ℕ} (len : ℕ) (hx : x.length = s) (hy : y.length = u)
    (hle : s + u ≤ 16) :
    (do
      let tv ← copy (List.replicate 16 0) 0 s x
      let tv ← copy tv s (s + u) y
      return (tv, len) : Checked (List UInt8 × ℕ)) =
      .ok (x ++ y ++ List.replicate (16 - (s + u)) 0, len) := by
  have hfirst : copy ([] ++ List.replicate 16 0) 0 s x = _ :=
    copy_zeros [] x 0 (16 - s) rfl (by omega) (by omega)
  have hsecond : copy (x ++ List.replicate (16 - s) 0) s (s + u) y = _ :=
    copy_zeros x y 0 (16 - (s + u)) (by omega) (by omega) (by omega)
  simp only [List.nil_append, List.replicate_zero, List.append_nil] at hfirst hsecond
  rw [hfirst]
  change (do
    let tv ← copy (x ++ List.replicate (16 - s) 0) s (s + u) y
    return (tv, len) : Checked (List UInt8 × ℕ)) = _
  rw [hsecond]
  rfl

/-- The three layouts differ in the sizes of the two fields only. -/
lemma encodeTimeval_some (os : Os) (w : PtrWidth) (d : Duration) :
    ∃ pad, encodeTimeval os w (some d) =
      .ok (leBytes (timevalFields os w).1 d.secs ++
        leBytes (timevalFields os w).2 (subsecMicros d) ++ pad, timevalSize os w) := by
  have hfields (s u len : ℕ) (hle : s + u ≤ 16) :=
    copy_copy (leBytes s d.secs) (leBytes u (subsecMicros d)) len (length_leBytes s _)
      (length_leBytes u _) hle
  cases os with
  | linux =>
    cases w with
    | w32 => exact ⟨_, hfields 4 4 8 (by norm_num)⟩
    | w64 => exact ⟨_, hfields 8 8 16 (by norm_num)⟩
  | macos => exact ⟨_, hfields 8 4 16 (by norm_num)⟩

/-- The microseconds have room in every layout, and the seconds wrap around. -/
lemma setTimeout_timeval (os : Os) (w : PtrWidth) (d : Duration) {name : ℕ}
    (hname : name = soRcvtimeo os ∨ name = soSndtimeo os) :
    ∃ o, setTimeout os w name (some d) = .ok o ∧
      o.timeval os w = some (signed (timevalFields os w).1
        (d.secs % 256 ^ (timevalFields os w).1), (subsecMicros d : ℤ)) := by
  obtain ⟨pad, hpad⟩ := encodeTimeval_some os w d
  have hmicros := subsecMicros_lt d
  have hroom : 2 ^ 31 ≤ 2 ^ (8 * (timevalFields os w).2 - 1) ∧
      2 ^ (8 * (timevalFields os w).2 - 1) ≤ 256 ^ (timevalFields os w).2 := by
    cases os <;> cases w <;> decide
  refine ⟨⟨solSocket os, name, _, timevalSize os w⟩, by rw [setTimeout, hpad]; rfl, ?_⟩
  rw [SockOpt.timeval, if_pos ⟨rfl, hname, le_refl _⟩]
  simp only
  rw [List.append_assoc, List.take_left' (length_leBytes _ _), List.drop_left' (length_leBytes _ _),
    List.take_left' (length_leBytes _ _), leNat_leBytes, leNat_leBytes_of_lt (by omega),
    signed_of_lt (n := subsecMicros d) (by omega)]

/-! ### Timeouts that the kernel keeps -/

/-- The seconds of every layout, as the kernel reads them. -/
lemma signed_secs (os : Os) (w : PtrWidth) (d : Duration) :
    signed (timevalFields os w).1 (d.secs % 256 ^ (timevalFields os w).1) =
      if d.secs % (2 * secsBound os w) < secsBound os w then
        ((d.secs % (2 * secsBound os w) : ℕ) : ℤ)
      else ((d.secs % (2 * secsBound os w) : ℕ) : ℤ) - 2 * secsBound os w := by
  have hword : 256 ^ (timevalFields os w).1 = 2 * secsBound os w ∧
      (2 : ℤ) ^ (8 * (timevalFields os w).1) = 2 * secsBound os w := by
    cases os <;> cases w <;> decide
  rw [hword.1, signed, hword.2]
  rfl

lemma bounds_iff (os : Os) (w : PtrWidth) (d : Duration) :
    Bounds os w d (signed (timevalFields os w).1
      (d.secs % 256 ^ (timevalFields os w).1), (subsecMicros d : ℤ)) ↔ Encodable os w d := by
  have hsecs := d.secs_lt
  have hnanos := d.nanos_lt
  rw [signed_secs, Bounds, Encodable, abs_le, subsecMicros]
  simp only [ne_eq, Prod.mk.injEq]
  rcases secsBound_cases os w with ⟨-, -, hb⟩ | hb <;> rw [hb] <;> split <;> omega

/-- For every target, a timeout that is set for reading or writing is one that the kernel keeps if
and only if it is encodable. -/
theorem timeout_iff (os : Os) (w : PtrWidth) (d : Duration) :
    (∃ o tv, setReadTimeout os w (some d) = .ok o ∧ o.timeval os w = some tv ∧
      (Bounds os w d tv ↔ Encodable os w d)) ∧
    ∃ o tv, setWriteTimeout os w (some d) = .ok o ∧ o.timeval os w = some tv ∧
      (Bounds os w d tv ↔ Encodable os w d) := by
  obtain ⟨o, ho, htv⟩ := setTimeout_timeval os w d (Or.inl rfl)
  obtain ⟨o', ho', htv'⟩ := setTimeout_timeval os w d (Or.inr rfl)
  exact ⟨⟨o, _, ho, htv, bounds_iff os w d⟩, ⟨o', _, ho', htv', bounds_iff os w d⟩⟩

/-- Half a microsecond. -/
def halfMicro : Duration := ⟨0, 500, by norm_num, by norm_num⟩

/-- A little less than 137 years. -/
def longWait : Duration := ⟨2 ^ 32 - 1, 0, by norm_num, by norm_num⟩

/-- A timeout of half a microsecond is to wait forever, and on a 32-bit target a very long one is
negative. -/
theorem timeout_lost :
    (∃ o, setReadTimeout .linux .w64 (some halfMicro) = .ok o ∧
      o.timeval .linux .w64 = some (0, 0) ∧ ¬ Bounds .linux .w64 halfMicro (0, 0)) ∧
    ∃ o, setReadTimeout .linux .w32 (some longWait) = .ok o ∧
      o.timeval .linux .w32 = some (-1, 0) ∧ ¬ Bounds .linux .w32 longWait (-1, 0) := by
  refine ⟨?_, ?_⟩
  · obtain ⟨o, ho, htv⟩ := setTimeout_timeval .linux .w64 halfMicro (Or.inl rfl)
    exact ⟨o, ho, htv, fun h => h.1.2.2 rfl⟩
  · obtain ⟨o, ho, htv⟩ := setTimeout_timeval .linux .w32 longWait (Or.inl rfl)
    exact ⟨o, ho, htv, fun h => absurd h.1.1 (by decide)⟩

end PureStd.Net
