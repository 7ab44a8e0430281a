/-
`BufRead::read_line` of `src/io.rs`, called again after an error.

`read_line` collects the bytes of a line in a vector of its own and appends them to the string
when the line is complete.  An error on the way drops the vector, and the bytes in it have left the
reader.  So a caller that tries again gets the line exactly if no error but an interruption stands
between the first byte of the line and its end (`retryLine_returns`).
-/
import PureStd.Io.Lines

namespace PureStd.Io

open Separators Utf8 Fuel

variable {σ : Type*}

namespace BufReader

/-- A caller that calls `read_line` with the same string until it returns `Ok`. -/
def retryLine (rd : Reader σ) : ℕ → BufReader σ → Str → Option (BufReader σ × Str × ℕ)
  | 0, _, _ => none
  | fuel + 1, b, buf =>
    (b.readLine rd fuel buf).bind fun
      | (b, buf, .ok n) => some (b, buf, n)
      | (b, buf, .error _) => retryLine rd fuel b buf

end BufReader

/-- The bytes of a script, with errors of any kind between the chunks. -/
abbrev anyScript : Stream chunked fun _ => True := chunkedStream fun _ => True

/-! ### Where an error does harm -/

/-- No error but an interruption comes after the first byte of the line and before its end;
`begun` says whether the line has begun. -/
def Quiet : Bool → List (Result (List UInt8)) → Prop
  | _, [] => True
  | begun, .error e :: script => (e = .interrupted ∨ begun = false) ∧ Quiet begun script
  | _, .ok chunk :: script => 10 ∈ chunk ∨ Quiet true script

/-- The same, of a `BufReader` that may have bytes of the line in its buffer. -/
def QuietFrom (begun : Bool) (b : BufReader (List (Result (List UInt8)))) : Prop :=
  10 ∈ b.available ∨ Quiet (begun || !b.available.isEmpty) b.inner.state

variable {b b' : BufReader (List (Result (List UInt8)))}

lemma quietFrom_of_nil (begun : Bool) (h : b.available = []) :
    QuietFrom begun b ↔ Quiet begun b.inner.state := by
  simp [QuietFrom, h]

lemma quietFrom_of_ne_nil (begun : Bool) (h : b.available ≠ []) :
    QuietFrom begun b ↔ 10 ∈ b.available ∨ Quiet true b.inner.state := by
  have hfull : b.available.isEmpty = false := by simpa using h
  simp [QuietFrom, hfull]

/-- A read that delivers bytes takes them from the first chunk. -/
lemma quiet_read_ok (begun : Bool) {s s' : List (Result (List UInt8))} {buf buf' : List UInt8}
    {n : ℕ} (hs : anyScript.Good s) (hbuf : buf ≠ [])
    (h : chunked.read s buf = (s', buf', .ok n)) :
    (s = [] ∧ n = 0) ∨ (n ≠ 0 ∧ (Quiet begun s ↔ 10 ∈ buf'.take n ∨ Quiet true s')) := by
  match s, hs, h with
  | [], _, h =>
    cases h
    exact Or.inl ⟨rfl, rfl⟩
  | .ok chunk :: script, hs, h =>
    have hchunk : chunk ≠ [] := hs _ (List.mem_cons_self ..)
    cases h
    refine Or.inr ⟨?_, ?_⟩
    · have := List.length_pos_iff.2 hchunk
      have := List.length_pos_iff.2 hbuf
      omega
    · rw [take_chunk, Quiet]
      split_ifs with hlt
      · -- what is left of the chunk is the next one
        have hmem : 10 ∈ chunk ↔ 10 ∈ chunk.take buf.length ∨ 10 ∈ chunk.drop buf.length := by
          rw [← List.mem_append, List.take_append_drop]
        rw [Quiet, hmem, or_assoc]
      · rw [List.take_of_length_le (Nat.not_lt.1 hlt)]

lemma quiet_read_error (begun : Bool) {s s' : List (Result (List UInt8))}
    {buf buf' : List UInt8} {e : ErrorKind} (h : chunked.read s buf = (s', buf', .error e)) :
    Quiet begun s ↔ (e = .interrupted ∨ begun = false) ∧ Quiet begun s' := by
  match s, h with
  | .error e :: script, h =>
    cases h
    rfl

lemma quietFrom_fillBuf_ok (begun : Bool) {a : List UInt8} (hb : anyScript.Ready b)
    (h : b.fillBuf chunked = (b', .ok a)) :
    if a = [] then QuietFrom begun b else (QuietFrom begun b ↔ QuietFrom begun b') := by
  obtain ⟨hb', ha, -, -⟩ := hb.fillBuf_ok h
  rw [BufReader.fillBuf] at h
  split at h
  · rename_i hempty
    rw [quietFrom_of_nil begun (BufReader.available_eq_nil hempty)]
    split at h
    · rename_i i buf n hget
      obtain ⟨hn, hlen, -⟩ := Reader.get_ok hget
      have hread := quiet_read_ok begun hb.good hb.buf_ne_nil (Reader.read_of_get hget)
      obtain ⟨rfl, -⟩ := Prod.mk.inj h
      have hbuf : a = buf.take n := ha
      rcases hread with ⟨hscript, rfl⟩ | ⟨hpos, hiff⟩
      · rw [if_pos (by simpa using hbuf), hscript]
        trivial
      · have hne : a ≠ [] := by
          rw [hbuf, ← List.length_pos_iff, List.length_take]
          omega
        rw [if_neg hne, quietFrom_of_ne_nil begun (ha ▸ hne), ← ha, hbuf]
        exact hiff
    · cases h
  · rename_i hfull
    obtain ⟨rfl, -⟩ := Prod.mk.inj h
    have hne : a ≠ [] := by
      have hcap := hb.cap_le
      rw [ha, ← List.length_pos_iff, BufReader.available, List.length_drop, List.length_take]
      omega
    rw [if_neg hne]

lemma quietFrom_fillBuf_error (begun : Bool) {e : ErrorKind}
    (h : b.fillBuf chunked = (b', .error e)) :
    QuietFrom begun b ↔ (e = .interrupted ∨ begun = false) ∧ QuietFrom begun b' := by
  rw [BufReader.fillBuf] at h
  split at h
  · rename_i hempty
    split at h
    · cases h
    · rename_i i buf e' hget
      have hnil : BufReader.available { b with inner := i, buf := buf } = [] :=
        BufReader.available_eq_nil hempty
      cases h
      rw [quietFrom_of_nil begun (BufReader.available_eq_nil hempty), quietFrom_of_nil begun hnil]
      exact quiet_read_error begun (Reader.read_of_get hget)
  · cases h

/-- `read_until` that finds its newline meets no error that does harm, and one that fails has met
one if it has taken bytes. -/
lemma quietFrom_readUntil {fuel n : ℕ} {out out' : List UInt8} {r : Result ℕ}
    (hb : anyScript.Ready b) (h : b.readUntil chunked 10 fuel out n = some (b', out', r)) :
    (∀ m, r = .ok m → QuietFrom (!out.isEmpty) b) ∧
      ∀ e, r = .error e → (QuietFrom (!out.isEmpty) b ↔ out' = [] ∧ QuietFrom false b') := by
  induction fuel generalizing b out n with
  | zero => cases h
  | succ fuel ih =>
    rw [BufReader.readUntil] at h
    split at h
    · rename_i b₁ a hf
      obtain ⟨hb₁, rfl, -⟩ := hb.fillBuf_ok hf
      have hquiet := quietFrom_fillBuf_ok (!out.isEmpty) hb hf
      split at h
      · rename_i i hi
        have hmem : 10 ∈ b₁.available := by
          by_contra hnot
          rw [findIdx?_eq_none.2 hnot] at hi
          cases hi
        rw [if_neg (List.ne_nil_of_mem hmem)] at hquiet
        cases h
        exact ⟨fun _ _ => hquiet.2 (Or.inl hmem), fun _ he => by cases he⟩
      · rename_i hi
        split at h
        · rename_i hzero
          rw [if_pos (List.eq_nil_of_length_eq_zero hzero)] at hquiet
          cases h
          exact ⟨fun _ _ => hquiet, fun _ he => by cases he⟩
        · rename_i hlen
          have hne : b₁.available ≠ [] := fun hnil => hlen (by rw [hnil]; rfl)
          have hnil : (b₁.consume b₁.available.length).available = [] := by
            rw [BufReader.available_consume, List.drop_length]
          have hout : (!(out ++ b₁.available).isEmpty) = true := by simp [hne]
          rw [if_neg hne, quietFrom_of_ne_nil _ hne,
            or_iff_right (findIdx?_eq_none.1 hi)] at hquiet
          have hnext := ih (hb₁.consume _) h
          rw [hout, quietFrom_of_nil true hnil] at hnext
          rw [hquiet]
          exact hnext
    · rename_i b₁ hf
      have hquiet := quietFrom_fillBuf_error (!out.isEmpty) hf
      rw [and_iff_right (Or.inl rfl)] at hquiet
      rw [hquiet]
      exact ih (hb.fillBuf_error hf).1 h
    · rename_i b₁ e hhard hf
      have hquiet := quietFrom_fillBuf_error (!out.isEmpty) hf
      cases h
      refine ⟨fun _ hm => (by cases hm), fun e' _ => ?_⟩
      rw [hquiet, or_iff_right hhard]
      cases out' with
      | nil => simp
      | cons c out => simp

/-! ### Trying again -/

/-- The string has grown by the bytes that were taken from the reader, and these are the line. -/
def Kept (b : BufReader (List (Result (List UInt8)))) (buf : Str)
    (out : BufReader (List (Result (List UInt8))) × Str × ℕ) : Prop :=
  ∃ line, anyScript.left b = line ++ anyScript.left out.1 ∧
    out.2.1.bytes = buf.bytes ++ line ∧ line = upTo 10 (anyScript.left b)

/-- A call of `read_line` returns.  It has taken the line and appended it, or the line was not
valid, or it has failed. -/
lemma readLine_cases (hb : anyScript.Ready b) (buf : Str) :
    ∃ b' more r, Returns (fun fuel => b.readLine chunked fuel buf) (b', r) ∧
      anyScript.Ready b' ∧ anyScript.left b = more ++ anyScript.left b' ∧
      ((∃ h, r = (buf.pushStr ⟨more, h⟩, .ok more.length) ∧ more = upTo 10 (anyScript.left b) ∧
          QuietFrom false b) ∨
        (∃ e, r = (buf, .error e) ∧ anyScript.Nearer b' b ∧
          ((more = upTo 10 (anyScript.left b) ∧ ¬ Valid more) ∨
            (QuietFrom false b ↔ more = [] ∧ QuietFrom false b')))) := by
  obtain ⟨b', more, r, hret, hb', hleft, hr⟩ := hb.readUntil_returns 10 [] 0
  obtain ⟨fuel, hfuel⟩ := hret.exists_fuel
  obtain ⟨hquiet, hquiet'⟩ := quietFrom_readUntil hb hfuel
  have hmap : Returns (fun fuel => b.readLine chunked fuel buf)
      (BufReader.pushLine buf (b', [] ++ more, r)) := hret.map
  rcases hr with ⟨rfl, hmore⟩ | ⟨e, rfl, -, -, hnear⟩
  · by_cases hvalid : Valid more
    · have hpush : BufReader.pushLine buf (b', [] ++ more, .ok (0 + more.length)) =
          (b', buf.pushStr ⟨more, hvalid⟩, .ok more.length) := by
        simp only [BufReader.pushLine, List.nil_append, Str.fromUtf8_of_valid hvalid, Nat.zero_add]
      exact ⟨b', more, _, hpush ▸ hmap, hb', hleft,
        Or.inl ⟨hvalid, rfl, hmore, hquiet _ rfl⟩⟩
    · have hpush : BufReader.pushLine buf (b', [] ++ more, .ok (0 + more.length)) =
          (b', buf, .error .invalidData) := by
        simp only [BufReader.pushLine, List.nil_append, Str.fromUtf8_of_not_valid hvalid]
      -- a line that is not valid has at least one byte
      have hne : more ≠ [] := fun hnil => hvalid (hnil ▸ valid_nil)
      refine ⟨b', more, _, hpush ▸ hmap, hb', hleft,
        Or.inr ⟨_, rfl, Or.inl ?_, Or.inl ⟨hmore, hvalid⟩⟩⟩
      have := List.length_pos_iff.2 hne
      show (anyScript.left b').length < (anyScript.left b).length
      rw [hleft, List.length_append]
      omega
  · exact ⟨b', more, _, hmap, hb', hleft, Or.inr ⟨e, rfl, hnear, Or.inr (hquiet' e rfl)⟩⟩

/-- The caller gets a line in the end, and no more bytes than were taken. -/
lemma retryLine_bound (hb : anyScript.Ready b) (buf : Str) :
    ∃ out, Returns (fun fuel => b.retryLine chunked fuel buf) out ∧
      ∃ more, out.2.1.bytes = buf.bytes ++ more ∧
        more.length + (anyScript.left out.1).length ≤ (anyScript.left b).length := by
  induction b using (closer_wf fun b => (anyScript.left b, anyScript.delay b.inner.state)).induction
    with
  | _ b ih =>
    obtain ⟨b', more, r, hret, hb', hleft, ⟨h, rfl, -, -⟩ | ⟨e, rfl, hnear, -⟩⟩ :=
      readLine_cases hb buf
    · refine ⟨(b', buf.pushStr ⟨more, h⟩, more.length),
        Returns.step (fun fuel => rfl) (hret.bind ⟨0, fun _ _ => rfl⟩), more, rfl, ?_⟩
      rw [hleft, List.length_append]
    · obtain ⟨out, hout, more', hbytes, hle⟩ := ih b' hnear hb'
      refine ⟨out, Returns.step (fun fuel => rfl) (hret.bind hout), more', hbytes, ?_⟩
      rw [hleft, List.length_append]
      omega

/-- For every valid text, cut into chunks with errors of any kind between them: a caller that
tries again after each error gets a line in the end; and it is the line that stands in the text,
with all bytes that were taken, exactly if no error but an interruption comes between the first
byte of the line and its end. -/
theorem retryLine_returns (hb : anyScript.Ready b) (hvalid : Valid (anyScript.left b))
    (buf : Str) :
    ∃ out, Returns (fun fuel => b.retryLine chunked fuel buf) out ∧
      (Kept b buf out ↔ QuietFrom false b) := by
  induction b using (closer_wf fun b => (anyScript.left b, anyScript.delay b.inner.state)).induction
    with
  | _ b ih =>
    obtain ⟨b', more, r, hret, hb', hleft, ⟨h, rfl, hmore, hquiet⟩ | ⟨e, rfl, hnear, hcase⟩⟩ :=
      readLine_cases hb buf
    · exact ⟨(b', buf.pushStr ⟨more, h⟩, more.length),
        Returns.step (fun fuel => rfl) (hret.bind ⟨0, fun _ _ => rfl⟩),
        iff_of_true ⟨more, hleft, rfl, hmore⟩ hquiet⟩
    · rcases hcase with ⟨hmore, hnot⟩ | hquiet
      · -- a line of a valid text is valid
        exact absurd (hmore ▸ (valid_upTo hvalid (hmore ▸ hleft)).1) hnot
      · by_cases hnil : more = []
        · -- nothing was taken, so the next call stands where this one stood
          subst hnil
          have hsame : anyScript.left b = anyScript.left b' := hleft
          obtain ⟨out, hout, hkept⟩ := ih b' hnear hb' (hsame ▸ hvalid)
          refine ⟨out, Returns.step (fun fuel => rfl) (hret.bind hout), ?_⟩
          rw [hquiet, and_iff_right rfl, ← hkept, Kept, Kept, hsame]
        · -- the bytes that were taken are gone
          obtain ⟨out, hout, more', hbytes, hle⟩ := retryLine_bound hb' buf
          refine ⟨out, Returns.step (fun fuel => rfl) (hret.bind hout),
            iff_of_false ?_ fun h => hnil (hquiet.1 h).1⟩
          rintro ⟨line, hline, hgrown, -⟩
          have heq : more' = line := List.append_cancel_left (hbytes.symm.trans hgrown)
          have := List.length_pos_iff.2 hnil
          have htotal := congrArg List.length (hleft.symm.trans hline)
          rw [List.length_append, List.length_append, ← heq] at htotal
          omega

/-- An interruption inside the line and an error before it do no harm. -/
theorem retryLine_returns_early :
    ∃ out, Returns (fun fuel => (BufReader.withCapacity 8
        [.error .wouldBlock, .ok [97], .error .interrupted, .ok [98, 10]]).retryLine chunked fuel
          default) out ∧
      Kept (.withCapacity 8
        [.error .wouldBlock, .ok [97], .error .interrupted, .ok [98, 10]]) default out := by
  have hgood : Script (fun _ => True)
      [.error .wouldBlock, .ok [97], .error .interrupted, .ok [98, 10]] := by
    intro r hr
    fin_cases hr <;> simp
  have hcap : (8 : ℕ) ≠ 0 := by decide
  obtain ⟨out, hout, hkept⟩ := retryLine_returns
    (Stream.ready_withCapacity (S := anyScript) hcap hgood) (by decide) default
  refine ⟨out, hout, hkept.2 ?_⟩
  simp [QuietFrom, Quiet, BufReader.withCapacity, BufReader.available]

/-- The reader delivers `ab`, fails once, and delivers `c` and a newline.  The line is `abc`, and
the string gets `c` and the newline. -/
theorem retryLine_loses :
    ((BufReader.withCapacity 8 [.ok [97, 98], .error .wouldBlock, .ok [99, 10]]).retryLine
      chunked 9 default).map (fun out => out.2.1.bytes) = some [99, 10] ∧
    upTo 10 (anyScript.left (.withCapacity 8 [.ok [97, 98], .error .wouldBlock, .ok [99, 10]])) =
      [97, 98, 99, 10] := by
  decide

end PureStd.Io
