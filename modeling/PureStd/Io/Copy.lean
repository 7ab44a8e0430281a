/-
`io::copy` of `src/io.rs`.

The loop reads into a buffer of 8 KiB and gives what it has read to `write_all`.  Between two turns
the writer has accepted all bytes that the reader has delivered; inside a turn it is behind by a
part of the chunk that was read last.  The number of bytes is counted in a `u64`.
-/
import PureStd.Io.Streams

namespace PureStd.Io

open Fuel

variable {σ τ : Type*} (rd : Reader σ) (w : Writer τ)

/-- The loop of `copy`. -/
def copyLoop : ℕ → Source σ → Sink τ → List UInt8 → UInt64 →
    Option (Source σ × Sink τ × Result UInt64)
  | 0, _, _, _, _ => none
  | fuel + 1, i, o, buf, total =>
    match rd.get i buf with
    | (i, _, .ok 0) => some (i, o, .ok total)
    | (i, buf, .ok n) =>
      (writeAll (fun o buf => some (w.put o buf)) fuel o (buf.take n)).bind fun
        | (o, .ok ()) => copyLoop fuel i o buf (total + UInt64.ofNat n)
        | (o, .error e) => some (i, o, .error e)
    | (i, buf, .error .interrupted) => copyLoop fuel i o buf total
    | (i, _, .error e) => some (i, o, .error e)

/-- `copy`. -/
def copy (fuel : ℕ) (i : Source σ) (o : Sink τ) : Option (Source σ × Sink τ × Result UInt64) :=
  copyLoop rd w fuel i o (List.replicate 8192 0) 0

/-! ### The bytes -/

variable {rd w} {i i' : Source σ} {o o' : Sink τ} {buf : List UInt8} {total : UInt64} {fuel : ℕ}
  {r : Result UInt64}

/-- The last read, which has left the reader in the state `i'`: before it the reader had delivered
`before`, and it has delivered `chunk`, or has failed with `e`. -/
def LastRead (rd : Reader σ) (i i' : Source σ) (before chunk : List UInt8) (e : ErrorKind) : Prop :=
  ∃ (i₁ : Source σ) (buf buf' : List UInt8), i₁.delivered = i.delivered ++ before ∧
    ((rd.get i₁ buf = (i', buf', .error e) ∧ chunk = []) ∨
      ∃ n, rd.get i₁ buf = (i', buf', .ok n) ∧ chunk = buf'.take n)

/-- What `copy` leaves behind when it began with `total` bytes counted: the bytes `got` from the
reader and `sent` to the writer. -/
structure Copied (rd : Reader σ) (i : Source σ) (o : Sink τ) (total : UInt64) (i' : Source σ)
    (o' : Sink τ) (r : Result UInt64) (got sent : List UInt8) : Prop where
  delivered : i'.delivered = i.delivered ++ got
  accepted : o'.accepted = o.accepted ++ sent
  /-- All of the input has been written, up to a read that returned zero. -/
  of_ok : ∀ n, r = .ok n → sent = got ∧ n = total + UInt64.ofNat got.length ∧
    ∃ (i₁ : Source σ) (buf buf' : List UInt8), buf ≠ [] ∧ rd.get i₁ buf = (i', buf', .ok 0)
  /-- All of the input before the last read has been written, and a part of what that read
  delivered. -/
  of_error : ∀ e, r = .error e → ∃ before chunk k, got = before ++ chunk ∧
    sent = before ++ chunk.take k ∧ LastRead rd i i' before chunk e

/-- A turn of the loop that has written a whole chunk comes before the rest. -/
lemma Copied.after {i₁ : Source σ} {o₁ : Sink τ} {chunk got sent : List UInt8}
    (h : Copied rd i₁ o₁ (total + UInt64.ofNat chunk.length) i' o' r got sent)
    (hi : i₁.delivered = i.delivered ++ chunk) (ho : o₁.accepted = o.accepted ++ chunk) :
    Copied rd i o total i' o' r (chunk ++ got) (chunk ++ sent) where
  delivered := by rw [h.delivered, hi, List.append_assoc]
  accepted := by rw [h.accepted, ho, List.append_assoc]
  of_ok n hn := by
    obtain ⟨hsent, hcount, hlast⟩ := h.of_ok n hn
    refine ⟨by rw [hsent], ?_, hlast⟩
    rw [hcount, List.length_append, UInt64.ofNat_add, UInt64.add_assoc]
  of_error e he := by
    obtain ⟨before, last, k, hgot, hsent, i₂, buf, buf', hbefore, hlast⟩ := h.of_error e he
    refine ⟨chunk ++ before, last, k, ?_, ?_, i₂, buf, buf', ?_, hlast⟩
    · rw [hgot, List.append_assoc]
    · rw [hsent, List.append_assoc]
    · rw [hbefore, hi, List.append_assoc]

lemma copyLoop_copied (hbuf : buf ≠ [])
    (h : copyLoop rd w fuel i o buf total = some (i', o', r)) :
    ∃ got sent, Copied rd i o total i' o' r got sent := by
  induction fuel generalizing i o buf total with
  | zero => cases h
  | succ fuel ih =>
    rw [copyLoop] at h
    split at h
    · rename_i i₁ buf₁ hget
      obtain ⟨-, -, hdel⟩ := Reader.get_ok hget
      cases h
      refine ⟨[], [], by simpa using hdel, by simp, fun n hn => ⟨rfl, ?_, i, buf, buf₁, hbuf,
        hget⟩, fun e he => by cases he⟩
      cases hn
      simp
    · rename_i i₁ buf₁ n hn hget
      obtain ⟨hle, hlen, hdel⟩ := Reader.get_ok hget
      obtain ⟨⟨o₁, r₁⟩, hwrite, hnext⟩ := Option.bind_eq_some_iff.1 h
      obtain ⟨k, hk, hacc, hfull⟩ := writeAll_put hwrite
      cases r₁ with
      | ok u =>
        have hchunk : (buf₁.take n).length = n := by
          rw [List.length_take]
          omega
        rw [hfull rfl, List.take_length] at hacc
        obtain ⟨got, sent, hrest⟩ := ih (Reader.get_ne_nil hbuf hget) hnext
        rw [← hchunk] at hrest
        exact ⟨_, _, hrest.after hdel hacc⟩
      | error e =>
        cases hnext
        refine ⟨buf₁.take n, (buf₁.take n).take k, hdel, hacc,
          fun m hm => (by cases hm), fun e' he' => ?_⟩
        cases he'
        exact ⟨[], buf₁.take n, k, rfl, rfl, i, buf, buf₁, by simp, Or.inr ⟨n, hget, rfl⟩⟩
    · rename_i i₁ buf₁ hget
      obtain ⟨-, hdel⟩ := Reader.get_error hget
      obtain ⟨got, sent, hrest⟩ := ih (Reader.get_ne_nil hbuf hget) h
      have hzero : total = total + UInt64.ofNat ([] : List UInt8).length := by simp
      rw [hzero] at hrest
      exact ⟨_, _, hrest.after (by simpa using hdel) (by simp)⟩
    · rename_i i₁ buf₁ e he hget
      obtain ⟨-, hdel⟩ := Reader.get_error hget
      cases h
      refine ⟨[], [], by simpa using hdel, by simp, fun n hn => (by cases hn),
        fun e' he' => ?_⟩
      cases he'
      exact ⟨[], [], 0, rfl, rfl, i, buf, buf₁, by simp, Or.inl ⟨hget, rfl⟩⟩

/-! ### The end -/

/-- A turn of the loop that has read something. -/
lemma copyLoop_chunk {i₁ : Source σ} {buf₁ : List UInt8} {n : ℕ}
    (h : rd.get i buf = (i₁, buf₁, .ok (n + 1))) (fuel : ℕ) (o : Sink τ) (total : UInt64) :
    copyLoop rd w (fuel + 1) i o buf total =
      (writeAll (fun o buf => some (w.put o buf)) fuel o (buf₁.take (n + 1))).bind fun
        | (o, .ok ()) => copyLoop rd w fuel i₁ o buf₁ (total + UInt64.ofNat (n + 1))
        | (o, .error e) => some (i₁, o, .error e) := by
  simp only [copyLoop, h]

/-- `copy` returns if the input ends and the writer is not interrupted for ever. -/
lemma copyLoop_returns (hw : w.Patient) {s : σ} (hs : rd.Ends s) (hbuf : buf ≠ []) (o : Sink τ)
    (total : UInt64) (delivered : List UInt8) :
    ∃ out, Returns (fun fuel => copyLoop rd w fuel ⟨s, delivered⟩ o buf total) out := by
  induction hs generalizing delivered o buf total with
  | intro s _ ih =>
    obtain ⟨i₁, buf₁, r, hget⟩ : ∃ i₁ buf₁ r, rd.get ⟨s, delivered⟩ buf = (i₁, buf₁, r) :=
      ⟨_, _, _, rfl⟩
    have hread := Reader.read_of_get hget
    have hbuf₁ := Reader.get_ne_nil hbuf hget
    match r, hget, hread with
    | .ok 0, hget, _ =>
      exact ⟨(i₁, o, .ok total), Returns.now fun fuel => by simp only [copyLoop, hget]⟩
    | .ok (n + 1), hget, hread =>
      have hturn := fun fuel => copyLoop_chunk (w := w) hget fuel o total
      obtain ⟨⟨o₁, r₁⟩, hwrite⟩ := hw.writeAll_returns o (buf₁.take (n + 1))
      cases r₁ with
      | ok u =>
        obtain ⟨out, hout⟩ := ih i₁.state ⟨buf, buf₁, _, hbuf, hread, by simp⟩ hbuf₁ o₁
          (total + UInt64.ofNat (n + 1)) i₁.delivered
        exact ⟨out, Returns.step hturn (hwrite.bind hout)⟩
      | error e =>
        exact ⟨(i₁, o₁, .error e), Returns.step hturn (hwrite.bind ⟨0, fun _ _ => rfl⟩)⟩
    | .error e, hget, hread =>
      by_cases he : e = .interrupted
      · subst he
        obtain ⟨out, hout⟩ := ih i₁.state ⟨buf, buf₁, _, hbuf, hread, by simp⟩ hbuf₁ o total
          i₁.delivered
        exact ⟨out, hout.step fun fuel => by simp only [copyLoop, hget]⟩
      · exact ⟨(i₁, o, .error e), Returns.now fun fuel => by simp only [copyLoop, hget]⟩

/-- For every reader and every writer: what the writer has accepted is the beginning of what the
reader has delivered.  If `copy` returns `Ok(n)`, it is all of it, up to the end of the input,
and `n` is the number of the bytes as a `u64`.  If `copy` returns an error, all bytes that were read
before the last chunk have been accepted, and of this chunk a part.  `copy` returns if the reader
comes to the end of its input and the writer is not interrupted for ever. -/
theorem copy_faithful (rd : Reader σ) (w : Writer τ) (i : Source σ) (o : Sink τ) :
    (∀ fuel i' o' r, copy rd w fuel i o = some (i', o', r) →
      ∃ got sent, sent <+: got ∧ Copied rd i o 0 i' o' r got sent) ∧
    (rd.Ends i.state → w.Patient → ∃ out, Returns (fun fuel => copy rd w fuel i o) out) := by
  have hbuf : List.replicate 8192 (0 : UInt8) ≠ [] :=
    List.ne_nil_of_length_eq_add_one List.length_replicate
  refine ⟨fun fuel i' o' r h => ?_, fun hi hw => copyLoop_returns hw hi hbuf o 0 i.delivered⟩
  obtain ⟨got, sent, hcopied⟩ := copyLoop_copied hbuf h
  refine ⟨got, sent, ?_, hcopied⟩
  cases r with
  | ok n =>
    rw [(hcopied.of_ok n rfl).1]
  | error e =>
    obtain ⟨before, chunk, k, hgot, hsent, -⟩ := hcopied.of_error e rfl
    rw [hgot, hsent]
    exact (List.prefix_append_right_inj before).2 ( List.take_prefix k chunk)

/-- Interruptions and a short write between the bytes. -/
theorem copy_faithful_cut : ∃ fuel i' o' r got sent,
    copy chunked scripted fuel ⟨[.ok [1, 2, 3], .error .interrupted, .ok [4]], []⟩
      ⟨[.ok 2, .error .interrupted], []⟩ = some (i', o', r) ∧
    sent <+: got ∧ i'.delivered = got ∧ o'.accepted = sent := by
  have hgood : Script Interrupted [.ok [1, 2, 3], .error .interrupted, .ok [4]] := by
    intro r hr
    fin_cases hr <;> simp [Interrupted]
  obtain ⟨hcopied, hreturns⟩ := copy_faithful chunked scripted
    ⟨[.ok [1, 2, 3], .error .interrupted, .ok [4]], []⟩ ⟨[.ok 2, .error .interrupted], []⟩
  obtain ⟨⟨i', o', r⟩, hout⟩ := hreturns ((chunkedStream Interrupted).ends hgood) scripted_patient
  obtain ⟨fuel, hfuel⟩ := hout.exists_fuel
  obtain ⟨got, sent, hsub, h⟩ := hcopied fuel i' o' r hfuel
  exact ⟨fuel, i', o', r, got, sent, hfuel, hsub, h.delivered, h.accepted⟩

/-! ### The count -/

/-- A writer without a script takes everything at once. -/
lemma writeAll_unscripted (accepted buf : List UInt8) :
    Returns (fun fuel => writeAll (fun o buf => some (scripted.put o buf)) fuel ⟨[], accepted⟩ buf)
      (⟨[], accepted ++ buf⟩, .ok ()) := by
  by_cases hnil : buf = []
  · refine Returns.now fun fuel => ?_
    rw [writeAll, if_pos hnil, hnil, List.append_nil]
  · obtain ⟨n, hn⟩ : ∃ n, buf.length = n + 1 :=
      Nat.exists_eq_succ_of_ne_zero fun h => hnil (List.eq_nil_of_length_eq_zero h)
    have hput : scripted.put ⟨[], accepted⟩ buf =
        (⟨[], accepted ++ buf.take buf.length⟩, .ok buf.length) := rfl
    rw [List.take_length, hn] at hput
    refine ⟨2, fun fuel hfuel => ?_⟩
    obtain ⟨k, rfl⟩ := Nat.exists_eq_add_of_le' hfuel
    show writeAll _ (k + 1 + 1) _ _ = _
    rw [writeAll, if_neg hnil, hput]
    show writeAll _ (k + 1) _ (buf.drop (n + 1)) = _
    rw [← hn, List.drop_length, writeAll, if_pos rfl]

/-- Chunks that fill the buffer are counted one by one. -/
lemma copyLoop_chunks {c : List UInt8} (hc : c ≠ []) (k : ℕ) {buf : List UInt8}
    (hbuf : buf.length = c.length) (total : UInt64) (delivered accepted : List UInt8) :
    ∃ i' o', Returns (fun fuel => copyLoop chunked scripted fuel
        ⟨List.replicate k (.ok c), delivered⟩ ⟨[], accepted⟩ buf total)
        (i', o', .ok (total + UInt64.ofNat (k * c.length))) ∧
      o'.accepted.length = accepted.length + k * c.length := by
  induction k generalizing buf total delivered accepted with
  | zero =>
    refine ⟨⟨[], delivered ++ []⟩, ⟨[], accepted⟩, Returns.now fun fuel => ?_, by simp⟩
    have hzero : UInt64.ofNat 0 = 0 := rfl
    rw [Nat.zero_mul, hzero, UInt64.add_zero]
    rfl
  | succ k ih =>
    have hread : chunked.read (List.replicate (k + 1) (.ok c)) buf =
        (List.replicate k (.ok c), c, .ok c.length) := by
      rw [List.replicate_succ]
      show (if buf.length < c.length then _ else List.replicate k (Except.ok c),
        c.take buf.length ++ buf.drop c.length, (.ok (min c.length buf.length) : Result ℕ)) = _
      rw [if_neg (by omega), hbuf, List.take_length, List.drop_eq_nil_of_le (by omega),
        List.append_nil, Nat.min_self]
    have hget : chunked.get ⟨List.replicate (k + 1) (.ok c), delivered⟩ buf =
        (⟨List.replicate k (.ok c), delivered ++ c⟩, c, .ok c.length) := by
      simp only [Reader.get, hread, List.take_length]
    obtain ⟨n, hn⟩ : ∃ n, c.length = n + 1 :=
      Nat.exists_eq_succ_of_ne_zero fun h => hc (List.eq_nil_of_length_eq_zero h)
    have hfull : c.take (n + 1) = c := by rw [← hn, List.take_length]
    obtain ⟨i', o', hret, hlen⟩ := ih rfl (total + UInt64.ofNat c.length) (delivered ++ c)
      (accepted ++ c)
    refine ⟨i', o', ?_, ?_⟩
    · have hcount : total + UInt64.ofNat c.length + UInt64.ofNat (k * c.length) =
          total + UInt64.ofNat ((k + 1) * c.length) := by
        rw [UInt64.add_assoc, ← UInt64.ofNat_add, Nat.add_comm, ← Nat.succ_mul]
      have hwrite := writeAll_unscripted accepted c
      rw [← hcount]
      rw [hn] at hget hret ⊢
      rw [← hfull] at hwrite
      refine Returns.step (fun fuel => copyLoop_chunk hget fuel _ total) (hwrite.bind ?_)
      rw [hfull]
      exact hret
    · rw [hlen, List.length_append, Nat.succ_mul]
      omega

/-- The count of `2^64` bytes is zero. -/
theorem copy_count_wraps : ∃ fuel i' o',
    copy chunked scripted fuel ⟨List.replicate (2 ^ 51) (.ok (List.replicate 8192 0)), []⟩
      ⟨[], []⟩ = some (i', o', .ok 0) ∧ o'.accepted.length = 2 ^ 64 := by
  have hc : List.replicate 8192 (0 : UInt8) ≠ [] :=
    List.ne_nil_of_length_eq_add_one List.length_replicate
  obtain ⟨i', o', hret, hlen⟩ := copyLoop_chunks hc (2 ^ 51) rfl 0 [] []
  obtain ⟨fuel, hfuel⟩ := hret.exists_fuel
  rw [List.length_replicate] at hfuel hlen
  exact ⟨fuel, i', o', hfuel, hlen⟩

end PureStd.Io
