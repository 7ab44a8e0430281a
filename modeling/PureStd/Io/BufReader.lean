/-
`BufReader` of `src/io.rs`, with `BufRead::read_until`.

The buffer between `pos` and `cap` has the bytes that the reader has delivered and that
nobody has got yet.  The reader is called only when there are none, so that an error can
not harm them.  What was handed out, followed by these bytes, is what the reader has
delivered (`bufReader_transparent`).
-/
import PureStd.Io.Traits
import PureStd.Lib.Transition

namespace PureStd.Io

variable {σ : Type*}

structure BufReader (σ : Type*) where
  inner : Source σ
  buf : List UInt8
  pos : ℕ
  cap : ℕ
deriving DecidableEq, Repr

namespace BufReader

/-- `with_capacity`, over a reader that has delivered nothing. -/
def withCapacity (capacity : ℕ) (inner : σ) : BufReader σ where
  inner := ⟨inner, []⟩
  buf := List.replicate capacity 0
  pos := 0
  cap := 0

/-- `self.buf[self.pos..self.cap]`. -/
def available (b : BufReader σ) : List UInt8 := (b.buf.take b.cap).drop b.pos

variable (rd : Reader σ)

/-- `fill_buf`. -/
def fillBuf (b : BufReader σ) : BufReader σ × Result (List UInt8) :=
  if b.cap ≤ b.pos then
    match rd.get b.inner b.buf with
    | (i, buf, .ok n) =>
      let b : BufReader σ := { inner := i, buf := buf, pos := 0, cap := n }
      (b, .ok b.available)
    | (i, buf, .error e) => ({ b with inner := i, buf := buf }, .error e)
  else (b, .ok b.available)

/-- `consume`. -/
def consume (b : BufReader σ) (amt : ℕ) : BufReader σ := { b with pos := min (b.pos + amt) b.cap }

/-- `read`.  The result has the destination as `read` has left it. -/
def read (b : BufReader σ) (dest : List UInt8) : BufReader σ × List UInt8 × Result ℕ :=
  if b.pos = b.cap ∧ b.buf.length ≤ dest.length then
    match rd.get b.inner dest with
    | (i, dest, r) => ({ b with inner := i }, dest, r)
  else
    match fillBuf rd b with
    | (b, .ok available) =>
      let n := min available.length dest.length
      (b.consume n, available.take n ++ dest.drop n, .ok n)
    | (b, .error e) => (b, dest, .error e)

/-- The loop of `read_until`, with the bytes of `buf` and the number of bytes read so far. -/
def readUntil (delim : UInt8) : ℕ → BufReader σ → List UInt8 → ℕ →
    Option (BufReader σ × List UInt8 × Result ℕ)
  | 0, _, _, _ => none
  | fuel + 1, b, out, n =>
    match fillBuf rd b with
    | (b, .ok available) =>
      match available.findIdx? (· = delim) with
      | some i => some (b.consume (i + 1), out ++ available.take (i + 1), .ok (n + (i + 1)))
      | none =>
        if available.length = 0 then some (b.consume 0, out ++ available, .ok n)
        else readUntil delim fuel (b.consume available.length) (out ++ available)
          (n + available.length)
    | (b, .error .interrupted) => readUntil delim fuel b out n
    | (b, .error e) => some (b, out, .error e)

/-! ### The bytes -/

variable {rd} {b b' : BufReader σ} {handed : List UInt8}

/-- What was handed out and what is left is what the reader has delivered. -/
structure Exact (handed : List UInt8) (b : BufReader σ) : Prop where
  pos_le : b.pos ≤ b.cap
  cap_le : b.cap ≤ b.buf.length
  eq : handed ++ b.available = b.inner.delivered

lemma exact_withCapacity (capacity : ℕ) (inner : σ) :
    Exact [] (withCapacity capacity inner) := by
  refine ⟨Nat.le_refl 0, Nat.zero_le _, ?_⟩
  simp [withCapacity, available]

/-- Nothing is left. -/
lemma available_eq_nil (h : b.cap ≤ b.pos) : b.available = [] := by
  rw [available, List.drop_eq_nil_iff, List.length_take]
  omega

/-- `fillBuf` calls the reader only when nothing is left. -/
lemma Exact.fillBuf {r : Result (List UInt8)} (h : Exact handed b)
    (hf : b.fillBuf rd = (b', r)) :
    Exact handed b' ∧ (∀ a, r = .ok a → a = b'.available) ∧
      ∀ e, r = .error e → b'.available = b.available ∧ b'.inner.delivered = b.inner.delivered := by
  rw [BufReader.fillBuf] at hf
  split at hf
  · rename_i hempty
    have hnil := available_eq_nil hempty
    have heq := h.eq
    rw [hnil, List.append_nil] at heq
    split at hf
    · rename_i i buf n hget
      obtain ⟨hn, hlen, hdel⟩ := Reader.get_ok hget
      obtain ⟨rfl, rfl⟩ := Prod.mk.inj hf
      refine ⟨⟨Nat.zero_le n, hlen ▸ hn, ?_⟩, fun a ha => (Except.ok.inj ha).symm, by simp⟩
      show handed ++ buf.take n = i.delivered
      rw [hdel, heq]
    · rename_i i buf e hget
      obtain ⟨hlen, hdel⟩ := Reader.get_error hget
      obtain ⟨rfl, rfl⟩ := Prod.mk.inj hf
      -- the reader may have written into the buffer, but nothing of it counts
      have hnil' : BufReader.available { b with inner := i, buf := buf } = [] :=
        available_eq_nil hempty
      refine ⟨⟨h.pos_le, hlen ▸ h.cap_le, ?_⟩, by simp, fun _ _ => ⟨hnil'.trans hnil.symm, hdel⟩⟩
      rw [hnil', List.append_nil, heq]
      exact hdel.symm
  · obtain ⟨rfl, rfl⟩ := Prod.mk.inj hf
    exact ⟨h, fun a ha => (Except.ok.inj ha).symm, by simp⟩

lemma available_consume (b : BufReader σ) (amt : ℕ) :
    (b.consume amt).available = b.available.drop amt := by
  have hlen : (b.buf.take b.cap).length ≤ b.cap := by
    rw [List.length_take]
    omega
  show (b.buf.take b.cap).drop (min (b.pos + amt) b.cap) = _
  rw [available, List.drop_drop]
  rcases Nat.le_total (b.pos + amt) b.cap with hle | hle
  · rw [Nat.min_eq_left hle]
  · rw [Nat.min_eq_right hle, List.drop_eq_nil_of_le hlen, List.drop_eq_nil_of_le (by omega)]

/-- `consume` hands out the bytes that it skips. -/
lemma Exact.consume (h : Exact handed b) (amt : ℕ) :
    Exact (handed ++ b.available.take amt) (b.consume amt) := by
  refine ⟨Nat.min_le_right _ _, h.cap_le, ?_⟩
  rw [List.append_assoc, available_consume, List.take_append_drop]
  exact h.eq

lemma Exact.read {dest dest' : List UInt8} {r : Result ℕ} (h : Exact handed b)
    (hr : b.read rd dest = (b', dest', r)) :
    (∀ n, r = .ok n → Exact (handed ++ dest'.take n) b') ∧
      ∀ e, r = .error e → Exact handed b' ∧ b'.available = b.available ∧
        b'.inner.delivered = b.inner.delivered := by
  rw [BufReader.read] at hr
  split at hr
  · -- the buffer is bypassed
    rename_i hbypass
    have hnil := available_eq_nil (Nat.le_of_eq hbypass.1.symm)
    have heq := h.eq
    rw [hnil, List.append_nil] at heq
    have hnil' : ∀ i : Source σ, BufReader.available { b with inner := i } = [] := fun _ => hnil
    split at hr
    rename_i i d r' hget
    cases hr
    refine ⟨?_, ?_⟩
    · rintro n rfl
      have hdel := (Reader.get_ok hget).2.2
      refine ⟨h.pos_le, h.cap_le, ?_⟩
      rw [hnil', List.append_nil, heq]
      exact hdel.symm
    · rintro e rfl
      have hdel := (Reader.get_error hget).2
      refine ⟨⟨h.pos_le, h.cap_le, ?_⟩, rfl, hdel⟩
      rw [hnil', List.append_nil, heq]
      exact hdel.symm
  · split at hr
    · rename_i b₁ a hf
      obtain ⟨hb₁, ha, -⟩ := h.fillBuf hf
      obtain rfl := ha a rfl
      cases hr
      refine ⟨fun n hn => ?_, by simp⟩
      cases hn
      -- the slice begins with the bytes that were skipped
      rw [List.take_append_of_le_length (by simp), List.take_take, Nat.min_self]
      exact hb₁.consume _
    · rename_i b₁ e hf
      obtain ⟨hb₁, -, herr⟩ := h.fillBuf hf
      cases hr
      exact ⟨by simp, fun e' he => ⟨hb₁, herr e rfl⟩⟩

/-- `readUntil` appends what it skips, also when it fails. -/
lemma Exact.readUntil {delim : UInt8} {fuel n : ℕ} {out out' : List UInt8} {r : Result ℕ}
    (h : Exact handed b) (hr : b.readUntil rd delim fuel out n = some (b', out', r)) :
    ∃ more, out' = out ++ more ∧ Exact (handed ++ more) b' := by
  induction fuel generalizing b handed out n with
  | zero => cases hr
  | succ fuel ih =>
    rw [BufReader.readUntil] at hr
    split at hr
    · rename_i b₁ a hf
      obtain ⟨hb₁, ha, -⟩ := h.fillBuf hf
      obtain rfl := ha a rfl
      split at hr
      · rename_i i _
        cases hr
        exact ⟨_, rfl, hb₁.consume (i + 1)⟩
      · have hall := hb₁.consume b₁.available.length
        rw [List.take_length] at hall
        split at hr
        · rename_i hzero
          cases hr
          refine ⟨_, rfl, ?_⟩
          rwa [hzero] at hall
        · obtain ⟨more, rfl, hmore⟩ := ih hall hr
          exact ⟨b₁.available ++ more, by rw [List.append_assoc], by rwa [← List.append_assoc]⟩
    · rename_i b₁ hf
      exact ih (h.fillBuf hf).1 hr
    · rename_i b₁ e _ hf
      cases hr
      exact ⟨[], (List.append_nil _).symm, by
        rw [List.append_nil]
        exact (h.fillBuf hf).1⟩

end BufReader

/-- A `BufReader` and the bytes that it has handed out. -/
structure Reading (σ : Type*) where
  reader : BufReader σ
  handed : List UInt8

/-- A call on a `BufReader`. -/
inductive ReadOp where
  /-- `read` into a slice. -/
  | read (dest : List UInt8)
  | fillBuf
  | consume (amt : ℕ)
  /-- `read_until` into a vector. -/
  | readUntil (delim : UInt8) (out : List UInt8)

namespace Reading

variable (rd : Reader σ)

/-- What a call does, if it returns.  The bytes that `read` has put into the slice, those that
`consume` skips and those that `read_until` has appended are handed out. -/
def call (fuel : ℕ) (s : Reading σ) : ReadOp → Option (Reading σ × Result Unit)
  | .read dest =>
    match s.reader.read rd dest with
    | (b, dest, .ok n) => some (⟨b, s.handed ++ dest.take n⟩, .ok ())
    | (b, _, .error e) => some (⟨b, s.handed⟩, .error e)
  | .fillBuf =>
    match s.reader.fillBuf rd with
    | (b, .ok _) => some (⟨b, s.handed⟩, .ok ())
    | (b, .error e) => some (⟨b, s.handed⟩, .error e)
  | .consume amt =>
    some (⟨s.reader.consume amt, s.handed ++ s.reader.available.take amt⟩, .ok ())
  | .readUntil delim out =>
    (s.reader.readUntil rd delim fuel out 0).map fun (b, out', r) =>
      (⟨b, s.handed ++ out'.drop out.length⟩, r.map fun _ => ())

/-- Some call returns. -/
def Step (s s' : Reading σ) : Prop := ∃ fuel op r, call rd fuel s op = some (s', r)

/-- The states that calls make out of a new `BufReader`. -/
def Reaches (s : Reading σ) : Prop :=
  Reachable (fun s => ∃ capacity inner, s = ⟨.withCapacity capacity inner, []⟩) (Step rd) s

variable {rd} {fuel : ℕ} {s s' : Reading σ}

/-- Every call keeps the bytes exact. -/
lemma call_exact {op : ReadOp} {r : Result Unit} (h : call rd fuel s op = some (s', r))
    (hs : s.reader.Exact s.handed) : s'.reader.Exact s'.handed := by
  cases op with
  | read dest =>
    rw [call] at h
    split at h
    · rename_i b dest' n hr
      cases h
      exact (hs.read hr).1 n rfl
    · rename_i b dest' e hr
      cases h
      exact ((hs.read hr).2 e rfl).1
  | fillBuf =>
    rw [call] at h
    split at h
    · rename_i b a hf
      cases h
      exact (hs.fillBuf hf).1
    · rename_i b e hf
      cases h
      exact (hs.fillBuf hf).1
  | consume amt =>
    cases h
    exact hs.consume amt
  | readUntil delim out =>
    obtain ⟨⟨b, out', r'⟩, hr, heq⟩ := Option.map_eq_some_iff.1 h
    cases heq
    obtain ⟨more, rfl, hmore⟩ := hs.readUntil hr
    show b.Exact (s.handed ++ (out ++ more).drop out.length)
    rwa [List.drop_left]

lemma reaches_exact (h : Reaches rd s) : s.reader.Exact s.handed := by
  refine Reachable.induct (P := fun s => s.reader.Exact s.handed) h ?_ ?_
  · rintro s ⟨capacity, inner, rfl⟩
    exact BufReader.exact_withCapacity capacity inner
  · rintro s s' - hs ⟨fuel, op, r, hcall⟩
    exact call_exact hcall hs

/-- For every reader, every capacity and all sequences of calls: the bytes that were handed
out, followed by those that are left in the buffer, are the bytes that the reader has
delivered, and `pos ≤ cap ≤ buf.len()`.  `fill_buf` returns the bytes that are left, and
`consume` hands out the first of these.  If `fill_buf` or `read` returns an error, then
nothing was handed out and the bytes that are left are the same. -/
theorem bufReader_transparent (rd : Reader σ) (s : Reading σ) (h : Reaches rd s) :
    s.handed ++ s.reader.available = s.reader.inner.delivered ∧
    s.reader.pos ≤ s.reader.cap ∧ s.reader.cap ≤ s.reader.buf.length ∧
    (∀ b' a, s.reader.fillBuf rd = (b', .ok a) → a = b'.available) ∧
    ∀ fuel op s' e, (op = .fillBuf ∨ ∃ dest, op = .read dest) →
      call rd fuel s op = some (s', .error e) →
      s'.handed = s.handed ∧ s'.reader.available = s.reader.available ∧
        s'.reader.inner.delivered = s.reader.inner.delivered := by
  have hs := reaches_exact h
  refine ⟨hs.eq, hs.pos_le, hs.cap_le, fun b' a hf => (hs.fillBuf hf).2.1 a rfl,
    fun fuel op s' e hop hcall => ?_⟩
  rcases hop with rfl | ⟨dest, rfl⟩
  · rw [call] at hcall
    split at hcall
    · cases hcall
    · rename_i b e' hf
      cases hcall
      exact ⟨rfl, (hs.fillBuf hf).2.2 e rfl⟩
  · rw [call] at hcall
    split at hcall
    · cases hcall
    · rename_i b dest' e' hr
      cases hcall
      exact ⟨rfl, ((hs.read hr).2 e rfl).2⟩

/-- One call, with the fuel that it needs. -/
def turn (s : Reading (List (Result (List UInt8)))) (op : ReadOp) :
    Reading (List (Result (List UInt8))) :=
  ((call chunked 9 s op).map Prod.fst).getD s

lemma turn_step (s : Reading (List (Result (List UInt8)))) (op : ReadOp) :
    Step chunked s (turn s op) ∨ turn s op = s := by
  rw [turn]
  cases h : call chunked 9 s op with
  | none => exact Or.inr rfl
  | some r => exact Or.inl ⟨9, op, r.2, h⟩

/-- A `read` through the buffer, a `read_until` that fails, and a `read` past the buffer. -/
theorem bufReader_transparent_mixed : ∃ s, Reaches chunked s ∧
    s.handed ++ s.reader.available = s.reader.inner.delivered ∧ s.handed = [1, 2, 3, 4, 5] := by
  have hreach : Reaches chunked _ := Reachable.foldl turn_step
    (.start ⟨4, [.ok [1, 2, 3], .error .wouldBlock, .ok [4, 5]], rfl⟩)
    [.read [0, 0], .readUntil 5 [], .read [0, 0, 0, 0]]
  exact ⟨_, hreach, (bufReader_transparent chunked _ hreach).1, rfl⟩

end Reading

end PureStd.Io
