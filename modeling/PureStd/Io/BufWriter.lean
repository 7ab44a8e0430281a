/-
`BufWriter` of `src/io.rs`.

`flush_buf` gives the whole buffer to `write_all` and clears it only when that succeeds.  If
`write_all` fails after the writer has accepted a part of the buffer, the buffer still has
that part, and the next `flush_buf` gives it to the writer again.  This is the only way to lose
the order of things: the bytes that the writer has accepted, followed by the buffer, are the bytes
that `write` has reported as accepted exactly as long as every call finds a writer that takes all
of the buffer or fails with nothing of it (`bufWriter_delivers`).
-/
import Mathlib.Tactic
import PureStd.Io.Traits
import PureStd.Lib.Transition

namespace PureStd.Io

variable {σ : Type*}

/-- A `BufWriter` and its history. -/
structure BufWriter (σ : Type*) where
  inner : Sink σ
  buf : List UInt8
  capacity : ℕ
  /-- The prefixes that `write` has reported as accepted. -/
  reported : List UInt8
  /-- It has not been dropped. -/
  live : Bool
deriving DecidableEq, Repr

namespace BufWriter

/-- `with_capacity`, over a writer that has accepted nothing. -/
def withCapacity (capacity : ℕ) (inner : σ) : BufWriter σ where
  inner := ⟨inner, []⟩
  buf := []
  capacity := capacity
  reported := []
  live := true

variable (w : Writer σ)

/-- `flush_buf`. -/
def flushBuf (fuel : ℕ) (b : BufWriter σ) : Option (BufWriter σ × Result Unit) :=
  if b.buf = [] then some (b, .ok ()) else
    match writeAll (fun i buf => some (w.put i buf)) fuel b.inner b.buf with
    | some (i, .ok ()) => some ({ b with inner := i, buf := [] }, .ok ())
    | some (i, .error e) => some ({ b with inner := i }, .error e)
    | none => none

/-- `write` after `flush_buf`. -/
def writeBuf (b : BufWriter σ) (data : List UInt8) : BufWriter σ × Result ℕ :=
  if b.capacity ≤ data.length then
    match w.put b.inner data with
    | (i, .ok n) => ({ b with inner := i, reported := b.reported ++ data.take n }, .ok n)
    | (i, .error e) => ({ b with inner := i }, .error e)
  else ({ b with buf := b.buf ++ data, reported := b.reported ++ data }, .ok data.length)

/-- `write`. -/
def write (fuel : ℕ) (b : BufWriter σ) (data : List UInt8) : Option (BufWriter σ × Result ℕ) :=
  if b.capacity < b.buf.length + data.length then
    match flushBuf w fuel b with
    | some (b, .ok ()) => some (writeBuf w b data)
    | some (b, .error e) => some (b, .error e)
    | none => none
  else some (writeBuf w b data)

/-- `flush`. -/
def flush (fuel : ℕ) (b : BufWriter σ) : Option (BufWriter σ × Result Unit) :=
  match flushBuf w fuel b with
  | some (b, .ok ()) => some ({ b with inner := (w.sync b.inner).1 }, (w.sync b.inner).2)
  | some (b, .error e) => some (b, .error e)
  | none => none

/-- `Drop`. -/
def drop (fuel : ℕ) (b : BufWriter σ) : Option (BufWriter σ) :=
  (flushBuf w fuel b).map fun r => { r.1 with live := false }

/-- `into_inner`.  After an error the `BufWriter` is dropped. -/
def intoInner (fuel : ℕ) (b : BufWriter σ) : Option (BufWriter σ × Result Unit) :=
  match flushBuf w fuel b with
  | some (b, .ok ()) => some ({ b with live := false }, .ok ())
  | some (b, .error e) => (drop w fuel b).map fun b => (b, .error e)
  | none => none

/-- A call on a `BufWriter`.  `write_all` is a loop over `write`, see `reaches_writeAll`. -/
inductive Op where
  | write (data : List UInt8)
  | flush
  | intoInner
  | drop

/-- What a call does, if it returns. -/
def call (fuel : ℕ) (b : BufWriter σ) : Op → Option (BufWriter σ × Result Unit)
  | .write data => (write w fuel b data).map fun r => (r.1, r.2.map fun _ => ())
  | .flush => flush w fuel b
  | .intoInner => intoInner w fuel b
  | .drop => (drop w fuel b).map fun b => (b, .ok ())

/-- A call on a `BufWriter` that has not been dropped. -/
def Step (b b' : BufWriter σ) : Prop :=
  b.live = true ∧ ∃ fuel op r, call w fuel b op = some (b', r)

/-- The `BufWriter`s that calls make out of a new one.  The caller may go on after an error. -/
def Reaches (b : BufWriter σ) : Prop :=
  Reachable (fun b => ∃ capacity inner, b = withCapacity capacity inner) (Step w) b

/-! ### What is to hold -/

/-- The writer and the buffer have what was reported. -/
def Exact (b : BufWriter σ) : Prop := b.inner.accepted ++ b.buf = b.reported

/-- `write_all` of these bytes fails only if the writer accepts none of them. -/
def AllOrNone (i : Sink σ) (buf : List UInt8) : Prop :=
  ∀ fuel i' e, writeAll (fun i buf => some (w.put i buf)) fuel i buf = some (i', .error e) →
    i'.accepted = i.accepted

/-- The writer takes the buffer, as far as the call is to flush it, or fails with nothing of it.
`into_inner` tries twice if it fails. -/
def Clean (b : BufWriter σ) : Op → Prop
  | .write data => b.capacity < b.buf.length + data.length → AllOrNone w b.inner b.buf
  | .flush => AllOrNone w b.inner b.buf
  | .intoInner => AllOrNone w b.inner b.buf ∧ ∀ fuel i e,
      writeAll (fun i buf => some (w.put i buf)) fuel b.inner b.buf = some (i, .error e) →
        AllOrNone w i b.buf
  | .drop => AllOrNone w b.inner b.buf

/-- A call on a `BufWriter` whose writer is clean in this sense. -/
def CleanStep (b b' : BufWriter σ) : Prop :=
  b.live = true ∧ ∃ fuel op r, Clean w b op ∧ call w fuel b op = some (b', r)

/-- The `BufWriter`s that such calls make out of a new one. -/
def CleanReaches (b : BufWriter σ) : Prop :=
  Reachable (fun b => ∃ capacity inner, b = withCapacity capacity inner) (CleanStep w) b

variable {w} {fuel : ℕ} {b b' : BufWriter σ} {data : List UInt8} {p : Prop} {r : Result Unit}

/-! ### The bytes -/

/-- How many bytes the writer and the buffer have too much. -/
def surplus (b : BufWriter σ) : ℤ :=
  b.inner.accepted.length + b.buf.length - b.reported.length

lemma Exact.surplus_eq (h : Exact b) : b.surplus = 0 := by
  rw [surplus, ← h, List.length_append]
  omega

/-- What is done with the bytes: they stay exact under a condition, and without it there are more
than before. -/
structure Accounts (ok : Prop) (b b' : BufWriter σ) : Prop where
  le : b.surplus ≤ b'.surplus
  keeps : ok → Exact b → Exact b'
  tears : ¬ ok → b.surplus < b'.surplus

lemma Accounts.congr {q : Prop} (h : Accounts p b b') (hpq : p ↔ q) : Accounts q b b' :=
  ⟨h.le, fun hq => h.keeps (hpq.2 hq), fun hq => h.tears fun hp => hq (hpq.1 hp)⟩

lemma Accounts.trans {q : Prop} {b'' : BufWriter σ} (h : Accounts p b b') (h' : Accounts q b' b'') :
    Accounts (p ∧ q) b b'' := by
  refine ⟨h.le.trans h'.le, fun hpq hb => h'.keeps hpq.2 (h.keeps hpq.1 hb), fun hpq => ?_⟩
  rcases not_and_or.1 hpq with hp | hq
  · exact (h.tears hp).trans_le h'.le
  · exact h.le.trans_lt (h'.tears hq)

/-- A change of the rest makes no difference. -/
lemma Accounts.rest {b'' : BufWriter σ} (h : Accounts p b b')
    (hinner : b''.inner.accepted = b'.inner.accepted) (hbuf : b''.buf = b'.buf)
    (hreported : b''.reported = b'.reported) : Accounts p b b'' := by
  have hsurplus : b''.surplus = b'.surplus := by rw [surplus, surplus, hinner, hbuf, hreported]
  refine ⟨hsurplus ▸ h.le, fun hp hb => ?_, fun hp => hsurplus ▸ h.tears hp⟩
  have hb' := h.keeps hp hb
  rwa [Exact, ← hinner, ← hbuf, ← hreported] at hb'

lemma allOrNone_of_ok {i i' : Sink σ} {buf : List UInt8}
    (h : writeAll (fun i buf => some (w.put i buf)) fuel i buf = some (i', .ok ())) :
    AllOrNone w i buf := by
  intro fuel' i'' e herror
  cases writeAll_unique h herror

lemma writeAll_nil (fuel : ℕ) (i : Sink σ) :
    writeAll (fun i buf => some (w.put i buf)) (fuel + 1) i [] = some (i, .ok ()) := rfl

/-- `flush_buf` makes the buffer empty, or it fails and the writer has accepted the beginning of
the buffer. -/
lemma flushBuf_cases (h : flushBuf w fuel b = some (b', r)) :
    b'.reported = b.reported ∧ b'.live = b.live ∧ b'.capacity = b.capacity ∧
      ((r = .ok () ∧ b'.buf = [] ∧ b'.inner.accepted = b.inner.accepted ++ b.buf ∧
        ∃ fuel, writeAll (fun i buf => some (w.put i buf)) fuel b.inner b.buf =
          some (b'.inner, .ok ())) ∨
      ∃ e, r = .error e ∧ b'.buf = b.buf ∧
        writeAll (fun i buf => some (w.put i buf)) fuel b.inner b.buf =
          some (b'.inner, .error e)) := by
  rw [flushBuf] at h
  split at h
  · rename_i hnil
    cases h
    refine ⟨rfl, rfl, rfl, Or.inl ⟨rfl, hnil, ?_, 1, ?_⟩⟩
    · rw [hnil, List.append_nil]
    · rw [hnil, writeAll_nil]
  · split at h
    · rename_i i hw
      cases h
      obtain ⟨k, hk, hacc, hfull⟩ := writeAll_put hw
      rw [hfull rfl, List.take_length] at hacc
      exact ⟨rfl, rfl, rfl, Or.inl ⟨rfl, rfl, hacc, fuel, hw⟩⟩
    · rename_i i e hw
      cases h
      exact ⟨rfl, rfl, rfl, Or.inr ⟨e, rfl, rfl, hw⟩⟩
    · cases h

lemma flushBuf_accounts (h : flushBuf w fuel b = some (b', r)) :
    Accounts (AllOrNone w b.inner b.buf) b b' := by
  obtain ⟨hreported, -, -, ⟨-, hbuf, hacc, fuel', hw⟩ | ⟨e, -, hbuf, hw⟩⟩ := flushBuf_cases h
  · refine ⟨?_, fun _ hb => ?_, fun htorn => absurd (allOrNone_of_ok hw) htorn⟩
    · simp only [surplus, hreported, hbuf, hacc, List.length_append, List.length_nil]
      omega
    · rw [Exact, hbuf, List.append_nil, hacc, hreported, hb]
  · obtain ⟨k, hk, hacc, -⟩ := writeAll_put hw
    -- `k` bytes are in the writer and still in the buffer
    have hsurplus : b'.surplus = b.surplus + k := by
      simp only [surplus, hreported, hbuf, hacc, List.length_append, List.length_take,
        Nat.min_eq_left hk]
      omega
    have hsame : AllOrNone w b.inner b.buf ↔ k = 0 := by
      constructor
      · intro hclean
        have hlen := congrArg List.length ((hclean fuel _ e hw).symm.trans hacc)
        rw [List.length_append, List.length_take, Nat.min_eq_left hk] at hlen
        omega
      · rintro rfl fuel' i' e' hw'
        cases writeAll_unique hw hw'
        rw [hacc, List.take_zero, List.append_nil]
    refine ⟨by omega, fun hclean hb => ?_, fun htorn => ?_⟩
    · rw [Exact, hbuf, hreported, hacc, hsame.1 hclean, List.take_zero, List.append_nil, hb]
    · have hpos := mt hsame.2 htorn
      omega

lemma writeBuf_accounts (hbuf : b.capacity ≤ data.length → b.buf = []) :
    Accounts True b (writeBuf w b data).1 := by
  rw [writeBuf]
  split
  · rename_i hcap
    have hnil := hbuf hcap
    split
    · rename_i i n hw
      obtain ⟨hn, hacc⟩ := Writer.put_ok hw
      refine ⟨?_, fun _ hb => ?_, fun hfalse => absurd trivial hfalse⟩
      · simp only [surplus, hacc, List.length_append]
        omega
      · rw [Exact, hnil, List.append_nil] at hb
        simp only [Exact, hacc, hnil, List.append_nil, hb]
    · rename_i i e hw
      have hsame : Accounts True b b :=
        ⟨le_rfl, fun _ hb => hb, fun hfalse => absurd trivial hfalse⟩
      exact hsame.rest (Writer.put_error hw) rfl rfl
  · refine ⟨?_, fun _ hb => ?_, fun hfalse => absurd trivial hfalse⟩
    · simp only [surplus, List.length_append]
      omega
    · show b.inner.accepted ++ (b.buf ++ data) = b.reported ++ data
      rw [← List.append_assoc, hb]

lemma write_accounts {r : Result ℕ} (h : write w fuel b data = some (b', r)) :
    Accounts (Clean w b (.write data)) b b' := by
  rw [write] at h
  split at h
  · rename_i hfull
    have hclean : AllOrNone w b.inner b.buf ↔ Clean w b (.write data) :=
      ⟨fun hclean _ => hclean, fun hclean => hclean hfull⟩
    split at h
    · rename_i b₁ hf
      obtain ⟨-, -, -, ⟨-, hbuf, -⟩ | ⟨e, he, -⟩⟩ := flushBuf_cases hf
      · obtain rfl := congrArg Prod.fst (Option.some.inj h)
        refine ((flushBuf_accounts hf).trans (writeBuf_accounts fun _ => hbuf)).congr ?_
        rw [and_true, hclean]
      · cases he
    · rename_i b₁ e hf
      cases h
      exact (flushBuf_accounts hf).congr hclean
    · cases h
  · rename_i hroom
    obtain rfl := congrArg Prod.fst (Option.some.inj h)
    -- there is room for large data only if the buffer is empty
    refine (writeBuf_accounts fun hcap => List.eq_nil_of_length_eq_zero ?_).congr ?_
    · omega
    · exact ⟨fun _ hfull => absurd hfull hroom, fun _ => trivial⟩

lemma flush_accounts (h : flush w fuel b = some (b', r)) :
    Accounts (AllOrNone w b.inner b.buf) b b' ∧
      (r = .ok () → b'.buf = [] ∧ b'.reported = b.reported ∧ AllOrNone w b.inner b.buf) := by
  rw [flush] at h
  split at h
  · rename_i b₁ hf
    cases h
    obtain ⟨hreported, -, -, ⟨-, hbuf, -, fuel', hw⟩ | ⟨e, he, -⟩⟩ := flushBuf_cases hf
    · exact ⟨(flushBuf_accounts hf).rest rfl rfl rfl,
        fun _ => ⟨hbuf, hreported, allOrNone_of_ok hw⟩⟩
    · cases he
  · rename_i b₁ e hf
    cases h
    exact ⟨flushBuf_accounts hf, by simp⟩
  · cases h

lemma drop_accounts (h : drop w fuel b = some b') :
    Accounts (AllOrNone w b.inner b.buf) b b' := by
  obtain ⟨⟨b₁, r⟩, hf, rfl⟩ := Option.map_eq_some_iff.1 h
  exact (flushBuf_accounts hf).rest rfl rfl rfl

lemma intoInner_accounts (h : intoInner w fuel b = some (b', r)) :
    Accounts (Clean w b .intoInner) b b' := by
  rw [intoInner] at h
  split at h
  · rename_i b₁ hf
    cases h
    obtain ⟨-, -, -, ⟨-, -, -, fuel', hw⟩ | ⟨e, he, -⟩⟩ := flushBuf_cases hf
    · have hclean : AllOrNone w b.inner b.buf ↔ Clean w b .intoInner := by
        refine ⟨fun hclean => ⟨hclean, fun fuel'' i e herror => ?_⟩, And.left⟩
        cases writeAll_unique hw herror
      exact ((flushBuf_accounts hf).congr hclean).rest rfl rfl rfl
    · cases he
  · rename_i b₁ e hf
    obtain ⟨b₂, hd, heq⟩ := Option.map_eq_some_iff.1 h
    cases heq
    obtain ⟨-, -, -, ⟨hr, -⟩ | ⟨e', -, hbuf, hw⟩⟩ := flushBuf_cases hf
    · cases hr
    · -- the second attempt begins with the writer as the first one has left it
      have hagain := drop_accounts hd
      rw [hbuf] at hagain
      refine ((flushBuf_accounts hf).trans hagain).congr (and_congr_right fun _ => ?_)
      refine ⟨fun hclean fuel' i e'' herror => ?_, fun hclean => hclean fuel _ e' hw⟩
      cases writeAll_unique hw herror
      exact hclean
  · cases h

/-- Every call keeps the bytes exact if it is clean, and otherwise leaves more than there were. -/
lemma call_accounts {op : Op} (h : call w fuel b op = some (b', r)) :
    Accounts (Clean w b op) b b' := by
  cases op with
  | write data =>
    obtain ⟨⟨b₁, r₁⟩, hw, heq⟩ := Option.map_eq_some_iff.1 h
    cases heq
    exact write_accounts hw
  | flush => exact (flush_accounts h).1
  | intoInner => exact intoInner_accounts h
  | drop =>
    obtain ⟨b₁, hd, heq⟩ := Option.map_eq_some_iff.1 h
    cases heq
    exact drop_accounts hd

/-- There are never fewer bytes than were reported, and only clean calls leave as many. -/
lemma reaches_accounts (h : Reaches w b) :
    0 ≤ b.surplus ∧ (b.surplus = 0 → Exact b ∧ CleanReaches w b) := by
  let P : BufWriter σ → Prop := fun b =>
    0 ≤ b.surplus ∧ (b.surplus = 0 → Exact b ∧ CleanReaches w b)
  refine Reachable.induct (P := P) h ?_ ?_
  · rintro b ⟨capacity, inner, rfl⟩
    exact ⟨le_rfl, fun _ => ⟨rfl, .start ⟨capacity, inner, rfl⟩⟩⟩
  · rintro b b' - ⟨hnonneg, hb⟩ ⟨hlive, fuel, op, r, hcall⟩
    have hacc := call_accounts hcall
    refine ⟨hnonneg.trans hacc.le, fun hzero => ?_⟩
    have hle := hacc.le
    obtain ⟨hexact, hreach⟩ := hb (by omega)
    have hclean : Clean w b op := by
      by_contra htorn
      have hlt := hacc.tears htorn
      omega
    exact ⟨hacc.keeps hclean hexact, hreach.next ⟨hlive, fuel, op, r, hclean, hcall⟩⟩

lemma cleanReaches_exact (h : CleanReaches w b) : Exact b := by
  refine Reachable.induct (P := Exact) h ?_ ?_
  · rintro b ⟨capacity, inner, rfl⟩
    rfl
  · rintro b b' - hb ⟨-, fuel, op, r, hclean, hcall⟩
    exact (call_accounts hcall).keeps hclean hb

/-! ### `write_all` -/

lemma write_live {r : Result ℕ} (h : write w fuel b data = some (b', r)) : b'.live = b.live := by
  have hbuf : ∀ b : BufWriter σ, (writeBuf w b data).1.live = b.live := by
    intro b
    rw [writeBuf]
    split
    · split <;> rfl
    · rfl
  rw [write] at h
  split at h
  · split at h
    · rename_i b₁ hf
      obtain rfl := congrArg Prod.fst (Option.some.inj h)
      rw [hbuf, (flushBuf_cases hf).2.1]
    · rename_i b₁ e hf
      cases h
      exact (flushBuf_cases hf).2.1
    · cases h
  · obtain rfl := congrArg Prod.fst (Option.some.inj h)
    exact hbuf b

lemma step_write {r : Result ℕ} (hlive : b.live = true) (h : write w fuel b data = some (b', r)) :
    Step w b b' := by
  refine ⟨hlive, fuel, .write data, r.map fun _ => (), ?_⟩
  rw [call, h, Option.map_some]

/-- `write_all` does nothing that `write` does not do. -/
lemma reaches_writeAll (h : Reaches w b) (hlive : b.live = true)
    (hall : Io.writeAll (write w fuel) fuel b data = some (b', r)) : Reaches w b' := by
  let P : BufWriter σ → List UInt8 → Prop := fun b _ => Reaches w b ∧ b.live = true
  have hwrite : ∀ b data b' r, P b data → write w fuel b data = some (b', r) →
      Reaches w b' ∧ b'.live = true := by
    rintro b data b' r ⟨hreach, hlive⟩ hw
    exact ⟨hreach.next (step_write hlive hw), (write_live hw).trans hlive⟩
  obtain ⟨rest, ⟨hreach, -⟩, -⟩ := writeAll_rule (P := P)
    (fun b data b' n hb hw => hwrite b data b' _ hb hw)
    (fun b data b' e hb hw => hwrite b data b' _ hb hw) ⟨h, hlive⟩ hall
  exact hreach

/-- For every writer, every capacity and all sequences of calls, also after errors: the bytes
that the writer has accepted, followed by the buffer, are the bytes that `write` has reported as
accepted if and only if in each call that was to flush the buffer, `write_all` succeeded or failed
with nothing accepted.  So it is with a single call, too.  Then the writer has all of the bytes
after a `flush` that succeeds.  `write_all` reaches only what `write` reaches. -/
theorem bufWriter_delivers (w : Writer σ) (b : BufWriter σ) (h : Reaches w b) :
    (b.inner.accepted ++ b.buf = b.reported ↔ CleanReaches w b) ∧
    (CleanReaches w b → ∀ fuel op b' r, call w fuel b op = some (b', r) →
      (b'.inner.accepted ++ b'.buf = b'.reported ↔ Clean w b op)) ∧
    (CleanReaches w b → ∀ fuel b', call w fuel b .flush = some (b', .ok ()) →
      b'.inner.accepted = b.reported) ∧
    (b.live = true → ∀ fuel data b' r,
      Io.writeAll (write w fuel) fuel b data = some (b', r) → Reaches w b') := by
  refine ⟨⟨fun heq => ?_, cleanReaches_exact⟩, fun hclean fuel op b' r hcall => ?_,
    fun hclean fuel b' hflush => ?_, fun hlive fuel data b' r hall => reaches_writeAll h hlive hall⟩
  · exact ((reaches_accounts h).2 (Exact.surplus_eq heq)).2
  · have hacc := call_accounts hcall
    have hb := cleanReaches_exact hclean
    refine ⟨fun heq => ?_, fun hop => hacc.keeps hop hb⟩
    by_contra htorn
    have hlt := hacc.tears htorn
    rw [hb.surplus_eq, Exact.surplus_eq heq] at hlt
    exact lt_irrefl 0 hlt
  · obtain ⟨hacc, hok⟩ := flush_accounts hflush
    obtain ⟨hbuf, hreported, hop⟩ := hok rfl
    have heq := hacc.keeps hop (cleanReaches_exact hclean)
    rwa [Exact, hbuf, List.append_nil, hreported] at heq

/-! ### Runs -/

/-- One call, with the fuel that it needs. -/
def turn (b : BufWriter (List (Result ℕ))) (op : Op) : BufWriter (List (Result ℕ)) :=
  if b.live then ((call scripted 9 b op).map Prod.fst).getD b else b

lemma turn_step (b : BufWriter (List (Result ℕ))) (op : Op) :
    Step scripted b (turn b op) ∨ turn b op = b := by
  rw [turn]
  split
  · cases h : call scripted 9 b op with
    | none => exact Or.inr rfl
    | some r => exact Or.inl ⟨‹_›, 9, op, r.2, h⟩
  · exact Or.inr rfl

lemma reaches_play (capacity : ℕ) (script : List (Result ℕ)) (ops : List Op) :
    Reaches scripted (ops.foldl turn (withCapacity capacity script)) :=
  Reachable.foldl turn_step (.start ⟨capacity, script, rfl⟩) ops

/-- Short and interrupted writes do no harm. -/
theorem bufWriter_delivers_short : ∃ b, Reaches scripted b ∧ CleanReaches scripted b ∧
    b.inner.accepted = [1, 2] ∧ b.buf = [3, 4, 5] := by
  have hreach := reaches_play 4 [.ok 1, .error .interrupted] [.write [1, 2], .write [3, 4, 5]]
  exact ⟨_, hreach, (bufWriter_delivers scripted _ hreach).1.1 rfl, rfl, rfl⟩

/-- The writer takes one of two bytes and then fails; the next `flush` gives it both. -/
theorem bufWriter_repeats : ∃ b, Reaches scripted b ∧ b.reported = [1, 2] ∧
    b.inner.accepted = [1, 1, 2] ∧ b.buf = [] :=
  ⟨_, reaches_play 4 [.ok 1, .error .wouldBlock] [.write [1, 2], .flush, .flush], rfl, rfl, rfl⟩

end BufWriter

end PureStd.Io
