/-
`BufRead::read_line` and `BufRead::lines` of `src/io.rs`, over `BufReader`.

The bytes that a `BufReader` still has are those in its buffer and those the reader has not yet
delivered.  `read_until` takes them up to the first delimiter, however they are cut
(`readUntil_returns`).  The pieces between newlines are then what `lines` yields
(`lines_collect`).
-/
import PureStd.Io.BufReader
import PureStd.Io.Streams
import PureStd.Lib.Separators
import PureStd.Lib.Utf8

namespace PureStd.Io

open Separators Utf8 Fuel

variable {σ : Type*}

/-! ### The code -/

namespace BufReader

variable (rd : Reader σ)

/-- What `read_line` does with the bytes that `read_until` has put into a new vector. -/
def pushLine (buf : Str) : BufReader σ × List UInt8 × Result ℕ → BufReader σ × Str × Result ℕ
  | (b, bytes, .ok n) =>
    match Str.fromUtf8 bytes with
    | some s => (b, buf.pushStr s, .ok n)
    | none => (b, buf, .error .invalidData)
  | (b, _, .error e) => (b, buf, .error e)

/-- `read_line`. -/
def readLine (fuel : ℕ) (b : BufReader σ) (buf : Str) : Option (BufReader σ × Str × Result ℕ) :=
  (b.readUntil rd 10 fuel [] 0).map (pushLine buf)

/-- The line without its terminator. -/
def trimNewline (line : Str) : Str :=
  if h : line.bytes.getLast? = some 10 then
    let line := line.pop (by decide) h
    if h : line.bytes.getLast? = some 13 then line.pop (by decide) h else line
  else line

/-- What `Lines::next` makes of the result of `read_line`. -/
def lineItem : BufReader σ × Str × Result ℕ → BufReader σ × Option (Result Str)
  | (b, _, .ok 0) => (b, none)
  | (b, line, .ok _) => (b, some (.ok (trimNewline line)))
  | (b, _, .error e) => (b, some (.error e))

/-- `Lines::next`. -/
def nextLine (fuel : ℕ) (b : BufReader σ) : Option (BufReader σ × Option (Result Str)) :=
  (b.readLine rd fuel default).map lineItem

/-- The items that `lines` yields. -/
def collectLines : ℕ → BufReader σ → Option (List (Result Str))
  | 0, _ => none
  | fuel + 1, b =>
    (b.nextLine rd fuel).bind fun
      | (_, none) => some []
      | (b, some item) => (collectLines fuel b).map (item :: ·)

end BufReader

/-! ### The bytes that are left -/

namespace Stream

variable {rd : Reader σ} {Allowed : ErrorKind → Prop} (S : Stream rd Allowed)

/-- The bytes that a `BufReader` still has. -/
def left (b : BufReader σ) : List UInt8 := b.available ++ S.rest b.inner.state

/-- A `BufReader` with a buffer, over a good reader. -/
structure Ready (b : BufReader σ) : Prop where
  good : S.Good b.inner.state
  cap_le : b.cap ≤ b.buf.length
  buf_ne_nil : b.buf ≠ []

/-- The `BufReader` has come closer to its end or to the next success of the reader. -/
def Nearer : BufReader σ → BufReader σ → Prop :=
  Closer fun b => (S.left b, S.delay b.inner.state)

lemma left_withCapacity (capacity : ℕ) (s : σ) :
    S.left (.withCapacity capacity s) = S.rest s := by
  have hnil : (BufReader.withCapacity capacity s).available = [] :=
    BufReader.available_eq_nil (Nat.le_refl 0)
  rw [left, hnil]
  rfl

variable {S} {b b' : BufReader σ}

lemma ready_withCapacity {capacity : ℕ} (hcap : capacity ≠ 0) {s : σ} (hs : S.Good s) :
    S.Ready (.withCapacity capacity s) := by
  refine ⟨hs, Nat.zero_le _, ?_⟩
  show List.replicate capacity 0 ≠ []
  simpa using hcap

lemma Ready.consume (hb : S.Ready b) (amt : ℕ) : S.Ready (b.consume amt) :=
  ⟨hb.good, hb.cap_le, hb.buf_ne_nil⟩

lemma left_consume (b : BufReader σ) (amt : ℕ) :
    S.left b = b.available.take amt ++ S.left (b.consume amt) := by
  rw [left, left, BufReader.available_consume, ← List.append_assoc, List.take_append_drop]
  rfl

/-- `fill_buf` returns what is in the buffer, and nothing only at the end. -/
lemma Ready.fillBuf_ok {a : List UInt8} (hb : S.Ready b) (h : b.fillBuf rd = (b', .ok a)) :
    S.Ready b' ∧ a = b'.available ∧ S.left b' = S.left b ∧ (a = [] → S.left b = []) := by
  rw [BufReader.fillBuf] at h
  split at h
  · rename_i hempty
    have hleft : S.left b = S.rest b.inner.state := by
      rw [left, BufReader.available_eq_nil hempty, List.nil_append]
    split at h
    · rename_i i buf n hget
      obtain ⟨hn, hlen, -⟩ := Reader.get_ok hget
      obtain ⟨hgood, hrest, hzero⟩ := S.get_ok hb.good hb.buf_ne_nil hget
      obtain ⟨rfl, ha⟩ := Prod.mk.inj h
      cases ha
      have hbuf := Reader.get_ne_nil hb.buf_ne_nil hget
      refine ⟨⟨hgood, hlen ▸ hn, hbuf⟩, rfl, ?_, fun hnil => ?_⟩
      · rw [hleft, hrest]
        rfl
      · rw [hleft]
        apply hzero
        have hlength := congrArg List.length hnil
        show n = 0
        simp only [BufReader.available, List.drop_zero, List.length_take, List.length_nil]
          at hlength
        omega
    · cases h
  · rename_i hnot
    obtain ⟨rfl, ha⟩ := Prod.mk.inj h
    cases ha
    refine ⟨hb, rfl, rfl, fun hnil => ?_⟩
    have hlength := congrArg List.length hnil
    have hcap := hb.cap_le
    simp only [BufReader.available, List.length_drop, List.length_take, List.length_nil] at hlength
    omega

/-- `fill_buf` fails only if the buffer is empty, and then loses nothing. -/
lemma Ready.fillBuf_error {e : ErrorKind} (hb : S.Ready b) (h : b.fillBuf rd = (b', .error e)) :
    S.Ready b' ∧ Allowed e ∧ S.left b' = S.left b ∧ S.Nearer b' b := by
  rw [BufReader.fillBuf] at h
  split at h
  · rename_i hempty
    split at h
    · cases h
    · rename_i i buf e' hget
      have hlen := (Reader.get_error hget).1
      obtain ⟨he, hgood, hrest, hdelay⟩ :=
        S.read_error hb.good hb.buf_ne_nil (Reader.read_of_get hget)
      cases h
      have hbuf := Reader.get_ne_nil hb.buf_ne_nil hget
      have hnil : BufReader.available { b with inner := i, buf := buf } = [] :=
        BufReader.available_eq_nil hempty
      have hleft : S.left { b with inner := i, buf := buf } = S.left b := by
        rw [left, left, hnil, BufReader.available_eq_nil hempty, hrest]
      exact ⟨⟨hgood, hlen ▸ hb.cap_le, hbuf⟩, he, hleft, Or.inr ⟨hleft, hdelay⟩⟩
  · cases h

/-- One turn of the loop of `read_until`: it is done, it goes on, or it fails. -/
lemma Ready.readUntil_turn (hb : S.Ready b) (delim : UInt8) :
    (∃ b' more, (∀ fuel out n, b.readUntil rd delim (fuel + 1) out n =
        some (b', out ++ more, .ok (n + more.length))) ∧
      S.Ready b' ∧ S.left b = more ++ S.left b' ∧ more = upTo delim (S.left b)) ∨
    (∃ b' more, (∀ fuel out n, b.readUntil rd delim (fuel + 1) out n =
        b'.readUntil rd delim fuel (out ++ more) (n + more.length)) ∧
      S.Ready b' ∧ S.left b = more ++ S.left b' ∧ delim ∉ more ∧ S.Nearer b' b) ∨
    ∃ b' e, (∀ fuel out n, b.readUntil rd delim (fuel + 1) out n = some (b', out, .error e)) ∧
      S.Ready b' ∧ S.left b' = S.left b ∧ Allowed e ∧ e ≠ .interrupted ∧ S.Nearer b' b := by
  cases hf : b.fillBuf rd with
  | mk b₁ r =>
    cases r with
    | ok a =>
      obtain ⟨hb₁, rfl, hleft, hend⟩ := hb.fillBuf_ok hf
      have hall := left_consume (S := S) b₁ b₁.available.length
      rw [List.take_length] at hall
      cases hi : b₁.available.findIdx? (· = delim) with
      | some i =>
        have hlt : i < b₁.available.length := (List.findIdx?_eq_some_iff_findIdx_eq.1 hi).1
        have hlen : (b₁.available.take (i + 1)).length = i + 1 := by
          rw [List.length_take]
          omega
        refine Or.inl ⟨b₁.consume (i + 1), b₁.available.take (i + 1), fun fuel out n => ?_,
          hb₁.consume _, ?_, ?_⟩
        · simp only [BufReader.readUntil, hf, hi, hlen]
        · rw [← hleft, ← left_consume]
        · rw [← hleft, left, upTo_append_of_findIdx? hi]
      | none =>
        by_cases hzero : b₁.available.length = 0
        · have hnil := List.eq_nil_of_length_eq_zero hzero
          refine Or.inl ⟨b₁.consume 0, b₁.available, fun fuel out n => ?_, hb₁.consume _, ?_,
            ?_⟩
          · simp only [BufReader.readUntil, hf, hi, hzero, if_true, Nat.add_zero]
          · rw [← hleft, ← hzero]
            exact hall
          · rw [hend hnil, hnil]
            rfl
        · refine Or.inr (Or.inl ⟨b₁.consume b₁.available.length, b₁.available,
            fun fuel out n => ?_, hb₁.consume _, hleft ▸ hall, findIdx?_eq_none.1 hi, ?_⟩)
          · simp only [BufReader.readUntil, hf, hi, hzero, if_false]
          · left
            show (S.left _).length < (S.left b).length
            rw [← hleft, hall, List.length_append]
            omega
    | error e =>
      obtain ⟨hb₁, hallowed, hleft, hnear⟩ := hb.fillBuf_error hf
      by_cases he : e = .interrupted
      · subst he
        refine Or.inr (Or.inl ⟨b₁, [], fun fuel out n => ?_, hb₁, hleft.symm, by simp, hnear⟩)
        simp only [BufReader.readUntil, hf, List.append_nil, List.length_nil, Nat.add_zero]
      · refine Or.inr (Or.inr ⟨b₁, e, fun fuel out n => ?_, hb₁, hleft, hallowed, he, hnear⟩)
        simp only [BufReader.readUntil, hf]

/-- `read_until` takes the bytes up to the delimiter, or fails on its way with an error that is
not an interruption. -/
lemma Ready.readUntil_returns (hb : S.Ready b) (delim : UInt8) (out : List UInt8) (n : ℕ) :
    ∃ b' more r, Returns (fun fuel => b.readUntil rd delim fuel out n) (b', out ++ more, r) ∧
      S.Ready b' ∧ S.left b = more ++ S.left b' ∧
      ((r = .ok (n + more.length) ∧ more = upTo delim (S.left b)) ∨
        ∃ e, r = .error e ∧ Allowed e ∧ e ≠ .interrupted ∧ S.Nearer b' b) := by
  induction b using (closer_wf fun b => (S.left b, S.delay b.inner.state)).induction
    generalizing out n with
  | _ b ih =>
    obtain ⟨b', more, hturn, hb', hleft, hmore⟩ |
      ⟨b₁, more₁, hturn, hb₁, hleft, hnot, hnear⟩ |
      ⟨b', e, hturn, hb', hleft, he, hhard, hnear⟩ := hb.readUntil_turn delim
    · exact ⟨b', more, _, Returns.now fun fuel => hturn fuel out n, hb', hleft,
        Or.inl ⟨rfl, hmore⟩⟩
    · obtain ⟨b', more, r, hret, hb', hmore, hr⟩ := ih b₁ hnear hb₁ (out ++ more₁)
        (n + more₁.length)
      refine ⟨b', more₁ ++ more, r, ?_, hb', ?_, ?_⟩
      · rw [← List.append_assoc]
        exact Returns.step (fun fuel => hturn fuel out n) hret
      · rw [hleft, hmore, List.append_assoc]
      · rcases hr with ⟨hok, hupTo⟩ | ⟨e, he, hallowed, hhard, hnear'⟩
        · refine Or.inl ⟨?_, ?_⟩
          · rw [hok, List.length_append, Nat.add_assoc]
          · rw [hleft, upTo_append hnot, hupTo]
        · exact Or.inr ⟨e, he, hallowed, hhard, hnear'.trans hnear⟩
    · exact ⟨b', [], .error e, Returns.now fun fuel => by rw [hturn, List.append_nil], hb',
        hleft.symm, Or.inr ⟨e, rfl, he, hhard, hnear⟩⟩

end Stream

/-! ### The lines of a text -/

/-- A piece that a newline ended: one carriage return before the newline is not part of the
line. -/
def withoutCr (piece : List UInt8) : List UInt8 :=
  if piece.getLast? = some 13 then piece.dropLast else piece

/-- The pieces between newlines.  The last one has no newline, and is a line if it is not
empty. -/
def linesOf (text : List UInt8) : List (List UInt8) :=
  (text.splitOn 10).dropLast.map withoutCr ++ (text.splitOn 10).getLast?.toList.filter (· ≠ [])

variable {a t text : List UInt8}

lemma linesOf_append_cons (h : 10 ∉ a) (t : List UInt8) :
    linesOf (a ++ 10 :: t) = withoutCr a :: linesOf t := by
  have hne := List.splitOn_ne_nil 10 t
  rw [linesOf, List.splitOn_append_cons_self, List.splitOn_eq_singleton h, List.singleton_append,
    List.dropLast_cons_of_ne_nil hne, List.getLast?_cons_of_ne_nil hne]
  rfl

lemma linesOf_of_not_mem (h : 10 ∉ text) (hne : text ≠ []) : linesOf text = [text] := by
  rw [linesOf, List.splitOn_eq_singleton h]
  simp [hne]

/-- A line of a valid text and what follows it are valid. -/
lemma valid_upTo (h : Valid text) (htext : text = upTo 10 text ++ t) :
    Valid (upTo 10 text) ∧ Valid t := by
  by_cases hmem : 10 ∈ text
  · obtain ⟨a, rest, rfl, hnot⟩ := List.eq_append_cons_of_mem hmem
    rw [upTo_append_cons hnot] at htext ⊢
    obtain ⟨ha, hrest⟩ := h.split_ascii (by decide)
    have ht : rest = t := by simpa using htext
    exact ⟨ha.append (by decide), ht ▸ hrest⟩
  · rw [upTo_of_not_mem hmem] at htext ⊢
    have ht : t = [] := by simpa using htext
    exact ⟨h, ht ▸ valid_nil⟩

namespace BufReader

lemma trimNewline_newline {s : Str} (h : s.bytes = a ++ [10]) :
    (trimNewline s).bytes = withoutCr a := by
  have hlast : s.bytes.getLast? = some 10 := by simp [h]
  have hpop : (s.pop (by decide) hlast).bytes = a := by
    show s.bytes.dropLast = a
    rw [h, List.dropLast_concat]
  rw [trimNewline, dif_pos hlast, withoutCr]
  simp only [← hpop]
  split_ifs <;> rfl

lemma trimNewline_of_not_mem {s : Str} (h : 10 ∉ s.bytes) : trimNewline s = s := by
  rw [trimNewline, dif_neg]
  exact fun hlast => h (List.mem_of_getLast? hlast)

/-- The lines of a text are its first line and the lines of the rest. -/
lemma linesOf_upTo {s : Str} (hs : s.bytes = upTo 10 text) (htext : text = s.bytes ++ t) :
    linesOf text = if s.bytes = [] then [] else (trimNewline s).bytes :: linesOf t := by
  by_cases hmem : 10 ∈ text
  · obtain ⟨a, rest, rfl, hnot⟩ := List.eq_append_cons_of_mem hmem
    rw [upTo_append_cons hnot] at hs
    have ht : rest = t := by simpa [hs] using htext
    rw [linesOf_append_cons hnot, trimNewline_newline hs, if_neg (by simp [hs]), ht]
  · rw [upTo_of_not_mem hmem] at hs
    have ht : t = [] := by simpa [hs] using htext
    split_ifs with hnil
    · rw [← hs, hnil]
      rfl
    · rw [linesOf_of_not_mem hmem (hs ▸ hnil), trimNewline_of_not_mem (hs ▸ hmem), ht, hs]
      rfl

end BufReader

namespace Stream

variable {rd : Reader σ} {S : Stream rd Interrupted} {b : BufReader σ}

/-- `read_line` over a reader that is only interrupted appends the first line. -/
lemma Ready.readLine_returns (hb : S.Ready b) (hvalid : Valid (S.left b)) (buf : Str) :
    ∃ b' s, Returns (fun fuel => b.readLine rd fuel buf) (b', buf.pushStr s, .ok s.bytes.length) ∧
      S.Ready b' ∧ S.left b = s.bytes ++ S.left b' ∧ s.bytes = upTo 10 (S.left b) ∧
      Valid (S.left b') := by
  obtain ⟨b', more, r, hret, hb', hleft, ⟨rfl, hmore⟩ | ⟨e, -, he, hhard, -⟩⟩ :=
    hb.readUntil_returns 10 [] 0
  · obtain ⟨hline, hrest⟩ := valid_upTo hvalid (hmore ▸ hleft)
    rw [← hmore] at hline
    have hpush : BufReader.pushLine buf (b', [] ++ more, .ok (0 + more.length)) =
        (b', buf.pushStr ⟨more, hline⟩, .ok more.length) := by
      simp only [BufReader.pushLine, List.nil_append, Str.fromUtf8_of_valid hline, Nat.zero_add]
    refine ⟨b', ⟨more, hline⟩, ?_, hb', hleft, hmore, hrest⟩
    rw [← hpush]
    exact hret.map
  · exact absurd he hhard

/-- `Lines::next` yields the first line. -/
lemma Ready.nextLine_returns (hb : S.Ready b) (hvalid : Valid (S.left b)) :
    ∃ b' item, Returns (fun fuel => b.nextLine rd fuel) (b', item) ∧ S.Ready b' ∧
      Valid (S.left b') ∧
      ((item = none ∧ linesOf (S.left b) = []) ∨
        ∃ line, item = some (.ok line) ∧ linesOf (S.left b) = line.bytes :: linesOf (S.left b') ∧
          (S.left b').length < (S.left b).length) := by
  obtain ⟨b', s, hret, hb', hleft, hs, hvalid'⟩ := hb.readLine_returns hvalid default
  have hlines := BufReader.linesOf_upTo hs hleft
  have hmap : Returns (fun fuel => b.nextLine rd fuel)
      (BufReader.lineItem (b', s, .ok s.bytes.length)) := hret.map
  by_cases hnil : s.bytes = []
  · rw [hnil] at hmap
    exact ⟨b', none, hmap, hb', hvalid', Or.inl ⟨rfl, by rw [hlines, if_pos hnil]⟩⟩
  · have hlen : s.bytes.length ≠ 0 := by simpa using hnil
    obtain ⟨k, hk⟩ := Nat.exists_eq_succ_of_ne_zero hlen
    rw [hk] at hmap
    refine ⟨b', some (.ok (BufReader.trimNewline s)), hmap, hb', hvalid',
      Or.inr ⟨_, rfl, by rw [hlines, if_neg hnil], ?_⟩⟩
    rw [hleft, List.length_append]
    omega

lemma Ready.collectLines_returns (hb : S.Ready b) (hvalid : Valid (S.left b)) :
    ∃ items, Returns (fun fuel => b.collectLines rd fuel) items ∧
      items.map (Except.map Str.bytes) = (linesOf (S.left b)).map .ok := by
  induction hn : (S.left b).length using Nat.strong_induction_on generalizing b with
  | _ n ih =>
    obtain ⟨b', item, hret, hb', hvalid', ⟨rfl, hnil⟩ | ⟨line, rfl, hlines, hlt⟩⟩ :=
      hb.nextLine_returns hvalid
    · refine ⟨[], Returns.step (fun fuel => rfl) (hret.bind ?_), by rw [hnil]; rfl⟩
      exact ⟨0, fun fuel _ => rfl⟩
    · obtain ⟨items, hitems, heq⟩ := ih _ (hn ▸ hlt) hb' hvalid' rfl
      refine ⟨.ok line :: items, Returns.step (fun fuel => rfl) (hret.bind hitems.map), ?_⟩
      rw [hlines, List.map_cons, List.map_cons, heq]
      rfl

/-- For every reader that delivers a valid text, in chunks of any sizes and with any
interruptions, and every capacity: `lines` yields the lines of the text. -/
theorem lines_collect (S : Stream rd Interrupted) {s : σ} (hs : S.Good s)
    (hvalid : Valid (S.rest s)) {capacity : ℕ} (hcap : capacity ≠ 0) :
    ∃ items, Returns (fun fuel => (BufReader.withCapacity capacity s).collectLines rd fuel) items ∧
      items.map (Except.map Str.bytes) = (linesOf (S.rest s)).map .ok := by
  have hleft := S.left_withCapacity capacity s
  rw [← hleft] at hvalid ⊢
  exact (ready_withCapacity hcap hs).collectLines_returns hvalid

/-- A line that ends with a carriage return and a newline in different chunks, an interruption
between them, an empty line and a line without an end. -/
theorem lines_collect_cut :
    ∃ items, Returns (fun fuel => (BufReader.withCapacity 2
        [.ok [97, 13], .error .interrupted, .ok [10, 10, 98]]).collectLines chunked fuel) items ∧
      items.map (Except.map Str.bytes) = [.ok [97], .ok [], .ok [98]] := by
  have hgood : Script Interrupted [.ok [97, 13], .error .interrupted, .ok [10, 10, 98]] := by
    intro r hr
    fin_cases hr <;> simp [Interrupted]
  have htwo : (2 : ℕ) ≠ 0 := by decide
  exact lines_collect (chunkedStream Interrupted) hgood (by decide) htwo

end Stream

end PureStd.Io
