/-
The parser of DNS answers in `src/net.rs`.

`parse_dns_answers` walks over a datagram by offsets that it takes from the datagram
itself: the counts of the header, the lengths of labels, the lengths of records.  The model
indexes with `Slice.Checked`, so an access outside the message would be a panic.

The loops run over counts; the body of the loop over answers is `answerTurn`, which says
how the loop goes on.
-/
import PureStd.Lib.BigEndian
import PureStd.Lib.Slice
import Mathlib.Tactic

namespace PureStd.Net

open Slice BigEndian

/-- `IpAddr`, by its octets. -/
inductive IpAddr where
  | v4 (octets : Vector UInt8 4)
  | v6 (octets : Vector UInt8 16)
deriving DecidableEq, Repr

/-- The octets of an address. -/
def IpAddr.octets : IpAddr → List UInt8
  | .v4 o => o.toList
  | .v6 o => o.toList

/-- `skip_name`. -/
def skipName (msg : List UInt8) (p : ℕ) : Option ℕ :=
  match h : msg[p]? with
  | none => none
  | some len =>
    if len &&& 0xc0 = 0xc0 then some (p + 2)
    else if len = 0 then some (p + 1)
    else skipName msg (p + (1 + len.toNat))
termination_by msg.length - p
decreasing_by
  have hp := (List.getElem?_eq_some_iff.1 h).1
  omega

/-- What `skip_name` does with the byte it finds. -/
lemma skipName_of_get {msg : List UInt8} {p : ℕ} {len : UInt8} (h : msg[p]? = some len) :
    skipName msg p = if len &&& 0xc0 = 0xc0 then some (p + 2) else
      if len = 0 then some (p + 1) else skipName msg (p + (1 + len.toNat)) := by
  rw [skipName]
  split
  · rename_i hnone
    rw [h] at hnone
    cases hnone
  · rename_i len' hsome
    obtain rfl := Option.some.inj (h.symm.trans hsome)
    rfl

/-- The loop over the question section. -/
def skipQuestions (msg : List UInt8) : ℕ → ℕ → Option ℕ
  | 0, p => some p
  | n + 1, p => (skipName msg p).bind fun p => skipQuestions msg n (p + 4)

/-- `u16::from_be_bytes` of the two bytes at an offset. -/
def readU16 (msg : List UInt8) (p : ℕ) : Checked UInt16 := do
  let hi ← index msg p
  let lo ← index msg (p + 1)
  pure (word16 hi lo)

/-- The address that is pushed for a record of type `rtype` with `rdlen` bytes at `p`. -/
def recordAddr (msg : List UInt8) (qtype rtype rdlen : UInt16) (p : ℕ) :
    Checked (Option IpAddr) :=
  if rtype = qtype then
    if qtype = 1 ∧ rdlen = 4 then do
      let a ← index msg p
      let b ← index msg (p + 1)
      let c ← index msg (p + 2)
      let d ← index msg (p + 3)
      pure (some (.v4 #v[a, b, c, d]))
    else if qtype = 28 ∧ rdlen = 16 then do
      let s ← range msg p (p + 16)
      let o ← copyArray 16 s
      pure (some (.v6 o))
    else pure none
  else pure none

/-- How a turn of the loop over the answers ends. -/
inductive Turn where
  /-- A name that does not end; the function returns `None`. -/
  | invalid
  /-- `break`. -/
  | stop
  | next (p : ℕ) (found : Option IpAddr)
deriving DecidableEq, Repr

/-- The body of the loop over the answers. -/
def answerTurn (msg : List UInt8) (qtype : UInt16) (p : ℕ) : Checked Turn :=
  match skipName msg p with
  | none => pure .invalid
  | some p =>
    if p + 10 > msg.length then pure .stop else do
      let rtype ← readU16 msg p
      let rdlen ← readU16 msg (p + 8)
      if p + 10 + rdlen.toNat > msg.length then pure .stop else do
        let found ← recordAddr msg qtype rtype rdlen (p + 10)
        pure (.next (p + 10 + rdlen.toNat) found)

/-- The loop over the answers. -/
def readAnswers (msg : List UInt8) (qtype : UInt16) :
    ℕ → ℕ → List IpAddr → Checked (Option (List IpAddr))
  | 0, _, out => pure (some out)
  | n + 1, p, out => do
    match ← answerTurn msg qtype p with
    | .invalid => pure none
    | .stop => pure (some out)
    | .next p found => readAnswers msg qtype n p (out ++ found.toList)

/-- `parse_dns_answers`. -/
def parseDnsAnswers (msg : List UInt8) (qtype : UInt16) : Checked (Option (List IpAddr)) :=
  if msg.length < 12 then pure none else do
    let qd ← readU16 msg 4
    let an ← readU16 msg 6
    match skipQuestions msg qd.toNat 12 with
    | none => pure none
    | some p => readAnswers msg qtype an.toNat p []

/-! ### Offsets -/

/-- A name that ends leaves the offset at most one byte behind the message: a compression
pointer may be cut off after its first byte. -/
lemma skipName_le {msg : List UInt8} {p q : ℕ} (h : skipName msg p = some q) :
    q ≤ msg.length + 1 := by
  fun_induction skipName msg p with
  | case1 => cases h
  | case2 _ _ hlen | case3 _ hlen =>
    cases h
    have hp := (List.getElem?_eq_some_iff.1 hlen).1
    omega
  | case4 p len hlen hptr hzero ih => exact ih h

/-- The question section ends at most five bytes behind the message. -/
lemma skipQuestions_le {msg : List UInt8} {n p q : ℕ} (hp : p ≤ msg.length + 5)
    (h : skipQuestions msg n p = some q) : q ≤ msg.length + 5 := by
  induction n generalizing p with
  | zero =>
    cases h
    exact hp
  | succ n ih =>
    obtain ⟨p', hname, hrest⟩ := Option.bind_eq_some_iff.1 h
    have hle := skipName_le hname
    exact ih (by omega) hrest

/-! ### Safety -/

lemma readU16_ok (msg : List UInt8) (p : ℕ) (h : p + 1 < msg.length) :
    readU16 msg p = .ok (word16 msg[p] msg[p + 1]) := by
  rw [readU16, index_of_lt (by omega), index_of_lt h]
  rfl

/-- An address lies in a record of the message: the fixed header, which starts at `p` behind
the record's name, and the `rdlen` bytes of data are inside the message, the type is the one
asked for, and the octets are the data. -/
def InRecord (msg : List UInt8) (qtype : UInt16) (a : IpAddr) : Prop :=
  ∃ start p rdlen, skipName msg start = some p ∧ p + 10 + UInt16.toNat rdlen ≤ msg.length ∧
    readU16 msg p = .ok qtype ∧ readU16 msg (p + 8) = .ok rdlen ∧
    a.octets = (msg.drop (p + 10)).take rdlen.toNat

/-- The data of a record that fits can be read, and the address is the data. -/
lemma recordAddr_ok (msg : List UInt8) (qtype rtype rdlen : UInt16) (p : ℕ)
    (h : p + rdlen.toNat ≤ msg.length) :
    ∃ found, recordAddr msg qtype rtype rdlen p = .ok found ∧
      ∀ a, found = some a → rtype = qtype ∧ a.octets = (msg.drop p).take rdlen.toNat := by
  rw [recordAddr]
  split
  · rename_i hrt
    split
    · rename_i hv4
      have hlen : rdlen.toNat = 4 := by rw [hv4.2]; rfl
      rw [index_of_lt (by omega), index_of_lt (by omega), index_of_lt (by omega),
        index_of_lt (by omega)]
      refine ⟨_, rfl, ?_⟩
      intro a ha
      cases ha
      refine ⟨hrt, ?_⟩
      rw [hlen]
      apply List.ext_getElem
      · simp [IpAddr.octets]; omega
      · intro i hi hi'
        have hi4 : i < 4 := by simpa [IpAddr.octets] using hi
        interval_cases i <;> simp [IpAddr.octets]
    · split
      · rename_i hv6
        have hlen : rdlen.toNat = 16 := by rw [hv6.2]; rfl
        have hcut : ((msg.drop p).take 16).length = 16 := by
          rw [List.length_take, List.length_drop]; omega
        rw [range_of_le (by omega) (by omega), Nat.add_sub_cancel_left, ok_bind,
          copyArray_of_length hcut]
        refine ⟨_, rfl, ?_⟩
        intro a ha
        cases ha
        refine ⟨hrt, ?_⟩
        rw [hlen]
        rfl
      · exact ⟨none, rfl, fun a ha => by cases ha⟩
  · exact ⟨none, rfl, fun a ha => by cases ha⟩

/-- A turn makes no access outside the message, the record that it reads is inside the message,
and an address it finds lies in the record. -/
lemma answerTurn_ok (msg : List UInt8) (qtype : UInt16) (p : ℕ) :
    ∃ t, answerTurn msg qtype p = .ok t ∧ ∀ p' found, t = .next p' found →
      p' ≤ msg.length ∧ ∀ a, found = some a → InRecord msg qtype a := by
  rw [answerTurn]
  split
  · exact ⟨.invalid, rfl, fun p' found ha => by cases ha⟩
  · rename_i q hname
    split
    · exact ⟨.stop, rfl, fun p' found ha => by cases ha⟩
    · rename_i hfix
      have hrtype := readU16_ok msg q (by omega)
      have hrdlen := readU16_ok msg (q + 8) (by omega)
      rw [hrtype, hrdlen, ok_bind, ok_bind]
      split
      · exact ⟨.stop, rfl, fun p' found ha => by cases ha⟩
      · rename_i hfit
        obtain ⟨found, hfound, hoct⟩ := recordAddr_ok msg qtype (word16 msg[q] msg[q + 1])
          (word16 msg[q + 8] msg[q + 8 + 1]) (q + 10) (Nat.le_of_not_gt hfit)
        rw [hfound]
        refine ⟨_, rfl, ?_⟩
        intro p' found' hnext
        obtain ⟨rfl, rfl⟩ := Turn.next.inj hnext
        refine ⟨Nat.le_of_not_gt hfit, fun a ha => ?_⟩
        obtain ⟨htype, ho⟩ := hoct a ha
        exact ⟨p, q, _, hname, by omega, by rw [hrtype, htype], hrdlen, ho⟩

/-- The loop over the answers keeps "every address found lies in a record". -/
lemma readAnswers_ok (msg : List UInt8) (qtype : UInt16) (n p : ℕ) (out : List IpAddr)
    (hout : ∀ a ∈ out, InRecord msg qtype a) :
    ∃ r, readAnswers msg qtype n p out = .ok r ∧
      ∀ out', r = some out' → ∀ a ∈ out', InRecord msg qtype a := by
  induction n generalizing p out with
  | zero =>
    refine ⟨some out, rfl, ?_⟩
    rintro out' ⟨⟩
    exact hout
  | succ n ih =>
    obtain ⟨t, ht, hfound⟩ := answerTurn_ok msg qtype p
    rw [readAnswers, ht, ok_bind]
    cases t with
    | invalid => exact ⟨none, rfl, fun out' ha => by cases ha⟩
    | stop =>
      refine ⟨some out, rfl, ?_⟩
      rintro out' ⟨⟩
      exact hout
    | next p' found =>
      apply ih
      intro a ha
      rcases List.mem_append.1 ha with hold | hnew
      · exact hout a hold
      · rw [Option.mem_toList] at hnew
        exact (hfound p' found rfl).2 a hnew

lemma parseDnsAnswers_ok (msg : List UInt8) (qtype : UInt16) :
    ∃ r, parseDnsAnswers msg qtype = .ok r ∧
      ∀ out, r = some out → ∀ a ∈ out, InRecord msg qtype a := by
  rw [parseDnsAnswers]
  split
  · exact ⟨none, rfl, fun out ha => by cases ha⟩
  · rename_i hlen
    rw [readU16_ok msg 4 (by omega), readU16_ok msg 6 (by omega), ok_bind, ok_bind]
    split
    · exact ⟨none, rfl, fun out ha => by cases ha⟩
    · exact readAnswers_ok msg qtype _ _ [] (fun a ha => by cases ha)

/-- On any message and any query type `parse_dns_answers` returns, so all its accesses are in
range, and every address it returns was read from the data of a record that fits.  No offset is more
than five bytes behind the message, so none leaves `usize`: the message is a slice of at most
`isize::MAX` bytes, and what is added to an offset has at most sixteen bits. -/
theorem parseDnsAnswers_safe (msg : List UInt8) (qtype : UInt16) :
    (∃ r, parseDnsAnswers msg qtype = .ok r ∧
      ∀ out, r = some out → ∀ a ∈ out, InRecord msg qtype a) ∧
    (12 ≤ msg.length → ∀ n p, skipQuestions msg n 12 = some p → p ≤ msg.length + 5) ∧
    ∀ p, (∀ q, skipName msg p = some q → q ≤ msg.length + 1) ∧
      ∀ p' found, answerTurn msg qtype p = .ok (.next p' found) → p' ≤ msg.length := by
  refine ⟨parseDnsAnswers_ok msg qtype, fun _ _ _ h => skipQuestions_le (by omega) h,
    fun p => ⟨fun _ h => skipName_le h, fun p' found h => ?_⟩⟩
  obtain ⟨t, ht, hnext⟩ := answerTurn_ok msg qtype p
  exact (hnext p' found (Except.ok.inj (ht.symm.trans h))).1

end PureStd.Net
