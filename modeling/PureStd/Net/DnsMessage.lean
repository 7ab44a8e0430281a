/-
DNS responses, and what the parser of `src/net.rs` makes of them.

A response is given by its parts, as RFC 1035 lays them out: a header of twelve bytes, then
the questions, the answers and two more sections of records.  A name is a sequence of labels
of one to 63 bytes that ends with the zero byte or with a compression pointer.  The parts
carry their bounds, so that every value of `Response` has an encoding.

The parser is followed along an encoded response part by part: each lemma says what it does
at the offset where a part starts, with any bytes before and behind.
-/
import PureStd.Net.Dns

namespace PureStd.Net

open Slice BigEndian

/-! ### The grammar -/

/-- A label of a name. -/
structure Label where
  bytes : List UInt8
  nonempty : 0 < bytes.length
  le_63 : bytes.length ≤ 63

/-- How a name ends. -/
inductive NameEnd where
  | root
  /-- A compression pointer, with its 14 bits of offset. -/
  | pointer (offset : Fin (2 ^ 14))

structure Name where
  labels : List Label
  ending : NameEnd

structure Question where
  name : Name
  qtype : UInt16
  qclass : UInt16

structure ResourceRecord where
  name : Name
  rtype : UInt16
  rclass : UInt16
  ttl : UInt32
  rdata : List UInt8
  rdata_le : rdata.length ≤ 65535

structure Response where
  id : UInt16
  flags : UInt16
  questions : List Question
  answers : List ResourceRecord
  authority : List ResourceRecord
  additional : List ResourceRecord
  questions_le : questions.length ≤ 65535
  answers_le : answers.length ≤ 65535

/-- The types of address that are asked for. -/
inductive QueryType where
  | a
  | aaaa
deriving DecidableEq, Repr

def QueryType.code : QueryType → UInt16
  | .a => 1
  | .aaaa => 28

/-- The address in a record, if it is an address record of the type asked for. -/
def ResourceRecord.address (r : ResourceRecord) : QueryType → Option IpAddr
  | .a =>
    if h : r.rtype = 1 ∧ r.rdata.length = 4 then
      some (.v4 ⟨r.rdata.toArray, by simpa using h.2⟩)
    else none
  | .aaaa =>
    if h : r.rtype = 28 ∧ r.rdata.length = 16 then
      some (.v6 ⟨r.rdata.toArray, by simpa using h.2⟩)
    else none

/-! ### The encoding -/

def Label.encode (l : Label) : List UInt8 := UInt8.ofNat l.bytes.length :: l.bytes

def NameEnd.encode : NameEnd → List UInt8
  | .root => [0]
  | .pointer offset => [UInt8.ofNat (0xc0 + offset.val / 256), UInt8.ofNat offset.val]

def Name.encode (n : Name) : List UInt8 := n.labels.flatMap Label.encode ++ n.ending.encode

def Question.encode (q : Question) : List UInt8 :=
  q.name.encode ++ (bytes16 q.qtype ++ bytes16 q.qclass)

/-- The fixed part of a record, between its name and its data, up to the data's length. -/
def ResourceRecord.header (r : ResourceRecord) : List UInt8 :=
  bytes16 r.rtype ++ (bytes16 r.rclass ++ bytes32 r.ttl)

/-- The length of a record's data, as the record gives it. -/
def ResourceRecord.rdlength (r : ResourceRecord) : UInt16 := UInt16.ofNat r.rdata.length

def ResourceRecord.encode (r : ResourceRecord) : List UInt8 :=
  r.name.encode ++ (r.header ++ (bytes16 r.rdlength ++ r.rdata))

/-- The identification, the flags and the counts of the four sections. -/
def Response.header (r : Response) : List UInt8 :=
  bytes16 r.id ++ (bytes16 r.flags ++ (bytes16 (UInt16.ofNat r.questions.length) ++
    (bytes16 (UInt16.ofNat r.answers.length) ++ (bytes16 (UInt16.ofNat r.authority.length) ++
      bytes16 (UInt16.ofNat r.additional.length)))))

/-- The four sections. -/
def Response.body (r : Response) : List UInt8 :=
  r.questions.flatMap Question.encode ++ (r.answers.flatMap ResourceRecord.encode ++
    (r.authority.flatMap ResourceRecord.encode ++ r.additional.flatMap ResourceRecord.encode))

def Response.encode (r : Response) : List UInt8 := r.header ++ r.body

@[simp] lemma ResourceRecord.length_header (r : ResourceRecord) : r.header.length = 8 := rfl

@[simp] lemma Response.length_header (r : Response) : r.header.length = 12 := rfl

lemma ResourceRecord.toNat_rdlength (r : ResourceRecord) :
    r.rdlength.toNat = r.rdata.length := by
  have hle := r.rdata_le
  rw [rdlength, UInt16.toNat_ofNat']
  omega

lemma ResourceRecord.length_encode (r : ResourceRecord) :
    r.encode.length = r.name.encode.length + 10 + r.rdata.length := by
  simp only [encode, List.length_append, length_header, length_bytes16]
  omega

/-! ### Names -/

lemma label_byte_not_pointer : ∀ n : Fin 64, ¬ UInt8.ofNat n.val &&& 0xc0 = 0xc0 := by decide

lemma label_byte_pos : ∀ n : Fin 64, 0 < n.val → UInt8.ofNat n.val ≠ 0 := by decide

lemma pointer_byte : ∀ n : Fin 64, UInt8.ofNat (0xc0 + n.val) &&& 0xc0 = 0xc0 := by decide

lemma Label.toNat_length (l : Label) : (UInt8.ofNat l.bytes.length).toNat = l.bytes.length := by
  have hle := l.le_63
  rw [UInt8.toNat_ofNat']
  omega

/-- At a label, `skip_name` goes on behind it. -/
lemma skipName_label (pre post : List UInt8) (l : Label) :
    skipName (pre ++ (l.encode ++ post)) pre.length =
      skipName (pre ++ (l.encode ++ post)) (pre.length + l.encode.length) := by
  have hbyte : (pre ++ (l.encode ++ post))[pre.length]? = some (UInt8.ofNat l.bytes.length) := by
    simp [Label.encode]
  have hlen := l.le_63
  have hptr := label_byte_not_pointer ⟨l.bytes.length, by omega⟩
  have hzero := label_byte_pos ⟨l.bytes.length, by omega⟩ l.nonempty
  rw [skipName_of_get hbyte, if_neg hptr, if_neg hzero, l.toNat_length, Label.encode,
    List.length_cons, Nat.add_comm 1]

/-- At the end of a name, `skip_name` stops behind it. -/
lemma skipName_ending (pre post : List UInt8) (e : NameEnd) :
    skipName (pre ++ (e.encode ++ post)) pre.length = some (pre.length + e.encode.length) := by
  cases e with
  | root =>
    have hbyte : (pre ++ (NameEnd.root.encode ++ post))[pre.length]? = some 0 := by
      simp [NameEnd.encode]
    rw [skipName_of_get hbyte]
    rfl
  | pointer offset =>
    have hoff := offset.isLt
    have hbyte : (pre ++ ((NameEnd.pointer offset).encode ++ post))[pre.length]? =
        some (UInt8.ofNat (0xc0 + offset.val / 256)) := by
      simp [NameEnd.encode]
    rw [skipName_of_get hbyte, if_pos (pointer_byte ⟨offset.val / 256, by omega⟩)]
    rfl

lemma skipName_encode (pre post : List UInt8) (n : Name) :
    skipName (pre ++ (n.encode ++ post)) pre.length = some (pre.length + n.encode.length) := by
  obtain ⟨labels, ending⟩ := n
  induction labels generalizing pre with
  | nil => simpa [Name.encode] using skipName_ending pre post ending
  | cons l labels ih =>
    have hsplit : Name.encode ⟨l :: labels, ending⟩ =
        l.encode ++ Name.encode ⟨labels, ending⟩ := by
      simp [Name.encode]
    have hrest := ih (pre ++ l.encode)
    rw [hsplit, List.append_assoc, skipName_label, List.length_append]
    rw [List.append_assoc, List.length_append] at hrest
    rw [hrest, Nat.add_assoc]

/-! ### Questions -/

lemma skipQuestions_encode (pre post : List UInt8) (qs : List Question) :
    skipQuestions (pre ++ (qs.flatMap Question.encode ++ post)) qs.length pre.length =
      some (pre.length + (qs.flatMap Question.encode).length) := by
  induction qs generalizing pre with
  | nil => rfl
  | cons q qs ih =>
    have hrest := ih (pre ++ q.encode)
    have hlen : q.encode.length = q.name.encode.length + 4 := by simp [Question.encode]
    have hname := skipName_encode pre
      (bytes16 q.qtype ++ bytes16 q.qclass ++ (qs.flatMap Question.encode ++ post)) q.name
    have hmsg : pre ++ ((q :: qs).flatMap Question.encode ++ post) =
        pre ++ (q.name.encode ++
          (bytes16 q.qtype ++ bytes16 q.qclass ++ (qs.flatMap Question.encode ++ post))) := by
      simp [Question.encode]
    have hmsg' : pre ++ ((q :: qs).flatMap Question.encode ++ post) =
        pre ++ q.encode ++ (qs.flatMap Question.encode ++ post) := by
      simp
    rw [List.length_cons, skipQuestions, hmsg, hname, Option.bind_some, ← hmsg, hmsg',
      Nat.add_assoc, ← hlen, ← List.length_append, hrest]
    simp [Nat.add_assoc]

/-! ### Records -/

lemma readU16_bytes16 {msg : List UInt8} {p : ℕ} (pre post : List UInt8) (x : UInt16)
    (hmsg : msg = pre ++ (bytes16 x ++ post)) (hp : p = pre.length) : readU16 msg p = .ok x := by
  subst hmsg hp
  have hhi := index_append pre (bytes16 x ++ post) 0 (a := UInt8.ofNat (x.toNat / 256)) rfl
  have hlo := index_append pre (bytes16 x ++ post) 1 (a := UInt8.ofNat x.toNat) rfl
  rw [Nat.add_zero] at hhi
  rw [readU16, hhi, hlo, ok_bind, ok_bind, word16_bytes]
  rfl

/-- The data of a record is read as the address that the record holds. -/
lemma recordAddr_rdata {msg : List UInt8} {p : ℕ} (pre post : List UInt8) (r : ResourceRecord)
    (q : QueryType) (hmsg : msg = pre ++ (r.rdata ++ post)) (hp : p = pre.length) :
    recordAddr msg q.code r.rtype r.rdlength p = .ok (r.address q) := by
  subst hmsg hp
  have hlen := r.toNat_rdlength
  have hrd (n : ℕ) (hn : n < 65536) : r.rdlength = UInt16.ofNat n ↔ r.rdata.length = n := by
    rw [← UInt16.toNat_inj, hlen, UInt16.toNat_ofNat', Nat.mod_eq_of_lt hn]
  have h4 : r.rdlength = 4 ↔ r.rdata.length = 4 := hrd 4 (by norm_num)
  have h16 : r.rdlength = 16 ↔ r.rdata.length = 16 := hrd 16 (by norm_num)
  cases q with
  | a =>
    change recordAddr _ 1 _ _ _ = _
    simp only [recordAddr, ResourceRecord.address, h4, true_and]
    by_cases hr : r.rtype = 1
    · by_cases hl : r.rdata.length = 4
      · obtain ⟨a, b, c, d, hdata⟩ := List.length_eq_four.1 hl
        have hi (i : ℕ) (x : UInt8) (hx : r.rdata[i]? = some x) :=
          index_append pre (r.rdata ++ post) i (a := x)
            (by rw [List.getElem?_append_left (List.getElem?_eq_some_iff.1 hx).1, hx])
        have ha := hi 0 a (by simp [hdata])
        rw [Nat.add_zero] at ha
        rw [if_pos hr, if_pos hl, dif_pos ⟨hr, hl⟩, ha, hi 1 b (by simp [hdata]),
          hi 2 c (by simp [hdata]), hi 3 d (by simp [hdata])]
        simp [hdata]
      · rw [if_pos hr, if_neg hl, dif_neg (fun h => hl h.2), if_neg (by simp)]
        rfl
    · rw [if_neg hr, dif_neg (fun h => hr h.1)]
      rfl
  | aaaa =>
    change recordAddr _ 28 _ _ _ = _
    simp only [recordAddr, ResourceRecord.address, h16, true_and]
    by_cases hr : r.rtype = 28
    · rw [if_pos hr, if_neg (by simp)]
      by_cases hl : r.rdata.length = 16
      · have hcut : ((pre ++ (r.rdata ++ post)).drop pre.length).take 16 = r.rdata := by
          rw [List.drop_left, ← hl, List.take_left]
        rw [if_pos hl, dif_pos ⟨hr, hl⟩, range_of_le (by omega) (by simp; omega),
          Nat.add_sub_cancel_left, hcut, ok_bind, copyArray_of_length hl]
        rfl
      · rw [if_neg hl, dif_neg (fun h => hl h.2)]
        rfl
    · rw [if_neg hr, dif_neg (fun h => hr h.1)]
      rfl

/-- A turn at the start of a record reads the record and ends behind it. -/
lemma answerTurn_encode (pre post : List UInt8) (r : ResourceRecord) (q : QueryType) :
    answerTurn (pre ++ (r.encode ++ post)) q.code pre.length =
      .ok (.next (pre.length + r.encode.length) (r.address q)) := by
  have hname := skipName_encode pre (r.header ++ (bytes16 r.rdlength ++ (r.rdata ++ post))) r.name
  have hmsg : pre ++ (r.encode ++ post) =
      pre ++ (r.name.encode ++ (r.header ++ (bytes16 r.rdlength ++ (r.rdata ++ post)))) := by
    simp [ResourceRecord.encode]
  have hlen : (pre ++ (r.encode ++ post)).length =
      pre.length + r.name.encode.length + 10 + r.rdata.length + post.length := by
    rw [List.length_append, List.length_append, r.length_encode]
    omega
  have hrtype : readU16 (pre ++ (r.encode ++ post)) (pre.length + r.name.encode.length) =
      .ok r.rtype :=
    readU16_bytes16 (pre ++ r.name.encode)
      (bytes16 r.rclass ++ bytes32 r.ttl ++ (bytes16 r.rdlength ++ (r.rdata ++ post))) r.rtype
      (by rw [hmsg]; simp [ResourceRecord.header]) (by simp)
  have hrdlen : readU16 (pre ++ (r.encode ++ post)) (pre.length + r.name.encode.length + 8) =
      .ok r.rdlength :=
    readU16_bytes16 (pre ++ r.name.encode ++ r.header) (r.rdata ++ post) r.rdlength
      (by rw [hmsg]; simp) (by simp [Nat.add_assoc])
  have haddr : recordAddr (pre ++ (r.encode ++ post)) q.code r.rtype r.rdlength
      (pre.length + r.name.encode.length + 10) = .ok (r.address q) :=
    recordAddr_rdata (pre ++ r.name.encode ++ r.header ++ bytes16 r.rdlength) post r q
      (by rw [hmsg]; simp) (by simp; omega)
  rw [answerTurn]
  rw [← hmsg] at hname
  simp only [hname]
  rw [if_neg (by omega), hrtype, hrdlen, ok_bind, ok_bind, r.toNat_rdlength, if_neg (by omega),
    haddr, ok_bind, r.length_encode]
  simp [Nat.add_assoc]

/-- The loop over the answers collects the addresses of the records in order. -/
lemma readAnswers_encode (pre post : List UInt8) (rs : List ResourceRecord) (q : QueryType)
    (out : List IpAddr) :
    readAnswers (pre ++ (rs.flatMap ResourceRecord.encode ++ post)) q.code rs.length pre.length
        out =
      .ok (some (out ++ rs.filterMap (ResourceRecord.address · q))) := by
  induction rs generalizing pre out with
  | nil => simp [readAnswers]
  | cons r rs ih =>
    have hturn := answerTurn_encode pre (rs.flatMap ResourceRecord.encode ++ post) r q
    have hmsg : pre ++ ((r :: rs).flatMap ResourceRecord.encode ++ post) =
        pre ++ (r.encode ++ (rs.flatMap ResourceRecord.encode ++ post)) := by
      simp
    have hrest := ih (pre ++ r.encode) (out ++ (r.address q).toList)
    rw [List.append_assoc, List.length_append] at hrest
    rw [hmsg, List.length_cons, readAnswers, hturn, ok_bind]
    simp only [hrest]
    cases haddr : r.address q <;> simp [haddr]

/-! ### Responses -/

/-- `parse_dns_answers` on an encoded response returns the addresses of the answer records of
the type asked for, in order, and nothing else. -/
theorem parseDnsAnswers_encode (r : Response) (q : QueryType) :
    parseDnsAnswers r.encode q.code =
      .ok (some (r.answers.filterMap (ResourceRecord.address · q))) := by
  have hq : (UInt16.ofNat r.questions.length).toNat = r.questions.length := by
    have hle := r.questions_le
    rw [UInt16.toNat_ofNat']
    omega
  have ha : (UInt16.ofNat r.answers.length).toNat = r.answers.length := by
    have hle := r.answers_le
    rw [UInt16.toNat_ofNat']
    omega
  have hqd : readU16 r.encode 4 = .ok (UInt16.ofNat r.questions.length) :=
    readU16_bytes16 (bytes16 r.id ++ bytes16 r.flags)
      (bytes16 (UInt16.ofNat r.answers.length) ++ bytes16 (UInt16.ofNat r.authority.length) ++
        bytes16 (UInt16.ofNat r.additional.length) ++ r.body) _
      (by simp [Response.encode, Response.header]) (by simp)
  have han : readU16 r.encode 6 = .ok (UInt16.ofNat r.answers.length) :=
    readU16_bytes16 (bytes16 r.id ++ bytes16 r.flags ++ bytes16 (UInt16.ofNat r.questions.length))
      (bytes16 (UInt16.ofNat r.authority.length) ++
        bytes16 (UInt16.ofNat r.additional.length) ++ r.body) _
      (by simp [Response.encode, Response.header]) (by simp)
  have hskip : skipQuestions r.encode r.questions.length 12 =
      some (12 + (r.questions.flatMap Question.encode).length) :=
    skipQuestions_encode r.header _ r.questions
  have hread := readAnswers_encode (r.header ++ r.questions.flatMap Question.encode)
    (r.authority.flatMap ResourceRecord.encode ++ r.additional.flatMap ResourceRecord.encode)
    r.answers q []
  rw [List.append_assoc, List.length_append, r.length_header, List.nil_append] at hread
  have hlen : ¬ r.encode.length < 12 := by
    rw [Response.encode, List.length_append, r.length_header]
    omega
  rw [parseDnsAnswers, if_neg hlen, hqd, han, ok_bind, ok_bind, hq, ha, hskip]
  exact hread

end PureStd.Net
