/-
The queries that `dns_query` of `src/net.rs` sends.

A host is cut at its points, and each piece is a label of the name that is asked for.  A host with
an empty label, or with one of more than 63 bytes, is rejected before anything is sent; every other
query reads back as the question for the host.  The length of the whole name is not looked at: the
limit of 255 bytes, which RFC 1035 sets, is kept exactly by the hosts of at most 253 bytes
(`asksFor_iff`).
-/
import PureStd.Io.Traits
import PureStd.Lib.Separators
import PureStd.Net.DnsMessage
import PureStd.Net.SockAddr

namespace PureStd.Net

open Slice BigEndian

/-! ### The code -/

/-- The byte of a point, at which no longer character of UTF-8 can be cut. -/
def dot : UInt8 := 46

/-- The identification, the flags and the counts of a query. -/
def queryHeader (id : UInt8 × UInt8) : List UInt8 :=
  [id.1, id.2] ++ [0x01, 0x00] ++ [0x00, 0x01] ++ [0x00, 0x00, 0x00, 0x00, 0x00, 0x00]

/-- The loop over the labels. -/
def pushLabels : List (List UInt8) → List UInt8 → Except Io.ErrorKind (List UInt8)
  | [], q => .ok q
  | label :: labels, q =>
    if label = [] ∨ label.length > 63 then .error .invalidInput
    else pushLabels labels (q ++ [UInt8.ofNat label.length] ++ label)

/-- The query that is built for the bytes of a host. -/
def buildQuery (id : UInt8 × UInt8) (host : List UInt8) (qtype : UInt16) :
    Except Io.ErrorKind (List UInt8) := do
  let q ← pushLabels (host.splitOn dot) (queryHeader id)
  return q ++ [0] ++ bytes16 qtype ++ bytes16 1

/-- `SocketAddr::new`. -/
def SocketAddr.new (ip : IpAddr) (port : UInt16) : SocketAddr :=
  match ip with
  | .v4 ip => .v4 ⟨ip, port⟩
  | .v6 ip => .v6 ⟨ip, port, 0, 0⟩

/-- What `UdpSocket` answers. -/
structure Udp where
  bind : List Char → Except Io.ErrorKind Unit
  sendTo : List UInt8 → SocketAddr → Except Io.ErrorKind Unit
  recv : Except Io.ErrorKind (List UInt8)

/-- What a query comes to, and the message that was sent for it. -/
structure Queried where
  sent : Option (List UInt8)
  result : Checked (Except Io.ErrorKind (List IpAddr))

/-- The text that the socket is bound to. -/
def bindText : IpAddr → List Char
  | .v4 _ => "0.0.0.0:0".toList
  | .v6 _ => "[::]:0".toList

/-- `dns_query`, with the two random bytes. -/
def dnsQuery (udp : Udp) (id : UInt8 × UInt8) (ns : IpAddr) (host : List UInt8) (qtype : UInt16) :
    Queried :=
  match buildQuery id host qtype with
  | .error e => ⟨none, pure (.error e)⟩
  | .ok q =>
    match udp.bind (bindText ns) with
    | .error e => ⟨none, pure (.error e)⟩
    | .ok () =>
      ⟨some q, match udp.sendTo q (.new ns 53) with
        | .error e => pure (.error e)
        | .ok () =>
          match udp.recv with
          | .error e => pure (.error e)
          -- the buffer has 1500 bytes
          | .ok datagram => do
            match ← parseDnsAnswers (datagram.take 1500) qtype with
            | none => pure (.error .invalidData)
            | some ips => pure (.ok ips)⟩

/-! ### What is to hold -/

/-- The labels of a name without compression, and the bytes behind it. -/
def readLabels : List UInt8 → Option (List (List UInt8) × List UInt8)
  | [] => none
  | len :: rest =>
    if len = 0 then some ([], rest)
    else if len.toNat ≤ 63 ∧ len.toNat ≤ rest.length then
      (readLabels (rest.drop len.toNat)).map fun r => (rest.take len.toNat :: r.1, r.2)
    else none
termination_by msg => msg.length
decreasing_by
  rw [List.length_drop, List.length_cons]
  omega

/-- The message ends with the question for the host: its labels are those of the host, `skip_name`
finds the type behind them, only the class comes after that, and the name keeps the limits. -/
def AsksFor (host : List UInt8) (qtype : UInt16) (q : List UInt8) : Prop :=
  ∃ labels p, readLabels (q.drop 12) = some (labels, q.drop p) ∧
    [dot].intercalate labels = host ∧
    skipName q 12 = some p ∧
    readU16 q p = .ok qtype ∧
    readU16 q (p + 2) = .ok 1 ∧
    q.length = p + 4 ∧
    (∀ l ∈ labels, 1 ≤ l.length ∧ l.length ≤ 63) ∧
    p - 12 ≤ 255

/-- A label of the host is empty or too long. -/
def Rejected (host : List UInt8) : Prop := ∃ l ∈ host.splitOn dot, l = [] ∨ 63 < l.length

/-! ### Names -/

lemma readLabels_encode (labels : List Label) (rest : List UInt8) :
    readLabels (labels.flatMap Label.encode ++ 0 :: rest) =
      some (labels.map Label.bytes, rest) := by
  induction labels with
  | nil => rw [List.flatMap_nil, List.nil_append, readLabels, if_pos rfl, List.map_nil]
  | cons l labels ih =>
    have hne := label_byte_pos ⟨l.bytes.length, Nat.lt_succ_of_le l.le_63⟩ l.nonempty
    rw [List.flatMap_cons, Label.encode, List.append_assoc, List.cons_append, readLabels,
      if_neg hne, l.toNat_length, if_pos ⟨l.le_63, by simp⟩, List.drop_left, List.take_left, ih,
      Option.map_some, List.map_cons]

/-- A name is two bytes longer than its text. -/
lemma Name.length_encode {labels : List Label} (hne : labels ≠ []) :
    (Name.encode ⟨labels, .root⟩).length =
      ([dot].intercalate (labels.map Label.bytes)).length + 2 := by
  induction labels with
  | nil => exact absurd rfl hne
  | cons l labels ih =>
    by_cases hnil : labels = []
    · subst hnil
      simp [Name.encode, Label.encode, NameEnd.encode]
    · have hcons : Name.encode ⟨l :: labels, .root⟩ =
          l.encode ++ Name.encode ⟨labels, .root⟩ := by
        simp [Name.encode]
      rw [hcons, List.length_append, ih hnil, List.map_cons,
        List.intercalate_cons_of_ne_nil (by simpa using hnil)]
      simp only [Label.encode, List.length_cons, List.length_append, List.length_nil]
      omega

/-! ### The query -/

lemma pushLabels_labels (labels : List Label) (q : List UInt8) :
    pushLabels (labels.map Label.bytes) q = .ok (q ++ labels.flatMap Label.encode) := by
  induction labels generalizing q with
  | nil => rw [List.map_nil, pushLabels, List.flatMap_nil, List.append_nil]
  | cons l labels ih =>
    have hok : ¬ (l.bytes = [] ∨ l.bytes.length > 63) := by
      rintro (hnil | hlong)
      · exact absurd l.nonempty (by rw [hnil]; decide)
      · exact absurd l.le_63 (by omega)
    rw [List.map_cons, pushLabels, if_neg hok, ih, List.flatMap_cons, Label.encode]
    simp

lemma pushLabels_error {labels : List (List UInt8)} {l : List UInt8} (hl : l ∈ labels)
    (hbad : l = [] ∨ 63 < l.length) (q : List UInt8) :
    pushLabels labels q = .error .invalidInput := by
  induction labels generalizing q with
  | nil => cases hl
  | cons label labels ih =>
    rw [pushLabels]
    split
    · rfl
    · rename_i hok
      rcases List.mem_cons.1 hl with rfl | hl
      · exact absurd hbad hok
      · exact ih hl _

/-- Texts that are not rejected are the texts of labels. -/
lemma exists_labels {ls : List (List UInt8)} (h : ∀ l ∈ ls, ¬ (l = [] ∨ 63 < l.length)) :
    ∃ labels : List Label, labels.map Label.bytes = ls := by
  induction ls with
  | nil => exact ⟨[], rfl⟩
  | cons l ls ih =>
    obtain ⟨labels, hlabels⟩ := ih fun l hl => h l (List.mem_cons_of_mem _ hl)
    obtain ⟨hne, hle⟩ := not_or.1 (h l List.mem_cons_self)
    exact ⟨⟨l, List.length_pos_iff.2 hne, Nat.le_of_not_lt hle⟩ :: labels, by
      rw [List.map_cons, hlabels]⟩

lemma buildQuery_cases (id : UInt8 × UInt8) (host : List UInt8) (qtype : UInt16) :
    (Rejected host ∧ buildQuery id host qtype = .error .invalidInput) ∨
      (¬ Rejected host ∧ ∃ labels : List Label, labels.map Label.bytes = host.splitOn dot ∧
        buildQuery id host qtype =
          .ok (queryHeader id ++ Question.encode ⟨⟨labels, .root⟩, qtype, 1⟩)) := by
  by_cases hrej : Rejected host
  · obtain ⟨l, hl, hbad⟩ := hrej
    refine Or.inl ⟨⟨l, hl, hbad⟩, ?_⟩
    rw [buildQuery, pushLabels_error hl hbad]
    rfl
  · obtain ⟨labels, hlabels⟩ := exists_labels fun l hl hbad => hrej ⟨l, hl, hbad⟩
    refine Or.inr ⟨hrej, labels, hlabels, ?_⟩
    rw [buildQuery, ← hlabels, pushLabels_labels]
    simp [Question.encode, Name.encode, NameEnd.encode, pure, Except.pure, bind, Except.bind]

variable {id : UInt8 × UInt8} {host : List UInt8} {qtype : UInt16}

lemma length_name {labels : List Label} (hlabels : labels.map Label.bytes = host.splitOn dot) :
    (Name.encode ⟨labels, .root⟩).length = host.length + 2 := by
  rw [Name.length_encode, hlabels, List.intercalate_splitOn]
  rintro rfl
  exact List.splitOn_ne_nil dot host hlabels.symm

/-- `skip_name` skips two bytes more than the host has. -/
lemma skipName_query {labels : List Label} (hlabels : labels.map Label.bytes = host.splitOn dot) :
    skipName (queryHeader id ++ Question.encode ⟨⟨labels, .root⟩, qtype, 1⟩) 12 =
      some (12 + (host.length + 2)) := by
  have hskip := skipName_encode (queryHeader id) (bytes16 qtype ++ bytes16 1) ⟨labels, .root⟩
  rw [length_name hlabels] at hskip
  exact hskip

/-- A query reads back as the question that it was built for, up to the length of the name. -/
lemma asksFor_iff {labels : List Label} (hlabels : labels.map Label.bytes = host.splitOn dot) :
    AsksFor host qtype (queryHeader id ++ Question.encode ⟨⟨labels, .root⟩, qtype, 1⟩) ↔
      host.length ≤ 253 := by
  have hheader : (queryHeader id).length = 12 := rfl
  have hlength := length_name hlabels
  constructor
  · rintro ⟨_, p, -, -, hp, -, -, -, -, hle⟩
    obtain rfl := Option.some.inj ((skipName_query hlabels).symm.trans hp)
    omega
  · intro hle
    refine ⟨labels.map Label.bytes, 12 + (host.length + 2), ?_, ?_, skipName_query hlabels, ?_, ?_,
      ?_, ?_, by omega⟩
    · rw [← List.drop_drop, List.drop_left' hheader, Question.encode, List.drop_left' hlength,
        Name.encode, NameEnd.encode, List.append_assoc, List.singleton_append, readLabels_encode]
    · rw [hlabels, List.intercalate_splitOn]
    · exact readU16_bytes16 (queryHeader id ++ Name.encode ⟨labels, .root⟩) (bytes16 1) qtype
        (by simp [Question.encode]) (by simp [hheader, hlength])
    · exact readU16_bytes16 (queryHeader id ++ Name.encode ⟨labels, .root⟩ ++ bytes16 qtype) [] 1
        (by simp [Question.encode]) (by simp [hheader, hlength, Nat.add_assoc])
    · simp [Question.encode, hheader, hlength, Nat.add_assoc]
    · intro l hl
      obtain ⟨label, -, rfl⟩ := List.mem_map.1 hl
      exact ⟨label.nonempty, label.le_63⟩

/-! ### Sending -/

lemma dnsQuery_error {e : Io.ErrorKind} (h : buildQuery id host qtype = .error e) (udp : Udp)
    (ns : IpAddr) : dnsQuery udp id ns host qtype = ⟨none, pure (.error e)⟩ := by
  rw [dnsQuery, h]

/-- Only the query that was built is sent, as soon as there is a socket. -/
lemma dnsQuery_sent {q : List UInt8} (h : buildQuery id host qtype = .ok q) (udp : Udp)
    (ns : IpAddr) :
    (dnsQuery udp id ns host qtype).sent =
      if udp.bind (bindText ns) = .ok () then some q else none := by
  rw [dnsQuery, h]
  cases udp.bind (bindText ns) with
  | error e => rfl
  | ok u => rfl

/-- No answer makes `dns_query` panic. -/
lemma dnsQuery_returns (udp : Udp) (id : UInt8 × UInt8) (ns : IpAddr) (host : List UInt8)
    (qtype : UInt16) : ∃ r, (dnsQuery udp id ns host qtype).result = .ok r := by
  rw [dnsQuery]
  split
  · exact ⟨_, rfl⟩
  · split
    · exact ⟨_, rfl⟩
    · split
      · exact ⟨_, rfl⟩
      · split
        · exact ⟨_, rfl⟩
        · rename_i datagram hrecv
          obtain ⟨answers, hparse, -⟩ := parseDnsAnswers_ok (datagram.take 1500) qtype
          rw [hparse, ok_bind]
          cases answers with
          | none | some => exact ⟨_, rfl⟩

/-- A socket that takes everything and receives nothing. -/
def deaf : Udp := ⟨fun _ => .ok (), fun _ _ => .ok (), .error .timedOut⟩

/-- Whatever is sent for a host is the question for it within the limits, exactly if the host is
rejected or has at most 253 bytes.  A host is rejected with an error and nothing is sent, or its
query is sent if there is a socket. -/
theorem dnsQuery_iff (id : UInt8 × UInt8) (host : List UInt8) (qtype : UInt16) :
    ((∀ udp ns q, (dnsQuery udp id ns host qtype).sent = some q → AsksFor host qtype q) ↔
        Rejected host ∨ host.length ≤ 253) ∧
      (Rejected host → ∀ udp ns,
        dnsQuery udp id ns host qtype = ⟨none, pure (.error .invalidInput)⟩) ∧
      (¬ Rejected host → ∀ udp ns, udp.bind (bindText ns) = .ok () →
        (dnsQuery udp id ns host qtype).sent.isSome) := by
  rcases buildQuery_cases id host qtype with ⟨hrej, hbuild⟩ | ⟨hnot, labels, hlabels, hbuild⟩
  · refine ⟨⟨fun _ => Or.inl hrej, fun _ udp ns q hsent => ?_⟩,
      fun _ udp ns => dnsQuery_error hbuild udp ns, fun hnot => absurd hrej hnot⟩
    rw [dnsQuery_error hbuild] at hsent
    cases hsent
  · refine ⟨⟨fun h => Or.inr ?_, fun h udp ns q hsent => ?_⟩, fun hrej => absurd hrej hnot,
      fun _ udp ns hbind => ?_⟩
    · exact (asksFor_iff hlabels).1 (h deaf (.v4 (ipv4 0 0 0 0)) _ (dnsQuery_sent hbuild _ _))
    · rw [dnsQuery_sent hbuild] at hsent
      split at hsent
      · cases hsent
        exact (asksFor_iff hlabels).2 (h.resolve_left hnot)
      · cases hsent
    · rw [dnsQuery_sent hbuild, if_pos hbind, Option.isSome_some]

/-- Four labels of 63 bytes. -/
def longHost : List UInt8 := [dot].intercalate (List.replicate 4 (List.replicate 63 97))

lemma length_longHost : longHost.length = 255 := by decide +kernel

lemma longHost_accepted : ¬ Rejected longHost := by
  have hsplit : longHost.splitOn dot = List.replicate 4 (List.replicate 63 97) := by
    refine List.splitOn_intercalate dot (fun l hl hdot => ?_) (List.cons_ne_nil _ _)
    rw [List.eq_of_mem_replicate hl] at hdot
    exact absurd (List.eq_of_mem_replicate hdot) (by decide)
  rintro ⟨l, hl, hbad⟩
  rw [hsplit] at hl
  obtain rfl := List.eq_of_mem_replicate hl
  rcases hbad with hnil | hlong
  · cases hnil
  · rw [List.length_replicate] at hlong
    exact Nat.lt_irrefl 63 hlong

/-- A query is sent with a name of 257 bytes. -/
theorem dnsQuery_long :
    ∃ q, (dnsQuery deaf (0, 0) (.v4 (ipv4 127 0 0 1)) longHost 1).sent = some q ∧
      skipName q 12 = some (12 + 257) ∧ ¬ AsksFor longHost 1 q := by
  rcases buildQuery_cases (0, 0) longHost 1 with ⟨hrej, -⟩ | ⟨-, labels, hlabels, hbuild⟩
  · exact absurd hrej longHost_accepted
  · refine ⟨_, dnsQuery_sent hbuild _ _, ?_, ?_⟩
    · rw [skipName_query hlabels, length_longHost]
    · rw [asksFor_iff hlabels, length_longHost]
      decide

end PureStd.Net
