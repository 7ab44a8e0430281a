/-
Texts that stand for socket addresses: `ToSocketAddrs` and `resolve` of `src/net.rs`.

The text is cut at its last colon, and brackets are taken off both ends of the host.  A host that is
an address in numbers is not looked up; any other is searched in `/etc/hosts` and then asked of a
name server by `dns_query`.  The outcome records what was read and asked on the way.

The text of an address comes back without a lookup unless it has a scope, which the parser of
addresses does not know; the flow information is not in the text at all (`text_iff`).

How addresses are written is a parameter, about which no more is assumed than that they can be read
back and that percent signs and brackets have no place in them.
-/
import PureStd.Io.Cursor
import PureStd.Net.DnsQuery

namespace PureStd.Net

open Separators Slice

/-! ### Texts of numbers -/

/-- `Display` of an integer. -/
def decimal (n : ℕ) : List Char := Nat.toDigits 10 n

/-- `u16::from_str`: a plus sign is allowed. -/
def parseU16 (text : List Char) : Option UInt16 :=
  let digits := match text with
    | '+' :: rest => rest
    | _ => text
  if digits ≠ [] ∧ digits.all Char.isDigit ∧ Nat.ofDigitChars 10 digits 0 < 2 ^ 16 then
    some (UInt16.ofNat (Nat.ofDigitChars 10 digits 0))
  else none

/-- `Display` and `FromStr` of `IpAddr`. -/
structure IpText where
  display : IpAddr → List Char
  parse : List Char → Option IpAddr
  parse_display : ∀ ip, parse (display ip) = some ip
  chars : ∀ text ip, parse text = some ip → '%' ∉ text ∧ '[' ∉ text ∧ ']' ∉ text

/-- `Display` of `SocketAddr`. -/
def SocketAddr.text (core : IpText) : SocketAddr → List Char
  | .v4 a => core.display (.v4 a.ip) ++ ':' :: decimal a.port.toNat
  | .v6 a =>
    if a.scopeId = 0 then '[' :: (core.display (.v6 a.ip) ++ [']']) ++ ':' :: decimal a.port.toNat
    else
      '[' :: (core.display (.v6 a.ip) ++ '%' :: decimal a.scopeId.toNat ++ [']']) ++
        ':' :: decimal a.port.toNat

/-! ### The code -/

/-- What a lookup can turn to: the files, if they can be read, and for the query for records of a
type its random bytes and its socket. -/
structure Network where
  hosts : Option (List Char)
  resolvConf : Option (List Char)
  id : UInt16 → UInt8 × UInt8
  udp : UInt16 → Udp

/-- What a lookup has turned to. -/
inductive Consulted where
  | hosts
  | resolvConf
  | dns (qtype : UInt16)
deriving DecidableEq, Repr

structure Outcome where
  result : Checked (Except Io.CustomError (List SocketAddr))
  consulted : List Consulted
deriving DecidableEq

/-- `char::is_whitespace`. -/
def isWhitespace (c : Char) : Bool :=
  (9 ≤ c.toNat ∧ c.toNat ≤ 13) ∨ (0x2000 ≤ c.toNat ∧ c.toNat ≤ 0x200a) ∨
    c.toNat ∈ [0x20, 0x85, 0xa0, 0x1680, 0x2028, 0x2029, 0x202f, 0x205f, 0x3000]

/-- `str::trim`. -/
def trim (text : List Char) : List Char := (text.dropWhile isWhitespace).rdropWhile isWhitespace

/-- `str::split_whitespace`. -/
def splitWhitespace (text : List Char) : List (List Char) :=
  (text.splitOnP isWhitespace).filter (· ≠ [])

/-- `str::lines`. -/
def lines (text : List Char) : List (List Char) :=
  let pieces := text.splitOn '\n'
  pieces.dropLast.map (fun line => if line.getLast? = some '\r' then line.dropLast else line) ++
    pieces.getLast?.toList.filter (· ≠ [])

/-- `eq_ignore_ascii_case`. -/
def eqIgnoreAsciiCase (a b : List Char) : Bool := a.map Char.toLower = b.map Char.toLower

/-- `hosts_lookup`. -/
def hostsLookup (core : IpText) (file : Option (List Char)) (host : List Char) : Option IpAddr := do
  let text ← file
  (lines text).findSome? fun line =>
    match splitWhitespace (line.takeWhile (· ≠ '#')) with
    | [] => none
    | ip :: names => if names.any (eqIgnoreAsciiCase · host) then core.parse ip else none

/-- `nameserver`. -/
def nameserver (core : IpText) (file : Option (List Char)) : Option IpAddr := do
  let text ← file
  (lines text).findSome? fun line => do
    let rest ← (trim line).dropPrefix? "nameserver".toList
    core.parse (trim rest)

/-- `str::as_bytes`. -/
def asBytes (text : List Char) : List UInt8 := text.flatMap String.utf8EncodeChar

/-- The addresses that `dns_query` returns, if it does. -/
def Network.answers (net : Network) (ns : IpAddr) (host : List Char) (qtype : UInt16) :
    Checked (List IpAddr) := do
  match ← (dnsQuery (net.udp qtype) (net.id qtype) ns (asBytes host) qtype).result with
  | .ok ips => pure ips
  | .error _ => pure []

/-- `resolve`. -/
def resolve (core : IpText) (net : Network) (host : List Char) (port : UInt16) : Outcome :=
  match core.parse host with
  | some ip => ⟨pure (.ok [.new ip port]), []⟩
  | none =>
    match hostsLookup core net.hosts host with
    | some ip => ⟨pure (.ok [.new ip port]), [.hosts]⟩
    | none =>
      match nameserver core net.resolvConf with
      | none => ⟨pure (.error ⟨.notFound, "failed to resolve host"⟩), [.hosts, .resolvConf]⟩
      | some ns =>
        match net.answers ns host 1 with
        | .error p => ⟨.error p, [.hosts, .resolvConf, .dns 1]⟩
        | .ok (ip :: ips) =>
          ⟨pure (.ok ((ip :: ips).map (.new · port))), [.hosts, .resolvConf, .dns 1]⟩
        | .ok [] =>
          ⟨do
            match ← net.answers ns host 28 with
            | [] => pure (.error ⟨.notFound, "failed to resolve host"⟩)
            | ip :: ips => pure (.ok ((ip :: ips).map (.new · port))),
            [.hosts, .resolvConf, .dns 1, .dns 28]⟩

/-- `to_socket_addrs` of a `str`, and of a `String`. -/
def toSocketAddrs (core : IpText) (net : Network) (text : List Char) : Outcome :=
  match rsplitOnce ':' text with
  | none => ⟨pure (.error ⟨.invalidInput, "missing port in address"⟩), []⟩
  | some (host, port) =>
    match parseU16 port with
    | none => ⟨pure (.error ⟨.invalidInput, "invalid port"⟩), []⟩
    | some port => resolve core net (trimEnds '[' ']' host) port

/-- `to_socket_addrs` of a pair of a `&str` and a `u16`. -/
def toSocketAddrsPair (core : IpText) (net : Network) (host : List Char) (port : UInt16) :
    Outcome :=
  resolve core net host port

/-! ### Ports -/

lemma notMem_decimal {c : Char} (hc : ¬ c.isDigit) (n : ℕ) : c ∉ decimal n :=
  fun hmem => hc (Nat.isDigit_of_mem_toDigits (by decide) (by decide) hmem)

lemma parseU16_decimal (port : UInt16) : parseU16 (decimal port.toNat) = some port := by
  have hdigits : (match decimal port.toNat with
      | '+' :: rest => rest
      | _ => decimal port.toNat) = decimal port.toNat := by
    split
    · rename_i rest heq
      exact absurd (heq ▸ List.mem_cons_self) (notMem_decimal (by decide) port.toNat)
    · rfl
  have hall : (decimal port.toNat).all Char.isDigit := by
    rw [List.all_eq_true]
    exact fun c hc => Nat.isDigit_of_mem_toDigits (by decide) (by decide) hc
  have hvalue : Nat.ofDigitChars 10 (decimal port.toNat) 0 = port.toNat :=
    Nat.ofDigitChars_ten_toDigits
  simp only [parseU16, hdigits, hvalue]
  rw [if_pos ⟨Nat.toDigits_ne_nil, hall, port.toNat_lt⟩, UInt16.ofNat_toNat]

/-- The last colon is the one before the port. -/
lemma toSocketAddrs_port (core : IpText) (net : Network) (host : List Char) (port : UInt16) :
    toSocketAddrs core net (host ++ ':' :: decimal port.toNat) =
      resolve core net (trimEnds '[' ']' host) port := by
  rw [toSocketAddrs, rsplitOnce_append_cons (notMem_decimal (by decide) _)]
  simp only [parseU16_decimal]

/-! ### Hosts -/

variable {core : IpText} {host : List Char} {ip : IpAddr}

lemma resolve_numeric (h : core.parse host = some ip) (net : Network) (port : UInt16) :
    resolve core net host port = ⟨pure (.ok [.new ip port]), []⟩ := by
  rw [resolve, h]

/-- A host that is not an address in numbers is looked up. -/
lemma resolve_consulted (h : core.parse host = none) (net : Network) (port : UInt16) :
    (resolve core net host port).consulted ≠ [] := by
  rw [resolve, h]
  dsimp only
  repeat' split
  all_goals exact List.cons_ne_nil _ _

lemma toSocketAddrs_numeric (h : core.parse host = some ip) (net : Network) (port : UInt16) :
    toSocketAddrs core net (host ++ ':' :: decimal port.toNat) =
      ⟨pure (.ok [.new ip port]), []⟩ := by
  obtain ⟨-, hopen, hclose⟩ := core.chars host ip h
  rw [toSocketAddrs_port, trimEnds_of_notMem hopen hclose, resolve_numeric h]

lemma toSocketAddrs_bracketed (h : core.parse host = some ip) (net : Network) (port : UInt16) :
    toSocketAddrs core net ('[' :: (host ++ [']']) ++ ':' :: decimal port.toNat) =
      ⟨pure (.ok [.new ip port]), []⟩ := by
  obtain ⟨-, hopen, hclose⟩ := core.chars host ip h
  rw [toSocketAddrs_port, trimEnds_enclosed (by decide) hopen hclose, resolve_numeric h]

/-- A scope is not part of an address in numbers. -/
lemma toSocketAddrs_scoped (h : core.parse host = some ip) (net : Network) (scope : ℕ)
    (port : UInt16) :
    toSocketAddrs core net ('[' :: (host ++ '%' :: decimal scope ++ [']']) ++
        ':' :: decimal port.toNat) =
      resolve core net (host ++ '%' :: decimal scope) port ∧
    core.parse (host ++ '%' :: decimal scope) = none := by
  obtain ⟨-, hopen, hclose⟩ := core.chars host ip h
  have hopen' : '[' ∉ host ++ '%' :: decimal scope := by
    simp [hopen, notMem_decimal (c := '[') (by decide) scope]
  have hclose' : ']' ∉ host ++ '%' :: decimal scope := by
    simp [hclose, notMem_decimal (c := ']') (by decide) scope]
  refine ⟨by rw [toSocketAddrs_port, trimEnds_enclosed (by decide) hopen' hclose'], ?_⟩
  rw [Option.eq_none_iff_forall_ne_some]
  intro ip' hparse
  exact (core.chars _ ip' hparse).1 (by simp)

/-! ### Lookups -/

lemma answers_returns (net : Network) (ns : IpAddr) (host : List Char) (qtype : UInt16) :
    ∃ ips, net.answers ns host qtype = .ok ips := by
  obtain ⟨r, hr⟩ := dnsQuery_returns (net.udp qtype) (net.id qtype) ns (asBytes host) qtype
  rw [Network.answers, hr, ok_bind]
  cases r with
  | ok ips => exact ⟨ips, rfl⟩
  | error e => exact ⟨[], rfl⟩

/-- A lookup returns, whatever a name server answers. -/
lemma resolve_returns (core : IpText) (net : Network) (host : List Char) (port : UInt16) :
    ∃ r, (resolve core net host port).result = .ok r := by
  rw [resolve]
  split
  · exact ⟨_, rfl⟩
  · split
    · exact ⟨_, rfl⟩
    · split
      · exact ⟨_, rfl⟩
      · rename_i ns hns
        obtain ⟨ips, hips⟩ := answers_returns net ns host 1
        obtain ⟨ips', hips'⟩ := answers_returns net ns host 28
        rw [hips, hips']
        cases ips with
        | cons ip ips => exact ⟨_, rfl⟩
        | nil =>
          cases ips' with
          | nil | cons => exact ⟨_, rfl⟩

lemma toSocketAddrs_returns (core : IpText) (net : Network) (text : List Char) :
    ∃ r, (toSocketAddrs core net text).result = .ok r := by
  rw [toSocketAddrs]
  split
  · exact ⟨_, rfl⟩
  · split
    · exact ⟨_, rfl⟩
    · exact resolve_returns ..

/-! ### Addresses -/

/-- The address has nothing but an IP address and a port. -/
def SocketAddr.Plain : SocketAddr → Prop
  | .v4 _ => True
  | .v6 a => a.flowinfo = 0 ∧ a.scopeId = 0

lemma text_iff (core : IpText) (net : Network) (a : SocketAddr) :
    toSocketAddrs core net (a.text core) = ⟨pure (.ok [a]), []⟩ ↔ a.Plain := by
  cases a with
  | v4 a =>
    rw [SocketAddr.text, toSocketAddrs_numeric (core.parse_display _)]
    exact ⟨fun _ => trivial, fun _ => rfl⟩
  | v6 a =>
    obtain ⟨ip, port, flowinfo, scopeId⟩ := a
    rw [SocketAddr.text]
    split
    · rename_i hscope
      rw [toSocketAddrs_bracketed (core.parse_display _)]
      simp only [SocketAddr.new, pure, Except.pure, Outcome.mk.injEq, Except.ok.injEq,
        List.cons.injEq, SocketAddr.v6.injEq, SocketAddrV6.mk.injEq, SocketAddr.Plain, true_and,
        and_true]
      exact and_congr eq_comm eq_comm
    · rename_i hscope
      obtain ⟨hresolve, hparse⟩ :=
        toSocketAddrs_scoped (core.parse_display (.v6 ip)) net scopeId.toNat port
      constructor
      · intro h
        exact absurd (congrArg Outcome.consulted (hresolve.symm.trans h))
          (resolve_consulted hparse net port)
      · rintro ⟨-, hzero⟩
        exact absurd hzero hscope

/-- The text of an address gives the address and nothing is looked up, exactly if the address has
neither flow information nor a scope.  A host in numbers gives the same in a text, with or without
brackets, as in a pair.  Every text gives addresses or an error, whatever a name server answers. -/
theorem toSocketAddrs_text_iff (core : IpText) (net : Network) :
    (∀ a, toSocketAddrs core net (a.text core) = ⟨pure (.ok [a]), []⟩ ↔ a.Plain) ∧
      (∀ host port, (core.parse host).isSome →
        toSocketAddrs core net (host ++ ':' :: decimal port.toNat) =
            toSocketAddrsPair core net host port ∧
          toSocketAddrs core net ('[' :: (host ++ [']']) ++ ':' :: decimal port.toNat) =
            toSocketAddrsPair core net host port) ∧
      ∀ text, ∃ r, (toSocketAddrs core net text).result = .ok r := by
  refine ⟨text_iff core net, fun host port hnumeric => ?_, toSocketAddrs_returns core net⟩
  obtain ⟨ip, hip⟩ := Option.isSome_iff_exists.1 hnumeric
  rw [toSocketAddrs_numeric hip, toSocketAddrs_bracketed hip, toSocketAddrsPair,
    resolve_numeric hip]
  exact ⟨rfl, rfl⟩

/-! ### Addresses written octet by octet -/

def joinOctets (sep : Char) (octets : List UInt8) : List Char :=
  [sep].intercalate (octets.map fun o => decimal o.toNat)

def splitOctets (sep : Char) (text : List Char) : List UInt8 :=
  (text.splitOn sep).map fun piece => UInt8.ofNat (Nat.ofDigitChars 10 piece 0)

lemma splitOctets_joinOctets {sep : Char} {octets : List UInt8} (hsep : ¬ sep.isDigit)
    (hne : octets ≠ []) : splitOctets sep (joinOctets sep octets) = octets := by
  rw [splitOctets, joinOctets, List.splitOn_intercalate, List.map_map]
  · have hid : (fun piece => UInt8.ofNat (Nat.ofDigitChars 10 piece 0)) ∘
        (fun o : UInt8 => decimal o.toNat) = id := by
      funext o
      rw [Function.comp_apply, decimal, Nat.ofDigitChars_ten_toDigits, UInt8.ofNat_toNat, id]
    rw [hid, List.map_id]
  · intro piece hpiece
    obtain ⟨o, -, rfl⟩ := List.mem_map.1 hpiece
    exact notMem_decimal hsep _
  · simpa using hne

lemma notMem_joinOctets {c sep : Char} (hc : ¬ c.isDigit) (hsep : c ≠ sep) (octets : List UInt8) :
    c ∉ joinOctets sep octets := by
  intro hmem
  rcases eq_or_mem_of_mem_intercalate hmem with hc' | ⟨piece, hpiece, hc'⟩
  · exact hsep hc'
  · obtain ⟨o, -, rfl⟩ := List.mem_map.1 hpiece
    exact notMem_decimal hc _ hc'

lemma size_octets {octets : List UInt8} {n : ℕ} (h : octets.length = n) : octets.toArray.size = n :=
  h

namespace Octets

def display : IpAddr → List Char
  | .v4 octets => joinOctets '.' octets.toList
  | .v6 octets => joinOctets ':' octets.toList

/-- The only address that a text may be of. -/
def candidate (text : List Char) : Option IpAddr :=
  if h : (splitOctets '.' text).length = 4 then
    some (.v4 ⟨(splitOctets '.' text).toArray, size_octets h⟩)
  else if h : (splitOctets ':' text).length = 16 then
    some (.v6 ⟨(splitOctets ':' text).toArray, size_octets h⟩)
  else none

lemma candidate_display (ip : IpAddr) : candidate (display ip) = some ip := by
  cases ip with
  | v4 octets =>
    have hsplit : splitOctets '.' (display (.v4 octets)) = octets.toList :=
      splitOctets_joinOctets (by decide) (by simp [← List.length_eq_zero_iff])
    rw [candidate, dif_pos (by rw [hsplit, Vector.length_toList])]
    simp [hsplit, Vector.toList]
  | v6 octets =>
    have hsplit : splitOctets ':' (display (.v6 octets)) = octets.toList :=
      splitOctets_joinOctets (by decide) (by simp [← List.length_eq_zero_iff])
    have hdots : (splitOctets '.' (display (.v6 octets))).length = 1 := by
      have hnot : '.' ∉ display (.v6 octets) := notMem_joinOctets (by decide) (by decide) _
      rw [splitOctets, List.splitOn_eq_singleton hnot, List.map_singleton, List.length_singleton]
    rw [candidate, dif_neg (by rw [hdots]; decide),
      dif_pos (by rw [hsplit, Vector.length_toList])]
    simp [hsplit, Vector.toList]

lemma notMem_display {c : Char} (hc : ¬ c.isDigit) (hdot : c ≠ '.') (hcolon : c ≠ ':')
    (ip : IpAddr) : c ∉ display ip := by
  cases ip with
  | v4 octets => exact notMem_joinOctets hc hdot _
  | v6 octets => exact notMem_joinOctets hc hcolon _

/-- All octets in decimal, between points for IPv4 and between colons for IPv6. -/
def ipText : IpText where
  display := display
  parse text := (candidate text).filter (display · = text)
  parse_display ip := by simp [candidate_display]
  chars text ip h := by
    obtain ⟨-, htext⟩ := Option.filter_eq_some_iff.1 h
    obtain rfl : display ip = text := of_decide_eq_true htext
    exact ⟨notMem_display (by decide) (by decide) (by decide) ip,
      notMem_display (by decide) (by decide) (by decide) ip,
      notMem_display (by decide) (by decide) (by decide) ip⟩

end Octets

/-- There are no files to read. -/
def offline : Network := ⟨none, none, fun _ => (0, 0), fun _ => deaf⟩

def anyIp : Vector UInt8 16 := Vector.replicate 16 0

/-- A text with a scope is looked up, without success; a text of an address with flow information
gives an address without it. -/
theorem toSocketAddrs_text_lost :
    toSocketAddrs Octets.ipText offline (SocketAddr.text Octets.ipText (.v6 ⟨anyIp, 80, 0, 3⟩)) =
        ⟨pure (.error ⟨.notFound, "failed to resolve host"⟩), [.hosts, .resolvConf]⟩ ∧
      toSocketAddrs Octets.ipText offline (SocketAddr.text Octets.ipText (.v6 ⟨anyIp, 80, 1, 0⟩)) =
        ⟨pure (.ok [.v6 ⟨anyIp, 80, 0, 0⟩]), []⟩ := by
  have hparse := Octets.ipText.parse_display (.v6 anyIp)
  constructor
  · obtain ⟨hresolve, hnone⟩ := toSocketAddrs_scoped hparse offline 3 80
    rw [SocketAddr.text, if_neg (by decide)]
    refine hresolve.trans ?_
    rw [resolve, hnone]
    rfl
  · rw [SocketAddr.text, if_pos rfl]
    exact toSocketAddrs_bracketed hparse offline 80

end PureStd.Net
