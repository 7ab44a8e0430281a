/-
Socket addresses in the form of the kernel: `write_sockaddr` and `read_sockaddr` of `src/net.rs`.

The two functions lay out the same structure by hand, on Linux with a family of two bytes, on
macOS with a length and a family of one byte each.  Neither of them looks at the flow information
of an IPv6 address, the four bytes between the port and the address, so an address that has one
does not come back (`sockaddr_iff`).
-/
import PureStd.Lib.BigEndian
import PureStd.Lib.LittleEndian
import PureStd.Lib.Slice
import PureStd.Target

namespace PureStd.Net

open Slice BigEndian LittleEndian

structure SocketAddrV4 where
  ip : Vector UInt8 4
  port : UInt16
deriving DecidableEq

structure SocketAddrV6 where
  ip : Vector UInt8 16
  port : UInt16
  flowinfo : UInt32
  scopeId : UInt32
deriving DecidableEq

inductive SocketAddr where
  | v4 (a : SocketAddrV4)
  | v6 (a : SocketAddrV6)
deriving DecidableEq

/-! ### The code -/

/-- `AF_INET`. -/
def afInet : ℕ := 2

/-- `AF_INET6`. -/
def afInet6 : Os → ℕ
  | .macos => 30
  | .linux => 10

lemma size_four (a b c d : UInt8) : #[a, b, c, d].size = 4 := rfl

/-- `Ipv4Addr::new`. -/
def ipv4 (a b c d : UInt8) : Vector UInt8 4 := ⟨#[a, b, c, d], size_four a b c d⟩

/-- `b[lo..hi].copy_from_slice(src)`. -/
def copy (b : List UInt8) (lo hi : ℕ) (src : List UInt8) : Checked (List UInt8) :=
  (copyFromSlice b lo hi src).map Subtype.val

/-- The first two bytes, which depend on the operating system. -/
def writeFamily (os : Os) (b : List UInt8) (len family : ℕ) : Checked (List UInt8) :=
  match os with
  | .macos => return (b.set 0 (UInt8.ofNat len)).set 1 (UInt8.ofNat family)
  | .linux => copy b 0 2 (leBytes 2 family)

/-- `write_sockaddr`: the buffer and the length that is announced. -/
def writeSockaddr (os : Os) (addr : SocketAddr) : Checked (List UInt8 × ℕ) :=
  let b := List.replicate 28 0
  match addr with
  | .v4 a => do
    let b ← writeFamily os b 16 afInet
    let b ← copy b 2 4 (bytes16 a.port)
    let b ← copy b 4 8 a.ip.toList
    return (b, 16)
  | .v6 a => do
    let b ← writeFamily os b 28 (afInet6 os)
    let b ← copy b 2 4 (bytes16 a.port)
    -- the bytes from 4 to 8 are those of the flow information
    let b ← copy b 8 24 a.ip.toList
    let b ← copy b 24 28 (leBytes 4 a.scopeId.toNat)
    return (b, 28)

def readFamily (os : Os) (b : List UInt8) : Checked ℕ :=
  match os with
  | .macos => do
    let f ← index b 1
    return f.toNat
  | .linux => do
    let f₀ ← index b 0
    let f₁ ← index b 1
    return leNat [f₀, f₁]

/-- `read_sockaddr`. -/
def readSockaddr (os : Os) (b : List UInt8) : Checked (Option SocketAddr) :=
  if b.length < 8 then return none else do
    let fam ← readFamily os b
    if fam = afInet then
      let p₀ ← index b 2
      let p₁ ← index b 3
      let i₀ ← index b 4
      let i₁ ← index b 5
      let i₂ ← index b 6
      let i₃ ← index b 7
      return some (.v4 ⟨ipv4 i₀ i₁ i₂ i₃, word16 p₀ p₁⟩)
    else if fam = afInet6 os ∧ 28 ≤ b.length then
      let p₀ ← index b 2
      let p₁ ← index b 3
      let oct ← range b 8 24
      let oct ← copyArray 16 oct
      let s₀ ← index b 24
      let s₁ ← index b 25
      let s₂ ← index b 26
      let s₃ ← index b 27
      return some (.v6 ⟨oct, word16 p₀ p₁, 0, UInt32.ofNat (leNat [s₀, s₁, s₂, s₃])⟩)
    else return none

/-! ### Writing -/

/-- The first two bytes as they are written. -/
def tag (os : Os) (len family : ℕ) : List UInt8 :=
  match os with
  | .macos => [UInt8.ofNat len, UInt8.ofNat family]
  | .linux => leBytes 2 family

lemma length_tag (os : Os) (len family : ℕ) : (tag os len family).length = 2 := by
  cases os with
  | linux => exact length_leBytes 2 family
  | macos => rfl

/-- A copy behind what has been written, with a gap of zeros. -/
lemma copy_zeros (done src : List UInt8) (gap rest : ℕ) {n lo hi : ℕ}
    (hlo : lo = done.length + gap) (hhi : hi = lo + src.length)
    (hn : n = gap + (src.length + rest)) :
    copy (done ++ List.replicate n 0) lo hi src =
      .ok (done ++ List.replicate gap 0 ++ src ++ List.replicate rest 0) :=
  copyFromSlice_fill done src 0 gap rest hlo hhi hn

lemma writeFamily_zeros (os : Os) (len family : ℕ) :
    writeFamily os (List.replicate 28 0) len family =
      .ok (tag os len family ++ List.replicate 26 0) := by
  cases os with
  | linux =>
    have hlength := length_leBytes 2 family
    have hcopy : copy ([] ++ List.replicate 28 0) 0 2 (leBytes 2 family) = _ :=
      copy_zeros [] (leBytes 2 family) 0 26 rfl (by omega) (by omega)
    exact hcopy
  | macos => rfl

lemma writeSockaddr_v4 (os : Os) (a : SocketAddrV4) :
    writeSockaddr os (.v4 a) =
      .ok (tag os 16 afInet ++ bytes16 a.port ++ a.ip.toList ++ List.replicate 20 0, 16) := by
  have htag := length_tag os 16 afInet
  have hport := length_bytes16 a.port
  have hip := a.ip.length_toList
  have hlength : (tag os 16 afInet ++ bytes16 a.port).length = 4 := by
    rw [List.length_append, htag, hport]
  simp only [writeSockaddr, writeFamily_zeros, ok_bind]
  rw [copy_zeros (tag os 16 afInet) (bytes16 a.port) 0 24 (by omega) (by omega) (by omega),
    ok_bind, List.replicate_zero, List.append_nil,
    copy_zeros (tag os 16 afInet ++ bytes16 a.port) a.ip.toList 0 20 (by omega) (by omega)
      (by omega), ok_bind, List.replicate_zero, List.append_nil]
  rfl

lemma writeSockaddr_v6 (os : Os) (a : SocketAddrV6) :
    writeSockaddr os (.v6 a) =
      .ok (tag os 28 (afInet6 os) ++ bytes16 a.port ++ List.replicate 4 0 ++ a.ip.toList ++
        leBytes 4 a.scopeId.toNat, 28) := by
  have htag := length_tag os 28 (afInet6 os)
  have hport := length_bytes16 a.port
  have hip := a.ip.length_toList
  have hscope := length_leBytes 4 a.scopeId.toNat
  have hlength : (tag os 28 (afInet6 os) ++ bytes16 a.port).length = 4 := by
    rw [List.length_append, htag, hport]
  have hlength' : (tag os 28 (afInet6 os) ++ bytes16 a.port ++ List.replicate 4 0 ++
      a.ip.toList).length = 24 := by
    rw [List.length_append, List.length_append, hlength, hip, List.length_replicate]
  simp only [writeSockaddr, writeFamily_zeros, ok_bind]
  rw [copy_zeros (tag os 28 (afInet6 os)) (bytes16 a.port) 0 24 (by omega) (by omega) (by omega),
    ok_bind, List.replicate_zero, List.append_nil,
    copy_zeros (tag os 28 (afInet6 os) ++ bytes16 a.port) a.ip.toList 4 4 (by omega) (by omega)
      (by omega), ok_bind,
    copy_zeros _ (leBytes 4 a.scopeId.toNat) 0 0 (by omega) (by omega) (by omega), ok_bind,
    List.replicate_zero, List.append_nil, List.append_nil]
  rfl

/-! ### Reading -/

/-- The family in the first two bytes. -/
def family (os : Os) (t₀ t₁ : UInt8) : ℕ :=
  match os with
  | .macos => t₁.toNat
  | .linux => leNat [t₀, t₁]

section read

variable {os : Os} {t₀ t₁ : UInt8}

lemma exists_four (v : Vector UInt8 4) : ∃ a b c d, v = ipv4 a b c d := by
  refine ⟨v[0], v[1], v[2], v[3], ?_⟩
  ext i hi
  interval_cases i <;> rfl

lemma readFamily_cons (tail : List UInt8) :
    readFamily os (t₀ :: t₁ :: tail) = .ok (family os t₀ t₁) := by
  cases os <;> rfl

lemma readSockaddr_v4 (p₀ p₁ : UInt8) (ip : Vector UInt8 4) (tail : List UInt8)
    (hfamily : family os t₀ t₁ = afInet) :
    readSockaddr os (t₀ :: t₁ :: p₀ :: p₁ :: (ip.toList ++ tail)) =
      .ok (some (.v4 ⟨ip, word16 p₀ p₁⟩)) := by
  have hlength : ¬ (t₀ :: t₁ :: p₀ :: p₁ :: (ip.toList ++ tail)).length < 8 := by
    simp only [List.length_cons, List.length_append, Vector.length_toList]
    omega
  rw [readSockaddr, if_neg hlength, readFamily_cons, ok_bind, if_pos hfamily]
  obtain ⟨a, b, c, d, rfl⟩ := exists_four ip
  rfl

lemma afInet6_ne (os : Os) : afInet6 os ≠ afInet := by
  cases os <;> decide

lemma readSockaddr_v6 (p₀ p₁ : UInt8) (flow : Vector UInt8 4) (ip : Vector UInt8 16)
    (scope : Vector UInt8 4) (tail : List UInt8) (hfamily : family os t₀ t₁ = afInet6 os) :
    readSockaddr os
        (t₀ :: t₁ :: p₀ :: p₁ :: (flow.toList ++ (ip.toList ++ (scope.toList ++ tail)))) =
      .ok (some (.v6 ⟨ip, word16 p₀ p₁, 0, UInt32.ofNat (leNat scope.toList)⟩)) := by
  obtain ⟨f₀, f₁, f₂, f₃, rfl⟩ := exists_four flow
  obtain ⟨s₀, s₁, s₂, s₃, rfl⟩ := exists_four scope
  show readSockaddr os
    ([t₀, t₁, p₀, p₁, f₀, f₁, f₂, f₃] ++ (ip.toList ++ s₀ :: s₁ :: s₂ :: s₃ :: tail)) = _
  have hfront : ([t₀, t₁, p₀, p₁, f₀, f₁, f₂, f₃] ++ ip.toList).length = 24 := by
    rw [List.length_append, ip.length_toList]
    rfl
  generalize hb : [t₀, t₁, p₀, p₁, f₀, f₁, f₂, f₃] ++
    (ip.toList ++ s₀ :: s₁ :: s₂ :: s₃ :: tail) = b
  have hlength : 28 ≤ b.length := by
    rw [← hb, ← List.append_assoc, List.length_append, hfront]
    simp only [List.length_cons]
    omega
  have hoct : (b.drop 8).take 16 = ip.toList := by
    rw [← hb]
    exact List.take_left' ip.length_toList
  have hscope (i : ℕ) {s : UInt8} (hs : (s₀ :: s₁ :: s₂ :: s₃ :: tail)[i]? = some s) :
      index b (24 + i) = .ok s := by
    rw [← hb, ← List.append_assoc, ← hfront]
    exact index_append _ _ i hs
  have hport₀ : index b 2 = .ok p₀ := by rw [← hb]; rfl
  have hport₁ : index b 3 = .ok p₁ := by rw [← hb]; rfl
  have hfam : readFamily os b = .ok (afInet6 os) := by
    rw [← hb, ← hfamily]
    exact readFamily_cons _
  have hcopy : copyArray 16 ip.toList = .ok ip := by
    rw [copyArray_of_length ip.length_toList]
    rfl
  rw [readSockaddr, if_neg (by omega), hfam, ok_bind, if_neg (afInet6_ne os),
    if_pos ⟨rfl, hlength⟩, hport₀, ok_bind, hport₁, ok_bind,
    range_of_le (by omega) (by omega), ok_bind, hoct, hcopy, ok_bind, hscope 0 rfl, ok_bind,
    hscope 1 rfl, ok_bind, hscope 2 rfl, ok_bind, hscope 3 rfl]
  rfl

/-- The bytes of an address that was read. -/
lemma readSockaddr_some {b : List UInt8} {a : SocketAddr} (h : readSockaddr os b = .ok (some a)) :
    ∃ t₀ t₁ p₀ p₁,
      (family os t₀ t₁ = afInet ∧ ∃ (ip : Vector UInt8 4) (tail : List UInt8),
        b = t₀ :: t₁ :: p₀ :: p₁ :: (ip.toList ++ tail) ∧ a = .v4 ⟨ip, word16 p₀ p₁⟩) ∨
      (family os t₀ t₁ = afInet6 os ∧
        ∃ (flow : Vector UInt8 4) (ip : Vector UInt8 16) (scope : Vector UInt8 4)
          (tail : List UInt8),
          b = t₀ :: t₁ :: p₀ :: p₁ :: (flow.toList ++ (ip.toList ++ (scope.toList ++ tail))) ∧
            a = .v6 ⟨ip, word16 p₀ p₁, 0, UInt32.ofNat (leNat scope.toList)⟩) := by
  by_cases hlength : b.length < 8
  · rw [readSockaddr, if_pos hlength] at h
    cases h
  match b, hlength with
  | t₀ :: t₁ :: p₀ :: p₁ :: f₀ :: f₁ :: f₂ :: f₃ :: rest, hlength =>
    refine ⟨t₀, t₁, p₀, p₁, ?_⟩
    by_cases hv4 : family os t₀ t₁ = afInet
    · have hread := readSockaddr_v4 p₀ p₁ (ipv4 f₀ f₁ f₂ f₃) rest hv4
      cases h.symm.trans hread
      exact Or.inl ⟨hv4, _, rest, rfl, rfl⟩
    · by_cases hv6 : family os t₀ t₁ = afInet6 os ∧ 20 ≤ rest.length
      · obtain ⟨ip, hip⟩ : ∃ ip : Vector UInt8 16, ip.toList = rest.take 16 :=
          ⟨⟨(rest.take 16).toArray, by simp; omega⟩, rfl⟩
        obtain ⟨scope, hscope⟩ : ∃ scope : Vector UInt8 4, scope.toList = (rest.drop 16).take 4 :=
          ⟨⟨((rest.drop 16).take 4).toArray, by simp; omega⟩, rfl⟩
        obtain ⟨tail, rfl⟩ : ∃ tail, rest = ip.toList ++ (scope.toList ++ tail) := by
          refine ⟨(rest.drop 16).drop 4, ?_⟩
          rw [hip, hscope, List.take_append_drop, List.take_append_drop]
        have hread := readSockaddr_v6 p₀ p₁ (ipv4 f₀ f₁ f₂ f₃) ip scope tail hv6.1
        cases h.symm.trans hread
        exact Or.inr ⟨hv6.1, ipv4 f₀ f₁ f₂ f₃, ip, scope, tail, rfl, rfl⟩
      · rw [readSockaddr, if_neg hlength, readFamily_cons, ok_bind, if_neg hv4, if_neg] at h
        · cases h
        · rintro ⟨hfamily, hle⟩
          simp only [List.length_cons] at hle
          exact hv6 ⟨hfamily, by omega⟩

end read

/-! ### The two together -/

lemma leBytes_scope (scope : Vector UInt8 4) :
    leBytes 4 (UInt32.ofNat (leNat scope.toList)).toNat = scope.toList := by
  have hlength := scope.length_toList
  have hlt : leNat scope.toList < 2 ^ 32 := by
    have h := leNat_lt scope.toList
    rw [hlength] at h
    exact h
  have hbytes := leBytes_leNat scope.toList
  rw [hlength] at hbytes
  rw [UInt32.toNat_ofNat', Nat.mod_eq_of_lt hlt, hbytes]

lemma exists_tag (os : Os) (len : ℕ) {fam : ℕ} (h : fam < 256) :
    ∃ t₀ t₁, tag os len fam = [t₀, t₁] ∧ family os t₀ t₁ = fam := by
  cases os with
  | linux =>
    refine ⟨UInt8.ofNat fam, UInt8.ofNat (fam / 256), rfl, ?_⟩
    exact leNat_leBytes_of_lt (n := 2) (by omega)
  | macos =>
    refine ⟨UInt8.ofNat len, UInt8.ofNat fam, rfl, ?_⟩
    rw [family, UInt8.toNat_ofNat', Nat.mod_eq_of_lt h]

lemma afInet6_lt (os : Os) : afInet6 os < 256 := by
  cases os <;> decide

/-- The fields of an address start with the family, which macOS has behind a length. -/
def fieldsFrom : Os → ℕ
  | .linux => 0
  | .macos => 1

def fieldsTo : SocketAddr → ℕ
  | .v4 _ => 8
  | .v6 _ => 28

/-- The bytes that have to do with the address. -/
def addressFields (os : Os) (a : SocketAddr) (b : List UInt8) : List UInt8 :=
  (b.take (fieldsTo a)).drop (fieldsFrom os)

/-- What is written is read back, from the announced length and from the whole buffer. -/
def RoundTrips (os : Os) (a : SocketAddr) : Prop :=
  ∃ b len, writeSockaddr os a = .ok (b, len) ∧ readSockaddr os (b.take len) = .ok (some a) ∧
    readSockaddr os b = .ok (some a)

/-- Writing the address gives the fields of the bytes `b` again. -/
def Reproduces (os : Os) (b : List UInt8) (a : SocketAddr) : Prop :=
  ∃ b' len, writeSockaddr os a = .ok (b', len) ∧ addressFields os a b' = addressFields os a b

/-- The address has no flow information. -/
def NoFlow : SocketAddr → Prop
  | .v4 _ => True
  | .v6 a => a.flowinfo = 0

/-- The bytes of the address have no flow information. -/
def NoFlowBytes (b : List UInt8) : SocketAddr → Prop
  | .v4 _ => True
  | .v6 _ => (b.drop 4).take 4 = List.replicate 4 0

lemma roundTrips_v4 (os : Os) (a : SocketAddrV4) : RoundTrips os (.v4 a) := by
  obtain ⟨t₀, t₁, htag, hfamily⟩ := exists_tag os 16 (show afInet < 256 by decide)
  obtain ⟨p₀, p₁, hport, hvalue⟩ : ∃ p₀ p₁, bytes16 a.port = [p₀, p₁] ∧ word16 p₀ p₁ = a.port :=
    ⟨_, _, rfl, word16_bytes a.port⟩
  have hread (tail : List UInt8) :
      readSockaddr os (t₀ :: t₁ :: p₀ :: p₁ :: (a.ip.toList ++ tail)) = .ok (some (.v4 a)) := by
    rw [readSockaddr_v4 p₀ p₁ a.ip tail hfamily, hvalue]
  have hwrite := writeSockaddr_v4 os a
  rw [htag, hport, List.append_assoc] at hwrite
  refine ⟨_, _, hwrite, ?_, hread _⟩
  have htake : (a.ip.toList ++ List.replicate 20 (0 : UInt8)).take 12 =
      a.ip.toList ++ List.replicate 8 0 := by
    rw [List.take_append, a.ip.length_toList, List.take_of_length_le (by simp)]
    rfl
  show readSockaddr os (t₀ :: t₁ :: p₀ :: p₁ ::
    (a.ip.toList ++ List.replicate 20 (0 : UInt8)).take 12) = _
  rw [htake]
  exact hread _

lemma roundTrips_v6 (os : Os) (a : SocketAddrV6) : RoundTrips os (.v6 a) ↔ a.flowinfo = 0 := by
  obtain ⟨t₀, t₁, htag, hfamily⟩ := exists_tag os 28 (afInet6_lt os)
  obtain ⟨p₀, p₁, hport, hvalue⟩ : ∃ p₀ p₁, bytes16 a.port = [p₀, p₁] ∧ word16 p₀ p₁ = a.port :=
    ⟨_, _, rfl, word16_bytes a.port⟩
  have hscope := length_leBytes 4 a.scopeId.toNat
  have hwrite := writeSockaddr_v6 os a
  rw [htag, hport] at hwrite
  generalize hb : [t₀, t₁] ++ [p₀, p₁] ++ List.replicate 4 0 ++ a.ip.toList ++
    leBytes 4 a.scopeId.toNat = b at hwrite
  -- everything but the flow information comes back
  have hread : readSockaddr os b = .ok (some (.v6 { a with flowinfo := 0 })) := by
    have hvector := readSockaddr_v6 p₀ p₁ (Vector.replicate 4 0) a.ip
      ⟨(leBytes 4 a.scopeId.toNat).toArray, hscope⟩ [] hfamily
    have hback : UInt32.ofNat (leNat (leBytes 4 a.scopeId.toNat)) = a.scopeId := by
      rw [leNat_leBytes_of_lt (n := 4) a.scopeId.toNat_lt, UInt32.ofNat_toNat]
    rw [← hb, List.append_assoc]
    simpa [hvalue, hback] using hvector
  have hlength : b.length = 28 := by
    rw [← hb]
    simp only [List.length_append, List.length_replicate, Vector.length_toList, hscope,
      List.length_cons, List.length_nil]
  constructor
  · rintro ⟨b', len, hwrite', -, hread'⟩
    cases hwrite.symm.trans hwrite'
    have haddr := hread.symm.trans hread'
    injection haddr with haddr
    injection haddr with haddr
    injection haddr with haddr
    exact (congrArg SocketAddrV6.flowinfo haddr).symm
  · intro hflow
    have hsame : ({ a with flowinfo := 0 } : SocketAddrV6) = a := by rw [← hflow]
    rw [hsame] at hread
    refine ⟨b, 28, hwrite, ?_, hread⟩
    rw [List.take_of_length_le hlength.le]
    exact hread

variable {os : Os} {t₀ t₁ : UInt8}

/-- The family that was read is the one that is written. -/
lemma tag_of_family {fam : ℕ} (h : family os t₀ t₁ = fam) (len : ℕ) :
    ∃ t, tag os len fam = [t, t₁] ∧ (os = .linux → t = t₀) := by
  subst h
  cases os with
  | linux => exact ⟨t₀, leBytes_leNat [t₀, t₁], fun _ => rfl⟩
  | macos =>
    refine ⟨UInt8.ofNat len, ?_, fun hos => by cases hos⟩
    rw [tag, family, UInt8.ofNat_toNat]

/-- Behind the first two bytes the fields are compared as they are. -/
lemma addressFields_eq_iff {a : SocketAddr} {t : UInt8} {xs ys : List UInt8}
    (ht : os = .linux → t = t₀) :
    addressFields os a (t :: t₁ :: xs) = addressFields os a (t₀ :: t₁ :: ys) ↔
      xs.take (fieldsTo a - 2) = ys.take (fieldsTo a - 2) := by
  cases os with
  | linux =>
    cases ht rfl
    cases a <;> simp [addressFields, fieldsFrom, fieldsTo]
  | macos => cases a <;> simp [addressFields, fieldsFrom, fieldsTo]

lemma reproduces_v4 (p₀ p₁ : UInt8) (ip : Vector UInt8 4) (tail : List UInt8)
    (hfamily : family os t₀ t₁ = afInet) :
    Reproduces os (t₀ :: t₁ :: p₀ :: p₁ :: (ip.toList ++ tail))
      (.v4 ⟨ip, word16 p₀ p₁⟩) := by
  obtain ⟨t, htag, ht⟩ := tag_of_family hfamily 16
  refine ⟨_, _, writeSockaddr_v4 os _, ?_⟩
  rw [htag, bytes16_word16, List.append_assoc]
  refine (addressFields_eq_iff ht).2 ?_
  show p₀ :: p₁ :: (ip.toList ++ List.replicate 20 0).take 4 =
    p₀ :: p₁ :: (ip.toList ++ tail).take 4
  rw [List.take_left' ip.length_toList, List.take_left' ip.length_toList]

lemma reproduces_v6 (p₀ p₁ : UInt8) (flow : Vector UInt8 4) (ip : Vector UInt8 16)
    (scope : Vector UInt8 4) (tail : List UInt8) (hfamily : family os t₀ t₁ = afInet6 os) :
    Reproduces os
        (t₀ :: t₁ :: p₀ :: p₁ :: (flow.toList ++ (ip.toList ++ (scope.toList ++ tail))))
        (.v6 ⟨ip, word16 p₀ p₁, 0, UInt32.ofNat (leNat scope.toList)⟩) ↔
      flow.toList = List.replicate 4 0 := by
  obtain ⟨t, htag, ht⟩ := tag_of_family hfamily 28
  have hwrite := writeSockaddr_v6 os ⟨ip, word16 p₀ p₁, 0, UInt32.ofNat (leNat scope.toList)⟩
  simp only [htag, bytes16_word16, leBytes_scope, List.append_assoc] at hwrite
  -- the fields differ in the flow information at most
  have hfields : (List.replicate 4 0 ++ (ip.toList ++ scope.toList)).take 24 =
      (flow.toList ++ (ip.toList ++ (scope.toList ++ tail))).take 24 ↔
        flow.toList = List.replicate 4 0 := by
    have hlength : (flow.toList ++ (ip.toList ++ scope.toList)).length = 24 := by
      simp only [List.length_append, Vector.length_toList]
    have hlength' : (List.replicate 4 0 ++ (ip.toList ++ scope.toList)).length = 24 := by
      simp only [List.length_append, Vector.length_toList, List.length_replicate]
    have hassoc : flow.toList ++ (ip.toList ++ (scope.toList ++ tail)) =
        flow.toList ++ (ip.toList ++ scope.toList) ++ tail := by
      simp only [List.append_assoc]
    rw [hassoc, List.take_left' hlength, List.take_of_length_le hlength'.le,
      List.append_left_inj]
    exact eq_comm
  constructor
  · rintro ⟨b', len, hwrite', hsame⟩
    cases hwrite.symm.trans hwrite'
    have htake := (addressFields_eq_iff ht).1 hsame
    exact hfields.1 (List.cons.inj (List.cons.inj htake).2).2
  · intro hflow
    refine ⟨_, _, hwrite, (addressFields_eq_iff ht).2 ?_⟩
    exact congrArg (p₀ :: p₁ :: ·) (hfields.2 hflow)

/-- An address comes back exactly if it has no flow information, and bytes that are decoded are
reproduced exactly if they have none. -/
theorem sockaddr_iff (os : Os) :
    (∀ a, RoundTrips os a ↔ NoFlow a) ∧
      ∀ b a, readSockaddr os b = .ok (some a) → (Reproduces os b a ↔ NoFlowBytes b a) := by
  constructor
  · intro a
    cases a with
    | v4 a => exact iff_of_true (roundTrips_v4 os a) trivial
    | v6 a => exact roundTrips_v6 os a
  · intro b a hread
    obtain ⟨t₀, t₁, p₀, p₁, ⟨hfamily, ip, tail, rfl, rfl⟩ |
      ⟨hfamily, flow, ip, scope, tail, rfl, rfl⟩⟩ := readSockaddr_some hread
    · exact iff_of_true (reproduces_v4 p₀ p₁ ip tail hfamily) trivial
    · rw [reproduces_v6 p₀ p₁ flow ip scope tail hfamily]
      show _ ↔ (flow.toList ++ (ip.toList ++ (scope.toList ++ tail))).take 4 = _
      rw [List.take_left' flow.length_toList]

/-- The bytes of an IPv6 address on Linux, with flow information 0 or not. -/
def loopbackBytes (flow : UInt8) : List UInt8 :=
  [10, 0, 0, 80, 0, 0, 0, flow] ++ List.replicate 15 0 ++ [1, 2, 0, 0, 0]

theorem sockaddr_iff_loopback :
    ∃ a, readSockaddr .linux (loopbackBytes 0) = .ok (some a) ∧
      (Reproduces .linux (loopbackBytes 0) a ↔ NoFlowBytes (loopbackBytes 0) a) :=
  ⟨_, rfl, (sockaddr_iff .linux).2 _ _ rfl⟩

/-- The address `[::1]:80` with flow information 1 comes back without it, and bytes with flow
information are written without it. -/
theorem sockaddr_loses_flowinfo :
    (∀ os, (writeSockaddr os (.v6 ⟨(Vector.replicate 16 0).set 15 1, 80, 1, 2⟩)).bind
        (fun r => readSockaddr os r.1) =
      .ok (some (.v6 ⟨(Vector.replicate 16 0).set 15 1, 80, 0, 2⟩))) ∧
      (readSockaddr .linux (loopbackBytes 1)).bind (fun a => (a.map (writeSockaddr .linux)).getD
        (.ok ([], 0))) = .ok (loopbackBytes 0, 28) := by
  constructor
  · intro os
    cases os <;> rfl
  · rfl

end PureStd.Net
