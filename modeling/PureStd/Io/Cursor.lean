/-
`Cursor` of `src/io.rs`: `Read`, `Seek` and, over a vector, `Write`.

The position is a `u64`.  `read` and `write` turn it into a `usize`, which keeps the lower 32 bits
only where `usize` has no more; `seek` computes on `i64`, where one half of the positions is
negative.  Memory that can not be had ends the program, as does a sum that overflows in a
development build.
-/
import Mathlib.Data.UInt
import PureStd.Target
import PureStd.Io.Traits
import PureStd.Lib.Slice
import PureStd.Lib.ZeroFilled

namespace PureStd.Io

open ZeroFilled

/-- The bytes of a vector or a slice: no object is larger than `isize::MAX`. -/
structure Bytes (w : PtrWidth) where
  toList : List UInt8
  le_isizeMax : toList.length ≤ w.isizeMax
deriving DecidableEq

/-- `AsRef<[u8]>`. -/
class AsRef (w : PtrWidth) (τ : Type) where
  asRef : τ → Bytes w

instance (w : PtrWidth) : AsRef w (Bytes w) := ⟨id⟩

/-- Why a call does not return. -/
inductive Abort where
  /-- A vector of more than `isize::MAX` bytes. -/
  | capacityOverflow
  | outOfMemory
  /-- An addition that overflows, in a development build. -/
  | addOverflow
  | slice (p : Slice.Panic)
deriving DecidableEq, Repr

/-- The build profile: a development build checks its additions. -/
inductive Profile where
  | dev
  | release
deriving DecidableEq, Repr

/-- `a + b` on `i64`. -/
def addI64 (profile : Profile) (a b : Int64) : Except Abort Int64 :=
  if profile = .dev ∧ (a + b).toInt ≠ a.toInt + b.toInt then .error .addOverflow else .ok (a + b)

/-- `Error::new`. -/
structure CustomError where
  kind : ErrorKind
  error : String
deriving DecidableEq, Repr

/-- `SeekFrom`. -/
inductive SeekFrom where
  | start (n : UInt64)
  | end_ (n : Int64)
  | current (n : Int64)
deriving DecidableEq

structure Cursor (τ : Type) where
  inner : τ
  pos : UInt64
deriving DecidableEq

namespace Cursor

variable {w : PtrWidth} {τ : Type}

/-- `Cursor::new`. -/
def new (inner : τ) : Cursor τ := ⟨inner, 0⟩

/-- `set_position`. -/
def setPosition (c : Cursor τ) (pos : UInt64) : Cursor τ := { c with pos := pos }

section AsRef

variable (w) [AsRef w τ]

/-- The bytes under the cursor. -/
def data (c : Cursor τ) : List UInt8 := (AsRef.asRef (w := w) c.inner).toList

/-- `Read::read`. -/
def read (c : Cursor τ) (buf : List UInt8) : Cursor τ × List UInt8 × Result ℕ :=
  let pos := min (w.wrap c.pos.toNat) (c.data w).length
  match sliceReader.read ((c.data w).drop pos) buf with
  | (_, buf, .ok n) => ({ c with pos := c.pos + UInt64.ofNat n }, buf, .ok n)
  | (_, buf, .error e) => (c, buf, .error e)

/-- The new position that `seek` computes. -/
def newPos (profile : Profile) (c : Cursor τ) : SeekFrom → Except Abort Int64
  | .start n => .ok n.toInt64
  | .end_ n => addI64 profile (Int64.ofNat (c.data w).length) n
  | .current n => addI64 profile c.pos.toInt64 n

/-- What `seek` does with the new position. -/
def settle (c : Cursor τ) (new : Int64) : Cursor τ × Except CustomError UInt64 :=
  if new < 0 then (c, .error ⟨.invalidInput, "negative seek position"⟩)
  else ({ c with pos := new.toUInt64 }, .ok new.toUInt64)

/-- `Seek::seek`. -/
def seek (profile : Profile) (c : Cursor τ) (pos : SeekFrom) :
    Except Abort (Cursor τ × Except CustomError UInt64) :=
  (newPos w profile c pos).map c.settle

end AsRef

/-! ### Writing -/

/-- `Vec::resize` with zeros, where `grant` says how long a vector there is memory for. -/
def resize (grant : ℕ → Bool) (v : Bytes w) (n : ℕ) : Except Abort (Bytes w) :=
  if n ≤ v.toList.length then
    .ok ⟨v.toList.take n, (List.length_take_le' ..).trans v.le_isizeMax⟩
  else if h : n ≤ w.isizeMax then
    if grant n then .ok ⟨pad v.toList n, by
      rw [length_pad]
      exact max_le v.le_isizeMax h⟩
    else .error .outOfMemory
  else .error .capacityOverflow

/-- `if n > v.len() { v.resize(n, 0) }`. -/
def growTo (grant : ℕ → Bool) (v : Bytes w) (n : ℕ) : Except Abort (Bytes w) :=
  if n > v.toList.length then resize grant v n else .ok v

/-- `Write::write`. -/
def write (grant : ℕ → Bool) (c : Cursor (Bytes w)) (buf : Bytes w) :
    Except Abort (Cursor (Bytes w) × Result ℕ) := do
  let pos := w.wrap c.pos.toNat
  let inner ← growTo grant c.inner pos
  let end_ := w.wrap (pos + buf.toList.length)
  let inner ← growTo grant inner end_
  match Slice.copyFromSlice inner.toList pos end_ buf.toList with
  | .ok t => .ok (⟨⟨t.1, t.2.trans_le inner.le_isizeMax⟩, UInt64.ofNat end_⟩,
      .ok buf.toList.length)
  | .error p => .error (.slice p)

/-! ### Seeking -/

lemma toInt_toInt64 (n : UInt64) :
    n.toInt64.toInt = if n.toNat < 2 ^ 63 then (n.toNat : ℤ) else n.toNat - 2 ^ 64 := by
  rw [← Int64.toInt_toBitVec, UInt64.toBitVec_toInt64, BitVec.toInt_eq_toNat_cond,
    UInt64.toNat_toBitVec]
  split_ifs <;> omega

lemma toNat_toUInt64 {a : Int64} (h : 0 ≤ a.toInt) : (a.toUInt64.toNat : ℤ) = a.toInt := by
  have hlt := a.toInt_lt
  have hcond := toInt_toInt64 a.toUInt64
  have hself : a.toUInt64.toInt64 = a := rfl
  have hsize := a.toUInt64.toNat_lt
  rw [hself] at hcond
  split_ifs at hcond <;> omega

/-- An addition returns the exact sum in a development build, and returns in both builds
where the exact sum is an `i64`. -/
lemma addI64_dev {a b c : Int64} (h : addI64 .dev a b = .ok c) :
    c.toInt = a.toInt + b.toInt := by
  unfold addI64 at h
  split_ifs at h with hne
  cases h
  by_contra hc
  exact hne ⟨rfl, hc⟩

lemma addI64_exact (profile : Profile) {a b : Int64} (hlo : -2 ^ 63 ≤ a.toInt + b.toInt)
    (hhi : a.toInt + b.toInt < 2 ^ 63) :
    addI64 profile a b = .ok (a + b) ∧ (a + b).toInt = a.toInt + b.toInt := by
  have hsum : (a + b).toInt = a.toInt + b.toInt := by
    rw [Int64.toInt_add]
    exact Int.bmod_eq_of_le (by omega) (by omega)
  exact ⟨if_neg fun h => h.2 hsum, hsum⟩

/-- What a seek to the target `t` has to do. -/
def SeeksTo (c : Cursor τ) (t : ℤ) (out : Cursor τ × Except CustomError UInt64) : Prop :=
  (0 ≤ t ∧ t < 2 ^ 64 → ∃ u : UInt64, (u.toNat : ℤ) = t ∧ out = ({ c with pos := u }, .ok u)) ∧
  (¬ (0 ≤ t ∧ t < 2 ^ 64) → ∃ e : CustomError, e.kind = .invalidInput ∧ out = (c, .error e))

lemma seeksTo_settle {c : Cursor τ} {new : Int64} {t : ℤ} :
    SeeksTo c t (c.settle new) ↔
      if new.toInt < 0 then t < 0 ∨ 2 ^ 64 ≤ t else t = new.toInt := by
  have hlt : new < 0 ↔ new.toInt < 0 := Int64.lt_iff_toInt_lt
  have hbound := new.toInt_lt
  unfold SeeksTo settle
  rw [if_congr hlt rfl rfl]
  split_ifs with hneg
  · constructor
    · rintro ⟨hin, -⟩
      by_contra hout
      obtain ⟨u, -, hu⟩ := hin (by omega)
      cases (Prod.mk.inj hu).2
    · intro hout
      exact ⟨fun hin => absurd hin (by omega), fun _ => ⟨_, rfl, rfl⟩⟩
  · have hnew := toNat_toUInt64 (Int.not_lt.1 hneg)
    constructor
    · rintro ⟨hin, hout⟩
      by_cases ht : 0 ≤ t ∧ t < 2 ^ 64
      · obtain ⟨u, hu, heq⟩ := hin ht
        cases heq
        omega
      · obtain ⟨e, -, heq⟩ := hout ht
        cases (Prod.mk.inj heq).2
    · rintro rfl
      exact ⟨fun _ => ⟨_, hnew, rfl⟩, fun hout => absurd ⟨by omega, by omega⟩ hout⟩

section AsRef

variable (w) [AsRef w τ]

/-- The exact target of a seek. -/
def target (c : Cursor τ) : SeekFrom → ℤ
  | .start n => n.toNat
  | .end_ n => (c.data w).length + n.toInt
  | .current n => c.pos.toNat + n.toInt

/-- `seek` goes to the exact target if that is a `u64`, rejects it otherwise, and does not
overflow: it returns in a development build as well. -/
def SeeksExactly (c : Cursor τ) (pos : SeekFrom) : Prop :=
  ∀ profile, ∃ out, seek w profile c pos = .ok out ∧ SeeksTo c (target w c pos) out

/-- The target is below `2^63`, and so is the position if the seek is relative to it. -/
def Within (c : Cursor τ) : SeekFrom → Prop
  | .start n => n.toNat < 2 ^ 63
  | .end_ n => (c.data w).length + n.toInt < 2 ^ 63
  | .current n => c.pos.toNat < 2 ^ 63 ∧ c.pos.toNat + n.toInt < 2 ^ 63

variable {w} {c : Cursor τ}

lemma length_data_lt (c : Cursor τ) : (c.data w).length < 2 ^ 63 := by
  have hle := (AsRef.asRef (w := w) c.inner).le_isizeMax
  have hmax : w.isizeMax < 2 ^ 63 := by cases w <;> decide
  exact Nat.lt_of_le_of_lt hle hmax

/-- A seek whose new position is computed without overflow. -/
lemma seeksExactly_of_newPos {pos : SeekFrom} {new : Int64}
    (h : ∀ profile, newPos w profile c pos = .ok new) (hnew : new.toInt = target w c pos) :
    SeeksExactly w c pos := by
  intro profile
  refine ⟨c.settle new, by rw [seek, h profile]; rfl, seeksTo_settle.2 ?_⟩
  split_ifs with hneg
  · exact Or.inl (hnew ▸ hneg)
  · exact hnew.symm

/-- In a development build the sum is exact or there is none. -/
lemma SeeksExactly.dev {pos : SeekFrom} (h : SeeksExactly w c pos) :
    ∃ new, newPos w .dev c pos = .ok new ∧
      if new.toInt < 0 then target w c pos < 0 ∨ 2 ^ 64 ≤ target w c pos
      else target w c pos = new.toInt := by
  obtain ⟨out, hout, hspec⟩ := h .dev
  rw [seek] at hout
  cases hnew : newPos w .dev c pos with
  | error a =>
    rw [hnew] at hout
    cases hout
  | ok new =>
    rw [hnew] at hout
    cases hout
    exact ⟨new, rfl, seeksTo_settle.1 hspec⟩

/-- `seek` is exact if the target is below `2^63` and, for a seek relative to the position, the
position is as well. -/
theorem seeksExactly_iff (c : Cursor τ) (pos : SeekFrom) :
    SeeksExactly w c pos ↔ Within w c pos := by
  have hlen := length_data_lt (w := w) c
  cases pos with
  | start n =>
    have hn := toInt_toInt64 n
    have hsize := n.toNat_lt
    constructor
    · intro h
      obtain ⟨new, hnew, hspec⟩ := h.dev
      cases hnew
      simp only [Within, target] at hspec ⊢
      split_ifs at hn hspec <;> omega
    · intro h
      exact seeksExactly_of_newPos (fun _ => rfl) (hn.trans (if_pos h))
  | end_ n =>
    have hn := n.le_toInt
    have hlen' := Int64.toInt_ofNat_of_lt hlen
    constructor
    · intro h
      obtain ⟨new, hnew, hspec⟩ := h.dev
      have hsum := addI64_dev hnew
      have hbound := new.toInt_lt
      simp only [Within, target] at hspec ⊢
      omega
    · intro h
      simp only [Within] at h
      have hadd := fun profile => addI64_exact profile (a := Int64.ofNat (c.data w).length)
        (b := n) (by omega) (by omega)
      refine seeksExactly_of_newPos (fun profile => (hadd profile).1) ?_
      rw [(hadd .dev).2, hlen', target]
  | current n =>
    have hn := n.le_toInt
    have hpos := toInt_toInt64 c.pos
    constructor
    · intro h
      obtain ⟨new, hnew, hspec⟩ := h.dev
      have hsum := addI64_dev hnew
      have hbound := new.toInt_lt
      simp only [Within, target] at hspec ⊢
      -- an `i64` holds the upper half of the positions as negative numbers
      split_ifs at hpos hspec <;> omega
    · rintro ⟨hlt, hsum⟩
      rw [if_pos hlt] at hpos
      have hadd := fun profile => addI64_exact profile (a := c.pos.toInt64) (b := n)
        (by omega) (by omega)
      refine seeksExactly_of_newPos (fun profile => (hadd profile).1) ?_
      rw [(hadd .dev).2, hpos, target]

end AsRef

/-- `2^63` is rejected as negative, and one step forward from the largest position leads to
zero. -/
theorem seek_upper_half :
    seek .w64 .release (new (⟨[], by decide⟩ : Bytes .w64)) (.start 0x8000000000000000) =
      .ok (new ⟨[], by decide⟩, .error ⟨.invalidInput, "negative seek position"⟩) ∧
    seek .w64 .release (setPosition (new (⟨[], by decide⟩ : Bytes .w64)) 0xffffffffffffffff)
      (.current 1) = .ok (new ⟨[], by decide⟩, .ok 0) ∧
    ¬ SeeksExactly .w64 (new (⟨[], by decide⟩ : Bytes .w64)) (.start 0x8000000000000000) := by
  refine ⟨rfl, rfl, fun h => ?_⟩
  obtain ⟨new, hnew, hspec⟩ := h.dev
  cases hnew
  revert hspec
  decide

/-! ### Reading and writing -/

variable {c : Cursor (Bytes w)} {grant : ℕ → Bool} {buf : Bytes w} {n : ℕ}

/-- `dst` is the array `src` with `xs` stored from offset `p` on. -/
def Stored (src : List UInt8) (p : ℕ) (xs dst : List UInt8) : Prop :=
  dst.length = max src.length (p + xs.length) ∧
    ∀ i, dst.getD i 0 =
      if p ≤ i ∧ i < p + xs.length then xs.getD (i - p) 0 else src.getD i 0

/-- There is memory for `n` bytes. -/
def Granted (w : PtrWidth) (grant : ℕ → Bool) (n : ℕ) : Prop := n ≤ w.isizeMax ∧ grant n = true

lemma growTo_ok {v : Bytes w} (h : v.toList.length < n → Granted w grant n) :
    ∃ v', growTo grant v n = .ok v' ∧ v'.toList = pad v.toList n := by
  unfold growTo resize
  split_ifs with hlt hle hmax hgrant
  · omega
  · exact ⟨_, rfl, rfl⟩
  · exact absurd (h hlt).2 hgrant
  · exact absurd (h hlt).1 hmax
  · exact ⟨v, rfl, (pad_of_le (Nat.not_lt.1 hlt)).symm⟩

lemma growTo_error {v : Bytes w} (hlt : v.toList.length < n) (h : ¬ Granted w grant n) :
    ∃ a, growTo grant v n = .error a := by
  rw [growTo, if_pos hlt, resize, if_neg (Nat.not_le.2 hlt)]
  split_ifs with hmax hgrant
  · exact absurd ⟨hmax, hgrant⟩ h
  · exact ⟨_, rfl⟩
  · exact ⟨_, rfl⟩

/-- A write at the `usize` position `q` needs memory that can not be had. -/
def Refused (grant : ℕ → Bool) (v buf : Bytes w) (q : ℕ) : Prop :=
  (v.toList.length < q ∧ ¬ Granted w grant q) ∨
    (max v.toList.length q < q + buf.toList.length ∧ ¬ Granted w grant (q + buf.toList.length))

/-- The end of a write does not overflow. -/
lemma wrap_end {q : ℕ} (v buf : Bytes w) (h : v.toList.length < q → q ≤ w.isizeMax) :
    w.wrap (q + buf.toList.length) = q + buf.toList.length := by
  have hv := v.le_isizeMax
  have hbuf := buf.le_isizeMax
  have hsize := w.two_mul_isizeMax
  exact PtrWidth.wrap_of_lt (by omega)

/-- A write stops for lack of memory and for nothing else: neither the range nor the copy
fails. -/
lemma write_of_refused (h : Refused grant c.inner buf (w.wrap c.pos.toNat)) :
    ∃ a, c.write grant buf = .error a := by
  by_cases hfirst : c.inner.toList.length < w.wrap c.pos.toNat →
      Granted w grant (w.wrap c.pos.toNat)
  · obtain ⟨v, hgrow, hv⟩ := growTo_ok hfirst
    obtain ⟨hlt, hno⟩ := h.resolve_left fun h => h.2 (hfirst h.1)
    have hend := wrap_end c.inner buf fun hq => (hfirst hq).1
    obtain ⟨a, ha⟩ := growTo_error (v := v) (by rw [hv, length_pad]; exact hlt) hno
    exact ⟨a, by simp only [write, hgrow, hend, ha, bind, Except.bind]⟩
  · obtain ⟨hlt, hno⟩ := Classical.not_imp.1 hfirst
    obtain ⟨a, ha⟩ := growTo_error hlt hno
    exact ⟨a, by simp only [write, ha, bind, Except.bind]⟩

lemma write_of_not_refused (h : ¬ Refused grant c.inner buf (w.wrap c.pos.toNat)) :
    ∃ v : Bytes w, v.toList = store c.inner.toList (w.wrap c.pos.toNat) buf.toList ∧
      c.write grant buf =
        .ok (⟨v, UInt64.ofNat (w.wrap c.pos.toNat + buf.toList.length)⟩,
          .ok buf.toList.length) := by
  have hfirst : c.inner.toList.length < w.wrap c.pos.toNat →
      Granted w grant (w.wrap c.pos.toNat) := fun hlt => by
    by_contra hno
    exact h (Or.inl ⟨hlt, hno⟩)
  have hend := wrap_end c.inner buf fun hq => (hfirst hq).1
  obtain ⟨v, hgrow, hv⟩ := growTo_ok hfirst
  have hsecond : v.toList.length < w.wrap c.pos.toNat + buf.toList.length →
      Granted w grant (w.wrap c.pos.toNat + buf.toList.length) := fun hlt => by
    by_contra hno
    rw [hv, length_pad] at hlt
    exact h (Or.inr ⟨hlt, hno⟩)
  obtain ⟨v', hgrow', hv'⟩ := growTo_ok hsecond
  rw [hv, pad_pad _ (Nat.le_add_right _ _)] at hv'
  have hroom : w.wrap c.pos.toNat + buf.toList.length ≤ v'.toList.length := by
    rw [hv', length_pad]
    omega
  obtain ⟨hlen, hcopy⟩ := Slice.copyFromSlice_of_length rfl hroom
  refine ⟨⟨_, hlen.trans_le v'.le_isizeMax⟩, ?_, ?_⟩
  · simp only [hv']
    rfl
  · simp only [write, hgrow, hend, hgrow', hcopy, bind, Except.bind]

lemma read_eq (c : Cursor (Bytes w)) (dest : List UInt8) :
    c.read w dest =
      let rest := c.inner.toList.drop (w.wrap c.pos.toNat)
      let n := min dest.length rest.length
      ({ c with pos := c.pos + UInt64.ofNat n }, rest.take n ++ dest.drop n, .ok n) := by
  have hdrop : c.inner.toList.drop (min (w.wrap c.pos.toNat) c.inner.toList.length) =
      c.inner.toList.drop (w.wrap c.pos.toNat) := by
    rcases Nat.le_total (w.wrap c.pos.toNat) c.inner.toList.length with hle | hge
    · rw [Nat.min_eq_left hle]
    · rw [Nat.min_eq_right hge, List.drop_length, List.drop_eq_nil_of_le hge]
  have hdata : c.data w = c.inner.toList := rfl
  simp only [read, hdata, hdrop, sliceReader]

/-! ### Runs -/

/-- A call on a cursor over a vector. -/
inductive Op (w : PtrWidth) where
  /-- `write`, and what memory there is at that time. -/
  | write (grant : ℕ → Bool) (buf : Bytes w)
  | read (dest : List UInt8)
  | setPosition (pos : UInt64)
  | seek (pos : SeekFrom)

/-- The cursor after a call. -/
def exec (profile : Profile) (c : Cursor (Bytes w)) : Op w → Except Abort (Cursor (Bytes w))
  | .write grant buf => (c.write grant buf).map Prod.fst
  | .read dest => .ok (c.read w dest).1
  | .setPosition pos => .ok (c.setPosition pos)
  | .seek pos => (seek w profile c pos).map Prod.fst

/-- Every call of a sequence meets `P` in the state it is made in.  The sequence ends early if the
program does. -/
def Along (profile : Profile) (P : Cursor (Bytes w) → Op w → Prop) :
    Cursor (Bytes w) → List (Op w) → Prop
  | _, [] => True
  | c, op :: ops =>
    P c op ∧ match c.exec profile op with
      | .ok c' => Along profile P c' ops
      | .error _ => True

/-- What a call has to do on a zero-filled array of bytes with a position.  A write returns exactly
if there is memory for it; it stores its bytes at the position and moves behind them, or changes
nothing.  A read returns what is stored from the position on; the position is the one that was
set. -/
def Behaves (profile : Profile) (c : Cursor (Bytes w)) : Op w → Prop
  | .write grant buf =>
    ((∃ out, c.write grant buf = .ok out) ↔ ¬ Refused grant c.inner buf c.pos.toNat) ∧
    ∀ c' r, c.write grant buf = .ok (c', r) →
      (r = .ok buf.toList.length ∧ Stored c.inner.toList c.pos.toNat buf.toList c'.inner.toList ∧
        c'.pos.toNat = c.pos.toNat + buf.toList.length) ∨
      ((∃ e, r = .error e) ∧ c' = c)
  | .read dest => ∀ c' dest' r, c.read w dest = (c', dest', r) →
      let stored := c.inner.toList.drop c.pos.toNat
      let n := min dest.length stored.length
      r = .ok n ∧ dest' = stored.take n ++ dest.drop n ∧ c'.inner = c.inner ∧
        c'.pos.toNat = c.pos.toNat + n
  | .setPosition pos => c.setPosition pos = ⟨c.inner, pos⟩
  | .seek pos => ∀ c' t, seek w profile c pos = .ok (c', .ok t) → c' = ⟨c.inner, t⟩

/-- The position is a `usize`; or a read gets nothing and a write gets no memory at what is left
of the position. -/
def Fits (c : Cursor (Bytes w)) : Op w → Prop
  | .write grant buf =>
    c.pos.toNat < w.size ∨ Refused grant c.inner buf (w.wrap c.pos.toNat)
  | .read dest =>
    c.pos.toNat < w.size ∨ c.inner.toList.length ≤ w.wrap c.pos.toNat ∨ dest = []
  | .setPosition _ => True
  | .seek _ => True

lemma lt_of_le_isizeMax (h : n ≤ w.isizeMax) : n < w.size ∧ n < 2 ^ 64 := by
  have hsize := w.two_mul_isizeMax
  have hbound : w.size ≤ 2 ^ 64 := by cases w <;> decide
  omega

lemma toNat_ofNat_of_le (h : n ≤ w.isizeMax) : (UInt64.ofNat n).toNat = n :=
  UInt64.toNat_ofNat_of_lt (lt_of_le_isizeMax h).2

/-- A write that returns has moved behind its bytes, on the array of `usize` offsets. -/
lemma write_end (h : ¬ Refused grant c.inner buf (w.wrap c.pos.toNat)) :
    w.wrap c.pos.toNat + buf.toList.length ≤ w.isizeMax := by
  obtain ⟨v, hv, -⟩ := write_of_not_refused h
  have hlen := v.le_isizeMax
  rw [hv, length_store] at hlen
  omega

/-- There is no memory behind the positions that are a `usize`. -/
lemma refused_of_size_le {v : Bytes w} {p : ℕ} (h : w.size ≤ p) : Refused grant v buf p := by
  have hsize := w.two_mul_isizeMax
  have hlen := v.le_isizeMax
  have hpos : 0 < w.size := by cases w <;> decide
  exact Or.inl ⟨by omega, fun hgrant => absurd hgrant.1 (by omega)⟩

lemma behaves_write_iff (profile : Profile) (c : Cursor (Bytes w)) (grant : ℕ → Bool)
    (buf : Bytes w) : Behaves profile c (.write grant buf) ↔ Fits c (.write grant buf) := by
  by_cases href : Refused grant c.inner buf (w.wrap c.pos.toNat)
  · obtain ⟨a, ha⟩ := write_of_refused href
    have hexact : Refused grant c.inner buf c.pos.toNat := by
      rcases Nat.lt_or_ge c.pos.toNat w.size with hlt | hge
      · rwa [PtrWidth.wrap_of_lt hlt] at href
      · exact refused_of_size_le hge
    have hno : ∀ out, c.write grant buf ≠ .ok out := by
      intro out hw
      rw [ha] at hw
      cases hw
    refine iff_of_true ⟨iff_of_false ?_ (not_not.2 hexact), fun c' r hw => absurd hw (hno _)⟩
      (Or.inr href)
    rintro ⟨out, hw⟩
    exact hno out hw
  · obtain ⟨v, hv, hwrite⟩ := write_of_not_refused href
    have hend := toNat_ofNat_of_le (write_end href)
    rw [Fits, or_iff_left href]
    constructor
    · rintro ⟨-, h⟩
      obtain ⟨-, -, hpos⟩ | ⟨⟨e, he⟩, -⟩ := h _ _ hwrite
      · rw [hend] at hpos
        have hlt : w.wrap c.pos.toNat < w.size := Nat.mod_lt _ (by cases w <;> decide)
        omega
      · cases he
    · intro hlt
      have hexact : ¬ Refused grant c.inner buf c.pos.toNat := by
        rwa [PtrWidth.wrap_of_lt hlt] at href
      refine ⟨iff_of_true ⟨_, hwrite⟩ hexact, fun c' r hw => ?_⟩
      rw [hwrite] at hw
      cases hw
      rw [PtrWidth.wrap_of_lt hlt] at hv hend
      refine Or.inl ⟨rfl, ?_, ?_⟩
      · rw [hv]
        exact ⟨length_store _ _ _, getD_store _ _ _⟩
      · rw [PtrWidth.wrap_of_lt hlt, hend]

lemma behaves_read_iff (profile : Profile) (c : Cursor (Bytes w)) (dest : List UInt8) :
    Behaves profile c (.read dest) ↔ Fits c (.read dest) := by
  have hlen := lt_of_le_isizeMax c.inner.le_isizeMax
  have hread := read_eq c dest
  simp only [Behaves, Fits]
  by_cases hlt : c.pos.toNat < w.size
  · refine iff_of_true (fun c' dest' r hr => ?_) (Or.inl hlt)
    rw [hread, PtrWidth.wrap_of_lt hlt] at hr
    cases hr
    refine ⟨rfl, rfl, rfl, ?_⟩
    -- the position moves only where there are bytes, so it stays below the end
    have hpos := c.pos.toNat_lt
    rw [UInt64.toNat_add, UInt64.toNat_ofNat', List.length_drop]
    omega
  · have hnil : c.inner.toList.drop c.pos.toNat = [] := List.drop_eq_nil_of_le (by omega)
    rw [or_iff_right hlt, hnil]
    constructor
    · intro h
      have hzero := (h _ _ _ hread).1
      have hmin := Except.ok.inj hzero
      rw [List.length_drop, List.length_nil, Nat.min_zero] at hmin
      rcases Nat.eq_zero_or_pos dest.length with hdest | hdest
      · exact Or.inr (List.eq_nil_of_length_eq_zero hdest)
      · exact Or.inl (by omega)
    · intro h c' dest' r hr
      have hmin : min dest.length (c.inner.toList.drop (w.wrap c.pos.toNat)).length = 0 := by
        rcases h with hle | rfl
        · rw [List.drop_eq_nil_of_le hle, List.length_nil, Nat.min_zero]
        · exact Nat.zero_min _
      simp only [hread, hmin] at hr
      cases hr
      simp

lemma behaves_seek (profile : Profile) (c : Cursor (Bytes w)) (pos : SeekFrom) :
    Behaves profile c (.seek pos) := by
  intro c' t h
  rw [seek] at h
  cases hnew : newPos w profile c pos with
  | error a =>
    rw [hnew] at h
    cases h
  | ok new =>
    rw [hnew] at h
    have hsettle : c.settle new = (c', .ok t) := Except.ok.inj h
    unfold settle at hsettle
    split_ifs at hsettle
    · cases (Prod.mk.inj hsettle).2
    · obtain ⟨rfl, ht⟩ := Prod.mk.inj hsettle
      rw [Except.ok.inj ht]

lemma behaves_iff_fits (profile : Profile) (c : Cursor (Bytes w)) (op : Op w) :
    Behaves profile c op ↔ Fits c op := by
  cases op with
  | write grant buf => exact behaves_write_iff profile c grant buf
  | read dest => exact behaves_read_iff profile c dest
  | setPosition pos => exact iff_of_true rfl trivial
  | seek pos => exact iff_of_true (behaves_seek profile c pos) trivial

lemma along_congr {profile : Profile} {P Q : Cursor (Bytes w) → Op w → Prop}
    (h : ∀ c op, P c op ↔ Q c op) (c : Cursor (Bytes w)) (ops : List (Op w)) :
    Along profile P c ops ↔ Along profile Q c ops := by
  induction ops generalizing c with
  | nil => exact Iff.rfl
  | cons op ops ih =>
    refine and_congr (h c op) ?_
    cases c.exec profile op with
    | ok c' => exact ih c'
    | error a => exact Iff.rfl

/-- A cursor over a vector is a zero-filled array with a position in all calls of a sequence
exactly if every one of them is made at a position that is a `usize`, or where what is left of
the position does no harm. -/
theorem cursor_array_iff (profile : Profile) (v : Bytes w) (ops : List (Op w)) :
    Along profile (Behaves profile) (new v) ops ↔ Along profile Fits (new v) ops :=
  along_congr (behaves_iff_fits profile) (new v) ops

/-- With a 32-bit `usize` a byte written at position `2^32` is stored at offset zero. -/
theorem write_beyond_usize :
    (write (fun _ => true) (setPosition (new (⟨[1], by decide⟩ : Bytes .w32)) 0x100000000)
      ⟨[2], by decide⟩) = .ok (⟨⟨[2], by decide⟩, 1⟩, .ok 1) ∧
    ¬ Along .release (Behaves .release) (new (⟨[1], by decide⟩ : Bytes .w32))
      [.setPosition 0x100000000, .write (fun _ => true) ⟨[2], by decide⟩] := by
  have hwrite : (write (fun _ => true)
      (setPosition (new (⟨[1], by decide⟩ : Bytes .w32)) 0x100000000) ⟨[2], by decide⟩) =
      .ok (⟨⟨[2], by decide⟩, 1⟩, .ok 1) := by rfl
  refine ⟨hwrite, ?_⟩
  rintro ⟨-, ⟨-, h⟩, -⟩
  obtain ⟨-, -, hpos⟩ | ⟨⟨e, he⟩, -⟩ := h _ _ hwrite
  · revert hpos
    decide
  · cases he

end Cursor

end PureStd.Io
