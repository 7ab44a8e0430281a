/-
Big-endian fields of 16 and 32 bits.
-/
import Mathlib.Tactic

namespace PureStd.BigEndian

/-- The word with the given bytes, most significant first. -/
def word16 (hi lo : UInt8) : UInt16 := UInt16.ofNat (256 * hi.toNat + lo.toNat)

/-- The bytes of a word of 16 bits. -/
def bytes16 (x : UInt16) : List UInt8 := [UInt8.ofNat (x.toNat / 256), UInt8.ofNat x.toNat]

/-- The bytes of a word of 32 bits. -/
def bytes32 (x : UInt32) : List UInt8 :=
  [UInt8.ofNat (x.toNat / 256 ^ 3), UInt8.ofNat (x.toNat / 256 ^ 2),
    UInt8.ofNat (x.toNat / 256), UInt8.ofNat x.toNat]

@[simp] lemma length_bytes16 (x : UInt16) : (bytes16 x).length = 2 := rfl

lemma word16_bytes (x : UInt16) :
    word16 (UInt8.ofNat (x.toNat / 256)) (UInt8.ofNat x.toNat) = x := by
  have hx := x.toNat_lt
  apply UInt16.toNat_inj.1
  simp only [word16, UInt16.toNat_ofNat', UInt8.toNat_ofNat']
  omega

lemma bytes16_word16 (hi lo : UInt8) : bytes16 (word16 hi lo) = [hi, lo] := by
  have hhi := hi.toNat_lt
  have hlo := lo.toNat_lt
  have hword : (word16 hi lo).toNat = 256 * hi.toNat + lo.toNat := by
    rw [word16, UInt16.toNat_ofNat', Nat.mod_eq_of_lt (by omega)]
  have hhigh : UInt8.ofNat ((256 * hi.toNat + lo.toNat) / 256) = hi := by
    apply UInt8.toNat_inj.1
    rw [UInt8.toNat_ofNat']
    omega
  have hlow : UInt8.ofNat (256 * hi.toNat + lo.toNat) = lo := by
    apply UInt8.toNat_inj.1
    rw [UInt8.toNat_ofNat']
    omega
  rw [bytes16, hword, hhigh, hlow]

end PureStd.BigEndian
