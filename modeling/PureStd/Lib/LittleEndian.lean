/-
Little-endian byte strings.

A byte string is read as the number whose base-256 digits it lists, least
significant byte first.  The reader is `Nat.ofDigits`; this file adds the writer
of a fixed number of bytes, the round trip, and the two facts that a program which
assembles words with shifts and bitwise "or" needs: how concatenation acts on the
value (`leNat_append`) and that an "or" with a shifted word is that concatenation
(`leWord_append`).
-/
import Mathlib.Data.Nat.Digits.Lemmas
import Mathlib.Tactic

namespace PureStd.LittleEndian

/-- The number with the given little-endian bytes. -/
def leNat (bs : List UInt8) : ℕ := Nat.ofDigits 256 (bs.map UInt8.toNat)

@[simp] lemma leNat_nil : leNat [] = 0 := rfl

@[simp] lemma leNat_cons (b : UInt8) (bs : List UInt8) :
    leNat (b :: bs) = b.toNat + 256 * leNat bs := by
  simp [leNat, Nat.ofDigits_cons]

lemma leNat_append (as bs : List UInt8) :
    leNat (as ++ bs) = leNat as + 256 ^ as.length * leNat bs := by
  simp [leNat, Nat.ofDigits_append]

lemma leNat_lt (bs : List UInt8) : leNat bs < 256 ^ bs.length := by
  have h := Nat.ofDigits_lt_base_pow_length (b := 256) (l := bs.map UInt8.toNat) (by norm_num) ?_
  · simpa [leNat] using h
  · intro x hx
    obtain ⟨b, -, rfl⟩ := List.mem_map.1 hx
    exact b.toNat_lt

lemma leNat_replicate_zero (n : ℕ) : leNat (List.replicate n 0) = 0 := by
  induction n with
  | zero => rfl
  | succ n ih => simp [List.replicate_succ, ih]

/-- The `n` little-endian bytes of a number; what does not fit is dropped. -/
def leBytes : ℕ → ℕ → List UInt8
  | 0, _ => []
  | n + 1, x => UInt8.ofNat x :: leBytes n (x / 256)

@[simp] lemma length_leBytes (n x : ℕ) : (leBytes n x).length = n := by
  induction n generalizing x with
  | zero => rfl
  | succ n ih => simp [leBytes, ih]

/-- Reading back what was written gives the number, up to the bytes that did not fit. -/
lemma leNat_leBytes (n x : ℕ) : leNat (leBytes n x) = x % 256 ^ n := by
  induction n generalizing x with
  | zero => simp [leBytes, Nat.mod_one]
  | succ n ih =>
    have hbyte : (UInt8.ofNat x).toNat = x % 256 := by simp
    rw [leBytes, leNat_cons, ih, hbyte, pow_succ', Nat.mod_mul]

lemma leNat_leBytes_of_lt {n x : ℕ} (h : x < 256 ^ n) : leNat (leBytes n x) = x := by
  rw [leNat_leBytes, Nat.mod_eq_of_lt h]

/-- Writing back what was read gives the bytes. -/
lemma leBytes_leNat (bs : List UInt8) : leBytes bs.length (leNat bs) = bs := by
  induction bs with
  | nil => rfl
  | cons b bs ih =>
    have hb := b.toNat_lt
    have hlow : UInt8.ofNat (b.toNat + 256 * leNat bs) = b := by
      apply UInt8.toNat_inj.1
      rw [UInt8.toNat_ofNat']
      omega
    have hhigh : (b.toNat + 256 * leNat bs) / 256 = leNat bs := by omega
    rw [List.length_cons, leNat_cons, leBytes, hlow, hhigh, ih]

/-- A field of `m + n` bytes is a field of `m` bytes and one of `n` bytes with the rest. -/
lemma leBytes_add (m n x : ℕ) : leBytes (m + n) x = leBytes m x ++ leBytes n (x / 256 ^ m) := by
  induction m generalizing x with
  | zero => simp [leBytes]
  | succ m ih =>
    rw [Nat.add_right_comm, leBytes, ih, leBytes, Nat.div_div_eq_div_mul, ← pow_succ']
    rfl

/-! ### Words of 64 bits -/

/-- The 64-bit word with the given little-endian bytes. -/
def leWord (bs : List UInt8) : UInt64 := UInt64.ofNat (leNat bs)

@[simp] lemma leWord_nil : leWord [] = 0 := rfl

lemma toNat_leWord {bs : List UInt8} (h : bs.length ≤ 8) : (leWord bs).toNat = leNat bs := by
  have hlt : leNat bs < 2 ^ 64 := by
    calc leNat bs < 256 ^ bs.length := leNat_lt bs
      _ ≤ 256 ^ 8 := Nat.pow_le_pow_right (by norm_num) h
      _ = 2 ^ 64 := by norm_num
  rw [leWord, UInt64.toNat_ofNat', Nat.mod_eq_of_lt hlt]

/-- Putting `bs` behind `as` in a word is an "or" with the shifted word of `bs`. -/
lemma leWord_append {as bs : List UInt8} (h : as.length + bs.length ≤ 8) (hs : as.length < 8) :
    leWord (as ++ bs) = leWord as ||| (leWord bs <<< UInt64.ofNat (8 * as.length)) := by
  have hshift : 8 * as.length % 2 ^ 64 % 64 = 8 * as.length := by omega
  have hpow : (256 : ℕ) ^ as.length = 2 ^ (8 * as.length) := by
    rw [show (256 : ℕ) = 2 ^ 8 by norm_num, ← pow_mul]
  have has := leNat_lt as
  have hcat : leNat (as ++ bs) < 2 ^ 64 := by
    have hlt := leNat_lt (as ++ bs)
    calc leNat (as ++ bs) < 256 ^ (as ++ bs).length := hlt
      _ ≤ 256 ^ 8 := Nat.pow_le_pow_right (by norm_num) (by simpa using h)
      _ = 2 ^ 64 := by norm_num
  rw [leNat_append, hpow] at hcat
  rw [hpow] at has
  have hbs : leNat bs * 2 ^ (8 * as.length) < 2 ^ 64 := by
    rw [Nat.mul_comm]; omega
  apply UInt64.toNat_inj.1
  rw [toNat_leWord (by simpa using h), UInt64.toNat_or, UInt64.toNat_shiftLeft,
    toNat_leWord (by omega), toNat_leWord (by omega), UInt64.toNat_ofNat', hshift,
    Nat.shiftLeft_eq, Nat.mod_eq_of_lt hbs, leNat_append, hpow, Nat.or_comm, ← Nat.shiftLeft_eq,
    ← Nat.shiftLeft_add_eq_or_of_lt has, Nat.shiftLeft_eq]
  ring

end PureStd.LittleEndian
