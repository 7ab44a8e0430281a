/-
The supported targets, as far as the modelled code depends on them.

`usize` is 32 bits wide on i686, arm and wasm32 and 64 bits wide on the other
targets.  Release builds compute on it modulo a power of two, so a `usize` is
modelled as a natural number and the wrap is written where the source can reach it.
-/
import Mathlib.Tactic

namespace PureStd

/-- The width of `usize`. -/
inductive PtrWidth where
  /-- i686, arm, wasm32. -/
  | w32
  /-- x86_64, aarch64, riscv64. -/
  | w64
deriving DecidableEq, Repr

namespace PtrWidth

/-- The number of bits of a `usize`. -/
def bits : PtrWidth → ℕ
  | w32 => 32
  | w64 => 64

/-- The number of bytes of a `usize`, which is also the size of a pointer. -/
def bytes : PtrWidth → ℕ
  | w32 => 4
  | w64 => 8

/-- The number of values of a `usize`. -/
def size (w : PtrWidth) : ℕ := 2 ^ w.bits

/-- `isize::MAX`, the largest number of bytes an allocation may have. -/
def isizeMax (w : PtrWidth) : ℕ := 2 ^ (w.bits - 1) - 1

/-- The result of a `usize` operation in a release build. -/
def wrap (w : PtrWidth) (x : ℕ) : ℕ := x % w.size

lemma size_eq_bytes (w : PtrWidth) : w.size = 256 ^ w.bytes := by
  cases w <;> norm_num [size, bits, bytes]

lemma two_mul_isizeMax (w : PtrWidth) : 2 * w.isizeMax + 2 = w.size := by
  cases w <;> norm_num [isizeMax, size, bits]

lemma wrap_of_lt {w : PtrWidth} {x : ℕ} (h : x < w.size) : w.wrap x = x := Nat.mod_eq_of_lt h

end PtrWidth

/-- The operating system, as far as structures of the kernel depend on it.  All targets are
little-endian. -/
inductive Os where
  | linux
  | macos
deriving DecidableEq, Repr

end PureStd
