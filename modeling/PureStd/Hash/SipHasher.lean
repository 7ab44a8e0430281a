/-
The streaming hasher of `src/hash.rs`.

`SipHasher13` keeps the four words of the SipHash state, the number of bytes seen so
far and the bytes of an unfinished 8-byte block.  `write` first completes that block,
then absorbs whole blocks, then keeps the remainder; `finish` appends the length byte
and runs the finalization rounds.

An index or a slice that is out of range panics in the source; here the reader
returns `none`, so that the correctness of `write` includes that it never panics.
-/
import PureStd.Lib.LittleEndian
import PureStd.Target

namespace PureStd.Hash

open LittleEndian

/-- The four words that a SipHash round mixes. -/
structure SipState where
  v0 : UInt64
  v1 : UInt64
  v2 : UInt64
  v3 : UInt64
deriving DecidableEq, Repr

/-- `u64::rotate_left`. -/
def rotateLeft (x : UInt64) (n : ℕ) : UInt64 := ⟨x.toBitVec.rotateLeft n⟩

/-- `sipround!`, statement by statement. -/
def sipround (s : SipState) : SipState :=
  let v0 := s.v0 + s.v1
  let v1 := rotateLeft s.v1 13
  let v1 := v1 ^^^ v0
  let v0 := rotateLeft v0 32
  let v2 := s.v2 + s.v3
  let v3 := rotateLeft s.v3 16
  let v3 := v3 ^^^ v2
  let v0 := v0 + v3
  let v3 := rotateLeft v3 21
  let v3 := v3 ^^^ v0
  let v2 := v2 + v1
  let v1 := rotateLeft v1 17
  let v1 := v1 ^^^ v2
  let v2 := rotateLeft v2 32
  ⟨v0, v1, v2, v3⟩

/-- The three statements around `sipround!` that absorb a word. -/
def absorb (s : SipState) (m : UInt64) : SipState :=
  let s := sipround { s with v3 := s.v3 ^^^ m }
  { s with v0 := s.v0 ^^^ m }

/-- The loop of `u8to64_le`. -/
def u8to64LeLoop (buf : List UInt8) (start len i : ℕ) (out : UInt64) : Option UInt64 :=
  if i < len then do
    let b ← buf[start + i]?
    u8to64LeLoop buf start len (i + 1) (out ||| (b.toUInt64 <<< UInt64.ofNat (8 * i)))
  else some out
termination_by len - i

/-- `u8to64_le`: load `len < 8` bytes from `start` on. -/
def u8to64Le (buf : List UInt8) (start len : ℕ) : Option UInt64 :=
  u8to64LeLoop buf start len 0 0

/-- `load_u64_le`: load the eight bytes from `start` on. -/
def loadU64Le (buf : List UInt8) (start : ℕ) : Option UInt64 :=
  if start + 8 ≤ buf.length then some (leWord ((buf.drop start).take 8)) else none

/-- The hasher.  The field `toSipState` holds the source's `v0`, `v1`, `v2`, `v3`. -/
structure SipHasher13 extends SipState where
  /-- The number of bytes written, a `usize`. -/
  length : ℕ
  /-- The bytes of the unfinished block. -/
  tail : UInt64
  /-- The number of bytes of the unfinished block. -/
  ntail : ℕ
deriving DecidableEq, Repr

namespace SipHasher13

/-- `SipHasher13::new_with_keys`. -/
def newWithKeys (k0 k1 : UInt64) : SipHasher13 where
  v0 := k0 ^^^ 0x736f6d6570736575
  v1 := k1 ^^^ 0x646f72616e646f6d
  v2 := k0 ^^^ 0x6c7967656e657261
  v3 := k1 ^^^ 0x7465646279746573
  length := 0
  tail := 0
  ntail := 0

/-- `SipHasher13::new`. -/
def new : SipHasher13 := newWithKeys 0 0

/-- The loop of `write` over the whole blocks between `i` and `stop`. -/
def writeLoop (msg : List UInt8) (stop i : ℕ) (s : SipState) : Option (SipState × ℕ) :=
  if i < stop then do
    let mi ← loadU64Le msg i
    writeLoop msg stop (i + 8) (absorb s mi)
  else some (s, i)
termination_by stop - i

/-- The second half of `write`, from `let remaining` on: the hasher has no unfinished
block and the first `needed` bytes of `msg` are absorbed. -/
def writeBlocks (self : SipHasher13) (msg : List UInt8) (needed : ℕ) : Option SipHasher13 := do
  let len := msg.length
  let remaining := len - needed
  let left := remaining % 8
  let (s, i) ← writeLoop msg (len - left) needed self.toSipState
  let tail ← u8to64Le msg i left
  some { self with toSipState := s, tail := tail, ntail := left }

/-- `SipHasher13::write`. -/
def write (w : PtrWidth) (self : SipHasher13) (msg : List UInt8) : Option SipHasher13 :=
  let len := msg.length
  let self := { self with length := w.wrap (self.length + len) }
  if self.ntail ≠ 0 then do
    let needed := 8 - self.ntail
    let take := min len needed
    let bytes ← u8to64Le msg 0 take
    let tail := self.tail ||| (bytes <<< UInt64.ofNat (8 * self.ntail))
    if len < needed then
      some { self with tail := tail, ntail := self.ntail + len }
    else
      -- a block is complete
      writeBlocks { self with toSipState := absorb self.toSipState tail, ntail := 0, tail := 0 }
        msg needed
  else
    writeBlocks self msg 0

/-- `SipHasher13::finish`. -/
def finish (self : SipHasher13) : UInt64 :=
  let b := ((UInt64.ofNat self.length &&& 0xff) <<< 56) ||| self.tail
  let s := absorb self.toSipState b
  let s := { s with v2 := s.v2 ^^^ 0xff }
  let s := sipround (sipround (sipround s))
  s.v0 ^^^ s.v1 ^^^ s.v2 ^^^ s.v3

/-- One `write` per slice, in order. -/
def writeAll (w : PtrWidth) (self : SipHasher13) : List (List UInt8) → Option SipHasher13
  | [] => some self
  | msg :: rest => (self.write w msg).bind fun h => h.writeAll w rest

end SipHasher13

end PureStd.Hash
