/-
SipHash-1-3 as a function of the whole message.

This is the function the hasher of `src/hash.rs` is meant to compute, written
without any buffering: the message is cut into 8-byte blocks, each block is absorbed
with one round, and the last word holds the bytes that are left, padded with zero
bytes, and the message length modulo 256 in its top byte.

The round is written in the two half-round form in which SipHash is usually
presented; `sipround_eq_round` says that the statement order of the source computes
the same function.
-/
import PureStd.Hash.SipHasher

namespace PureStd.Hash

open LittleEndian

namespace SipHash

/-- Half of a round: add, rotate, xor on the pairs `(a, b)` and `(c, d)`, and a
rotation of `a` by 32. -/
def halfRound (a b c d : UInt64) (s t : ℕ) : UInt64 × UInt64 × UInt64 × UInt64 :=
  (rotateLeft (a + b) 32, rotateLeft b s ^^^ (a + b), c + d, rotateLeft d t ^^^ (c + d))

/-- The SipHash round. -/
def round (s : SipState) : SipState :=
  let (v0, v1, v2, v3) := halfRound s.v0 s.v1 s.v2 s.v3 13 16
  let (v2, v1, v0, v3) := halfRound v2 v1 v0 v3 17 21
  ⟨v0, v1, v2, v3⟩

lemma sipround_eq_round (s : SipState) : sipround s = round s := rfl

/-- The initial state of a key. -/
def init (k0 k1 : UInt64) : SipState where
  v0 := k0 ^^^ 0x736f6d6570736575
  v1 := k1 ^^^ 0x646f72616e646f6d
  v2 := k0 ^^^ 0x6c7967656e657261
  v3 := k1 ^^^ 0x7465646279746573

/-- Absorb one message word with `cROUNDS = 1` round. -/
def compress (s : SipState) (m : UInt64) : SipState :=
  let s := round { s with v3 := s.v3 ^^^ m }
  { s with v0 := s.v0 ^^^ m }

/-- Absorb the whole blocks of a message, and return the bytes that are left. -/
def blocks (s : SipState) : List UInt8 → SipState × List UInt8
  | b0 :: b1 :: b2 :: b3 :: b4 :: b5 :: b6 :: b7 :: rest =>
    blocks (compress s (leWord [b0, b1, b2, b3, b4, b5, b6, b7])) rest
  | rest => (s, rest)

/-- The last word: the bytes that are left, zero bytes, and the length byte. -/
def lastWord (rest : List UInt8) (length : ℕ) : UInt64 :=
  leWord (rest ++ List.replicate (7 - rest.length) 0 ++ [UInt8.ofNat length])

/-- `dROUNDS = 3` finalization rounds. -/
def finalize (s : SipState) : UInt64 :=
  let s := round^[3] { s with v2 := s.v2 ^^^ 0xff }
  s.v0 ^^^ s.v1 ^^^ s.v2 ^^^ s.v3

/-- SipHash-1-3 of a message. -/
def sipHash13 (k0 k1 : UInt64) (msg : List UInt8) : UInt64 :=
  let (s, rest) := blocks (init k0 k1) msg
  finalize (compress s (lastWord rest msg.length))

/-! ### Cutting a message into blocks -/

lemma absorb_eq_compress (s : SipState) (m : UInt64) : absorb s m = compress s m := rfl

lemma blocks_of_length_lt {s : SipState} {msg : List UInt8} (h : msg.length < 8) :
    blocks s msg = (s, msg) := by
  match msg, h with
  | [], _ => rfl
  | [_], _ => rfl
  | [_, _], _ => rfl
  | [_, _, _], _ => rfl
  | [_, _, _, _], _ => rfl
  | [_, _, _, _, _], _ => rfl
  | [_, _, _, _, _, _], _ => rfl
  | [_, _, _, _, _, _, _], _ => rfl
  | _ :: _ :: _ :: _ :: _ :: _ :: _ :: _ :: _, h => simp at h; omega

/-- A first block is absorbed and the rest is treated in the same way. -/
lemma blocks_append_block (s : SipState) {b : List UInt8} (hb : b.length = 8)
    (msg : List UInt8) : blocks s (b ++ msg) = blocks (compress s (leWord b)) msg := by
  match b, hb with
  | [_, _, _, _, _, _, _, _], _ => rfl

/-- Induction on a message by its blocks. -/
lemma block_induction {motive : List UInt8 → Prop}
    (short : ∀ msg, msg.length < 8 → motive msg)
    (block : ∀ b msg, b.length = 8 → motive msg → motive (b ++ msg)) (msg : List UInt8) :
    motive msg := by
  induction h : msg.length using Nat.strong_induction_on generalizing msg with
  | _ n ih =>
    rcases lt_or_ge msg.length 8 with hlt | hge
    · exact short msg hlt
    · have hdrop : motive (msg.drop 8) :=
        ih (msg.drop 8).length (by rw [List.length_drop]; omega) _ rfl
      have := block (msg.take 8) (msg.drop 8) (by rw [List.length_take]; omega) hdrop
      rwa [List.take_append_drop] at this

/-- Absorbing `msg ++ more` is absorbing `msg` and then what it left, followed by
`more`. -/
lemma blocks_append (s : SipState) (msg more : List UInt8) :
    blocks s (msg ++ more) = blocks (blocks s msg).1 ((blocks s msg).2 ++ more) := by
  induction msg using block_induction generalizing s with
  | short msg h => rw [blocks_of_length_lt h]
  | block b msg hb ih =>
    rw [List.append_assoc, blocks_append_block s hb, blocks_append_block s hb, ih]

/-- The bytes that are left are the end of the message. -/
lemma blocks_snd (s : SipState) (msg : List UInt8) :
    (blocks s msg).2 = msg.drop (msg.length - msg.length % 8) := by
  induction msg using block_induction generalizing s with
  | short msg h => rw [blocks_of_length_lt h, Nat.mod_eq_of_lt h, Nat.sub_self, List.drop_zero]
  | block b msg hb ih =>
    have hlen : (b ++ msg).length - (b ++ msg).length % 8
        = b.length + (msg.length - msg.length % 8) := by
      rw [List.length_append, hb]
      omega
    rw [blocks_append_block s hb, ih, hlen, List.drop_append]
    simp

lemma length_blocks_snd (s : SipState) (msg : List UInt8) :
    (blocks s msg).2.length = msg.length % 8 := by
  rw [blocks_snd, List.length_drop]
  omega

end SipHash

end PureStd.Hash
