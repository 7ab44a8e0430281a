/-
The streaming hasher computes SipHash-1-3 of what was written to it.

After any sequence of writes the hasher is determined by the concatenation `msg` of
the slices (`Absorbed`): the state words have absorbed the whole blocks of `msg`, and
`tail` and `ntail` hold the bytes that are left over.  `write_absorbed` is the step:
it covers the early return, the completion of the unfinished block and the bulk loop.
-/
import PureStd.Hash.SipHash

namespace PureStd.Hash

open LittleEndian SipHash

/-! ### The two loaders -/

lemma toUInt64_eq_leWord (b : UInt8) : b.toUInt64 = leWord [b] := by
  apply UInt64.toNat_inj.1
  rw [toNat_leWord (by simp)]
  simp

/-- The loop invariant of `u8to64_le`: `out` holds the first `i` bytes. -/
lemma u8to64LeLoop_eq {buf : List UInt8} {start len i : ℕ} (hlen : start + len ≤ buf.length)
    (h8 : len ≤ 8) (hi : i ≤ len) :
    u8to64LeLoop buf start len i (leWord ((buf.drop start).take i))
      = some (leWord ((buf.drop start).take len)) := by
  induction hn : len - i generalizing i with
  | zero =>
    have heq : i = len := by omega
    subst heq
    rw [u8to64LeLoop, if_neg (lt_irrefl i)]
  | succ n ih =>
    have hlt : i < len := by omega
    have hget : start + i < buf.length := by omega
    have htake : (buf.drop start).take (i + 1)
        = (buf.drop start).take i ++ [buf[start + i]] := by
      rw [List.take_succ_eq_append_getElem (by rw [List.length_drop]; omega), List.getElem_drop]
    have hi' : ((buf.drop start).take i).length = i := by
      rw [List.length_take, List.length_drop]; omega
    have hout : leWord ((buf.drop start).take i) |||
        (buf[start + i].toUInt64 <<< UInt64.ofNat (8 * i))
          = leWord ((buf.drop start).take (i + 1)) := by
      rw [htake, leWord_append (by rw [hi']; simp; omega) (by omega), hi', toUInt64_eq_leWord]
    rw [u8to64LeLoop, if_pos hlt, List.getElem?_eq_getElem hget]
    simp only [Option.bind_eq_bind, Option.bind_some, hout]
    exact ih (by omega) (by omega)

lemma u8to64Le_eq {buf : List UInt8} {start len : ℕ} (hlen : start + len ≤ buf.length)
    (h8 : len ≤ 8) : u8to64Le buf start len = some (leWord ((buf.drop start).take len)) := by
  rw [u8to64Le]
  simpa using u8to64LeLoop_eq hlen h8 (Nat.zero_le len)

namespace SipHasher13

/-! ### The bulk loop -/

/-- The bulk loop absorbs the blocks from `i` on and stops where the remainder
starts. -/
lemma writeLoop_eq (msg : List UInt8) {i : ℕ} (s : SipState) (hi : i ≤ msg.length) :
    writeLoop msg (msg.length - (msg.length - i) % 8) i s
      = some ((blocks s (msg.drop i)).1, msg.length - (msg.length - i) % 8) := by
  induction hn : (msg.length - i) / 8 generalizing i s with
  | zero =>
    have hmod : (msg.length - i) % 8 = msg.length - i := by omega
    have hstop : msg.length - (msg.length - i) % 8 = i := by omega
    rw [hstop, writeLoop, if_neg (lt_irrefl i),
      blocks_of_length_lt (by rw [List.length_drop]; omega)]
  | succ n ih =>
    have hge : i + 8 ≤ msg.length := by omega
    have hmod : (msg.length - (i + 8)) % 8 = (msg.length - i) % 8 := by omega
    have hload : loadU64Le msg i = some (leWord ((msg.drop i).take 8)) := by
      rw [loadU64Le, if_pos hge]
    have hcut : msg.drop i = (msg.drop i).take 8 ++ msg.drop (i + 8) := by
      rw [← List.drop_drop, List.take_append_drop]
    have hblock : ((msg.drop i).take 8).length = 8 := by
      rw [List.length_take, List.length_drop]; omega
    have hstep := ih (i := i + 8) (absorb s (leWord ((msg.drop i).take 8))) hge (by omega)
    rw [hmod] at hstep
    rw [writeLoop, if_pos (by omega), hload]
    simp only [Option.bind_eq_bind, Option.bind_some]
    rw [hstep, hcut, blocks_append_block s hblock, ← hcut, absorb_eq_compress]

/-! ### The state of the hasher after a message -/

/-- The hasher `h` has absorbed `msg`. -/
structure Absorbed (w : PtrWidth) (k0 k1 : UInt64) (msg : List UInt8) (h : SipHasher13) : Prop where
  state : h.toSipState = (blocks (init k0 k1) msg).1
  tail : h.tail = leWord (blocks (init k0 k1) msg).2
  ntail : h.ntail = msg.length % 8
  length : h.length = w.wrap msg.length

lemma absorbed_newWithKeys (w : PtrWidth) (k0 k1 : UInt64) :
    Absorbed w k0 k1 [] (newWithKeys k0 k1) where
  state := rfl
  tail := rfl
  ntail := rfl
  length := (Nat.zero_mod _).symm

/-- What the second half of `write` leaves, when the hasher has no unfinished block
and the message so far followed by the first `needed` bytes ends at a block. -/
lemma writeBlocks_eq (self : SipHasher13) {msg : List UInt8} {needed : ℕ}
    (hn : needed ≤ msg.length) :
    writeBlocks self msg needed = some
      { self with
        toSipState := (blocks self.toSipState (msg.drop needed)).1
        tail := leWord (blocks self.toSipState (msg.drop needed)).2
        ntail := (msg.length - needed) % 8 } := by
  have hle : (msg.length - needed) % 8 ≤ msg.length - needed := Nat.mod_le _ _
  have hrest : (msg.drop (msg.length - (msg.length - needed) % 8)).take ((msg.length - needed) % 8)
      = (blocks self.toSipState (msg.drop needed)).2 := by
    rw [blocks_snd, List.drop_drop, List.length_drop,
      show needed + (msg.length - needed - (msg.length - needed) % 8)
        = msg.length - (msg.length - needed) % 8 by omega]
    exact List.take_of_length_le (by rw [List.length_drop]; omega)
  rw [writeBlocks]
  simp only [writeLoop_eq msg self.toSipState hn, Option.bind_eq_bind, Option.bind_some]
  rw [u8to64Le_eq (by omega) (by omega), hrest]
  rfl

variable {h : SipHasher13} {w : PtrWidth} {k0 k1 : UInt64}

/-- `write` without an unfinished block. -/
lemma write_whole (w : PtrWidth) (hzero : h.ntail = 0) (msg : List UInt8) :
    h.write w msg = some
      { h with
        toSipState := (blocks h.toSipState msg).1
        length := w.wrap (h.length + msg.length)
        tail := leWord (blocks h.toSipState msg).2
        ntail := msg.length % 8 } := by
  rw [write, if_neg (by simpa using hzero), writeBlocks_eq _ (Nat.zero_le _)]
  rfl

section Unfinished

variable {r msg : List UInt8}

/-- The early return of `write`: the slice does not complete the block of which the
hasher has the bytes `r`. -/
lemma write_short (w : PtrWidth) (htail : h.tail = leWord r) (hntail : h.ntail = r.length)
    (hpos : r.length ≠ 0) (hshort : msg.length < 8 - r.length) :
    h.write w msg = some
      { h with
        length := w.wrap (h.length + msg.length)
        tail := leWord (r ++ msg)
        ntail := r.length + msg.length } := by
  have hload : u8to64Le msg 0 (min msg.length (8 - h.ntail)) = some (leWord msg) := by
    rw [hntail, min_eq_left (le_of_lt hshort), u8to64Le_eq (by omega) (by omega),
      List.drop_zero, List.take_length]
  rw [write, if_pos (by rwa [hntail])]
  simp only [hload, Option.bind_eq_bind, Option.bind_some]
  rw [if_pos (by rwa [hntail]), htail, hntail, leWord_append (by omega) (by omega)]

/-- `write` of a slice that completes the block. -/
lemma write_complete (w : PtrWidth) (htail : h.tail = leWord r) (hntail : h.ntail = r.length)
    (hpos : r.length ≠ 0) (hr : r.length < 8) (hle : 8 - r.length ≤ msg.length) :
    h.write w msg = some
      { h with
        toSipState := (blocks h.toSipState (r ++ msg)).1
        length := w.wrap (h.length + msg.length)
        tail := leWord (blocks h.toSipState (r ++ msg)).2
        ntail := (msg.length - (8 - r.length)) % 8 } := by
  have htake : (msg.take (8 - r.length)).length = 8 - r.length := by
    rw [List.length_take]
    omega
  have hload : u8to64Le msg 0 (min msg.length (8 - h.ntail))
      = some (leWord (msg.take (8 - r.length))) := by
    rw [hntail, min_eq_right hle, u8to64Le_eq (by omega) (by omega), List.drop_zero]
  have hword : h.tail ||| (leWord (msg.take (8 - r.length)) <<< UInt64.ofNat (8 * h.ntail))
      = leWord (r ++ msg.take (8 - r.length)) := by
    rw [htail, hntail, leWord_append (by omega) (by omega)]
  -- the first block is `r` with the first bytes of the slice
  have hblocks : blocks h.toSipState (r ++ msg)
      = blocks (compress h.toSipState (leWord (r ++ msg.take (8 - r.length))))
          (msg.drop (8 - r.length)) := by
    rw [← blocks_append_block h.toSipState (by rw [List.length_append]; omega),
      List.append_assoc, List.take_append_drop]
  rw [write, if_pos (by rwa [hntail])]
  simp only [hload, Option.bind_eq_bind, Option.bind_some, hword]
  rw [if_neg (by rw [hntail]; omega), hntail, writeBlocks_eq _ hle, hblocks]
  rfl

end Unfinished

/-- One `write` appends its slice to the absorbed message. -/
lemma write_absorbed {m : List UInt8} (hm : Absorbed w k0 k1 m h) (msg : List UInt8) :
    ∃ h', h.write w msg = some h' ∧ Absorbed w k0 k1 (m ++ msg) h' := by
  have hlength : w.wrap (h.length + msg.length) = w.wrap (m ++ msg).length := by
    rw [hm.length, List.length_append]
    exact Nat.mod_add_mod _ _ _
  have hcat := blocks_append (init k0 k1) m msg
  rcases hr : blocks (init k0 k1) m with ⟨s, r⟩
  have hrlen : r.length = m.length % 8 := by
    simpa [hr] using length_blocks_snd (init k0 k1) m
  have hstate : h.toSipState = s := by rw [hm.state, hr]
  have htail : h.tail = leWord r := by rw [hm.tail, hr]
  have hntail : h.ntail = r.length := by rw [hm.ntail, hrlen]
  rw [hr, ← hstate] at hcat
  simp only at hcat
  -- the three paths of `write`: no unfinished block, the early return, a completed block
  by_cases hzero : r.length = 0
  · obtain rfl : r = [] := List.length_eq_zero_iff.1 hzero
    rw [List.nil_append] at hcat
    refine ⟨_, write_whole w (hntail.trans hzero) msg, by rw [hcat], by rw [hcat], ?_, hlength⟩
    show msg.length % 8 = (m ++ msg).length % 8
    rw [List.length_append]
    omega
  · by_cases hshort : msg.length < 8 - r.length
    · have hblocks : blocks (init k0 k1) (m ++ msg) = (h.toSipState, r ++ msg) := by
        rw [hcat, blocks_of_length_lt (by rw [List.length_append]; omega)]
      refine ⟨_, write_short w htail hntail hzero hshort, by rw [hblocks], by rw [hblocks], ?_,
        hlength⟩
      show r.length + msg.length = (m ++ msg).length % 8
      rw [List.length_append]
      omega
    · refine ⟨_, write_complete w htail hntail hzero (by omega) (by omega), by rw [hcat],
        by rw [hcat], ?_, hlength⟩
      show (msg.length - (8 - r.length)) % 8 = (m ++ msg).length % 8
      rw [List.length_append]
      omega

/-- The run: one `write` per slice absorbs the concatenation of the slices. -/
lemma writeAll_absorbed (slices : List (List UInt8)) :
    ∀ {m : List UInt8} {h : SipHasher13}, Absorbed w k0 k1 m h →
      ∃ h', h.writeAll w slices = some h' ∧ Absorbed w k0 k1 (m ++ slices.flatten) h' := by
  induction slices with
  | nil => intro m h hm; exact ⟨h, rfl, by simpa using hm⟩
  | cons msg rest ih =>
    intro m h hm
    obtain ⟨h₁, hw, hm₁⟩ := write_absorbed hm msg
    obtain ⟨h₂, hw₂, hm₂⟩ := ih hm₁
    refine ⟨h₂, by rw [writeAll, hw, Option.bind_some, hw₂], ?_⟩
    simpa [List.append_assoc] using hm₂

/-! ### Finishing -/

/-- The word that `finish` builds is the last word of the message. -/
lemma lengthByte_or_tail (w : PtrWidth) {r : List UInt8} (hr : r.length < 8) (n : ℕ) :
    ((UInt64.ofNat (w.wrap n) &&& 0xff) <<< 56) ||| leWord r = lastWord r n := by
  have hbyte : UInt64.ofNat (w.wrap n) &&& 0xff = leWord [UInt8.ofNat n] := by
    apply UInt64.toNat_inj.1
    rw [toNat_leWord (by simp), UInt64.toNat_and, UInt64.toNat_ofNat']
    have hand : ∀ x : ℕ, x &&& 255 = x % 256 := fun x => Nat.and_two_pow_sub_one_eq_mod x 8
    have hmod : w.wrap n % 2 ^ 64 % 256 = n % 256 := by
      cases w <;> simp only [PtrWidth.wrap, PtrWidth.size, PtrWidth.bits] <;> omega
    have hff : (0xff : UInt64).toNat = 255 := rfl
    rw [hff, hand, hmod]
    simp
  have hpad : leWord r = leWord (r ++ List.replicate (7 - r.length) 0) := by
    rw [leWord, leWord, leNat_append, leNat_replicate_zero, Nat.mul_zero, Nat.add_zero]
  have hlen : (r ++ List.replicate (7 - r.length) (0 : UInt8)).length = 7 := by
    rw [List.length_append, List.length_replicate]
    omega
  rw [lastWord, leWord_append (by rw [hlen]; simp) (by omega), hlen, hbyte, ← hpad, UInt64.or_comm]
  rfl

lemma finish_of_absorbed {msg : List UInt8} (hm : Absorbed w k0 k1 msg h) :
    h.finish = sipHash13 k0 k1 msg := by
  have hlen : (blocks (init k0 k1) msg).2.length < 8 := by
    rw [length_blocks_snd]
    omega
  have hword := lengthByte_or_tail w hlen msg.length
  rw [← hm.length, ← hm.tail] at hword
  rw [finish, hword, hm.state]
  rfl

/-- The streaming hasher computes SipHash-1-3 of the concatenation of the slices
written to it, however the message is cut, and never panics. -/
theorem finish_writeAll (w : PtrWidth) (k0 k1 : UInt64) (slices : List (List UInt8)) :
    ((newWithKeys k0 k1).writeAll w slices).map finish
      = some (sipHash13 k0 k1 slices.flatten) := by
  obtain ⟨h, hw, hm⟩ := writeAll_absorbed slices (absorbed_newWithKeys w k0 k1)
  rw [hw, Option.map_some, finish_of_absorbed hm, List.nil_append]

-- the vectors of `examples/sipcheck.rs` for the empty message and for nine bytes
example : sipHash13 0x0706050403020100 0x0f0e0d0c0b0a0908 [] = 0xabac0158050fc4dc := by decide

example : sipHash13 0x0706050403020100 0x0f0e0d0c0b0a0908 [0, 1, 2, 3, 4, 5, 6, 7, 8]
    = 0x25a48eb36c063de4 := by decide

end SipHasher13

end PureStd.Hash
