/-
Short assembly routines.

A processor has registers of type `R`, a zero flag and byte-addressed memory; words are
little-endian and have `n` bytes.  A routine is a list of instructions that only jumps
forward, so what is left to execute is a list as well, and running it is a recursion on
fuel.  It stops where it leaves the routine: at a system call, with the rest of the routine
for whoever comes back, at a call of another function, or at its return.

`Isa` says where the conventions differ: which register is the stack pointer, and whether a
call leaves the return address in a register or on the stack.
-/
import PureStd.Lib.ByteMemory
import PureStd.Lib.WordMask

namespace PureStd.Assembly

open ByteMemory

/-- The conventions of an instruction set. -/
structure Isa (R : Type*) where
  /-- The number of bytes of a word. -/
  bytes : ℕ
  /-- The stack pointer. -/
  sp : R
  /-- The register with the return address; without one it is on the stack. -/
  link : Option R

/-- The state of a processor. -/
structure Cpu (R : Type*) where
  reg : R → ℕ
  mem : ℕ → UInt8
  /-- The zero flag. -/
  zero : Bool

/-- Instructions. -/
inductive Instr (R : Type*) where
  /-- A local label. -/
  | label (l : ℕ)
  /-- `d := v`. -/
  | const (d : R) (v : ℕ)
  /-- `d := s`. -/
  | mov (d s : R)
  /-- `d := d + v`. -/
  | add (d : R) (v : ℤ)
  /-- Clear the low four bits of `d`. -/
  | align (d : R)
  /-- Store a register at `b + v`. -/
  | store (s b : R) (v : ℤ)
  /-- Load a register from `b + v`. -/
  | load (d b : R) (v : ℤ)
  /-- `b := b + v`, then store registers at `b` and the words after it. -/
  | storePre (rs : List R) (b : R) (v : ℤ)
  /-- Load registers from `b` and the words after it, then `b := b + v`. -/
  | loadPost (rs : List R) (b : R) (v : ℤ)
  /-- Compare with zero. -/
  | test (s : R)
  /-- Go to the next label `l` if the flag is set, or if it is not. -/
  | jz (l : ℕ)
  | jnz (l : ℕ)
  /-- Go to the next label `l` if the register is zero, or if it is not. -/
  | cbz (s : R) (l : ℕ)
  | cbnz (s : R) (l : ℕ)
  /-- A system call. -/
  | trap
  /-- Call the function whose address is in the register. -/
  | call (s : R)
  /-- Return to the caller. -/
  | ret
deriving DecidableEq

/-- Where a routine leaves its own code. -/
inductive Stop (R : Type*) where
  | trap (rest : List (Instr R)) (c : Cpu R)
  | call (target : ℕ) (c : Cpu R)
  | ret (target : ℕ) (c : Cpu R)

variable {R : Type*} [DecidableEq R]

/-- A word, moved by an offset. -/
def Isa.shift (isa : Isa R) (x : ℕ) (v : ℤ) : ℕ := ((x + v) % (256 ^ isa.bytes : ℕ)).toNat

omit [DecidableEq R] in
lemma Isa.shift_eq {isa : Isa R} {x y : ℕ} {v : ℤ} (h : (x : ℤ) + v = y)
    (hy : y < 256 ^ isa.bytes) : isa.shift x v = y := by
  rw [shift, h, ← Int.natCast_emod, Int.toNat_natCast, Nat.mod_eq_of_lt hy]

/-- A word with its low four bits cleared. -/
def Isa.alignDown (isa : Isa R) (x : ℕ) : ℕ := x &&& (256 ^ isa.bytes - 1 - (2 ^ 4 - 1))

namespace Cpu

/-- Set a register. -/
def set (c : Cpu R) (d : R) (v : ℕ) : Cpu R := { c with reg := Function.update c.reg d v }

/-- Store a word. -/
def write (c : Cpu R) (n a v : ℕ) : Cpu R := { c with mem := ByteMemory.store n c.mem a v }

/-- Store registers in successive words. -/
def writeAll (c : Cpu R) (n : ℕ) : List R → ℕ → Cpu R
  | [], _ => c
  | r :: rs, a => writeAll (c.write n a (c.reg r)) n rs (a + n)

/-- Load registers from successive words. -/
def readAll (c : Cpu R) (n : ℕ) : List R → ℕ → Cpu R
  | [], _ => c
  | r :: rs, a => readAll (c.set r (ByteMemory.load n c.mem a)) n rs (a + n)

@[simp] lemma set_reg (c : Cpu R) (d : R) (v : ℕ) : (c.set d v).reg = Function.update c.reg d v :=
  rfl

@[simp] lemma set_mem (c : Cpu R) (d : R) (v : ℕ) : (c.set d v).mem = c.mem := rfl

omit [DecidableEq R] in
@[simp] lemma write_reg (c : Cpu R) (n a v : ℕ) : (c.write n a v).reg = c.reg := rfl

omit [DecidableEq R] in
@[simp] lemma write_mem (c : Cpu R) (n a v : ℕ) :
    (c.write n a v).mem = ByteMemory.store n c.mem a v := rfl

end Cpu

/-- One instruction that neither jumps nor leaves the routine. -/
def Instr.eval (isa : Isa R) (c : Cpu R) : Instr R → Cpu R
  | const d v => c.set d v
  | mov d s => c.set d (c.reg s)
  | add d v => c.set d (isa.shift (c.reg d) v)
  | align d => c.set d (isa.alignDown (c.reg d))
  | store s b v => c.write isa.bytes (isa.shift (c.reg b) v) (c.reg s)
  | load d b v => c.set d (ByteMemory.load isa.bytes c.mem (isa.shift (c.reg b) v))
  | storePre rs b v =>
    let c := c.set b (isa.shift (c.reg b) v)
    c.writeAll isa.bytes rs (c.reg b)
  | loadPost rs b v =>
    let a := c.reg b
    (c.readAll isa.bytes rs a).set b (isa.shift a v)
  | test s => { c with zero := c.reg s == 0 }
  | _ => c

/-- The code from a label on. -/
def goto (l : ℕ) : List (Instr R) → List (Instr R)
  | [] => []
  | i :: code => if i = .label l then code else goto l code

/-- Run code up to where it leaves the routine.  A call that leaves the return address on the
stack pushes the address `back`. -/
def run (isa : Isa R) (back : ℕ) : ℕ → List (Instr R) → Cpu R → Option (Stop R)
  | 0, _, _ => none
  | _ + 1, [], _ => none
  | fuel + 1, i :: code, c =>
    match i with
    | .jz l => run isa back fuel (if c.zero then goto l code else code) c
    | .jnz l => run isa back fuel (if c.zero then code else goto l code) c
    | .cbz s l => run isa back fuel (if c.reg s = 0 then goto l code else code) c
    | .cbnz s l => run isa back fuel (if c.reg s = 0 then code else goto l code) c
    | .trap => some (.trap code c)
    | .call s =>
      match isa.link with
      | some lr => some (.call (c.reg s) (c.set lr back))
      | none =>
        let sp := isa.shift (c.reg isa.sp) (-isa.bytes)
        some (.call (c.reg s) ((c.set isa.sp sp).write isa.bytes sp back))
    | .ret =>
      match isa.link with
      | some lr => some (.ret (c.reg lr) c)
      | none =>
        let sp := c.reg isa.sp
        some (.ret (ByteMemory.load isa.bytes c.mem sp)
          (c.set isa.sp (isa.shift sp isa.bytes)))
    | i => run isa back fuel code (i.eval isa c)

/-! ### Words -/

omit [DecidableEq R] in
lemma Isa.alignDown_eq {isa : Isa R} (hn : 0 < isa.bytes) {x : ℕ} (hx : x < 256 ^ isa.bytes) :
    isa.alignDown x = x / 16 * 16 := by
  have hpow : 256 ^ isa.bytes = 2 ^ (8 * isa.bytes) := by rw [pow_mul]; norm_num
  rw [hpow] at hx
  rw [alignDown, hpow]
  exact and_clear_low (by omega) hx

lemma load_store_apart {n a b v : ℕ} {mem : ℕ → UInt8} (h : Region.Apart ⟨a, n⟩ ⟨b, n⟩) :
    ByteMemory.load n (ByteMemory.store n mem b v) a = ByteMemory.load n mem a :=
  load_congr fun _ hx => store_of_not_has fun hb => h.not_has hx hb

lemma load_lt (n : ℕ) (mem : ℕ → UInt8) (a : ℕ) : ByteMemory.load n mem a < 256 ^ n := by
  have hlt := LittleEndian.leNat_lt ((List.range n).map fun i => mem (a + i))
  rwa [List.length_map, List.length_range] at hlt

/-- Two words that were stored one after the other. -/
lemma load_pair {n u v : ℕ} (mem : ℕ → UInt8) (a : ℕ) (hu : u < 256 ^ n) (hv : v < 256 ^ n) :
    ByteMemory.load n (ByteMemory.store n (ByteMemory.store n mem a u) (a + n) v) a = u ∧
      ByteMemory.load n (ByteMemory.store n (ByteMemory.store n mem a u) (a + n) v) (a + n) = v :=
  ⟨(load_store_apart (Or.inl (le_refl _))).trans (load_store_same hu), load_store_same hv⟩

/-! ### Branches -/

section Branches

variable {isa : Isa R} {back fuel l : ℕ} {s : R} {code : List (Instr R)} {c : Cpu R}

lemma run_jz (h : c.zero = true) :
    run isa back (fuel + 1) (.jz l :: code) c = run isa back fuel (goto l code) c := by
  change run isa back fuel (if c.zero then goto l code else code) c = _
  rw [if_pos h]

lemma run_jz_not (h : c.zero = false) :
    run isa back (fuel + 1) (.jz l :: code) c = run isa back fuel code c := by
  change run isa back fuel (if c.zero then goto l code else code) c = _
  rw [if_neg (Bool.eq_false_iff.1 h)]

lemma run_jnz (h : c.zero = false) :
    run isa back (fuel + 1) (.jnz l :: code) c = run isa back fuel (goto l code) c := by
  change run isa back fuel (if c.zero then code else goto l code) c = _
  rw [if_neg (Bool.eq_false_iff.1 h)]

lemma run_jnz_not (h : c.zero = true) :
    run isa back (fuel + 1) (.jnz l :: code) c = run isa back fuel code c := by
  change run isa back fuel (if c.zero then code else goto l code) c = _
  rw [if_pos h]

lemma run_cbz (h : c.reg s = 0) :
    run isa back (fuel + 1) (.cbz s l :: code) c = run isa back fuel (goto l code) c := by
  change run isa back fuel (if c.reg s = 0 then goto l code else code) c = _
  rw [if_pos h]

lemma run_cbz_not (h : c.reg s ≠ 0) :
    run isa back (fuel + 1) (.cbz s l :: code) c = run isa back fuel code c := by
  change run isa back fuel (if c.reg s = 0 then goto l code else code) c = _
  rw [if_neg h]

lemma run_cbnz (h : c.reg s ≠ 0) :
    run isa back (fuel + 1) (.cbnz s l :: code) c = run isa back fuel (goto l code) c := by
  change run isa back fuel (if c.reg s = 0 then code else goto l code) c = _
  rw [if_neg h]

lemma run_cbnz_not (h : c.reg s = 0) :
    run isa back (fuel + 1) (.cbnz s l :: code) c = run isa back fuel code c := by
  change run isa back fuel (if c.reg s = 0 then code else goto l code) c = _
  rw [if_pos h]

end Branches

end PureStd.Assembly
