/-
`__purestd_clone` of `src/sys_thread.rs`, on the five Linux targets.

The routine puts `entry` and `arg` at the top of the new stack, calls `clone`, and comes back
twice: in the parent, where it returns what `clone` returned, and in the child, which has the
new stack pointer, takes the two words from there and calls `entry(arg)`.

A `Target` has the routine and what it has to keep to: where arguments and results of C
functions are, which registers belong to the caller, how the stack pointer has to be aligned
when a function is entered, and where the kernel looks for the arguments of `clone`.
-/
import PureStd.Lib.Assembly

namespace PureStd.Thread.Clone

open Assembly ByteMemory

/-- A target, as far as the routine depends on it. -/
structure Target (R : Type) where
  isa : Isa R
  /-- `__purestd_clone`. -/
  code : List (Instr R)
  /-- Where a function finds its arguments when it is entered: in a register, or at an offset
  from the stack pointer. -/
  args : Fin 4 → R ⊕ ℤ
  /-- Where a function, and the kernel, leave the result. -/
  result : R
  /-- The registers that a function has to leave as they are. -/
  saved : List R
  /-- On entry, the stack pointer plus the first number is a multiple of the second. -/
  alignment : ℕ × ℕ
  /-- The number of `clone`, and the register for it. -/
  number : R × ℕ
  /-- The registers with the arguments of `clone`. -/
  request : List R
  /-- The registers that a system call does not keep. -/
  scratch : List R
  /-- The registers that the routine pushes for the time of the system call, from the lowest
  word on. -/
  pushes : List R
  /-- The bytes that the routine reserves on the new stack. -/
  slot : ℕ
  /-- How far below the top of the new stack the stack pointer is when `entry` is entered. -/
  depth : ℕ

/-! ### x86_64 -/

inductive X64 where
  | rax | rbx | rcx | rdx | rsi | rdi | rbp | rsp | r8 | r9 | r10 | r11 | r12 | r13 | r14 | r15
deriving DecidableEq, Repr

open X64 in
def x64 : Target X64 where
  isa := ⟨8, rsp, none⟩
  code :=
    [.align rsi, .add rsi (-16), .store rdi rsi 0, .store rcx rsi 8, .mov rdi rdx, .const rdx 0,
      .const r10 0, .const r8 0, .const rax 56, .trap, .test rax, .jnz 1, .const rbp 0,
      .loadPost [rax] rsp 8, .loadPost [rdi] rsp 8, .call rax, .const rax 60, .const rdi 0, .trap,
      .label 1, .ret]
  args := ![.inl rdi, .inl rsi, .inl rdx, .inl rcx]
  result := rax
  saved := [rbx, rbp, r12, r13, r14, r15]
  alignment := (8, 16)
  number := (rax, 56)
  request := [rdi, rsi, rdx, r10, r8]
  scratch := [rcx, r11]
  pushes := []
  slot := 16
  depth := 8

/-! ### aarch64 -/

inductive A64 where
  | x (n : Fin 31)
  | sp
deriving DecidableEq, Repr

open A64 in
def a64 : Target A64 where
  isa := ⟨8, sp, some (x 30)⟩
  code :=
    [.align (x 1), .storePre [x 0, x 3] (x 1) (-16), .mov (x 0) (x 2), .const (x 2) 0,
      .const (x 3) 0, .const (x 4) 0, .const (x 8) 220, .trap, .cbz (x 0) 2, .ret, .label 2,
      .loadPost [x 1, x 0] sp 16, .call (x 1), .const (x 8) 93, .trap]
  args := ![.inl (x 0), .inl (x 1), .inl (x 2), .inl (x 3)]
  result := x 0
  saved := [x 19, x 20, x 21, x 22, x 23, x 24, x 25, x 26, x 27, x 28, x 29]
  alignment := (0, 16)
  number := (x 8, 220)
  request := [x 0, x 1, x 2, x 3, x 4]
  scratch := []
  pushes := []
  slot := 16
  depth := 0

/-! ### riscv64 -/

inductive Rv64 where
  | ra | sp | gp | tp
  | t (n : Fin 7)
  | s (n : Fin 12)
  | a (n : Fin 8)
deriving DecidableEq, Repr

open Rv64 in
def rv64 : Target Rv64 where
  isa := ⟨8, sp, some ra⟩
  code :=
    [.align (a 1), .add (a 1) (-16), .store (a 0) (a 1) 0, .store (a 3) (a 1) 8,
      .mov (a 0) (a 2), .const (a 2) 0, .const (a 3) 0, .const (a 4) 0, .const (a 7) 220, .trap,
      .cbnz (a 0) 1, .load (a 1) sp 0, .load (a 0) sp 8, .call (a 1), .const (a 7) 93,
      .const (a 0) 0, .trap, .label 1, .ret]
  args := ![.inl (a 0), .inl (a 1), .inl (a 2), .inl (a 3)]
  result := a 0
  saved := [s 0, s 1, s 2, s 3, s 4, s 5, s 6, s 7, s 8, s 9, s 10, s 11]
  alignment := (0, 16)
  number := (a 7, 220)
  request := [a 0, a 1, a 2, a 3, a 4]
  scratch := []
  pushes := []
  slot := 16
  depth := 16

/-! ### x86 -/

inductive X86 where
  | eax | ebx | ecx | edx | esi | edi | ebp | esp
deriving DecidableEq, Repr

open X86 in
def x86 : Target X86 where
  isa := ⟨4, esp, none⟩
  code :=
    [.storePre [ebx] esp (-4), .storePre [esi] esp (-4), .storePre [edi] esp (-4),
      .load ecx esp 20, .align ecx, .load eax esp 28, .store eax ecx (-4), .load eax esp 16,
      .store eax ecx (-8), .add ecx (-8), .load ebx esp 24, .const edx 0, .const esi 0,
      .const edi 0, .const eax 120, .trap, .test eax, .jz 2, .loadPost [edi] esp 4,
      .loadPost [esi] esp 4, .loadPost [ebx] esp 4, .ret, .label 2, .loadPost [eax] esp 4,
      .call eax, .const eax 1, .const ebx 0, .trap]
  args := ![.inr 4, .inr 8, .inr 12, .inr 16]
  result := eax
  saved := [ebx, esi, edi, ebp]
  alignment := (4, 16)
  number := (eax, 120)
  request := [ebx, ecx, edx, esi, edi]
  scratch := []
  pushes := [edi, esi, ebx]
  slot := 8
  depth := 8

/-! ### arm -/

inductive Arm where
  | r (n : Fin 13)
  | sp | lr
deriving DecidableEq, Repr

open Arm in
def arm : Target Arm where
  isa := ⟨4, sp, some lr⟩
  code :=
    [.storePre [r 4, r 7] sp (-8), .align (r 1), .storePre [r 0] (r 1) (-8), .store (r 3) (r 1) 4,
      .mov (r 0) (r 2), .const (r 2) 0, .const (r 3) 0, .const (r 4) 0, .const (r 7) 120, .trap,
      .test (r 0), .jnz 1, .load (r 1) sp 0, .load (r 0) sp 4, .call (r 1), .const (r 7) 1,
      .const (r 0) 0, .trap, .label 1, .loadPost [r 4, r 7] sp 8, .ret]
  args := ![.inl (r 0), .inl (r 1), .inl (r 2), .inl (r 3)]
  result := r 0
  saved := [r 4, r 5, r 6, r 7, r 8, r 9, r 10, r 11]
  alignment := (0, 8)
  number := (r 7, 120)
  request := [r 0, r 1, r 2, r 3, r 4]
  scratch := []
  pushes := [r 4, r 7]
  slot := 8
  depth := 8

/-! ### What the routine has to do -/

namespace Target

variable {R : Type} [DecidableEq R] (T : Target R)

/-- An argument, when a function is entered. -/
def arg (c : Cpu R) (i : Fin 4) : ℕ :=
  match T.args i with
  | .inl r => c.reg r
  | .inr v => load T.isa.bytes c.mem (T.isa.shift (c.reg T.isa.sp) v)

/-- The address to which a function returns, when it is entered. -/
def back (c : Cpu R) : ℕ :=
  match T.isa.link with
  | some lr => c.reg lr
  | none => load T.isa.bytes c.mem (c.reg T.isa.sp)

/-- The stack pointer after the return. -/
def spBack (c : Cpu R) : ℕ :=
  match T.isa.link with
  | some _ => c.reg T.isa.sp
  | none => c.reg T.isa.sp + T.isa.bytes

/-- The top of the new stack, rounded down. -/
def top (c : Cpu R) : ℕ := T.arg c 1 / 16 * 16

/-- The stack pointer that `clone` gets. -/
def stack (c : Cpu R) : ℕ := T.top c - T.slot

/-- The two words that the child takes from the new stack. -/
def slots (c : Cpu R) : Region := ⟨T.stack c, 2 * T.isa.bytes⟩

/-- The words below the stack pointer for the registers that the routine pushes. -/
def kept (c : Cpu R) : Region :=
  ⟨c.reg T.isa.sp - T.isa.bytes * T.pushes.length, T.isa.bytes * T.pushes.length⟩

/-- The memory after the registers were pushed. -/
def pushed (c : Cpu R) : ℕ → UInt8 :=
  storeWords T.isa.bytes c.mem (T.kept c).base (T.pushes.map c.reg)

/-- The memory at the system call, with `entry` and `arg` on the new stack. -/
def written (c : Cpu R) : ℕ → UInt8 :=
  storeWords T.isa.bytes (T.pushed c) (T.stack c) [T.arg c 0, T.arg c 3]

/-- The memory when a function is entered: the return address may be on the stack. -/
def entered (c : Cpu R) (here sp : ℕ) : ℕ → UInt8 :=
  match T.isa.link with
  | some _ => c.mem
  | none => store T.isa.bytes c.mem sp here

/-- The part of the stack of the caller that the routine uses. -/
def frame (c : Cpu R) : Region := ⟨c.reg T.isa.sp - 12, 32⟩

/-- The routine is called: registers are words, there is room on the old stack and on the new
one, and these are different stacks. -/
structure Ready (c : Cpu R) : Prop where
  words : ∀ r, c.reg r < 256 ^ T.isa.bytes
  room : 12 ≤ c.reg T.isa.sp ∧ c.reg T.isa.sp + 20 ≤ 256 ^ T.isa.bytes
  newRoom : 16 ≤ T.top c
  apart : (T.frame c).Apart ⟨T.top c - 16, 16⟩

/-- A thread comes back from a system call with its registers, except for the result, the stack
pointer and those that the kernel does not keep.  Nobody has written to the region meanwhile. -/
def Resumes (c c' : Cpu R) (r : Region) : Prop :=
  (∀ q, q ≠ T.result → q ≠ T.isa.sp → q ∉ T.scratch → c'.reg q = c.reg q) ∧
    ∀ a, r.Has a → c'.mem a = c.mem a

/-- The routine calls `clone` with the flags and the new stack.  Until then it has written the two
words for the child and those that it pushes, and nothing else.  In the parent it returns the
result to its caller, with the caller's registers as they were, and leaves memory alone.  In the
child it calls `entry` with `arg`, on the new stack, and writes the return address at most. -/
def Starts : Prop :=
  ∀ (c : Cpu R) (here fuel : ℕ), T.Ready c → ∃ rest c₁,
    run T.isa here (fuel + 32) T.code c = some (.trap rest c₁) ∧
    c₁.reg T.number.1 = T.number.2 ∧
    T.request.map c₁.reg = [T.arg c 2, T.stack c, 0, 0, 0] ∧
    c₁.mem = T.written c ∧
    (∀ a, ¬ (T.slots c).Has a → ¬ (T.kept c).Has a → c₁.mem a = c.mem a) ∧
    (∀ c₂, T.Resumes c₁ c₂ (T.frame c) → c₂.reg T.isa.sp = c₁.reg T.isa.sp →
      c₂.reg T.result ≠ 0 → ∃ c₃, run T.isa here (fuel + 32) rest c₂ = some (.ret (T.back c) c₃) ∧
        c₃.reg T.result = c₂.reg T.result ∧ c₃.reg T.isa.sp = T.spBack c ∧
        (∀ r ∈ T.saved, c₃.reg r = c.reg r) ∧ c₃.mem = c₂.mem) ∧
    ∀ c₂, T.Resumes c₁ c₂ (T.slots c) → c₂.reg T.isa.sp = T.stack c → c₂.reg T.result = 0 →
      ∃ c₃, run T.isa here (fuel + 32) rest c₂ = some (.call (T.arg c 0) c₃) ∧
        T.arg c₃ 0 = T.arg c 3 ∧ c₃.reg T.isa.sp + T.depth = T.top c ∧
        c₃.mem = T.entered c₂ here (c₃.reg T.isa.sp)

end Target

end PureStd.Thread.Clone
