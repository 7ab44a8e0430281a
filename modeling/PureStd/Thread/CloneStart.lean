/-
`__purestd_clone` starts a thread, on every Linux target.

For each target, the processor at the system call is described first, register by register
(`x64_request` and so on); the two ways back follow from that.  On all five targets the child
calls `entry(arg)` on its own stack, and the parent returns to its caller with the caller's
registers and stack pointer.

The stack pointer of the child is where the calling convention wants it on four targets.  On
x86 it never is: `call` is reached with the argument on top of the stack, and nothing below it
fills up the sixteen bytes.
-/
import PureStd.Thread.CloneCode

namespace PureStd.Thread.Clone

open Assembly ByteMemory

namespace Target

variable {R : Type} {T : Target R} {c c₁ c₂ : Cpu R}

lemma Ready.stack_eq (h : T.Ready c) (hslot : T.slot ≤ 16)
    (htop : T.arg c 1 < 256 ^ T.isa.bytes) :
    T.isa.shift (T.top c) (-T.slot) = T.stack c ∧ T.stack c + T.slot = T.top c ∧
      T.top c < 256 ^ T.isa.bytes := by
  have hnew := h.newRoom
  have hle : T.top c ≤ T.arg c 1 := Nat.div_mul_le_self _ _
  have hsum : T.stack c + T.slot = T.top c := Nat.sub_add_cancel (hslot.trans hnew)
  exact ⟨Isa.shift_eq (by omega) (by omega), hsum, by omega⟩

/-- The words for the child are not in the frame of the caller. -/
lemma Ready.not_slots (h : T.Ready c) (hslot : T.slot = 2 * T.isa.bytes) (hle : T.slot ≤ 16)
    {a : ℕ} (ha : (T.frame c).Has a) : ¬ (T.slots c).Has a := by
  rintro ⟨hlo, hhi⟩
  refine h.apart.not_has ha ⟨?_, ?_⟩
  · simp only [slots, stack] at hlo ⊢
    omega
  · simp only [slots, stack] at hhi ⊢
    have := h.newRoom
    omega

/-- The words for the child are all that is written to the new stack. -/
lemma written_of_not_slots {a : ℕ} (ha : ¬ (T.slots c).Has a) : T.written c a = T.pushed c a := by
  refine storeWords_of_not_has ?_
  rwa [List.length_cons, List.length_singleton, Nat.mul_comm]

/-- The registers are all that is written to the stack of the caller. -/
lemma written_of_not_has {a : ℕ} (ha : ¬ (T.slots c).Has a) (hkept : ¬ (T.kept c).Has a) :
    T.written c a = c.mem a := by
  rw [written_of_not_slots ha, pushed, storeWords_of_not_has]
  rwa [List.length_map]

/-- The child finds the words that its parent has left. -/
lemma Resumes.words (h : T.Resumes c₁ c₂ (T.slots c)) (hmem : c₁.mem = T.written c)
    (h0 : T.arg c 0 < 256 ^ T.isa.bytes) (h3 : T.arg c 3 < 256 ^ T.isa.bytes) :
    load T.isa.bytes c₂.mem (T.stack c) = T.arg c 0 ∧
      load T.isa.bytes c₂.mem (T.stack c + T.isa.bytes) = T.arg c 3 := by
  have hload : ∀ b, T.stack c ≤ b → b ≤ T.stack c + T.isa.bytes →
      load T.isa.bytes c₂.mem b = load T.isa.bytes (T.written c) b := by
    intro b hlo hhi
    refine hmem ▸ load_congr fun a ha => h.2 a ⟨hlo.trans ha.1, lt_of_lt_of_le ha.2 ?_⟩
    simp only [Target.slots]
    omega
  obtain ⟨hentry, harg⟩ := load_pair (T.pushed c) (T.stack c) h0 h3
  exact ⟨(hload _ (le_refl _) (Nat.le_add_right ..)).trans hentry,
    (hload _ (Nat.le_add_right ..) (le_refl _)).trans harg⟩

/-- The parent finds its stack as it has left it. -/
lemma Resumes.load_frame (h : T.Resumes c₁ c₂ (T.frame c)) (hmem : c₁.mem = T.written c)
    (hready : T.Ready c) (hslot : T.slot = 2 * T.isa.bytes) (hle : T.slot ≤ 16) {b : ℕ}
    (hlo : c.reg T.isa.sp - 12 ≤ b) (hhi : b ≤ c.reg T.isa.sp) :
    load T.isa.bytes c₂.mem b = load T.isa.bytes (T.pushed c) b := by
  refine load_congr fun a ha => ?_
  have hin : (T.frame c).Has a := by
    have hroom := hready.room
    obtain ⟨ha₁, ha₂⟩ := ha
    simp only [frame, Region.Has] at ha₁ ha₂ ⊢
    omega
  rw [h.2 a hin, hmem, written_of_not_slots (hready.not_slots hslot hle hin)]

/-- Registers that a thread has back after the system call. -/
lemma Resumes.regs {r : Region} (h : T.Resumes c₁ c₂ r) {l : List R}
    (hl : ∀ q ∈ l, q ≠ T.result ∧ q ≠ T.isa.sp ∧ q ∉ T.scratch)
    (h₁ : ∀ q ∈ l, c₁.reg q = c.reg q) : ∀ q ∈ l, c₂.reg q = c.reg q := by
  intro q hq
  obtain ⟨hres, hsp, hscratch⟩ := hl q hq
  rw [h.1 q hres hsp hscratch, h₁ q hq]

end Target

/-! ### x86_64 -/

lemma x64_request {c : Cpu X64} (h : x64.Ready c) (here fuel : ℕ) :
    ∃ c₁, run x64.isa here (fuel + 32) x64.code c = some (.trap (x64.code.drop 10) c₁) ∧
      c₁.mem = store 8 (store 8 c.mem (x64.stack c) (c.reg .rdi)) (x64.stack c + 8) (c.reg .rcx) ∧
      ∀ q, c₁.reg q = match q with
        | .rax => 56
        | .rdi => c.reg .rdx
        | .rsi => x64.stack c
        | .rdx | .r10 | .r8 => 0
        | q => c.reg q := by
  obtain ⟨hstack, hsum, hlt⟩ := h.stack_eq (le_refl _) (h.words .rsi)
  change _ + 16 = _ at hsum
  have hstack : x64.isa.shift (x64.top c) (-16) = x64.stack c := hstack
  have htop : x64.isa.alignDown (c.reg .rsi) = x64.top c :=
    Isa.alignDown_eq (by decide) (h.words .rsi)
  have h0 : x64.isa.shift (x64.stack c) 0 = x64.stack c := Isa.shift_eq (by omega) (by omega)
  have h8 : x64.isa.shift (x64.stack c) 8 = x64.stack c + 8 := Isa.shift_eq (by omega) (by omega)
  refine ⟨_, rfl, ?_, fun q => ?_⟩
  · simp [Instr.eval, htop, hstack, h0, h8]
    rfl
  · cases q <;> simp [Instr.eval, htop, hstack]

lemma x64_parent {c : Cpu X64} (h : c.reg .rax ≠ 0) (here fuel : ℕ) :
    ∃ c', run x64.isa here (fuel + 32) (x64.code.drop 10) c =
        some (.ret (load 8 c.mem (c.reg .rsp)) c') ∧
      c'.reg = Function.update c.reg .rsp (x64.isa.shift (c.reg .rsp) 8) ∧ c'.mem = c.mem := by
  have hz : (c.reg .rax == 0) = false := by simpa using h
  exact ⟨_, (run_jnz (c := { c with zero := c.reg .rax == 0 }) hz).trans rfl, rfl, rfl⟩

lemma x64_child {c : Cpu X64} (h : c.reg .rax = 0) (here fuel : ℕ) :
    ∃ c', run x64.isa here (fuel + 32) (x64.code.drop 10) c =
        some (.call (load 8 c.mem (c.reg .rsp)) c') ∧
      c'.reg .rdi = load 8 c.mem (x64.isa.shift (c.reg .rsp) 8) ∧
      c'.reg .rsp =
        x64.isa.shift (x64.isa.shift (x64.isa.shift (c.reg .rsp) 8) 8) (-8) ∧
      c'.mem = store 8 c.mem (c'.reg .rsp) here := by
  have hz : (c.reg .rax == 0) = true := by simpa using h
  exact ⟨_, (run_jnz_not (c := { c with zero := c.reg .rax == 0 }) hz).trans rfl, rfl, rfl, rfl⟩

lemma starts_x64 : x64.Starts := by
  intro c here fuel h
  obtain ⟨c₁, hrun, hmem, hreg⟩ := x64_request h here fuel
  obtain ⟨-, hsum, hlt⟩ := h.stack_eq (le_refl _) (h.words .rsi)
  change _ + 16 = _ at hsum
  have hroom : 12 ≤ c.reg .rsp ∧ c.reg .rsp + 20 ≤ 256 ^ 8 := h.room
  have hmem : c₁.mem = x64.written c := hmem
  refine ⟨_, c₁, hrun, hreg .rax, ?_, hmem, fun a ha hkept => ?_, ?_, ?_⟩
  · simp [x64, hreg, Target.arg]
  · rw [hmem, Target.written_of_not_has ha hkept]
  · intro c₂ hresumes hsp hres
    obtain ⟨c₃, hret, hreg₃, hmem₃⟩ := x64_parent (c := c₂) hres here fuel
    have hsp : c₂.reg .rsp = c.reg .rsp := hsp.trans (hreg .rsp)
    have hback : load 8 c₂.mem (c₂.reg .rsp) = x64.back c := by
      rw [hsp]
      exact hresumes.load_frame hmem h rfl (by decide) (Nat.sub_le ..) (le_refl _)
    rw [hback] at hret
    refine ⟨c₃, hret, ?_, ?_, fun r hr => ?_, hmem₃⟩
    · rw [hreg₃]
      exact Function.update_of_ne (by decide) _ _
    · rw [hreg₃, hsp]
      refine (Function.update_self _ _ _).trans (Isa.shift_eq rfl ?_)
      change c.reg .rsp + 8 < 256 ^ 8
      omega
    · have hne : ∀ r ∈ x64.saved, r ≠ .rax ∧ r ≠ .rsp ∧ r ∉ x64.scratch := by decide
      rw [hreg₃, Function.update_of_ne (hne r hr).2.1]
      exact hresumes.regs hne (by simp [x64, hreg]) r hr
  · intro c₂ hresumes hsp hres
    obtain ⟨c₃, hcall, hrdi, hrsp, hmem₃⟩ := x64_child (c := c₂) hres here fuel
    obtain ⟨hentry, harg⟩ := hresumes.words hmem (h.words .rdi) (h.words .rcx)
    have hsp : c₂.reg .rsp = x64.stack c := hsp
    have h8 : x64.isa.shift (x64.stack c) 8 = x64.stack c + 8 := Isa.shift_eq rfl (by omega)
    refine ⟨c₃, ?_, ?_, ?_, hmem₃⟩
    · rw [hcall, hsp]
      exact congrArg (fun e => some (Stop.call e c₃)) hentry
    · rw [hsp, h8] at hrdi
      exact hrdi.trans harg
    · have h16 : x64.isa.shift (x64.stack c + 8) 8 = x64.stack c + 16 :=
        Isa.shift_eq (by omega) (by omega)
      have hpush : x64.isa.shift (x64.stack c + 16) (-8) = x64.stack c + 8 :=
        Isa.shift_eq (by omega) (by omega)
      rw [hsp, h8, h16, hpush] at hrsp
      change c₃.reg .rsp + 8 = _
      omega

/-! ### aarch64 -/

lemma a64_request {c : Cpu A64} (h : a64.Ready c) (here fuel : ℕ) :
    ∃ c₁, run a64.isa here (fuel + 32) a64.code c = some (.trap (a64.code.drop 8) c₁) ∧
      c₁.mem = store 8 (store 8 c.mem (a64.stack c) (c.reg (.x 0))) (a64.stack c + 8)
        (c.reg (.x 3)) ∧
      ∀ q, c₁.reg q = match q with
        | .x 0 => c.reg (.x 2)
        | .x 1 => a64.stack c
        | .x 2 | .x 3 | .x 4 => 0
        | .x 8 => 220
        | q => c.reg q := by
  obtain ⟨hstack, hsum, hlt⟩ := h.stack_eq (le_refl _) (h.words (.x 1))
  have hstack : a64.isa.shift (a64.top c) (-16) = a64.stack c := hstack
  have htop : a64.isa.alignDown (c.reg (.x 1)) = a64.top c :=
    Isa.alignDown_eq (by decide) (h.words (.x 1))
  refine ⟨_, rfl, ?_, fun q => ?_⟩
  · simp [Instr.eval, Cpu.writeAll, htop, hstack]
    rfl
  · rcases q with n | _
    · fin_cases n <;> simp [Instr.eval, Cpu.writeAll, htop, hstack]
    · simp [Instr.eval, Cpu.writeAll]

lemma a64_child {c : Cpu A64} (h : c.reg (.x 0) = 0) (here fuel : ℕ) :
    ∃ c', run a64.isa here (fuel + 32) (a64.code.drop 8) c =
        some (.call (load 8 c.mem (c.reg .sp)) c') ∧
      c'.reg (.x 0) = load 8 c.mem (c.reg .sp + 8) ∧
      c'.reg .sp = a64.isa.shift (c.reg .sp) 16 ∧ c'.mem = c.mem :=
  ⟨_, (run_cbz (c := c) h).trans rfl, rfl, rfl, rfl⟩

lemma starts_a64 : a64.Starts := by
  intro c here fuel h
  obtain ⟨c₁, hrun, hmem, hreg⟩ := a64_request h here fuel
  obtain ⟨-, hsum, hlt⟩ := h.stack_eq (le_refl _) (h.words (.x 1))
  change _ + 16 = _ at hsum
  have hmem : c₁.mem = a64.written c := hmem
  refine ⟨_, c₁, hrun, hreg (.x 8), ?_, hmem, fun a ha hkept => ?_, ?_, ?_⟩
  · simp [a64, hreg, Target.arg]
  · rw [hmem, Target.written_of_not_has ha hkept]
  · intro c₂ hresumes hsp hres
    have hsame := Target.Resumes.regs (c := c) (l := .x 30 :: a64.saved) hresumes
      (by decide) (by simp [a64, hreg])
    refine ⟨c₂, (run_cbz_not (c := c₂) hres).trans ?_, rfl, hsp.trans (hreg .sp),
      fun r hr => hsame r (List.mem_cons_of_mem _ hr), rfl⟩
    exact congrArg (fun e => some (Stop.ret e c₂)) (hsame _ List.mem_cons_self)
  · intro c₂ hresumes hsp hres
    obtain ⟨c₃, hcall, harg₃, hsp₃, hmem₃⟩ := a64_child (c := c₂) hres here fuel
    obtain ⟨hentry, harg⟩ := hresumes.words hmem (h.words (.x 0)) (h.words (.x 3))
    have hsp : c₂.reg .sp = a64.stack c := hsp
    refine ⟨c₃, ?_, ?_, ?_, hmem₃⟩
    · rw [hcall, hsp]
      exact congrArg (fun e => some (Stop.call e c₃)) hentry
    · rw [hsp] at harg₃
      exact harg₃.trans harg
    · rw [hsp, Isa.shift_eq (y := a64.stack c + 16) (by omega) (by omega)] at hsp₃
      exact hsp₃.trans hsum

/-! ### riscv64 -/

lemma rv64_request {c : Cpu Rv64} (h : rv64.Ready c) (here fuel : ℕ) :
    ∃ c₁, run rv64.isa here (fuel + 32) rv64.code c = some (.trap (rv64.code.drop 10) c₁) ∧
      c₁.mem = store 8 (store 8 c.mem (rv64.stack c) (c.reg (.a 0))) (rv64.stack c + 8)
        (c.reg (.a 3)) ∧
      ∀ q, c₁.reg q = match q with
        | .a 0 => c.reg (.a 2)
        | .a 1 => rv64.stack c
        | .a 2 | .a 3 | .a 4 => 0
        | .a 7 => 220
        | q => c.reg q := by
  obtain ⟨hstack, hsum, hlt⟩ := h.stack_eq (le_refl _) (h.words (.a 1))
  change _ + 16 = _ at hsum
  have hstack : rv64.isa.shift (rv64.top c) (-16) = rv64.stack c := hstack
  have htop : rv64.isa.alignDown (c.reg (.a 1)) = rv64.top c :=
    Isa.alignDown_eq (by decide) (h.words (.a 1))
  have h0 : rv64.isa.shift (rv64.stack c) 0 = rv64.stack c := Isa.shift_eq (by omega) (by omega)
  have h8 : rv64.isa.shift (rv64.stack c) 8 = rv64.stack c + 8 :=
    Isa.shift_eq (by omega) (by omega)
  refine ⟨_, rfl, ?_, fun q => ?_⟩
  · simp [Instr.eval, htop, hstack, h0, h8]
    rfl
  · rcases q with _ | _ | _ | _ | n | n | n
    all_goals first | fin_cases n <;> simp [Instr.eval, htop, hstack] | simp [Instr.eval]

lemma rv64_child {c : Cpu Rv64} (h : c.reg (.a 0) = 0) (here fuel : ℕ) :
    ∃ c', run rv64.isa here (fuel + 32) (rv64.code.drop 10) c =
        some (.call (load 8 c.mem (rv64.isa.shift (c.reg .sp) 0)) c') ∧
      c'.reg (.a 0) = load 8 c.mem (rv64.isa.shift (c.reg .sp) 8) ∧ c'.reg .sp = c.reg .sp ∧
      c'.mem = c.mem :=
  ⟨_, (run_cbnz_not (c := c) h).trans rfl, rfl, rfl, rfl⟩

lemma starts_rv64 : rv64.Starts := by
  intro c here fuel h
  obtain ⟨c₁, hrun, hmem, hreg⟩ := rv64_request h here fuel
  obtain ⟨-, hsum, hlt⟩ := h.stack_eq (le_refl _) (h.words (.a 1))
  change _ + 16 = _ at hsum
  have hmem : c₁.mem = rv64.written c := hmem
  refine ⟨_, c₁, hrun, hreg (.a 7), ?_, hmem, fun a ha hkept => ?_, ?_, ?_⟩
  · simp [rv64, hreg, Target.arg]
  · rw [hmem, Target.written_of_not_has ha hkept]
  · intro c₂ hresumes hsp hres
    have hsame := Target.Resumes.regs (c := c) (l := .ra :: rv64.saved) hresumes
      (by decide) (by simp [rv64, hreg])
    refine ⟨c₂, (run_cbnz (c := c₂) hres).trans ?_, rfl, hsp.trans (hreg .sp),
      fun r hr => hsame r (List.mem_cons_of_mem _ hr), rfl⟩
    exact congrArg (fun e => some (Stop.ret e c₂)) (hsame _ List.mem_cons_self)
  · intro c₂ hresumes hsp hres
    obtain ⟨c₃, hcall, harg₃, hsp₃, hmem₃⟩ := rv64_child (c := c₂) hres here fuel
    obtain ⟨hentry, harg⟩ := hresumes.words hmem (h.words (.a 0)) (h.words (.a 3))
    have hsp : c₂.reg .sp = rv64.stack c := hsp
    have h0 : rv64.isa.shift (rv64.stack c) 0 = rv64.stack c := Isa.shift_eq (by omega) (by omega)
    have h8 : rv64.isa.shift (rv64.stack c) 8 = rv64.stack c + 8 :=
      Isa.shift_eq (by omega) (by omega)
    refine ⟨c₃, ?_, ?_, ?_, hmem₃⟩
    · rw [hcall, hsp, h0]
      exact congrArg (fun e => some (Stop.call e c₃)) hentry
    · rw [hsp, h8] at harg₃
      exact harg₃.trans harg
    · rw [hsp] at hsp₃
      change c₃.reg .sp + 16 = _
      omega

/-! ### arm -/

lemma arm_request {c : Cpu Arm} (h : arm.Ready c) (here fuel : ℕ) :
    ∃ c₁, run arm.isa here (fuel + 32) arm.code c = some (.trap (arm.code.drop 10) c₁) ∧
      c₁.mem = store 4 (store 4 (arm.pushed c) (arm.stack c) (c.reg (.r 0))) (arm.stack c + 4)
        (c.reg (.r 3)) ∧
      ∀ q, c₁.reg q = match q with
        | .r 0 => c.reg (.r 2)
        | .r 1 => arm.stack c
        | .r 2 | .r 3 | .r 4 => 0
        | .r 7 => 120
        | .sp => c.reg .sp - 8
        | q => c.reg q := by
  obtain ⟨hstack, hsum, hlt⟩ := h.stack_eq (by decide) (h.words (.r 1))
  change _ + 8 = _ at hsum
  have hroom : 12 ≤ c.reg .sp ∧ c.reg .sp + 20 ≤ 256 ^ 4 := h.room
  have hstack : arm.isa.shift (arm.top c) (-8) = arm.stack c := hstack
  have htop : arm.isa.alignDown (c.reg (.r 1)) = arm.top c :=
    Isa.alignDown_eq (by decide) (h.words (.r 1))
  have hpush : arm.isa.shift (c.reg .sp) (-8) = c.reg .sp - 8 :=
    Isa.shift_eq (by omega) (by change _ < 256 ^ 4; omega)
  have h4 : arm.isa.shift (arm.stack c) 4 = arm.stack c + 4 := Isa.shift_eq (by omega) (by omega)
  refine ⟨_, rfl, ?_, fun q => ?_⟩
  · simp [Instr.eval, Cpu.writeAll, htop, hstack, hpush, h4]
    rfl
  · rcases q with n | _ | _
    · fin_cases n <;> simp [Instr.eval, Cpu.writeAll, htop, hstack]
    · simp [Instr.eval, Cpu.writeAll, hpush]
    · simp [Instr.eval, Cpu.writeAll]

lemma arm_parent {c : Cpu Arm} (h : c.reg (.r 0) ≠ 0) (here fuel : ℕ) :
    ∃ c', run arm.isa here (fuel + 32) (arm.code.drop 10) c = some (.ret (c.reg .lr) c') ∧
      c'.reg = Function.update (Function.update (Function.update c.reg (.r 4)
        (load 4 c.mem (c.reg .sp))) (.r 7) (load 4 c.mem (c.reg .sp + 4))) .sp
        (arm.isa.shift (c.reg .sp) 8) ∧ c'.mem = c.mem := by
  have hz : (c.reg (.r 0) == 0) = false := by simpa using h
  exact ⟨_, (run_jnz (c := { c with zero := c.reg (.r 0) == 0 }) hz).trans rfl, rfl, rfl⟩

lemma arm_child {c : Cpu Arm} (h : c.reg (.r 0) = 0) (here fuel : ℕ) :
    ∃ c', run arm.isa here (fuel + 32) (arm.code.drop 10) c =
        some (.call (load 4 c.mem (arm.isa.shift (c.reg .sp) 0)) c') ∧
      c'.reg (.r 0) = load 4 c.mem (arm.isa.shift (c.reg .sp) 4) ∧ c'.reg .sp = c.reg .sp ∧
      c'.mem = c.mem := by
  have hz : (c.reg (.r 0) == 0) = true := by simpa using h
  exact ⟨_, (run_jnz_not (c := { c with zero := c.reg (.r 0) == 0 }) hz).trans rfl, rfl, rfl, rfl⟩

lemma starts_arm : arm.Starts := by
  intro c here fuel h
  obtain ⟨c₁, hrun, hmem, hreg⟩ := arm_request h here fuel
  obtain ⟨-, hsum, hlt⟩ := h.stack_eq (by decide) (h.words (.r 1))
  change _ + 8 = _ at hsum
  have hroom : 12 ≤ c.reg .sp ∧ c.reg .sp + 20 ≤ 256 ^ 4 := h.room
  have hmem : c₁.mem = arm.written c := hmem
  refine ⟨_, c₁, hrun, hreg (.r 7), ?_, hmem, fun a ha hkept => ?_, ?_, ?_⟩
  · simp [arm, hreg, Target.arg]
  · rw [hmem, Target.written_of_not_has ha hkept]
  · intro c₂ hresumes hsp hres
    obtain ⟨c₃, hret, hreg₃, hmem₃⟩ := arm_parent (c := c₂) hres here fuel
    have hsp : c₂.reg .sp = c.reg .sp - 8 := hsp.trans (hreg .sp)
    have hsaved := Target.Resumes.regs (T := arm) (c := c)
      (l := [.lr, .r 5, .r 6, .r 8, .r 9, .r 10, .r 11]) hresumes (by decide)
      (by simp [hreg])
    -- the two words that were pushed
    obtain ⟨h4, h7⟩ := load_pair c.mem (c.reg .sp - 8) (h.words (.r 4))
      (h.words (.r 7))
    have hframe : ∀ b, c.reg .sp - 8 ≤ b → b ≤ c.reg .sp - 4 →
        load 4 c₂.mem b = load 4 (arm.pushed c) b := by
      intro b hlo hhi
      refine hresumes.load_frame hmem h rfl (by decide) ?_ (hhi.trans (Nat.sub_le ..))
      change c.reg .sp - 12 ≤ b
      omega
    rw [hsaved .lr (by simp)] at hret
    refine ⟨c₃, hret, ?_, ?_, fun r hr => ?_, hmem₃⟩
    · rw [hreg₃]
      rfl
    · rw [hreg₃, hsp]
      refine (Function.update_self _ _ _).trans (Isa.shift_eq ?_ ?_)
      · change ((c.reg .sp - 8 : ℕ) : ℤ) + 8 = (c.reg .sp : ℤ)
        omega
      · exact h.words _
    · have hcases : ∀ r ∈ arm.saved, r = .r 4 ∨ r = .r 7 ∨
          r ∈ [Arm.lr, .r 5, .r 6, .r 8, .r 9, .r 10, .r 11] := by decide
      rcases hcases r hr with rfl | rfl | hr
      · rw [hreg₃, hsp]
        exact (hframe _ (le_refl _) (by omega)).trans h4
      · rw [hreg₃, hsp]
        exact (hframe _ (by omega) (by omega)).trans h7
      · have hne : ∀ r ∈ [Arm.lr, .r 5, .r 6, .r 8, .r 9, .r 10, .r 11],
            r ≠ .r 4 ∧ r ≠ .r 7 ∧ r ≠ .sp := by decide
        obtain ⟨hr4, hr7, hrsp⟩ := hne r hr
        rw [hreg₃, Function.update_of_ne hrsp, Function.update_of_ne hr7,
          Function.update_of_ne hr4]
        exact hsaved r hr
  · intro c₂ hresumes hsp hres
    obtain ⟨c₃, hcall, harg₃, hsp₃, hmem₃⟩ := arm_child (c := c₂) hres here fuel
    obtain ⟨hentry, harg⟩ := hresumes.words hmem (h.words (.r 0)) (h.words (.r 3))
    have hsp : c₂.reg .sp = arm.stack c := hsp
    have h0 : arm.isa.shift (arm.stack c) 0 = arm.stack c := Isa.shift_eq (by omega) (by omega)
    have h4 : arm.isa.shift (arm.stack c) 4 = arm.stack c + 4 :=
      Isa.shift_eq (by omega) (by omega)
    refine ⟨c₃, ?_, ?_, ?_, hmem₃⟩
    · rw [hcall, hsp, h0]
      exact congrArg (fun e => some (Stop.call e c₃)) hentry
    · rw [hsp, h4] at harg₃
      exact harg₃.trans harg
    · rw [hsp] at hsp₃
      change c₃.reg .sp + 8 = _
      omega

/-! ### x86 -/

section X86

variable {c : Cpu X86}

/-- The registers are pushed from the highest word down. -/
lemma x86_pushed (h : 12 ≤ c.reg .esp) :
    x86.pushed c = store 4 (store 4 (store 4 c.mem (c.reg .esp - 4) (c.reg .ebx))
      (c.reg .esp - 8) (c.reg .esi)) (c.reg .esp - 12) (c.reg .edi) := by
  have h8 : c.reg .esp - 12 + 4 = c.reg .esp - 8 := by omega
  have h4 : c.reg .esp - 8 + 4 = c.reg .esp - 4 := by omega
  have hup : x86.pushed c = store 4 (store 4 (store 4 c.mem (c.reg .esp - 12) (c.reg .edi))
      (c.reg .esp - 12 + 4) (c.reg .esi)) (c.reg .esp - 12 + 4 + 4) (c.reg .ebx) := rfl
  rw [hup, h8, h4, store_comm (a := c.reg .esp - 8) (b := c.reg .esp - 4)
      (by simp only [Region.Apart]; omega),
    store_comm (a := c.reg .esp - 12) (b := c.reg .esp - 4) (by simp only [Region.Apart]; omega),
    store_comm (a := c.reg .esp - 12) (b := c.reg .esp - 8) (by simp only [Region.Apart]; omega)]

lemma x86_arg (h : x86.Ready c) :
    x86.arg c 0 = load 4 c.mem (c.reg .esp + 4) ∧ x86.arg c 1 = load 4 c.mem (c.reg .esp + 8) ∧
      x86.arg c 2 = load 4 c.mem (c.reg .esp + 12) ∧
      x86.arg c 3 = load 4 c.mem (c.reg .esp + 16) := by
  have hroom : 12 ≤ c.reg .esp ∧ c.reg .esp + 20 ≤ 256 ^ 4 := h.room
  have hshift : ∀ k : ℕ, k ≤ 16 → x86.isa.shift (c.reg .esp) k = c.reg .esp + k := fun k hk =>
    Isa.shift_eq (by omega) (by change _ < 256 ^ 4; omega)
  exact ⟨congrArg (load 4 c.mem) (hshift 4 (by omega)),
    congrArg (load 4 c.mem) (hshift 8 (by omega)), congrArg (load 4 c.mem) (hshift 12 (by omega)),
    congrArg (load 4 c.mem) (hshift 16 (by omega))⟩

/-- The arguments are above what was pushed, and apart from the new stack. -/
lemma x86_load_frame (h : x86.Ready c) {k u v : ℕ} (hk : k ≤ 16) :
    load 4 (x86.pushed c) (c.reg .esp + k) = load 4 c.mem (c.reg .esp + k) ∧
      load 4 (store 4 (x86.pushed c) (x86.stack c + 4) u) (c.reg .esp + k) =
        load 4 c.mem (c.reg .esp + k) ∧
      load 4 (store 4 (store 4 (x86.pushed c) (x86.stack c + 4) u) (x86.stack c) v)
        (c.reg .esp + k) = load 4 c.mem (c.reg .esp + k) := by
  have hroom : 12 ≤ c.reg .esp ∧ c.reg .esp + 20 ≤ 256 ^ 4 := h.room
  have hnew := h.newRoom
  have hstack : x86.stack c = x86.top c - 8 := rfl
  have hap : Region.Apart ⟨c.reg .esp - 12, 32⟩ ⟨x86.top c - 16, 16⟩ := h.apart
  simp only [Region.Apart] at hap
  have hpushed : load 4 (x86.pushed c) (c.reg .esp + k) = load 4 c.mem (c.reg .esp + k) := by
    rw [x86_pushed hroom.1, load_store_apart, load_store_apart, load_store_apart] <;>
      (simp only [Region.Apart]; omega)
  have hout : ∀ b, x86.stack c ≤ b → b ≤ x86.stack c + 4 →
      Region.Apart ⟨c.reg .esp + k, 4⟩ ⟨b, 4⟩ := by
    intro b hlo hhi
    simp only [Region.Apart]
    omega
  have hfirst : load 4 (store 4 (x86.pushed c) (x86.stack c + 4) u) (c.reg .esp + k) = _ :=
    (load_store_apart (hout (x86.stack c + 4) (by omega) (le_refl _))).trans hpushed
  exact ⟨hpushed, hfirst, (load_store_apart (hout _ (le_refl _) (by omega))).trans hfirst⟩

lemma x86_request (h : x86.Ready c) (here fuel : ℕ) :
    ∃ c₁, run x86.isa here (fuel + 32) x86.code c = some (.trap (x86.code.drop 16) c₁) ∧
      c₁.mem = store 4 (store 4 (x86.pushed c) (x86.stack c + 4) (x86.arg c 3)) (x86.stack c)
        (x86.arg c 0) ∧
      ∀ q, c₁.reg q = match q with
        | .eax => 120
        | .ebx => x86.arg c 2
        | .ecx => x86.stack c
        | .edx | .esi | .edi => 0
        | .esp => c.reg .esp - 12
        | .ebp => c.reg .ebp := by
  obtain ⟨harg0, harg1, harg2, harg3⟩ := x86_arg h
  have hlt1 : x86.arg c 1 < 256 ^ 4 := by rw [harg1]; exact load_lt 4 _ _
  obtain ⟨hstack, hsum, hlt⟩ := h.stack_eq (by decide) hlt1
  change _ + 8 = _ at hsum
  have hroom : 12 ≤ c.reg .esp ∧ c.reg .esp + 20 ≤ 256 ^ 4 := h.room
  have hstack : x86.isa.shift (x86.top c) (-8) = x86.stack c := hstack
  have hslot : x86.isa.shift (x86.top c) (-4) = x86.stack c + 4 :=
    Isa.shift_eq (by omega) (by omega)
  have htop : x86.isa.alignDown (load 4 c.mem (c.reg .esp + 8)) = x86.top c := by
    rw [← harg1]
    exact Isa.alignDown_eq (by decide) hlt1
  -- the stack pointer, and the arguments from there
  have hp1 : x86.isa.shift (c.reg .esp) (-4) = c.reg .esp - 4 :=
    Isa.shift_eq (by omega) (by change _ < 256 ^ 4; omega)
  have hp2 : x86.isa.shift (c.reg .esp - 4) (-4) = c.reg .esp - 8 :=
    Isa.shift_eq (by omega) (by change _ < 256 ^ 4; omega)
  have hp3 : x86.isa.shift (c.reg .esp - 8) (-4) = c.reg .esp - 12 :=
    Isa.shift_eq (by omega) (by change _ < 256 ^ 4; omega)
  have hshift : ∀ k : ℕ, k ≤ 16 → x86.isa.shift (c.reg .esp - 12) ((k + 12 : ℕ) : ℤ) =
      c.reg .esp + k := fun k hk => Isa.shift_eq (by omega) (by change _ < 256 ^ 4; omega)
  have h16 : x86.isa.shift (c.reg .esp - 12) 16 = c.reg .esp + 4 := hshift 4 (by omega)
  have h20 : x86.isa.shift (c.reg .esp - 12) 20 = c.reg .esp + 8 := hshift 8 (by omega)
  have h24 : x86.isa.shift (c.reg .esp - 12) 24 = c.reg .esp + 12 := hshift 12 (by omega)
  have h28 : x86.isa.shift (c.reg .esp - 12) 28 = c.reg .esp + 16 := hshift 16 (by omega)
  have hl8 := (x86_load_frame h (k := 8) (u := 0) (v := 0) (by omega)).1
  have hl16 := (x86_load_frame h (k := 16) (u := 0) (v := 0) (by omega)).1
  have hl4 := (x86_load_frame h (k := 4) (u := x86.arg c 3) (v := 0) (by omega)).2.1
  have hl12 := (x86_load_frame h (k := 12) (u := x86.arg c 3) (v := x86.arg c 0) (by omega)).2.2
  rw [harg3] at hl4
  rw [harg3, harg0] at hl12
  have hbytes : x86.isa.bytes = 4 := rfl
  have hpushed : store 4 (store 4 (store 4 c.mem (c.reg .esp - 4) (c.reg .ebx)) (c.reg .esp - 8)
      (c.reg .esi)) (c.reg .esp - 12) (c.reg .edi) = x86.pushed c := (x86_pushed hroom.1).symm
  refine ⟨_, rfl, ?_, fun q => ?_⟩
  · simp [Instr.eval, Cpu.writeAll, hbytes, hp1, hp2, hp3, h16, h20, h28, hpushed, hl8, hl16,
      htop, hslot, hl4, hstack, harg0, harg3]
  · cases q <;> simp [Instr.eval, Cpu.writeAll, hbytes, hp1, hp2, hp3, h16, h20, h24, h28,
      hpushed, hl8, hl16, htop, hslot, hl4, hl12, hstack, harg2]

lemma x86_parent (h : c.reg .eax ≠ 0) (here fuel : ℕ) :
    ∃ c', run x86.isa here (fuel + 32) (x86.code.drop 16) c =
        some (.ret (load 4 c.mem (x86.isa.shift (x86.isa.shift (x86.isa.shift
          (c.reg .esp) 4) 4) 4)) c') ∧
      (∀ q, c'.reg q = match q with
        | .edi => load 4 c.mem (c.reg .esp)
        | .esi => load 4 c.mem (x86.isa.shift (c.reg .esp) 4)
        | .ebx => load 4 c.mem (x86.isa.shift (x86.isa.shift (c.reg .esp) 4) 4)
        | .esp => x86.isa.shift (x86.isa.shift (x86.isa.shift (x86.isa.shift
            (c.reg .esp) 4) 4) 4) 4
        | q => c.reg q) ∧ c'.mem = c.mem := by
  have hz : (c.reg .eax == 0) = false := by simpa using h
  refine ⟨_, (run_jz_not (c := { c with zero := c.reg .eax == 0 }) hz).trans rfl, fun q => ?_, rfl⟩
  cases q <;> rfl

lemma x86_child (h : c.reg .eax = 0) (here fuel : ℕ) :
    ∃ c', run x86.isa here (fuel + 32) (x86.code.drop 16) c =
        some (.call (load 4 c.mem (c.reg .esp)) c') ∧
      c'.reg .esp = x86.isa.shift (x86.isa.shift (c.reg .esp) 4) (-4) ∧
      c'.mem = store 4 c.mem (x86.isa.shift (x86.isa.shift (c.reg .esp) 4) (-4)) here := by
  have hz : (c.reg .eax == 0) = true := by simpa using h
  exact ⟨_, (run_jz (c := { c with zero := c.reg .eax == 0 }) hz).trans rfl, rfl, rfl⟩

end X86

lemma starts_x86 : x86.Starts := by
  intro c here fuel h
  obtain ⟨c₁, hrun, hmem, hreg⟩ := x86_request h here fuel
  obtain ⟨harg0, harg1, -, harg3⟩ := x86_arg h
  have hlt1 : x86.arg c 1 < 256 ^ 4 := by rw [harg1]; exact load_lt 4 _ _
  obtain ⟨-, hsum, hlt⟩ := h.stack_eq (by decide) hlt1
  change _ + 8 = _ at hsum
  have hroom : 12 ≤ c.reg .esp ∧ c.reg .esp + 20 ≤ 256 ^ 4 := h.room
  -- the argument is written first
  have hmem : c₁.mem = x86.written c :=
    hmem.trans (store_comm (Or.inr (le_refl _)))
  refine ⟨_, c₁, hrun, hreg .eax, ?_, hmem, fun a ha hkept => ?_, ?_, ?_⟩
  · simp [x86, hreg]
  · rw [hmem, Target.written_of_not_has ha hkept]
  · intro c₂ hresumes hsp hres
    obtain ⟨c₃, hret, hreg₃, hmem₃⟩ := x86_parent (c := c₂) hres here fuel
    have hsp : c₂.reg .esp = c.reg .esp - 12 := hsp.trans (hreg .esp)
    have hp1 : x86.isa.shift (c.reg .esp - 12) 4 = c.reg .esp - 8 :=
      Isa.shift_eq (by omega) (by change _ < 256 ^ 4; omega)
    have hp2 : x86.isa.shift (c.reg .esp - 8) 4 = c.reg .esp - 4 :=
      Isa.shift_eq (by omega) (by change _ < 256 ^ 4; omega)
    have hp3 : x86.isa.shift (c.reg .esp - 4) 4 = c.reg .esp :=
      Isa.shift_eq (by omega) (by change _ < 256 ^ 4; omega)
    have hp4 : x86.isa.shift (c.reg .esp) 4 = c.reg .esp + 4 :=
      Isa.shift_eq (by omega) (by change _ < 256 ^ 4; omega)
    -- the stack of the caller is as it was left
    have hframe : ∀ b, c.reg .esp - 12 ≤ b → b ≤ c.reg .esp →
        load 4 c₂.mem b = load 4 (x86.pushed c) b :=
      fun b hlo hhi => hresumes.load_frame hmem h rfl (by decide) hlo hhi
    have hedi : load 4 (x86.pushed c) (c.reg .esp - 12) = c.reg .edi := by
      rw [x86_pushed hroom.1]
      exact load_store_same (h.words .edi)
    have hesi : load 4 (x86.pushed c) (c.reg .esp - 8) = c.reg .esi := by
      rw [x86_pushed hroom.1, load_store_apart (by simp only [Region.Apart]; omega)]
      exact load_store_same (h.words .esi)
    have hebx : load 4 (x86.pushed c) (c.reg .esp - 4) = c.reg .ebx := by
      rw [x86_pushed hroom.1, load_store_apart (by simp only [Region.Apart]; omega),
        load_store_apart (by simp only [Region.Apart]; omega)]
      exact load_store_same (h.words .ebx)
    have hback : load 4 c₂.mem (c.reg .esp) = x86.back c :=
      (hframe _ (by omega) (le_refl _)).trans
        (x86_load_frame h (k := 0) (u := 0) (v := 0) (by omega)).1
    rw [hsp, hp1, hp2, hp3, hback] at hret
    simp only [hsp, hp1, hp2, hp3, hp4] at hreg₃
    refine ⟨c₃, hret, hreg₃ .eax, hreg₃ .esp, ?_, hmem₃⟩
    have hebp : c₂.reg .ebp = c.reg .ebp :=
      (hresumes.1 .ebp (by decide) (by decide) (by decide)).trans (hreg .ebp)
    refine List.forall_mem_cons.2 ⟨?_, List.forall_mem_cons.2 ⟨?_, List.forall_mem_cons.2
      ⟨?_, List.forall_mem_cons.2 ⟨(hreg₃ .ebp).trans hebp, List.forall_mem_nil _⟩⟩⟩⟩
    · exact ((hreg₃ .ebx).trans (hframe _ (by omega) (by omega))).trans hebx
    · exact ((hreg₃ .esi).trans (hframe _ (by omega) (by omega))).trans hesi
    · exact ((hreg₃ .edi).trans (hframe _ (le_refl _) (by omega))).trans hedi
  · intro c₂ hresumes hsp hres
    obtain ⟨c₃, hcall, hsp₃, hmem₃⟩ := x86_child (c := c₂) hres here fuel
    have hsp : c₂.reg .esp = x86.stack c := hsp
    have h4 : x86.isa.shift (x86.stack c) 4 = x86.stack c + 4 :=
      Isa.shift_eq (by omega) (by omega)
    have hpush : x86.isa.shift (x86.stack c + 4) (-4) = x86.stack c :=
      Isa.shift_eq (by omega) (by omega)
    have hlt0 : x86.arg c 0 < 256 ^ 4 := by rw [harg0]; exact load_lt 4 _ _
    have hlt3 : x86.arg c 3 < 256 ^ 4 := by rw [harg3]; exact load_lt 4 _ _
    obtain ⟨hentry, harg⟩ := hresumes.words hmem hlt0 hlt3
    rw [hsp, h4, hpush] at hsp₃ hmem₃
    refine ⟨c₃, ?_, ?_, ?_, ?_⟩
    · rw [hcall, hsp]
      exact congrArg (fun e => some (Stop.call e c₃)) hentry
    · -- the return address goes below the argument
      change load 4 c₃.mem (x86.isa.shift (c₃.reg .esp) 4) = _
      rw [hsp₃, h4, hmem₃, load_store_apart (Or.inr (le_refl _))]
      exact harg
    · change c₃.reg .esp + 8 = _
      omega
    · rw [hmem₃]
      exact congrArg (store 4 c₂.mem · here) hsp₃.symm

/-! ### All targets -/

/-- On every Linux target, `__purestd_clone` asks for a thread with the given flags on the new
stack.  It has then written the two words for the child, and on x86 and arm the registers that it
pushes below the stack pointer, three and two words.  In the parent it returns the result of
`clone` to its caller, whose registers are as they were, and writes nothing more.  In the child it
calls `entry` with `arg`, and writes nothing more than the return address. -/
theorem clone_starts_thread :
    x64.Starts ∧ a64.Starts ∧ rv64.Starts ∧ x86.Starts ∧ arm.Starts :=
  ⟨starts_x64, starts_a64, starts_rv64, starts_x86, starts_arm⟩

example : x64.Ready ⟨fun | .rsi => 65536 | .rsp => 4096 | _ => 0, fun _ => 0, false⟩ where
  words r := by cases r <;> decide
  room := by decide
  newRoom := by decide
  apart := by decide

/-! ### Alignment -/

namespace Target

variable {R : Type} [DecidableEq R] {T : Target R}

/-- The calling convention allows a function to be entered with this stack pointer. -/
def Aligned (T : Target R) (sp : ℕ) : Prop := (sp + T.alignment.1) % T.alignment.2 = 0

/-- Whenever the child enters a function, its stack pointer is as `P` says. -/
def ChildEnters (T : Target R) (P : ℕ → Prop) : Prop :=
  ∀ (c : Cpu R) (here fuel : ℕ), T.Ready c → ∀ rest c₁,
    run T.isa here (fuel + 32) T.code c = some (.trap rest c₁) → ∀ c₂,
    T.Resumes c₁ c₂ (T.slots c) → c₂.reg T.isa.sp = T.stack c → c₂.reg T.result = 0 →
    ∀ target c₃, run T.isa here (fuel + 32) rest c₂ = some (.call target c₃) →
      P (c₃.reg T.isa.sp)

lemma Starts.childEnters (h : T.Starts) : T.ChildEnters fun sp => 16 ∣ sp + T.depth := by
  intro c here fuel hready rest c₁ hrun c₂ hresumes hsp hres target c₃ hcall
  obtain ⟨rest', c₁', hrun', -, -, -, -, -, hchild⟩ := h c here fuel hready
  obtain ⟨rfl, rfl⟩ := Stop.trap.inj (Option.some.inj (hrun.symm.trans hrun'))
  obtain ⟨c₃', hcall', -, hdepth, -⟩ := hchild c₂ hresumes hsp hres
  obtain ⟨-, rfl⟩ := Stop.call.inj (Option.some.inj (hcall.symm.trans hcall'))
  rw [hdepth]
  exact Dvd.intro_left _ rfl

lemma ChildEnters.mono {P Q : ℕ → Prop} (h : T.ChildEnters P) (hPQ : ∀ sp, P sp → Q sp) :
    T.ChildEnters Q :=
  fun c here fuel hready rest c₁ hrun c₂ hresumes hsp hres target c₃ hcall =>
    hPQ _ (h c here fuel hready rest c₁ hrun c₂ hresumes hsp hres target c₃ hcall)

end Target

/-- The child enters `entry` with an aligned stack pointer on x86_64, aarch64, riscv64 and arm.
On x86 it never does: the stack pointer is off by four bytes. -/
theorem clone_entry_alignment :
    x64.ChildEnters x64.Aligned ∧ a64.ChildEnters a64.Aligned ∧ rv64.ChildEnters rv64.Aligned ∧
      arm.ChildEnters arm.Aligned ∧
      x86.ChildEnters fun sp => ¬ x86.Aligned sp ∧ (sp + 4) % 16 = 12 := by
  refine ⟨starts_x64.childEnters.mono fun sp h => ?_, starts_a64.childEnters.mono fun sp h => ?_,
    starts_rv64.childEnters.mono fun sp h => ?_, starts_arm.childEnters.mono fun sp h => ?_,
    starts_x86.childEnters.mono fun sp h => ?_⟩
  · change 16 ∣ sp + 8 at h
    change (sp + 8) % 16 = 0
    omega
  · change 16 ∣ sp + 0 at h
    change (sp + 0) % 16 = 0
    omega
  · change 16 ∣ sp + 16 at h
    change (sp + 0) % 16 = 0
    omega
  · change 16 ∣ sp + 8 at h
    change (sp + 0) % 8 = 0
    omega
  · change 16 ∣ sp + 8 at h
    change ¬ (sp + 4) % 16 = 0 ∧ (sp + 4) % 16 = 12
    omega

end PureStd.Thread.Clone
