/-
The strings that `Command::spawn` hands to the kernel, `src/process.rs`.

The strings become C strings by four policies: the path of the program and the arguments with an
error that is returned, the name of the program with an `unwrap`, which the resolution of the path
protects, the environment by leaving out what has a NUL, and the working directory with an
`unwrap` that nothing protects.  So a NUL in the working directory is a panic, and one in the
environment goes unnoticed (`marshal_iff`).

What the kernel says of the candidates in `PATH` is any function.
-/
import PureStd.Process.Spawn

namespace PureStd.Process

open Utf8 Env

/-! ### The code -/

/-- `/`. -/
def slash : UInt8 := 47

/-- `:`. -/
def colon : UInt8 := 58

/-- The name of the variable `PATH`. -/
def pathVar : Str := ⟨[80, 65, 84, 72], by decide⟩

/-- `/usr/bin:/bin`. -/
def defaultPath : Str :=
  ⟨[47, 117, 115, 114, 47, 98, 105, 110, 58, 47, 98, 105, 110], by decide⟩

/-- `crate::fs::metadata(&candidate).map(|m| m.is_file()).unwrap_or(false)`, where `isFile` says
whether the kernel finds a regular file. -/
def isFileAt (isFile : CString → Bool) (candidate : List UInt8) : Bool :=
  match CString.new candidate with
  | some c => isFile c
  | none => false

/-- The path of a program in a directory. -/
def candidate (dir program : List UInt8) : List UInt8 :=
  if dir.getLast? = some slash then dir ++ program else dir ++ slash :: program

/-- `resolve_program`. -/
def resolveProgram (vars : EnvMap) (isFile : CString → Bool) (program : Str) :
    Option (List UInt8) :=
  if slash ∈ program.bytes then some program.bytes else
    ((vars[pathVar]?.getD defaultPath).bytes.splitOn colon).findSome? fun dir =>
      if dir = [] then none
      else if isFileAt isFile (candidate dir program.bytes) then some (candidate dir program.bytes)
      else none

/-- An `Error`, with the text of its payload if it has one. -/
structure Error where
  kind : Io.ErrorKind
  payload : Option String
deriving DecidableEq, Repr

/-- Why there is nothing to hand to the kernel. -/
inductive Stop where
  /-- An `unwrap` has met an error. -/
  | panic
  /-- `spawn` returns the error. -/
  | returned (e : Error)
deriving DecidableEq, Repr

/-- `CString::new`, with what becomes of its error. -/
def cstring (bs : List UInt8) (stop : Stop) : Except Stop CString :=
  match CString.new bs with
  | some c => .ok c
  | none => .error stop

/-- `Error::from(ErrorKind::InvalidInput)`. -/
def invalidInput : Error := ⟨.invalidInput, none⟩

/-- What is handed to the kernel. -/
structure Marshalled where
  prog : CString
  argv : List CString
  envp : List CString
  cwd : Option CString

/-- The part of `spawn` before the first pipe is made. -/
def Command.marshal (c : Command) (vars : EnvMap) (isFile : CString → Bool) :
    Except Stop Marshalled :=
  match resolveProgram vars isFile c.program with
  | none => .error (.returned ⟨.notFound, some "program not found"⟩)
  | some progPath => do
    let prog ← cstring progPath (.returned invalidInput)
    let name ← cstring c.program.bytes .panic
    let args ← c.args.mapM fun a => cstring a.bytes (.returned invalidInput)
    let cwd ← match c.cwd with
      | some d => (cstring d.bytes .panic).map some
      | none => .ok none
    return ⟨prog, name :: args, c.buildEnv vars, cwd⟩

/-- `Command::spawn`; `none` is a panic. -/
def Command.spawn (c : Command) (vars : EnvMap) (isFile : CString → Bool) (owner : ℕ) (f : Faults)
    (t : FdTable File) : Option Spawned :=
  match c.marshal vars isFile with
  | .error .panic => none
  | .error (.returned e) => some ⟨t, none, .error e.kind⟩
  | .ok _ => some (Process.spawn owner c.stdio f t)

/-! ### What is to hold -/

/-- The working directory has a NUL. -/
def Command.CwdNul (c : Command) : Prop := ∃ d, c.cwd = some d ∧ 0 ∈ d.bytes

/-- A key or value that `env` has set has a NUL. -/
def Command.EnvNul (c : Command) : Prop :=
  ∃ k v, (k, some v) ∈ c.envOps.toList ∧ (0 ∈ k.bytes ∨ 0 ∈ v.bytes)

/-- An argument has a NUL. -/
def Command.ArgNul (c : Command) : Prop := ∃ a ∈ c.args, 0 ∈ a.bytes

/-- One of the strings of the command cannot be passed to the kernel. -/
def Command.Unpassable (c : Command) : Prop :=
  0 ∈ c.program.bytes ∨ c.ArgNul ∨ c.EnvNul ∨ c.CwdNul

/-- Whatever system calls fail, `spawn` does not panic, and it returns an error before it forks if
a string cannot be passed to the kernel. -/
def Command.Careful (c : Command) (vars : EnvMap) (isFile : CString → Bool) : Prop :=
  ∀ owner f t, ∃ r, c.spawn vars isFile owner f t = some r ∧
    (c.Unpassable → (∃ e, r.result = .error e) ∧ r.child = none)

/-- The program is not found, or its name or an argument has a NUL. -/
def Command.Rejected (c : Command) (vars : EnvMap) (isFile : CString → Bool) : Prop :=
  resolveProgram vars isFile c.program = none ∨ 0 ∈ c.program.bytes ∨ c.ArgNul

/-! ### The program -/

lemma new_eq_none_iff (bs : List UInt8) : CString.new bs = none ↔ 0 ∈ bs := by
  rw [CString.new]
  split <;> simp_all

lemma not_nul_of_isFileAt {isFile : CString → Bool} {bs : List UInt8} (h : isFileAt isFile bs) :
    0 ∉ bs := by
  intro hnul
  rw [isFileAt, (new_eq_none_iff bs).2 hnul] at h
  cases h

lemma mem_candidate {dir program : List UInt8} {b : UInt8} (h : b ∈ program) :
    b ∈ candidate dir program := by
  rw [candidate]
  split <;> simp [h]

/-- The path that is found has a NUL only if the program has one. -/
lemma resolveProgram_nul {vars : EnvMap} {isFile : CString → Bool} {program : Str}
    {path : List UInt8} (h : resolveProgram vars isFile program = some path) :
    0 ∈ path ↔ 0 ∈ program.bytes := by
  rw [resolveProgram] at h
  split at h
  · rw [Option.some.inj h]
  · obtain ⟨dir, -, hdir⟩ := List.exists_of_findSome?_eq_some h
    split at hdir
    · cases hdir
    · split at hdir
      · rename_i hfile
        cases hdir
        have hno := not_nul_of_isFileAt hfile
        exact ⟨fun hnul => absurd hnul hno, fun hnul => mem_candidate hnul⟩
      · cases hdir

/-! ### The strings -/

lemma cstring_ok {bs : List UInt8} (h : 0 ∉ bs) (stop : Stop) : ∃ c, cstring bs stop = .ok c := by
  cases hnew : CString.new bs with
  | none => exact absurd ((new_eq_none_iff bs).1 hnew) h
  | some c => exact ⟨c, by rw [cstring, hnew]⟩

lemma cstring_error {bs : List UInt8} (h : 0 ∈ bs) (stop : Stop) :
    cstring bs stop = .error stop := by
  rw [cstring, (new_eq_none_iff bs).2 h]

/-- The arguments, up to the first one with a NUL. -/
lemma mapM_cstring (args : List Str) (stop : Stop) :
    ((∃ a ∈ args, 0 ∈ a.bytes) → (args.mapM fun a => cstring a.bytes stop) = .error stop) ∧
      ((¬ ∃ a ∈ args, 0 ∈ a.bytes) →
        ∃ cs, (args.mapM fun a => cstring a.bytes stop) = .ok cs) := by
  induction args with
  | nil => exact ⟨by simp, fun _ => ⟨[], rfl⟩⟩
  | cons a args ih =>
    rw [List.mapM_cons]
    by_cases ha : 0 ∈ a.bytes
    · rw [cstring_error ha]
      exact ⟨fun _ => rfl, fun h => absurd ⟨a, List.mem_cons_self, ha⟩ h⟩
    · obtain ⟨c, hc⟩ := cstring_ok ha stop
      have hiff : (∃ a' ∈ a :: args, 0 ∈ a'.bytes) ↔ ∃ a' ∈ args, 0 ∈ a'.bytes := by
        simp [ha]
      rw [hc, hiff]
      refine ⟨fun h => ?_, fun h => ?_⟩
      · rw [ih.1 h]
        rfl
      · obtain ⟨cs, hcs⟩ := ih.2 h
        rw [hcs]
        exact ⟨c :: cs, rfl⟩

/-- The `unwrap` of the name is never reached with a NUL, that of the working directory is. -/
lemma marshal_cases (c : Command) (vars : EnvMap) (isFile : CString → Bool) :
    (c.Rejected vars isFile ∧ ∃ e, c.marshal vars isFile = .error (.returned e)) ∨
      (¬ c.Rejected vars isFile ∧
        ((c.CwdNul ∧ c.marshal vars isFile = .error .panic) ∨
          (¬ c.CwdNul ∧ ∃ m, c.marshal vars isFile = .ok m))) := by
  rw [Command.marshal, Command.Rejected]
  cases hpath : resolveProgram vars isFile c.program with
  | none => exact Or.inl ⟨Or.inl rfl, _, rfl⟩
  | some path =>
    have hnul := resolveProgram_nul hpath
    by_cases hname : 0 ∈ c.program.bytes
    · refine Or.inl ⟨Or.inr (Or.inl hname), invalidInput, ?_⟩
      simp only [cstring_error (hnul.2 hname)]
      rfl
    · obtain ⟨prog, hprog⟩ := cstring_ok (fun h => hname (hnul.1 h)) (.returned invalidInput)
      obtain ⟨name, hcname⟩ := cstring_ok hname .panic
      obtain ⟨herror, hok⟩ := mapM_cstring c.args (.returned invalidInput)
      simp only [hprog, hcname]
      by_cases harg : c.ArgNul
      · refine Or.inl ⟨Or.inr (Or.inr harg), invalidInput, ?_⟩
        rw [herror harg]
        rfl
      · obtain ⟨args, hargs⟩ := hok harg
        rw [hargs]
        refine Or.inr ⟨by simp [hname, harg], ?_⟩
        cases hcwd : c.cwd with
        | none => exact Or.inr ⟨by simp [Command.CwdNul, hcwd], _, rfl⟩
        | some d =>
          by_cases hd : 0 ∈ d.bytes
          · refine Or.inl ⟨⟨d, hcwd, hd⟩, ?_⟩
            simp only [cstring_error hd]
            rfl
          · obtain ⟨cwd, hc⟩ := cstring_ok hd .panic
            refine Or.inr ⟨by simp [Command.CwdNul, hcwd, hd],
              ⟨prog, name :: args, c.buildEnv vars, cwd⟩, ?_⟩
            simp only [hc]
            rfl

/-! ### The spawn -/

/-- A spawn in which nothing fails makes a child. -/
lemma spawn_none_child (owner : ℕ) (io : Stdio) (t : FdTable File) :
    ∃ child, (Process.spawn owner io .none t).child = some child := by
  obtain ⟨stdin, stdout, stderr⟩ := io
  cases stdin <;> cases stdout <;> cases stderr <;> exact ⟨_, rfl⟩

/-- `spawn` is careful with the strings of a command if and only if it rejects the program or an
argument, or neither the environment nor the working directory has a NUL. -/
theorem marshal_iff (c : Command) (vars : EnvMap) (isFile : CString → Bool) :
    c.Careful vars isFile ↔ c.Rejected vars isFile ∨ (¬ c.EnvNul ∧ ¬ c.CwdNul) := by
  rcases marshal_cases c vars isFile with
    ⟨hrej, e, hm⟩ | ⟨hrej, ⟨hcwd, hm⟩ | ⟨hcwd, m, hm⟩⟩
  · refine ⟨fun _ => Or.inl hrej, fun _ owner f t => ?_⟩
    exact ⟨⟨t, none, .error e.kind⟩, by simp only [Command.spawn, hm], fun _ => ⟨⟨_, rfl⟩, rfl⟩⟩
  · constructor
    · intro hcareful
      obtain ⟨r, hr, -⟩ := hcareful 0 .none ⟨[]⟩
      simp only [Command.spawn, hm] at hr
      cases hr
    · rintro (hyes | ⟨-, hno⟩)
      · exact absurd hyes hrej
      · exact absurd hcwd hno
  · have hspawn (owner : ℕ) (f : Faults) (t : FdTable File) :
        c.spawn vars isFile owner f t = some (Process.spawn owner c.stdio f t) := by
      simp only [Command.spawn, hm]
    constructor
    · -- a spawn in which nothing fails forks
      intro hcareful
      obtain ⟨r, hr, himp⟩ := hcareful 0 .none ⟨[]⟩
      rw [hspawn] at hr
      cases hr
      obtain ⟨child, hchild⟩ := spawn_none_child 0 c.stdio ⟨[]⟩
      refine Or.inr ⟨fun henv => ?_, hcwd⟩
      have hnone := (himp (Or.inr (Or.inr (Or.inl henv)))).2
      rw [hchild] at hnone
      cases hnone
    · intro hright owner f t
      refine ⟨_, hspawn owner f t, fun hun => ?_⟩
      simp only [Command.Rejected, Command.Unpassable] at hrej hun hright
      tauto

/-- `/a`, with a path of its own. -/
def programA : Str := ⟨[47, 97], by decide⟩

/-- `b`, a NUL and `c`. -/
def withNul : Str := ⟨[98, 0, 99], by decide⟩

/-- A command whose working directory has a NUL. -/
def nulCwd : Command := { Command.new programA with cwd := some withNul }

/-- A command that sets a variable to a value with a NUL. -/
def nulEnv : Command := (Command.new programA).envCall (.env programA withNul)

/-- A NUL in the working directory is a panic, and in spite of a NUL in the environment a child is
made. -/
theorem marshal_nul :
    nulCwd.spawn ∅ (fun _ => true) 0 .none ⟨[]⟩ = none ∧
      nulEnv.Unpassable ∧
      ∃ r, nulEnv.spawn ∅ (fun _ => true) 0 .none ⟨[]⟩ = some r ∧ r.child ≠ none := by
  have hset : (programA, some withNul) ∈ nulEnv.envOps.toList := by
    rw [Std.ExtTreeMap.mem_toList_iff_getElem?_eq_some]
    exact Std.ExtTreeMap.getElem?_insert_self
  refine ⟨rfl, Or.inr (Or.inr (Or.inl ⟨_, _, hset, Or.inr (by decide)⟩)), ?_⟩
  obtain ⟨child, hchild⟩ := spawn_none_child 0 nulEnv.stdio ⟨[]⟩
  exact ⟨_, rfl, by rw [hchild]; simp⟩

end PureStd.Process
