/-
`Command` of `src/process.rs` and the environment that it builds for a child.

The calls of `env`, `env_remove` and `env_clear` are recorded in two places, a sorted map
with the last operation on each key and a flag, and replayed over the parent's environment
when a child is spawned.  `applyCall` is what the calls are for: each acts on the
environment as it is called.
-/
import PureStd.Env

namespace PureStd.Process

open Utf8 Env

/-- `StdioKind`. -/
inductive StdioKind where
  | inherit
  | null
  | piped
deriving DecidableEq, Repr

instance : Fintype StdioKind where
  elems := {.inherit, .null, .piped}
  complete k := by cases k <;> decide

structure Command where
  program : Str
  args : List Str
  envOps : Std.ExtTreeMap Str (Option Str)
  envClear : Bool
  cwd : Option Str
  stdin : StdioKind
  stdout : StdioKind
  stderr : StdioKind

namespace Command

/-- `Command::new`. -/
def new (program : Str) : Command :=
  ⟨program, [], ∅, false, none, .inherit, .inherit, .inherit⟩

end Command

/-- The calls that concern the environment. -/
inductive EnvCall where
  | env (key val : Str)
  | envRemove (key : Str)
  | envClear
deriving DecidableEq

/-- The key that a call is about and the value it gives it. -/
def EnvCall.op : EnvCall → Option (Str × Option Str)
  | .env k v => some (k, some v)
  | .envRemove k => some (k, none)
  | .envClear => none

/-- The key that a call is about. -/
def EnvCall.key (c : EnvCall) : Option Str := c.op.map Prod.fst

namespace Command

/-- `env`, `env_remove` and `env_clear`. -/
def envCall (c : Command) : EnvCall → Command
  | .env k v => { c with envOps := c.envOps.insert k (some v) }
  | .envRemove k => { c with envOps := c.envOps.insert k none }
  | .envClear => { c with envClear := true }

/-- An operation of `env_ops` on the map of `build_env`. -/
def applyOp (m : EnvMap) : Str × Option Str → EnvMap
  | (k, some v) => m.insert k v
  | (k, none) => m.erase k

/-- The map of `build_env`, over the parent's environment. -/
def childEnv (c : Command) (vars : EnvMap) : EnvMap :=
  c.envOps.toList.foldl applyOp (if c.envClear then ∅ else vars)

end Command

/-- `k`, `=` and `v`, one behind the other. -/
def entryBytes (e : Str × Str) : List UInt8 := e.1.bytes ++ eqSign :: e.2.bytes

/-- `build_env`. -/
def Command.buildEnv (c : Command) (vars : EnvMap) : List CString :=
  (c.childEnv vars).toList.filterMap fun e => CString.new (entryBytes e)

/-! ### What the map holds -/

section Get

variable {m : EnvMap} {k k' : Str} {v : Str}

lemma get_insert : (m.insert k v)[k']? = if k = k' then some v else m[k']? := by
  rw [Std.ExtTreeMap.getElem?_insert]
  simp only [Std.compare_eq_iff_eq]

lemma get_applyOp (o : Option Str) :
    (Command.applyOp m (k, o))[k']? = if k = k' then o else m[k']? := by
  cases o with
  | none =>
    rw [Command.applyOp, Std.ExtTreeMap.getElem?_erase]
    simp only [Std.compare_eq_iff_eq]
  | some v => exact get_insert

/-- A key without operation keeps its value. -/
lemma get_foldl_applyOp_of_not_mem (ops : List (Str × Option Str)) (h : ∀ e ∈ ops, e.1 ≠ k) :
    (ops.foldl Command.applyOp m)[k]? = m[k]? := by
  induction ops generalizing m with
  | nil => rfl
  | cons e ops ih =>
    have hne : e.1 ≠ k := h e List.mem_cons_self
    rw [List.foldl_cons, ih fun e' he' => h e' (List.mem_cons_of_mem _ he'), get_applyOp,
      if_neg hne]

/-- With one operation for each key, the operation on a key decides its value. -/
lemma get_foldl_applyOp_of_mem (ops : List (Str × Option Str)) {o : Option Str}
    (hops : ops.Pairwise fun a b => a.1 ≠ b.1) (h : (k, o) ∈ ops) :
    (ops.foldl Command.applyOp m)[k]? = o := by
  induction ops generalizing m with
  | nil => cases h
  | cons e ops ih =>
    obtain ⟨hhead, htail⟩ := List.pairwise_cons.1 hops
    rw [List.foldl_cons]
    rcases List.mem_cons.1 h with rfl | hmem
    · rw [get_foldl_applyOp_of_not_mem ops fun e' he' => (hhead e' he').symm, get_applyOp,
        if_pos rfl]
    · exact ih htail hmem

end Get

lemma toList_distinct {β : Type} (t : Std.ExtTreeMap Str β) :
    t.toList.Pairwise fun a b => a.1 ≠ b.1 :=
  Std.ExtTreeMap.distinct_keys_toList.imp fun h => by
    simpa only [Std.compare_eq_iff_eq] using h

/-- A key of the child's environment: its last operation, or what was inherited. -/
lemma Command.childEnv_get (c : Command) (vars : EnvMap) (k : Str) :
    (c.childEnv vars)[k]? = match c.envOps[k]? with
      | some o => o
      | none => if c.envClear then none else vars[k]? := by
  rw [childEnv]
  cases hop : c.envOps[k]? with
  | some o =>
    exact get_foldl_applyOp_of_mem _ (toList_distinct _)
      (Std.ExtTreeMap.mem_toList_iff_getElem?_eq_some.2 hop)
  | none =>
    rw [get_foldl_applyOp_of_not_mem]
    · simp only
      split
      · exact Std.ExtTreeMap.getElem?_empty
      · rfl
    · rintro ⟨k', o⟩ hmem rfl
      rw [Std.ExtTreeMap.mem_toList_iff_getElem?_eq_some, hop] at hmem
      cases hmem

end PureStd.Process
