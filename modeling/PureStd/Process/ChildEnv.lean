/-
The environment of a child against the calls that were made for it, and against what the
child reads from the block.

Applying the calls one after the other and replaying what was recorded of them give the same
value for every key but those whose last call set them before an `env_clear`: the flag does
not touch what is recorded.  And a block is read back as the map that it was built from
unless a key contains the separator.
-/
import PureStd.Process.Command

namespace PureStd.Process

open Utf8 Env

/-! ### The calls, applied in order -/

/-- What a call does to an environment. -/
def applyCall (m : EnvMap) : EnvCall → EnvMap
  | .env k v => m.insert k v
  | .envRemove k => m.erase k
  | .envClear => ∅

/-- The environment that the calls ask for. -/
def applyCalls (vars : EnvMap) (calls : List EnvCall) : EnvMap := calls.foldl applyCall vars

/-- The command after the calls. -/
def record (program : Str) (calls : List EnvCall) : Command :=
  calls.foldl Command.envCall (Command.new program)

/-- The last call about `k` sets it to `v`. -/
def LastSet (calls : List EnvCall) (k v : Str) : Prop :=
  ∃ pre post, calls = pre ++ .env k v :: post ∧ ∀ c ∈ post, c.key ≠ some k

/-- The last call about `k` sets it to `v`, and an `env_clear` comes later. -/
def OutlivesClear (calls : List EnvCall) (k v : Str) : Prop :=
  ∃ pre post, calls = pre ++ .env k v :: post ∧ (∀ c ∈ post, c.key ≠ some k) ∧ .envClear ∈ post

variable {calls : List EnvCall} {k v : Str}

lemma OutlivesClear.lastSet (h : OutlivesClear calls k v) : LastSet calls k v := by
  obtain ⟨pre, post, hcalls, hpost, -⟩ := h
  exact ⟨pre, post, hcalls, hpost⟩

/-- Where an element of a list with one more at its end can stand. -/
lemma concat_eq_append_cons {α : Type} {l pre post : List α} {c a : α}
    (h : l ++ [c] = pre ++ a :: post) :
    (post = [] ∧ c = a) ∨ ∃ post', post = post' ++ [c] ∧ l = pre ++ a :: post' := by
  rcases List.eq_nil_or_concat post with rfl | ⟨post', c', rfl⟩
  · exact Or.inl ⟨rfl, List.singleton_inj.1 (List.append_inj' h rfl).2⟩
  · rw [List.concat_eq_append, ← List.cons_append, ← List.append_assoc] at h
    obtain ⟨hl, hc⟩ := List.append_inj' h rfl
    obtain rfl := List.singleton_inj.1 hc
    exact Or.inr ⟨post', List.concat_eq_append, hl⟩

lemma lastSet_concat (c : EnvCall) :
    LastSet (calls ++ [c]) k v ↔ c = .env k v ∨ (c.key ≠ some k ∧ LastSet calls k v) := by
  constructor
  · rintro ⟨pre, post, heq, hpost⟩
    obtain ⟨-, rfl⟩ | ⟨post', rfl, hcalls⟩ := concat_eq_append_cons heq
    · exact Or.inl rfl
    · rw [List.forall_mem_append] at hpost
      exact Or.inr ⟨hpost.2 c (by simp), pre, post', hcalls, hpost.1⟩
  · rintro (rfl | ⟨hkey, pre, post, rfl, hpost⟩)
    · exact ⟨calls, [], rfl, by simp⟩
    · exact ⟨pre, post ++ [c], by simp, List.forall_mem_append.2 ⟨hpost, by simpa using hkey⟩⟩

lemma outlivesClear_concat (c : EnvCall) :
    OutlivesClear (calls ++ [c]) k v ↔
      c.key ≠ some k ∧ (OutlivesClear calls k v ∨ (c = .envClear ∧ LastSet calls k v)) := by
  constructor
  · rintro ⟨pre, post, heq, hpost, hclear⟩
    obtain ⟨rfl, -⟩ | ⟨post', rfl, hcalls⟩ := concat_eq_append_cons heq
    · cases hclear
    · rw [List.forall_mem_append] at hpost
      refine ⟨hpost.2 c (by simp), ?_⟩
      rcases List.mem_append.1 hclear with hold | hnew
      · exact Or.inl ⟨pre, post', hcalls, hpost.1, hold⟩
      · exact Or.inr ⟨(List.mem_singleton.1 hnew).symm, pre, post', hcalls, hpost.1⟩
  · rintro ⟨hkey, ⟨pre, post, rfl, hpost, hclear⟩ | ⟨rfl, pre, post, rfl, hpost⟩⟩
    · exact ⟨pre, post ++ [c], by simp, List.forall_mem_append.2 ⟨hpost, by simpa using hkey⟩,
        by simp [hclear]⟩
    · exact ⟨pre, post ++ [.envClear], by simp,
        List.forall_mem_append.2 ⟨hpost, by simpa using hkey⟩, by simp⟩

/-! ### Replay against application -/

lemma record_concat (program : Str) (c : EnvCall) :
    record program (calls ++ [c]) = (record program calls).envCall c := by
  rw [record, List.foldl_append]
  rfl

lemma applyCalls_concat (vars : EnvMap) (c : EnvCall) :
    applyCalls vars (calls ++ [c]) = applyCall (applyCalls vars calls) c := by
  rw [applyCalls, List.foldl_append]
  rfl

lemma get_envOps_insert (c : Command) (o : Option Str) (k k' : Str) :
    (c.envOps.insert k o)[k']? = if k = k' then some o else c.envOps[k']? := by
  rw [Std.ExtTreeMap.getElem?_insert]
  simp only [Std.compare_eq_iff_eq]

/-- The recorded operation on a key that is set is the last call about it. -/
lemma record_get_some_iff (program : Str) (calls : List EnvCall) (k v : Str) :
    (record program calls).envOps[k]? = some (some v) ↔ LastSet calls k v := by
  induction calls using List.reverseRecOn with
  | nil =>
    constructor
    · intro h
      rw [record, List.foldl_nil, Command.new, Std.ExtTreeMap.getElem?_empty] at h
      cases h
    · rintro ⟨pre, post, heq, -⟩
      simp at heq
  | append_singleton calls c ih =>
    rw [record_concat, lastSet_concat, ← ih]
    cases c with
    | env k' | envRemove k' =>
      rw [Command.envCall, get_envOps_insert]
      by_cases hk : k' = k <;> simp [hk, EnvCall.key, EnvCall.op]
    | envClear => simp [Command.envCall, EnvCall.key, EnvCall.op]

lemma childEnv_get_envCall (c : Command) (vars : EnvMap) {call : EnvCall} {k' : Str}
    {o : Option Str} (h : call.op = some (k', o)) (k : Str) :
    ((c.envCall call).childEnv vars)[k]? = if k' = k then o else (c.childEnv vars)[k]? := by
  cases call with
  | env | envRemove =>
    cases h
    rw [Command.childEnv_get, Command.childEnv_get, Command.envCall, get_envOps_insert]
    by_cases hk : k' = k <;> simp [hk]
  | envClear => cases h

lemma applyCall_get (m : EnvMap) {call : EnvCall} {k' : Str} {o : Option Str}
    (h : call.op = some (k', o)) (k : Str) :
    (applyCall m call)[k]? = if k' = k then o else m[k]? := by
  cases call with
  | env k₁ v₁ =>
    cases h
    exact get_applyOp (some v₁)
  | envRemove k₁ =>
    cases h
    exact get_applyOp none
  | envClear => cases h

/-- After an `env_clear` a child has what is recorded to be set, and nothing else. -/
lemma childEnv_get_envClear (c : Command) (vars : EnvMap) (k v : Str) :
    ((c.envCall .envClear).childEnv vars)[k]? = some v ↔ c.envOps[k]? = some (some v) := by
  rw [Command.childEnv_get, Command.envCall]
  cases c.envOps[k]? with
  | none => simp
  | some o => simp

/-- A child gets what the calls ask for, but for the keys that were set before an `env_clear`:
the calls ask for no such key, and the child has it. -/
lemma replay_get (program : Str) (vars : EnvMap) (calls : List EnvCall) (k : Str) :
    (∀ v, OutlivesClear calls k v →
      ((record program calls).childEnv vars)[k]? = some v ∧ (applyCalls vars calls)[k]? = none) ∧
    ((∀ v, ¬ OutlivesClear calls k v) →
      ((record program calls).childEnv vars)[k]? = (applyCalls vars calls)[k]?) := by
  induction calls using List.reverseRecOn with
  | nil =>
    refine ⟨?_, ?_⟩
    · rintro v ⟨pre, post, heq, -⟩
      simp at heq
    · intro _
      rw [Command.childEnv_get, record, List.foldl_nil, Command.new,
        Std.ExtTreeMap.getElem?_empty]
      rfl
  | append_singleton calls c ih =>
    simp only [record_concat, applyCalls_concat, outlivesClear_concat]
    cases hop : c.op with
    | some e =>
      obtain ⟨k', o⟩ := e
      have hkey : c.key = some k' := by rw [EnvCall.key, hop]; rfl
      have hne : c ≠ .envClear := by rintro rfl; cases hop
      simp only [childEnv_get_envCall _ _ hop, applyCall_get _ hop, hkey, hne, false_and,
        or_false, ne_eq, Option.some.injEq]
      by_cases hk : k' = k
      · simp [hk]
      · simpa [hk] using ih
    | none =>
      have hc : c = .envClear := by cases c <;> first | rfl | cases hop
      subst hc
      have hspec : (applyCall (applyCalls vars calls) .envClear)[k]? = none :=
        Std.ExtTreeMap.getElem?_empty
      have hiff (v : Str) : ((EnvCall.envClear.key ≠ some k) ∧
          (OutlivesClear calls k v ∨ (EnvCall.envClear = .envClear ∧ LastSet calls k v))) ↔
          (((record program calls).envCall .envClear).childEnv vars)[k]? = some v := by
        rw [childEnv_get_envClear, record_get_some_iff]
        constructor
        · rintro ⟨-, hout | ⟨-, hlast⟩⟩
          · exact hout.lastSet
          · exact hlast
        · exact fun hlast => ⟨by simp [EnvCall.key, EnvCall.op], Or.inr ⟨rfl, hlast⟩⟩
      refine ⟨fun v hv => ⟨(hiff v).1 hv, hspec⟩, fun h => ?_⟩
      rw [hspec]
      exact Option.eq_none_iff_forall_ne_some.2 fun v hv => h v ((hiff v).2 hv)

/-- What the calls ask for, the child has. -/
lemma childEnv_of_applyCalls {vars : EnvMap} (program : Str)
    (h : (applyCalls vars calls)[k]? = some v) :
    ((record program calls).childEnv vars)[k]? = some v := by
  obtain ⟨hout, hagree⟩ := replay_get program vars calls k
  by_cases hex : ∃ v', OutlivesClear calls k v'
  · obtain ⟨v', hv'⟩ := hex
    rw [(hout v' hv').2] at h
    cases h
  · rw [hagree (not_exists.1 hex), h]

/-! ### The block -/

/-- Neither the key nor the value contains a NUL byte. -/
def NulFree (e : Str × Str) : Prop := 0 ∉ e.1.bytes ∧ 0 ∉ e.2.bytes

instance (e : Str × Str) : Decidable (NulFree e) := inferInstanceAs (Decidable (_ ∧ _))

lemma nulFree_iff (e : Str × Str) : NulFree e ↔ 0 ∉ entryBytes e := by
  have heq : (0 : UInt8) ≠ eqSign := by decide
  rw [NulFree, entryBytes, List.mem_append, List.mem_cons]
  tauto

/-- The entries that can be passed on. -/
def encodable (m : EnvMap) : EnvMap := m.filter fun k v => decide (NulFree (k, v))

lemma encodable_get (m : EnvMap) (k v : Str) :
    (encodable m)[k]? = some v ↔ m[k]? = some v ∧ NulFree (k, v) := by
  rw [encodable, Std.ExtTreeMap.getElem?_filter', Option.filter_eq_some_iff]
  simp

/-- `build_env` encodes the entries that can be passed on, in the order of their keys, and
drops the others. -/
lemma buildEnv_bytes (c : Command) (vars : EnvMap) :
    (c.buildEnv vars).map CString.bytes = (encodable (c.childEnv vars)).toList.map entryBytes := by
  have hnew (e : Str × Str) : (CString.new (entryBytes e)).map CString.bytes =
      if NulFree e then some (entryBytes e) else none := by
    rw [CString.new]
    by_cases h : NulFree e
    · rw [if_pos h, dif_neg ((nulFree_iff e).1 h)]
      rfl
    · rw [if_neg h, dif_pos (not_not.1 (mt (nulFree_iff e).2 h))]
      rfl
  rw [Command.buildEnv, encodable, Std.ExtTreeMap.toList_filter, List.map_filterMap]
  simp only [hnew]
  induction (c.childEnv vars).toList with
  | nil => rfl
  | cons e es ih =>
    by_cases h : NulFree e
    · simp [h, ih]
    · simp [h, ih]

/-- `build_env` produces what the calls ask for if and only if that has no NUL byte and no
call of `env` outlives an `env_clear`, save for one that cannot be passed on. -/
theorem buildEnv_applies_iff (program : Str) (vars : EnvMap) (calls : List EnvCall) :
    ((record program calls).buildEnv vars).map CString.bytes =
        (applyCalls vars calls).toList.map entryBytes ↔
      (∀ e ∈ (applyCalls vars calls).toList, NulFree e) ∧
        ∀ k v, OutlivesClear calls k v → ¬ NulFree (k, v) := by
  rw [buildEnv_bytes]
  constructor
  · intro heq
    have hnul : ∀ e ∈ (applyCalls vars calls).toList, NulFree e := by
      intro e he
      have hmem : entryBytes e ∈ (applyCalls vars calls).toList.map entryBytes :=
        List.mem_map_of_mem he
      rw [← heq] at hmem
      obtain ⟨⟨k', v'⟩, he', hbytes⟩ := List.mem_map.1 hmem
      rw [Std.ExtTreeMap.mem_toList_iff_getElem?_eq_some, encodable_get] at he'
      rw [nulFree_iff, ← hbytes, ← nulFree_iff]
      exact he'.2
    refine ⟨hnul, ?_⟩
    intro k v hout hfree
    -- both maps have the same number of entries, and the one contains the other
    have hsub : (applyCalls vars calls).toList ⊆
        (encodable ((record program calls).childEnv vars)).toList := by
      rintro ⟨k', v'⟩ he
      have hget := Std.ExtTreeMap.mem_toList_iff_getElem?_eq_some.1 he
      rw [Std.ExtTreeMap.mem_toList_iff_getElem?_eq_some, encodable_get]
      exact ⟨childEnv_of_applyCalls program hget, hnul _ he⟩
    have hlen := congrArg List.length heq
    rw [List.length_map, List.length_map] at hlen
    have hnodup : (applyCalls vars calls).toList.Nodup :=
      (toList_distinct _).imp fun h h' => h (by rw [h'])
    have hperm := (hnodup.subperm hsub).perm_of_length_le hlen.le
    obtain ⟨hchild, hspec⟩ := (replay_get program vars calls k).1 v hout
    have hin : (k, v) ∈ (encodable ((record program calls).childEnv vars)).toList :=
      Std.ExtTreeMap.mem_toList_iff_getElem?_eq_some.2 ((encodable_get _ k v).2 ⟨hchild, hfree⟩)
    have hget := Std.ExtTreeMap.mem_toList_iff_getElem?_eq_some.1 (hperm.symm.mem_iff.1 hin)
    rw [hspec] at hget
    cases hget
  · rintro ⟨hnul, hout⟩
    have hmap : encodable ((record program calls).childEnv vars) = applyCalls vars calls := by
      refine Std.ExtTreeMap.ext_getElem? fun k => Option.ext fun v => ?_
      rw [encodable_get]
      constructor
      · rintro ⟨hchild, hfree⟩
        have hnone : ∀ v', ¬ OutlivesClear calls k v' := by
          intro v' hv'
          have heq := (replay_get program vars calls k).1 v' hv'
          rw [hchild] at heq
          obtain rfl := Option.some.inj heq.1
          exact hout k v hv' hfree
        rw [← (replay_get program vars calls k).2 hnone, hchild]
      · intro hget
        exact ⟨childEnv_of_applyCalls program hget,
          hnul _ (Std.ExtTreeMap.mem_toList_iff_getElem?_eq_some.2 hget)⟩
    rw [hmap]

/-- The strings `A`, `1`, `A=B` and `B=1` of the two runs below. -/
def nameA : Str := ⟨[65], by decide⟩

@[inherit_doc nameA]
def one : Str := ⟨[49], by decide⟩

@[inherit_doc nameA]
def nameAB : Str := ⟨[65, 61, 66], by decide⟩

@[inherit_doc nameA]
def valueB : Str := ⟨[66, 61, 49], by decide⟩

/-- `env("A", "1")` and then `env_clear()`: the calls ask for an empty environment and the child
gets `A=1`. -/
theorem env_outlives_clear :
    ((record nameA [.env nameA one, .envClear]).buildEnv ∅).map CString.bytes = [[65, 61, 49]] ∧
    (applyCalls ∅ [.env nameA one, .envClear]).toList.map entryBytes = [] ∧
    ((record nameA [.env nameA one, .envClear]).buildEnv ∅).map CString.bytes ≠
      (applyCalls ∅ [.env nameA one, .envClear]).toList.map entryBytes := by
  decide

/-! ### The block, read back -/

/-- The entries of a map, inserted one after the other, give the map. -/
lemma foldl_insert_toList (m : EnvMap) :
    m.toList.foldl (fun m' e => m'.insert e.1 e.2) ∅ = m := by
  have hops : m.toList.foldl (fun m' e => m'.insert e.1 e.2) ∅ =
      (m.toList.map fun e => (e.1, some e.2)).foldl Command.applyOp ∅ := by
    rw [List.foldl_map]
    rfl
  rw [hops]
  refine Std.ExtTreeMap.ext_getElem? fun k => ?_
  cases hget : m[k]? with
  | some v =>
    refine get_foldl_applyOp_of_mem _ ?_ ?_
    · rw [List.pairwise_map]
      exact toList_distinct m
    · exact List.mem_map.2 ⟨(k, v), Std.ExtTreeMap.mem_toList_iff_getElem?_eq_some.2 hget, rfl⟩
  | none =>
    rw [get_foldl_applyOp_of_not_mem, Std.ExtTreeMap.getElem?_empty]
    rintro e he rfl
    obtain ⟨⟨k', v'⟩, hmem, rfl⟩ := List.mem_map.1 he
    rw [Std.ExtTreeMap.mem_toList_iff_getElem?_eq_some, hget] at hmem
    cases hmem

/-- A child whose environment has no NUL byte reads from its block exactly the map that the
block was built from if and only if no key of it contains `=`. -/
theorem envMap_buildEnv_iff (c : Command) (vars : EnvMap)
    (hnul : ∀ e ∈ (c.childEnv vars).toList, NulFree e) :
    envMap (c.buildEnv vars) = c.childEnv vars ↔
      ∀ e ∈ (c.childEnv vars).toList, eqSign ∉ e.1.bytes := by
  constructor
  · rintro heq ⟨k, v⟩ he
    have hget := Std.ExtTreeMap.mem_toList_iff_getElem?_eq_some.1 he
    refine envMap_key (c.buildEnv vars) k ?_
    rw [heq]
    exact Std.ExtTreeMap.mem_iff_isSome_getElem?.2 (by rw [hget]; rfl)
  · intro hkey
    rw [envMap, Command.buildEnv]
    conv_rhs => rw [← foldl_insert_toList (c.childEnv vars)]
    generalize (∅ : EnvMap) = m
    generalize (c.childEnv vars).toList = es at hnul hkey
    induction es generalizing m with
    | nil => rfl
    | cons e es ih =>
      have hfree := (nulFree_iff e).1 (hnul e List.mem_cons_self)
      have hsplit := splitEntry_append (v := e.2) (hkey e List.mem_cons_self)
      have hnew : CString.new (entryBytes e) = some ⟨entryBytes e, hfree⟩ := dif_neg hfree
      have hins : insertEntry m ⟨entryBytes e, hfree⟩ = m.insert e.1 e.2 := by
        simp only [insertEntry, entryBytes, hsplit]
      rw [List.filterMap_cons]
      simp only [hnew, List.foldl_cons, hins]
      exact ih _ (fun e' he' => hnul e' (List.mem_cons_of_mem _ he'))
        fun e' he' => hkey e' (List.mem_cons_of_mem _ he')

/-- An environment where `A` is set to `1`, and `A=B` was set and removed again. -/
theorem envMap_buildEnv_nameA :
    envMap ((Command.new nameA).buildEnv
        (removeVar (setVar (setVar ∅ nameA one) nameAB one) nameAB)) =
      (Command.new nameA).childEnv (removeVar (setVar (setVar ∅ nameA one) nameAB one) nameAB) :=
  (envMap_buildEnv_iff (Command.new nameA)
    (removeVar (setVar (setVar ∅ nameA one) nameAB one) nameAB) (by decide)).2 (by decide)

/-- After `set_var("A=B", "1")` a child that inherits the environment reads the value `B=1` for
`A`. -/
theorem key_with_separator_is_cut :
    (∀ e ∈ ((Command.new nameA).childEnv (setVar ∅ nameAB one)).toList, NulFree e) ∧
    ((Command.new nameA).childEnv (setVar ∅ nameAB one)).toList = [(nameAB, one)] ∧
    (envMap ((Command.new nameA).buildEnv (setVar ∅ nameAB one))).toList = [(nameA, valueB)] ∧
    envMap ((Command.new nameA).buildEnv (setVar ∅ nameAB one)) ≠
      (Command.new nameA).childEnv (setVar ∅ nameAB one) := by
  have hread : (envMap ((Command.new nameA).buildEnv (setVar ∅ nameAB one))).toList =
      [(nameA, valueB)] := by decide
  have hmap : ((Command.new nameA).childEnv (setVar ∅ nameAB one)).toList = [(nameAB, one)] := by
    decide
  refine ⟨by decide, hmap, hread, ?_⟩
  intro heq
  rw [heq, hmap] at hread
  exact absurd hread (by decide)

end PureStd.Process
