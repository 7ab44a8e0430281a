/-
The environment of a process, `src/env.rs`.

The environment arrives as a block of strings `KEY=VALUE` and is kept as a sorted map from
keys to values, which `set_var` and `remove_var` change.  A `BTreeMap` is the extensional
tree map of the standard library.
-/
import PureStd.Lib.Utf8

namespace PureStd.Env

open Utf8

/-- The bytes of `=`. -/
def eqSign : UInt8 := 61

/-- `CString`: bytes without NUL. -/
structure CString where
  bytes : List UInt8
  no_nul : 0 ∉ bytes
deriving DecidableEq

/-- `CString::new(..).ok()`. -/
def CString.new (bs : List UInt8) : Option CString :=
  if h : 0 ∈ bs then none else some ⟨bs, h⟩

/-- `BTreeMap<String, String>`. -/
abbrev EnvMap := Std.ExtTreeMap Str Str

/-- The key and the value of an entry of the block; an entry without `=` is none. -/
def splitEntry (bytes : List UInt8) : Option (Str × Str) :=
  (bytes.findIdx? (· == eqSign)).map fun eq =>
    (.fromUtf8Lossy (bytes.take eq), .fromUtf8Lossy (bytes.drop (eq + 1)))

/-- The loop body of `env_map`. -/
def insertEntry (m : EnvMap) (entry : CString) : EnvMap :=
  match splitEntry entry.bytes with
  | some (k, v) => m.insert k v
  | none => m

/-- `env_map`: the map read from the block. -/
def envMap (envp : List CString) : EnvMap := envp.foldl insertEntry ∅

/-- `set_var`. -/
def setVar (m : EnvMap) (key value : Str) : EnvMap := m.insert key value

/-- `remove_var`. -/
def removeVar (m : EnvMap) (key : Str) : EnvMap := m.erase key

/-! ### Entries of the block -/

/-- A key without `=` and a value are read back from their entry. -/
lemma splitEntry_append {k v : Str} (hk : eqSign ∉ k.bytes) :
    splitEntry (k.bytes ++ eqSign :: v.bytes) = some (k, v) := by
  have hidx : (k.bytes ++ eqSign :: v.bytes).findIdx? (· == eqSign) = some k.bytes.length := by
    rw [List.findIdx?_append, List.findIdx?_eq_none_iff.2]
    · simp [List.findIdx?_cons]
    · intro x hx
      rw [beq_eq_false_iff_ne]
      rintro rfl
      exact hk hx
  have hkey : (k.bytes ++ eqSign :: v.bytes).take k.bytes.length = k.bytes := List.take_left
  have hval : (k.bytes ++ eqSign :: v.bytes).drop (k.bytes.length + 1) = v.bytes := by simp
  rw [splitEntry, hidx, Option.map_some, hkey, hval, Str.fromUtf8Lossy_bytes,
    Str.fromUtf8Lossy_bytes]

/-- No key that is read from a block contains `=`. -/
lemma splitEntry_key {bytes : List UInt8} {k v : Str} (h : splitEntry bytes = some (k, v)) :
    eqSign ∉ k.bytes := by
  obtain ⟨eq, hidx, hkv⟩ := Option.map_eq_some_iff.1 h
  obtain ⟨heq, -, hbefore⟩ := List.findIdx?_eq_some_iff_getElem.1 hidx
  obtain ⟨rfl, -⟩ := Prod.mk.inj hkv
  intro hmem
  rcases mem_lossy hmem with hin | hrep
  · obtain ⟨i, hi, hget⟩ := List.getElem_of_mem hin
    rw [List.length_take] at hi
    rw [List.getElem_take] at hget
    exact hbefore i (by omega) (by simp [hget])
  · exact absurd hrep (by decide)

lemma insertEntry_key {m : EnvMap} {entry : CString} (hm : ∀ k ∈ m, eqSign ∉ k.bytes) :
    ∀ k ∈ insertEntry m entry, eqSign ∉ k.bytes := by
  intro k hk
  rw [insertEntry] at hk
  split at hk
  · rename_i k' v' hsplit
    rcases Std.ExtTreeMap.mem_insert.1 hk with heq | hold
    · obtain rfl := Std.LawfulEqOrd.eq_of_compare heq
      exact splitEntry_key hsplit
    · exact hm k hold
  · exact hm k hk

/-- No key of an environment that came in a block contains `=`. -/
lemma envMap_key (envp : List CString) : ∀ k ∈ envMap envp, eqSign ∉ k.bytes := by
  suffices h : ∀ m : EnvMap, (∀ k ∈ m, eqSign ∉ k.bytes) →
      ∀ k ∈ envp.foldl insertEntry m, eqSign ∉ k.bytes from
    h ∅ fun k hk => absurd hk Std.ExtTreeMap.not_mem_empty
  induction envp with
  | nil => exact fun m hm => hm
  | cons entry envp ih => exact fun m hm => ih _ (insertEntry_key hm)

end PureStd.Env
