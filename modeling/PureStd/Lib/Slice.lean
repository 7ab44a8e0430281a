/-
Checked access to slices.

An index outside a slice, or a range that does not lie inside it, ends the program.  Code
that indexes is written over `Checked`, where such an access is an outcome of its own, so
that a computation which returns is one whose accesses were all in range.
-/
import Mathlib.Tactic

namespace PureStd.Slice

/-- The accesses that end the program. -/
inductive Panic where
  | index (i len : ℕ)
  | range (lo hi len : ℕ)
  /-- A copy between slices of different lengths. -/
  | lengths (dst src : ℕ)
deriving DecidableEq, Repr

/-- A computation that may end the program. -/
abbrev Checked := Except Panic

variable {α : Type*} {s : List α} {lo hi : ℕ}

/-- The element at an index. -/
def index (s : List α) (i : ℕ) : Checked α :=
  match s[i]? with
  | some a => .ok a
  | none => .error (.index i s.length)

/-- The elements from `lo` up to `hi`. -/
def range (s : List α) (lo hi : ℕ) : Checked (List α) :=
  if lo ≤ hi ∧ hi ≤ s.length then .ok ((s.drop lo).take (hi - lo))
  else .error (.range lo hi s.length)

/-- Copy a slice over an array of `n` elements. -/
def copyArray (n : ℕ) (s : List α) : Checked (Vector α n) :=
  if h : s.length = n then .ok ⟨s.toArray, by simpa using h⟩ else .error (.lengths n s.length)

/-- Copy `src` over the elements from `lo` up to `hi`. -/
def copyFromSlice (s : List α) (lo hi : ℕ) (src : List α) :
    Checked {t : List α // t.length = s.length} :=
  if h : lo ≤ hi ∧ hi ≤ s.length then
    if h' : src.length = hi - lo then
      .ok ⟨s.take lo ++ src ++ s.drop hi, by
        simp only [List.length_append, List.length_take, List.length_drop]
        omega⟩
    else .error (.lengths (hi - lo) src.length)
  else .error (.range lo hi s.length)

lemma index_of_lt {i : ℕ} (h : i < s.length) : index s i = .ok s[i] := by
  rw [index, List.getElem?_eq_getElem h]

lemma index_of_le {i : ℕ} (h : s.length ≤ i) : index s i = .error (.index i s.length) := by
  rw [index, List.getElem?_eq_none h]

lemma range_of_le (h : lo ≤ hi) (h' : hi ≤ s.length) :
    range s lo hi = .ok ((s.drop lo).take (hi - lo)) :=
  if_pos ⟨h, h'⟩

lemma range_of_not_le (h : ¬ (lo ≤ hi ∧ hi ≤ s.length)) :
    range s lo hi = .error (.range lo hi s.length) :=
  if_neg h

lemma copyArray_of_length {n : ℕ} (h : s.length = n) :
    copyArray n s = .ok ⟨s.toArray, by simpa using h⟩ :=
  dif_pos h

lemma copyFromSlice_of_length {src : List α} (h : lo + src.length = hi) (h' : hi ≤ s.length) :
    ∃ hlen, copyFromSlice s lo hi src = .ok ⟨s.take lo ++ src ++ s.drop hi, hlen⟩ := by
  rw [copyFromSlice, dif_pos ⟨by omega, h'⟩, dif_pos (by omega)]
  exact ⟨_, rfl⟩

/-- A copy behind the end of what has been written. -/
lemma copyFromSlice_fill (done src : List α) (a : α) (gap rest : ℕ) {n : ℕ}
    (hlo : lo = done.length + gap) (hhi : hi = lo + src.length)
    (hn : n = gap + (src.length + rest)) :
    (copyFromSlice (done ++ List.replicate n a) lo hi src).map Subtype.val =
      .ok (done ++ List.replicate gap a ++ src ++ List.replicate rest a) := by
  have hsplit : done ++ List.replicate n a =
      done ++ List.replicate gap a ++ (List.replicate src.length a ++ List.replicate rest a) := by
    rw [List.replicate_append_replicate, List.append_assoc, List.replicate_append_replicate, hn]
  have hlength : (done ++ List.replicate gap a).length = lo := by
    rw [List.length_append, List.length_replicate, hlo]
  have hhi_le : hi ≤ (done ++ List.replicate n a).length := by
    rw [List.length_append, List.length_replicate]
    omega
  obtain ⟨_, hcopy⟩ := copyFromSlice_of_length hhi.symm hhi_le
  rw [hcopy]
  show Except.ok ((done ++ List.replicate n a).take lo ++ src ++
    (done ++ List.replicate n a).drop hi) = _
  rw [hsplit, List.take_left' hlength, ← List.append_assoc, List.drop_left']
  rw [List.length_append, hlength, List.length_replicate, hhi]

@[simp] lemma ok_bind {α β : Type} (a : α) (f : α → Checked β) :
    ((Except.ok a : Checked α) >>= f) = f a := rfl

@[simp] lemma pure_eq_ok (a : α) : (pure a : Checked α) = .ok a := rfl

/-- An index behind a prefix. -/
lemma index_append (pre s : List α) (i : ℕ) {a : α} (h : s[i]? = some a) :
    index (pre ++ s) (pre.length + i) = .ok a := by
  rw [index, List.getElem?_append_right (Nat.le_add_right _ _), Nat.add_sub_cancel_left, h]

end PureStd.Slice
