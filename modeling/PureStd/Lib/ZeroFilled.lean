/-
A list as an array of unbounded length whose cells behind the end are zero.

`pad` makes the list reach up to an index and `store` writes elements at an index, where
there may be a gap between the end of the list and the index.
-/
import Mathlib.Data.List.GetD
import Mathlib.Tactic

namespace PureStd.ZeroFilled

variable {α : Type*} [Zero α] {l : List α} {m n : ℕ}

/-- Append zeros up to the index `n`. -/
def pad (l : List α) (n : ℕ) : List α := l ++ List.replicate (n - l.length) 0

lemma length_pad (l : List α) (n : ℕ) : (pad l n).length = max l.length n := by
  rw [pad, List.length_append, List.length_replicate]
  omega

lemma pad_of_le (h : n ≤ l.length) : pad l n = l := by
  rw [pad, Nat.sub_eq_zero_of_le h, List.replicate_zero, List.append_nil]

lemma pad_pad (l : List α) (h : m ≤ n) : pad (pad l m) n = pad l n := by
  rw [pad, length_pad, pad, pad, List.append_assoc, List.replicate_append_replicate]
  congr 2
  omega

/-- The cells are the same. -/
lemma getD_pad (l : List α) (n i : ℕ) : (pad l n).getD i 0 = l.getD i 0 := by
  rw [pad]
  rcases Nat.lt_or_ge i l.length with hlt | hge
  · rw [List.getD_append _ _ _ _ hlt]
  · rw [List.getD_append_right _ _ _ _ hge, List.getD_eq_default _ _ hge,
      List.getD_eq_getElem?_getD, List.getElem?_getD_replicate_default_eq]

/-- Write `xs` from the index `p` on. -/
def store (l : List α) (p : ℕ) (xs : List α) : List α :=
  let padded := pad l (p + xs.length)
  padded.take p ++ xs ++ padded.drop (p + xs.length)

lemma length_store (l : List α) (p : ℕ) (xs : List α) :
    (store l p xs).length = max l.length (p + xs.length) := by
  simp only [store, List.length_append, List.length_take, List.length_drop, length_pad]
  omega

/-- What is stored at the end is appended. -/
lemma store_length (l xs : List α) : store l l.length xs = l ++ xs := by
  rw [store, pad]
  simp

/-- The cells from `p` on are those of `xs`; the others are the same. -/
lemma getD_store (l : List α) (p : ℕ) (xs : List α) (i : ℕ) :
    (store l p xs).getD i 0 =
      if p ≤ i ∧ i < p + xs.length then xs.getD (i - p) 0 else l.getD i 0 := by
  have hlen : (pad l (p + xs.length)).length = max l.length (p + xs.length) := length_pad _ _
  have htake : ((pad l (p + xs.length)).take p).length = p := by
    rw [List.length_take]
    omega
  rw [← getD_pad l (p + xs.length) i, store, List.append_assoc]
  split_ifs with hi
  · rw [List.getD_append_right _ _ _ _ (by omega), htake, List.getD_append _ _ _ _ (by omega)]
  · rcases Nat.lt_or_ge i p with hlt | hge
    · rw [List.getD_append _ _ _ _ (by omega)]
      simp [List.getD_eq_getElem?_getD, hlt]
    · rw [List.getD_append_right _ _ _ _ (by omega), htake,
        List.getD_append_right _ _ _ _ (by omega)]
      simp only [List.getD_eq_getElem?_getD, List.getElem?_drop]
      congr 2
      omega

end PureStd.ZeroFilled
