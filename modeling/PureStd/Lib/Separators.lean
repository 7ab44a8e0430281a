/-
Lists cut at a separator.

`splitOn a` cuts a list at every `a`.  A list of cuts is an initial part of the cuts of
another list exactly if the other list goes on after it with a separator or not at all
(`splitOn_prefix_iff`), and likewise for the final parts (`splitOn_suffix_iff`).  `upTo a` is
the list as far as its first `a`, and `rsplitOnce a` cuts it at the last one.  `trimEnds a b` takes
the `a`s from its front and the `b`s from its end.
-/
import Mathlib.Data.List.DropRight
import Mathlib.Tactic

namespace PureStd.Separators

variable {α : Type*}

lemma intercalate_append {a : α} {l m : List (List α)} (hl : l ≠ []) (hm : m ≠ []) :
    [a].intercalate (l ++ m) = [a].intercalate l ++ a :: [a].intercalate m := by
  induction l with
  | nil => exact absurd rfl hl
  | cons first l ih =>
    rw [List.cons_append, List.intercalate_cons_of_ne_nil (by simp [hm])]
    by_cases hnil : l = []
    · simp [hnil]
    · rw [ih hnil, List.intercalate_cons_of_ne_nil hnil]
      simp

lemma eq_or_mem_of_mem_intercalate {a c : α} {l : List (List α)} (h : c ∈ [a].intercalate l) :
    c = a ∨ ∃ x ∈ l, c ∈ x := by
  induction l with
  | nil => exact absurd h List.not_mem_nil
  | cons first l ih =>
    by_cases hnil : l = []
    · subst hnil
      exact Or.inr ⟨first, List.mem_cons_self, by simpa using h⟩
    · rw [List.intercalate_cons_of_ne_nil hnil, List.append_assoc, List.mem_append,
        List.mem_append, List.mem_singleton] at h
      rcases h with hfirst | rfl | hrest
      · exact Or.inr ⟨first, List.mem_cons_self, hfirst⟩
      · exact Or.inl rfl
      · refine (ih hrest).imp_right ?_
        rintro ⟨x, hx, hc⟩
        exact ⟨x, List.mem_cons_of_mem _ hx, hc⟩

/-- A list is cut at the last `a`. -/
lemma exists_last {a : α} {xs : List α} (h : a ∈ xs) : ∃ b c, xs = b ++ a :: c ∧ a ∉ c := by
  obtain ⟨c, b, hrev, hnot⟩ := List.eq_append_cons_of_mem (List.mem_reverse.2 h)
  refine ⟨b.reverse, c.reverse, ?_, by simpa using hnot⟩
  rw [← List.reverse_reverse xs, hrev]
  simp

variable [BEq α] [LawfulBEq α] {a : α} {xs ys : List α}

lemma splitOn_injective (h : xs.splitOn a = ys.splitOn a) : xs = ys := by
  have hxs : [a].intercalate (xs.splitOn a) = xs := List.intercalate_splitOn a
  rw [← hxs, h, List.intercalate_splitOn]

lemma splitOn_prefix_iff :
    xs.splitOn a <+: ys.splitOn a ↔ ys = xs ∨ ∃ r, ys = xs ++ a :: r := by
  constructor
  · rintro ⟨zs, hzs⟩
    by_cases hnil : zs = []
    · subst hnil
      rw [List.append_nil] at hzs
      exact Or.inl (splitOn_injective hzs.symm)
    · have hys : [a].intercalate (ys.splitOn a) = ys := List.intercalate_splitOn a
      refine Or.inr ⟨[a].intercalate zs, ?_⟩
      rw [← hys, ← hzs,
        intercalate_append (List.splitOn_ne_nil a xs) hnil, List.intercalate_splitOn]
  · rintro (rfl | ⟨r, rfl⟩)
    · exact List.prefix_rfl
    · rw [List.splitOn_append_cons_self]
      exact List.prefix_append ..

lemma splitOn_suffix_iff :
    xs.splitOn a <:+ ys.splitOn a ↔ ys = xs ∨ ∃ r, ys = r ++ a :: xs := by
  constructor
  · rintro ⟨zs, hzs⟩
    by_cases hnil : zs = []
    · subst hnil
      exact Or.inl (splitOn_injective hzs.symm)
    · have hys : [a].intercalate (ys.splitOn a) = ys := List.intercalate_splitOn a
      refine Or.inr ⟨[a].intercalate zs, ?_⟩
      rw [← hys, ← hzs,
        intercalate_append hnil (List.splitOn_ne_nil a xs), List.intercalate_splitOn]
  · rintro (rfl | ⟨r, rfl⟩)
    · exact List.suffix_rfl
    · rw [List.splitOn_append_cons_self]
      exact List.suffix_append ..

lemma findIdx?_reverse_last (h : a ∉ ys) :
    (xs ++ a :: ys).reverse.findIdx? (· == a) = some ys.length := by
  have hnone : ys.reverse.findIdx? (· == a) = none := by
    rw [List.findIdx?_eq_none_iff]
    intro b hb
    rw [beq_eq_false_iff_ne]
    rintro rfl
    exact h (List.mem_reverse.1 hb)
  rw [List.reverse_append, List.reverse_cons, List.append_assoc, List.findIdx?_append, hnone]
  simp [List.findIdx?_cons]

lemma dropPrefix?_eq_some_iff {r : List α} : ys.dropPrefix? xs = some r ↔ ys = xs ++ r := by
  rw [List.dropPrefix?_eq_some_iff]
  simp

lemma dropSuffix?_eq_some_iff {r : List α} : ys.dropSuffix? xs = some r ↔ ys = r ++ xs := by
  rw [List.dropSuffix?_eq_some_iff]
  simp

/-! ### The last separator -/

/-- The elements before and behind the last `a`, if there is one. -/
def rsplitOnce (a : α) (xs : List α) : Option (List α × List α) :=
  (xs.reverse.findIdx? (· == a)).map fun i =>
    (xs.take (xs.length - 1 - i), xs.drop (xs.length - i))

lemma rsplitOnce_append_cons (h : a ∉ ys) : rsplitOnce a (xs ++ a :: ys) = some (xs, ys) := by
  rw [rsplitOnce, findIdx?_reverse_last h, Option.map_some, List.length_append, List.length_cons]
  have htake : xs.length + (ys.length + 1) - 1 - ys.length = xs.length := by omega
  have hdrop : xs.length + (ys.length + 1) - ys.length = xs.length + 1 := by omega
  rw [htake, hdrop, List.take_left, List.drop_length_add_append, List.drop_succ_cons,
    List.drop_zero]

/-! ### Both ends -/

def trimEnds (a b : α) (xs : List α) : List α := (xs.dropWhile (· == a)).rdropWhile (· == b)

lemma rdropWhile_of_getLast? (h : xs.getLast? ≠ some a) : xs.rdropWhile (· == a) = xs := by
  rw [List.rdropWhile_eq_self_iff]
  intro hne hlast
  rw [List.getLast?_eq_some_getLast hne] at h
  exact h (by simpa using hlast)

lemma rdropWhile_of_notMem (h : a ∉ xs) : xs.rdropWhile (· == a) = xs :=
  rdropWhile_of_getLast? fun hlast => h (List.mem_of_getLast? hlast)

lemma dropWhile_of_notMem (h : a ∉ xs) : xs.dropWhile (· == a) = xs := by
  cases xs with
  | nil => rfl
  | cons b xs =>
    refine List.dropWhile_cons_of_neg fun hb => h ?_
    rw [beq_iff_eq.1 hb]
    exact List.mem_cons_self

lemma trimEnds_of_notMem {b : α} (ha : a ∉ xs) (hb : b ∉ xs) : trimEnds a b xs = xs := by
  rw [trimEnds, dropWhile_of_notMem ha, rdropWhile_of_notMem hb]

lemma trimEnds_enclosed {b : α} (hab : a ≠ b) (ha : a ∉ xs) (hb : b ∉ xs) :
    trimEnds a b (a :: (xs ++ [b])) = xs := by
  have hfront : a ∉ xs ++ [b] := by simp [ha, hab]
  rw [trimEnds, List.dropWhile_cons_of_pos (by simp), dropWhile_of_notMem hfront,
    List.rdropWhile_concat_pos _ _ _ (by simp), rdropWhile_of_notMem hb]

/-! ### The first separator -/

section UpTo

variable {α : Type*} [DecidableEq α] {a : α} {xs : List α}

/-- The elements up to the first `a`, and that one too; all of them if there is none. -/
def upTo (a : α) (xs : List α) : List α :=
  match xs.findIdx? (· = a) with
  | some i => xs.take (i + 1)
  | none => xs

lemma findIdx?_eq_none : xs.findIdx? (· = a) = none ↔ a ∉ xs := by
  rw [List.findIdx?_eq_none_iff]
  constructor
  · intro h hmem
    simpa using h a hmem
  · intro h b hb
    rw [decide_eq_false_iff_not]
    rintro rfl
    exact h hb

lemma upTo_append_of_findIdx? {i : ℕ} (h : xs.findIdx? (· = a) = some i) (ys : List α) :
    upTo a (xs ++ ys) = xs.take (i + 1) := by
  have hlt : i < xs.length := (List.findIdx?_eq_some_iff_findIdx_eq.1 h).1
  rw [upTo, List.findIdx?_append, h, Option.some_or]
  exact List.take_append_of_le_length hlt

lemma upTo_append (h : a ∉ xs) (ys : List α) : upTo a (xs ++ ys) = xs ++ upTo a ys := by
  rw [upTo, upTo, List.findIdx?_append, findIdx?_eq_none.2 h, Option.none_or]
  cases ys.findIdx? (· = a) with
  | none => rfl
  | some i =>
    show (xs ++ ys).take (i + xs.length + 1) = xs ++ ys.take (i + 1)
    rw [Nat.add_right_comm, List.take_append, List.take_of_length_le (by omega),
      Nat.add_sub_cancel]

lemma upTo_of_not_mem (h : a ∉ xs) : upTo a xs = xs := by
  rw [upTo, findIdx?_eq_none.2 h]

lemma upTo_append_cons (h : a ∉ xs) (ys : List α) : upTo a (xs ++ a :: ys) = xs ++ [a] := by
  rw [upTo_append h, upTo, List.findIdx?_cons, if_pos (by simp)]
  rfl

end UpTo

end PureStd.Separators
