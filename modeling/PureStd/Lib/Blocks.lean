/-
A log shared by several writers.

Every item of the log has the name of its writer.  The items of a writer form a block if they
stand together (`Block`); a block at the end can still be continued (`AtEnd`).
-/
import Mathlib.Data.List.TakeWhile
import Mathlib.Tactic

namespace PureStd.Blocks

variable {ι α : Type*}

/-- The items of `i` stand together. -/
def Block (i : ι) (l : List (ι × α)) : Prop :=
  ∃ before block after, l = before ++ block ++ after ∧ (∀ e ∈ block, e.1 = i) ∧
    ∀ e ∈ before ++ after, e.1 ≠ i

/-- The items of `i` stand together at the end. -/
def AtEnd (i : ι) (l : List (ι × α)) : Prop :=
  ∃ before block, l = before ++ block ∧ (∀ e ∈ block, e.1 = i) ∧ ∀ e ∈ before, e.1 ≠ i

variable {i : ι} {l m : List (ι × α)}

lemma AtEnd.block (h : AtEnd i l) : Block i l := by
  obtain ⟨before, block, rfl, hblock, hbefore⟩ := h
  exact ⟨before, block, [], by simp, hblock, by simpa using hbefore⟩

/-- Items of others do not break a block. -/
lemma Block.append (h : Block i l) (hm : ∀ e ∈ m, e.1 ≠ i) : Block i (l ++ m) := by
  obtain ⟨before, block, after, rfl, hblock, hrest⟩ := h
  refine ⟨before, block, after ++ m, by simp, hblock, ?_⟩
  intro e he
  rw [← List.append_assoc] at he
  rcases List.mem_append.1 he with he | he
  · exact hrest e he
  · exact hm e he

/-- A block at the end is continued. -/
lemma AtEnd.append (h : AtEnd i l) (hm : ∀ e ∈ m, e.1 = i) : AtEnd i (l ++ m) := by
  obtain ⟨before, block, rfl, hblock, hbefore⟩ := h
  refine ⟨before, block ++ m, by simp, ?_, hbefore⟩
  intro e he
  exact (List.mem_append.1 he).elim (hblock e) (hm e)

/-- A block begins. -/
lemma atEnd_append (hl : ∀ e ∈ l, e.1 ≠ i) (hm : ∀ e ∈ m, e.1 = i) : AtEnd i (l ++ m) :=
  ⟨l, m, rfl, hm, hl⟩

variable [DecidableEq ι]

/-- What follows the first run of items of `i` has none of them. -/
lemma block_iff : Block i l ↔
    ∀ e ∈ (l.dropWhile (·.1 ≠ i)).dropWhile (·.1 = i), e.1 ≠ i := by
  constructor
  · rintro ⟨before, block, after, rfl, hblock, hrest⟩ e he
    have hafter : ∀ e ∈ after, e.1 ≠ i := fun e he => hrest e (List.mem_append_right _ he)
    rw [List.append_assoc, List.dropWhile_append_of_pos
      (fun e he => by simpa using hrest e (List.mem_append_left _ he))] at he
    cases block with
    | nil =>
      have he := (List.dropWhile_sublist _).subset he
      exact hafter e ((List.dropWhile_sublist _).subset he)
    | cons b block =>
      rw [List.cons_append, List.dropWhile_cons_of_neg (by simp [hblock b]),
        ← List.cons_append, List.dropWhile_append_of_pos
        (fun e he => by simpa using hblock e he)] at he
      exact hafter e ((List.dropWhile_sublist _).subset he)
  · intro h
    refine ⟨l.takeWhile (·.1 ≠ i), (l.dropWhile (·.1 ≠ i)).takeWhile (·.1 = i),
      (l.dropWhile (·.1 ≠ i)).dropWhile (·.1 = i), ?_, ?_, ?_⟩
    · rw [List.append_assoc, List.takeWhile_append_dropWhile, List.takeWhile_append_dropWhile]
    · intro e he
      simpa using List.mem_takeWhile_imp he
    · intro e he
      rcases List.mem_append.1 he with he | he
      · simpa using List.mem_takeWhile_imp he
      · exact h e he

instance (i : ι) (l : List (ι × α)) : Decidable (Block i l) := decidable_of_iff _ block_iff.symm

/-- The items of `i`. -/
def itemsOf (i : ι) (l : List (ι × α)) : List α := (l.filter (·.1 = i)).map Prod.snd

@[simp] lemma itemsOf_append (i : ι) (l m : List (ι × α)) :
    itemsOf i (l ++ m) = itemsOf i l ++ itemsOf i m := by simp [itemsOf]

lemma itemsOf_map_self (i : ι) (l : List α) : itemsOf i (l.map (i, ·)) = l := by
  induction l with
  | nil => rfl
  | cons a l ih =>
    rw [itemsOf] at ih ⊢
    simpa using ih

lemma itemsOf_eq_nil : itemsOf i l = [] ↔ ∀ e ∈ l, e.1 ≠ i := by
  simp [itemsOf]

lemma itemsOf_map_of_ne {j : ι} (h : j ≠ i) (l : List α) : itemsOf i (l.map (j, ·)) = [] := by
  rw [itemsOf_eq_nil]
  intro e he
  obtain ⟨a, -, rfl⟩ := List.mem_map.1 he
  exact h

end PureStd.Blocks
