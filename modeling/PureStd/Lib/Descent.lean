/-
Going on from element to element with a partial function, to one that it sends nowhere.

A function that makes the elements smaller cannot go on for ever, so there is such a list from
every element.
-/
import Mathlib.Tactic

namespace PureStd

variable {α : Type*}

/-- The elements that `next` leads to, from `a` to one where it stops. -/
inductive Descent (next : α → Option α) : α → List α → Prop where
  | last {a : α} (h : next a = none) : Descent next a [a]
  | step {a b : α} {l : List α} (h : next a = some b) (hl : Descent next b l) :
      Descent next a (a :: l)

namespace Descent

variable {next : α → Option α} {size : α → ℕ} {a : α} {l : List α}

lemma head? (h : Descent next a l) : l.head? = some a := by
  cases h <;> rfl

lemma length_pos (h : Descent next a l) : 0 < l.length := by
  cases h <;> simp

lemma isChain (h : Descent next a l) : l.IsChain fun x y => next x = some y := by
  induction h with
  | last _ => exact List.isChain_singleton _
  | step hnext hl ih =>
    refine List.isChain_cons.2 ⟨fun y hy => ?_, ih⟩
    obtain rfl := Option.some.inj (hl.head?.symm.trans hy)
    exact hnext

lemma next_getLast? (h : Descent next a l) : ∀ z ∈ l.getLast?, next z = none := by
  induction h with
  | last hnone =>
    intro z hz
    obtain rfl : _ = z := by simpa using hz
    exact hnone
  | step _ hl ih =>
    rwa [List.getLast?_cons_of_ne_nil (List.length_pos_iff.1 hl.length_pos)]

/-- Each element is smaller than the one before. -/
lemma length_le (hlt : ∀ x y, next x = some y → size y < size x) (h : Descent next a l) :
    l.length ≤ size a + 1 := by
  induction h with
  | last _ => simp
  | step hnext _ ih =>
    have := hlt _ _ hnext
    rw [List.length_cons]
    omega

lemma exists_of_lt (hlt : ∀ x y, next x = some y → size y < size x) (a : α) :
    ∃ l, Descent next a l := by
  induction hsize : size a using Nat.strong_induction_on generalizing a with
  | _ n ih =>
    cases hnext : next a with
    | none => exact ⟨[a], .last hnext⟩
    | some b =>
      obtain ⟨l, hl⟩ := ih (size b) (hsize ▸ hlt a b hnext) b rfl
      exact ⟨a :: l, .step hnext hl⟩

end Descent

end PureStd
