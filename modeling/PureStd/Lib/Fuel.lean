/-
Functions that take fuel.

A loop that may not end is modelled by a function of an amount of fuel, where `none` means that
there was not enough of it.  The function returns a value if it gives that value from some amount
on.
-/
import Mathlib.Tactic

namespace PureStd.Fuel

variable {α β : Type*} {f g : ℕ → Option α} {a b : α}

/-- With enough fuel the result is `a`. -/
def Returns (f : ℕ → Option α) (a : α) : Prop := ∃ enough, ∀ fuel ≥ enough, f fuel = some a

lemma Returns.exists_fuel (h : Returns f a) : ∃ fuel, f fuel = some a := by
  obtain ⟨enough, henough⟩ := h
  exact ⟨enough, henough enough (Nat.le_refl _)⟩

/-- The value is returned without another turn of the loop. -/
lemma Returns.now (h : ∀ fuel, f (fuel + 1) = some a) : Returns f a := by
  refine ⟨1, fun fuel hfuel => ?_⟩
  obtain ⟨k, rfl⟩ := Nat.exists_eq_add_of_le' hfuel
  exact h k

/-- The value is returned after another turn of the loop. -/
lemma Returns.step (h : ∀ fuel, f (fuel + 1) = g fuel) (hg : Returns g a) : Returns f a := by
  obtain ⟨enough, henough⟩ := hg
  refine ⟨enough + 1, fun fuel hfuel => ?_⟩
  obtain ⟨k, rfl⟩ := Nat.exists_eq_add_of_le' (Nat.le_of_add_left_le hfuel)
  rw [h k]
  exact henough k (by omega)

/-- What is computed from a value that is returned. -/
lemma Returns.bind {k : ℕ → α → Option β} {c : β} (hf : Returns f a)
    (hk : Returns (fun fuel => k fuel a) c) : Returns (fun fuel => (f fuel).bind (k fuel)) c := by
  obtain ⟨m, hm⟩ := hf
  obtain ⟨n, hn⟩ := hk
  refine ⟨max m n, fun fuel hfuel => ?_⟩
  show (f fuel).bind (k fuel) = some c
  rw [hm fuel (le_of_max_le_left hfuel)]
  exact hn fuel (le_of_max_le_right hfuel)

lemma Returns.map {k : α → β} (hf : Returns f a) :
    Returns (fun fuel => (f fuel).map k) (k a) := by
  obtain ⟨enough, henough⟩ := hf
  refine ⟨enough, fun fuel hfuel => ?_⟩
  show (f fuel).map k = some (k a)
  rw [henough fuel hfuel]
  rfl

end PureStd.Fuel
