/-
Runs in a cyclic array.

A search with linear probing visits the positions `s`, `s + 1`, `s + 2`, … of an array
of `n` cells modulo `n`.  `RunTo n P s i` says that the positions visited strictly
before `i` all satisfy `P`.  If some cell fails `P`, the search from any start meets a
first such cell (`exists_run_to_first`), and every cell that a `P`-run reaches is met
no later (`RunTo.offset_le`): this is what makes linear probing find what it looks for.
-/
import Mathlib.Tactic

namespace PureStd.CyclicRun

/-- The positions of an array of `n` cells visited from `s` on, strictly before `i`,
satisfy `P`. -/
def RunTo (n : ℕ) (P : ℕ → Prop) (s i : ℕ) : Prop :=
  ∃ d < n, (s + d) % n = i ∧ ∀ e < d, P ((s + e) % n)

variable {n : ℕ} {P Q : ℕ → Prop} {s i : ℕ}

lemma RunTo.mono (hPQ : ∀ j < n, P j → Q j) (h : RunTo n P s i) : RunTo n Q s i := by
  obtain ⟨d, hd, hi, hrun⟩ := h
  exact ⟨d, hd, hi, fun e he => hPQ _ (Nat.mod_lt _ (by omega)) (hrun e he)⟩

/-- Every cell is visited within `n` steps. -/
lemma exists_offset (hn : 0 < n) (s : ℕ) {j : ℕ} (hj : j < n) : ∃ d < n, (s + d) % n = j := by
  have hs := Nat.mod_lt s hn
  rcases le_or_gt (s % n) j with h | h
  · refine ⟨j - s % n, by omega, ?_⟩
    rw [Nat.add_mod, Nat.mod_eq_of_lt (show j - s % n < n by omega), Nat.add_sub_cancel' h,
      Nat.mod_eq_of_lt hj]
  · refine ⟨j + n - s % n, by omega, ?_⟩
    rw [Nat.add_mod, Nat.mod_eq_of_lt (show j + n - s % n < n by omega),
      Nat.add_sub_cancel' (show s % n ≤ j + n by omega), Nat.add_mod_right, Nat.mod_eq_of_lt hj]

/-- The search from `s` meets a first cell that fails `P`, if there is such a cell. -/
lemma exists_run_to_first {j : ℕ} (hj : j < n) (hPj : ¬ P j) (s : ℕ) :
    ∃ d < n, ¬ P ((s + d) % n) ∧ ∀ e < d, P ((s + e) % n) := by
  classical
  obtain ⟨d, hd, hdj⟩ := exists_offset (by omega) s hj
  have hex : ∃ d, ¬ P ((s + d) % n) := ⟨d, by rwa [hdj]⟩
  refine ⟨Nat.find hex, ?_, Nat.find_spec hex, fun e he => not_not.1 (Nat.find_min hex he)⟩
  exact lt_of_le_of_lt (Nat.find_min' hex (by rwa [hdj])) hd

/-- A cell reached by a `P`-run is met no later than the first cell that fails `P`. -/
lemma RunTo.offset_le (h : RunTo n P s i) {d : ℕ} (hfail : ¬ P ((s + d) % n)) :
    ∃ e ≤ d, (s + e) % n = i ∧ ∀ e' < e, P ((s + e') % n) := by
  obtain ⟨e, -, hi, hrun⟩ := h
  refine ⟨e, ?_, hi, hrun⟩
  by_contra hlt
  exact hfail (hrun d (by omega))

/-- One step of the search. -/
lemma succ_mod (s d : ℕ) : ((s + d) % n + 1) % n = (s + (d + 1)) % n := by
  rw [Nat.mod_add_mod, Nat.add_assoc]

end PureStd.CyclicRun
