/-
Transition systems.

A system is a set of initial states and a step relation; its runs are the chains of
Mathlib's `Relation.ReflTransGen`.  An invariant holds at the start and is kept by every
step (`Reachable.induct`), and the invariants found so far may be used for the next one.
A system with fewer steps reaches fewer states (`Reachable.mono`).  Threads whose ids come from
a kernel have different ones (`Distinct`).
-/
import Mathlib.Logic.Function.Basic
import Mathlib.Logic.Relation
import Mathlib.Tactic.SplitIfs

namespace PureStd

variable {σ : Type*}

/-- The states that runs from the initial states reach. -/
def Reachable (init : σ → Prop) (step : σ → σ → Prop) (s : σ) : Prop :=
  ∃ s₀, init s₀ ∧ Relation.ReflTransGen step s₀ s

variable {init : σ → Prop} {step step' : σ → σ → Prop} {s s' : σ}

lemma Reachable.start (h : init s) : Reachable init step s := ⟨s, h, .refl⟩

lemma Reachable.next (h : Reachable init step s) (hs : step s s') : Reachable init step s' := by
  obtain ⟨s₀, h₀, hrun⟩ := h
  exact ⟨s₀, h₀, hrun.tail hs⟩

/-- The invariant rule. -/
lemma Reachable.induct {P : σ → Prop} (h : Reachable init step s) (hinit : ∀ s, init s → P s)
    (hstep : ∀ s s', Reachable init step s → P s → step s s' → P s') : P s := by
  obtain ⟨s₀, h₀, hrun⟩ := h
  induction hrun with
  | refl => exact hinit s₀ h₀
  | tail hrun hs ih => exact hstep _ _ ⟨s₀, h₀, hrun⟩ ih hs

lemma Reachable.mono (h : Reachable init step s) (hsub : ∀ s s', step s s' → step' s s') :
    Reachable init step' s := by
  obtain ⟨s₀, h₀, hrun⟩ := h
  exact ⟨s₀, h₀, Relation.ReflTransGen.mono hsub _ _ hrun⟩

section Schedule

variable {α : Type*} {turn : σ → α → σ}

/-- Every turn of a schedule passes a check. -/
def allTurns (turn : σ → α → σ) (check : σ → α → Bool) : σ → List α → Bool
  | _, [] => true
  | s, a :: turns => check s a && allTurns turn check (turn s a) turns

/-- A run may follow a schedule if each turn that passes the check is a step, or nothing. -/
lemma Reachable.foldl_of_allTurns (check : σ → α → Bool)
    (hturn : ∀ s a, check s a = true → step s (turn s a) ∨ turn s a = s)
    (h : Reachable init step s) (turns : List α) (hcheck : allTurns turn check s turns = true) :
    Reachable init step (turns.foldl turn s) := by
  induction turns generalizing s with
  | nil => exact h
  | cons a turns ih =>
    obtain ⟨ha, hrest⟩ := Bool.and_eq_true_iff.1 hcheck
    refine ih ?_ hrest
    rcases hturn s a ha with hstep | heq
    · exact h.next hstep
    · rwa [heq]

lemma Reachable.foldl (hturn : ∀ s a, step s (turn s a) ∨ turn s a = s)
    (h : Reachable init step s) (turns : List α) : Reachable init step (turns.foldl turn s) := by
  refine h.foldl_of_allTurns (fun _ _ => true) (fun s a _ => hturn s a) turns ?_
  clear h
  induction turns generalizing s with
  | nil => rfl
  | cons a turns ih => exact ih

end Schedule

section Distinct

variable {T I X : Type*} {id : T → Option I}

/-- No two threads have the same id. -/
def Distinct (id : T → Option I) : Prop := ∀ t u i, id t = some i → id u = some i → t = u

variable [DecidableEq T] {t : T}

/-- A thread keeps its id, loses it, or gets one that no thread has. -/
lemma Distinct.update (h : Distinct id) {x : Option I}
    (hx : ∀ i, x = some i → id t = some i ∨ ∀ u, id u ≠ some i) :
    Distinct (Function.update id t x) := by
  -- no other thread has the id that `t` has now
  have hother : ∀ u i, u ≠ t → x = some i → id u ≠ some i := by
    intro u i hut hi hu
    rcases hx i hi with ht | hfree
    · exact hut (h u t i hu ht)
    · exact hfree u hu
  intro u v i hu hv
  rw [Function.update_apply] at hu hv
  split_ifs at hu hv with hut hvt hvt
  · rw [hut, hvt]
  · exact absurd hv (hother v i hvt hu)
  · exact absurd hu (hother u i hut hv)
  · exact h u v i hu hv

lemma Distinct.update_comp {f : T → X} {id : X → Option I} (h : Distinct fun t => id (f t)) {x : X}
    (hx : ∀ i, id x = some i → id (f t) = some i ∨ ∀ u, id (f u) ≠ some i) :
    Distinct fun u => id (Function.update f t x u) := by
  have hcomp := Function.comp_update id f t x
  exact (congrArg Distinct hcomp).mpr (h.update hx)

end Distinct

end PureStd
