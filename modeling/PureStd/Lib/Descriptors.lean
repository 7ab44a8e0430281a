/-
Descriptor tables.

A table maps numbers to open files, or to nothing; all but finitely many numbers are free.
A new file gets the lowest free number.  The operations are those of a kernel on one table:
`install` (open, pipe), `close` and `dup2`.

Two tables that differ by a renaming of their numbers behave alike if the renaming keeps the
order of the numbers and leaves out only numbers that are in use (`Renames`): every
operation takes renamed tables to renamed tables.  So what a program does with its
descriptors can be followed on a small table.
-/
import Mathlib.Order.Nat
import Mathlib.Order.Monotone.Basic
import Mathlib.Tactic

namespace PureStd

/-- A table of open files, by number. -/
structure FdTable (F : Type*) where
  slots : List (Option F)
deriving DecidableEq, Repr

namespace FdTable

variable {F G : Type*} (t : FdTable F)

/-- The file under a number. -/
def get (fd : ℕ) : Option F := (t.slots[fd]?).join

/-- The lowest number that is free. -/
def lowestFree : ℕ := t.slots.findIdx Option.isNone

/-- Put a file under a number. -/
def put (fd : ℕ) (f : F) : FdTable F :=
  ⟨(t.slots ++ List.replicate (fd + 1 - t.slots.length) none).set fd (some f)⟩

/-- Open a file under the lowest free number. -/
def install (f : F) : FdTable F × ℕ := (t.put t.lowestFree f, t.lowestFree)

/-- Free a number. -/
def close (fd : ℕ) : FdTable F := ⟨t.slots.set fd none⟩

/-- Make `new` refer to the file of `old`; nothing happens if `old` is not open. -/
def dup2 (old new : ℕ) : FdTable F :=
  match t.get old with
  | none => t
  | some f => if old = new then t else t.put new f

/-- A check of every open descriptor. -/
def all (p : ℕ → F → Bool) : Bool :=
  t.slots.zipIdx.all fun slot => slot.1.all (p slot.2)

variable {t}

lemma all_get {p : ℕ → F → Bool} (h : t.all p) {fd : ℕ} {f : F} (hf : t.get fd = some f) :
    p fd f := by
  have hslot : t.slots[fd]? = some (some f) := Option.join_eq_some_iff.1 hf
  have hmem : (some f, fd) ∈ t.slots.zipIdx := List.mem_zipIdx_iff_getElem?.2 hslot
  exact List.all_eq_true.1 h _ hmem

lemma get_put (fd : ℕ) (f : F) (j : ℕ) :
    (t.put fd f).get j = if j = fd then some f else t.get j := by
  rw [get, put, List.getElem?_set]
  split
  · rename_i hj
    subst hj
    rw [if_pos (by simp; omega), if_pos rfl]
    rfl
  · rename_i hj
    rw [if_neg (Ne.symm hj), get, List.getElem?_append]
    split
    · rfl
    · rename_i hlen
      rw [List.getElem?_eq_none (Nat.le_of_not_lt hlen), List.getElem?_replicate]
      split <;> rfl

lemma get_close (fd j : ℕ) : (t.close fd).get j = if j = fd then none else t.get j := by
  rw [get, close, List.getElem?_set]
  split
  · rename_i hj
    subst hj
    rw [if_pos rfl]
    split <;> rfl
  · rename_i hj
    rw [if_neg (Ne.symm hj), get]

lemma get_lowestFree : t.get t.lowestFree = none := by
  rw [get, lowestFree]
  by_cases h : t.slots.findIdx Option.isNone < t.slots.length
  · have hnone := List.findIdx_getElem (w := h)
    rw [List.getElem?_eq_getElem h]
    simpa using hnone
  · rw [List.getElem?_eq_none (Nat.le_of_not_lt h)]
    rfl

lemma get_ne_none_of_lt {j : ℕ} (h : j < t.lowestFree) : t.get j ≠ none := by
  have hlen : j < t.slots.length := h.trans_le List.findIdx_le_length
  have hopen := List.not_of_lt_findIdx h
  rw [get, List.getElem?_eq_getElem hlen]
  simpa [Option.isSome_iff_ne_none] using hopen

/-- The lowest free number is the one that is free with all smaller ones in use. -/
lemma lowestFree_eq {fd : ℕ} (hfree : t.get fd = none) (hopen : ∀ j < fd, t.get j ≠ none) :
    t.lowestFree = fd := by
  rcases Nat.lt_trichotomy t.lowestFree fd with hlt | heq | hgt
  · exact absurd get_lowestFree (hopen _ hlt)
  · exact heq
  · exact absurd hfree (get_ne_none_of_lt hgt)

lemma get_install (f : F) (j : ℕ) :
    (t.install f).1.get j = if j = t.lowestFree then some f else t.get j :=
  get_put _ _ _

lemma get_dup2 {old new : ℕ} {f : F} (h : t.get old = some f) (j : ℕ) :
    (t.dup2 old new).get j = if j = new then some f else t.get j := by
  simp only [dup2, h]
  split
  · rename_i heq
    split
    · rename_i hj
      rw [hj, ← heq, h]
    · rfl
  · exact get_put _ _ _

lemma dup2_of_closed {old new : ℕ} (h : t.get old = none) : t.dup2 old new = t := by
  simp only [dup2, h]

/-! ### Properties of all open files -/

/-- Every open file satisfies `P`. -/
def Only (P : F → Prop) (t : FdTable F) : Prop := ∀ fd f, t.get fd = some f → P f

section Only

variable {P : F → Prop}

lemma Only.close (h : Only P t) (n : ℕ) : Only P (t.close n) := by
  intro fd f hf
  rw [get_close] at hf
  split at hf
  · cases hf
  · exact h fd f hf

lemma Only.install (h : Only P t) {f : F} (hf : P f) : Only P (t.install f).1 := by
  intro fd f' hf'
  rw [get_install] at hf'
  split at hf'
  · rwa [← Option.some.inj hf']
  · exact h fd f' hf'

lemma Only.dup2 (h : Only P t) (old new : ℕ) : Only P (t.dup2 old new) := by
  cases hold : t.get old with
  | none => rwa [dup2_of_closed hold]
  | some f =>
    intro fd f' hf'
    rw [get_dup2 hold] at hf'
    split at hf'
    · rw [← Option.some.inj hf']
      exact h old f hold
    · exact h fd f' hf'

end Only

/-! ### Numbers that were taken -/

/-- The table `t'` has what `t` has, and the numbers in `S`, free in `t`, are in use besides. -/
structure Adds (t : FdTable F) (S : Set ℕ) (t' : FdTable F) : Prop where
  new : ∀ fd ∈ S, t.get fd = none ∧ t'.get fd ≠ none
  old : ∀ fd ∉ S, t'.get fd = t.get fd

namespace Adds

variable {S : Set ℕ} {t' : FdTable F}

lemma refl (t : FdTable F) : Adds t ∅ t := ⟨fun _ h => h.elim, fun _ _ => rfl⟩

/-- A new file gets a number that was not taken. -/
lemma lowestFree_notMem (h : Adds t S t') : t'.lowestFree ∉ S :=
  fun hmem => (h.new _ hmem).2 get_lowestFree

lemma install (h : Adds t S t') (f : F) :
    Adds t (insert t'.lowestFree S) (t'.install f).1 := by
  refine ⟨fun fd hfd => ?_, fun fd hfd => ?_⟩
  · by_cases heq : fd = t'.lowestFree
    · subst heq
      have hold := h.old _ h.lowestFree_notMem
      rw [get_install, if_pos rfl, ← hold]
      exact ⟨get_lowestFree, by simp⟩
    · rw [get_install, if_neg heq]
      exact h.new fd (hfd.resolve_left heq)
  · rw [Set.mem_insert_iff, not_or] at hfd
    rw [get_install, if_neg hfd.1]
    exact h.old fd hfd.2

lemma close (h : Adds t S t') {n : ℕ} (hn : t.get n = none) : Adds t (S \ {n}) (t'.close n) := by
  refine ⟨fun fd ⟨hfd, hne⟩ => ?_, fun fd hfd => ?_⟩
  · have hne : ¬ fd = n := hne
    rw [get_close, if_neg hne]
    exact h.new fd hfd
  · by_cases heq : fd = n
    · rw [get_close, if_pos heq, heq, hn]
    · rw [get_close, if_neg heq]
      exact h.old fd fun hmem => hfd ⟨hmem, heq⟩

/-- The tables are alike only if no number was taken. -/
lemma get_eq_iff (h : Adds t S t') : (∀ fd, t'.get fd = t.get fd) ↔ S = ∅ := by
  constructor
  · intro heq
    refine Set.eq_empty_iff_forall_notMem.2 fun fd hfd => ?_
    obtain ⟨hfree, hopen⟩ := h.new fd hfd
    exact hopen ((heq fd).trans hfree)
  · rintro rfl fd
    exact h.old fd fun hfd => hfd

end Adds

/-! ### Renaming -/

/-- The table `t` is the table `u` with its numbers renamed by `φ` and its files by `ψ`; the
numbers that `φ` leaves out are in use and hold what they hold in `rest`. -/
structure Renames (φ : ℕ → ℕ) (ψ : G → F) (rest : FdTable F) (u : FdTable G) (t : FdTable F) :
    Prop where
  get_map : ∀ n, t.get (φ n) = (u.get n).map ψ
  get_rest : ∀ m, (∀ n, φ n ≠ m) → t.get m = rest.get m ∧ rest.get m ≠ none

namespace Renames

variable {φ : ℕ → ℕ} {ψ : G → F} {rest : FdTable F} {u : FdTable G}

lemma get_eq_none_iff (h : Renames φ ψ rest u t) (n : ℕ) :
    t.get (φ n) = none ↔ u.get n = none := by
  rw [h.get_map, Option.map_eq_none_iff]

lemma lowestFree (hφ : StrictMono φ) (h : Renames φ ψ rest u t) :
    t.lowestFree = φ u.lowestFree := by
  refine lowestFree_eq ((h.get_eq_none_iff _).2 get_lowestFree) ?_
  intro j hj
  by_cases hrange : ∃ n, φ n = j
  · obtain ⟨n, rfl⟩ := hrange
    rw [ne_eq, h.get_eq_none_iff]
    exact get_ne_none_of_lt (hφ.lt_iff_lt.1 hj)
  · obtain ⟨hrest, hopen⟩ := h.get_rest j (not_exists.1 hrange)
    rwa [hrest]

lemma put (hφ : StrictMono φ) (h : Renames φ ψ rest u t) (n : ℕ) (g : G) :
    Renames φ ψ rest (u.put n g) (t.put (φ n) (ψ g)) := by
  refine ⟨fun m => ?_, fun m hm => ?_⟩
  · rw [get_put, get_put, h.get_map]
    by_cases hmn : m = n
    · simp [hmn]
    · rw [if_neg (hφ.injective.ne hmn), if_neg hmn]
  · rw [get_put, if_neg (Ne.symm (hm n))]
    exact h.get_rest m hm

lemma close (hφ : StrictMono φ) (h : Renames φ ψ rest u t) (n : ℕ) :
    Renames φ ψ rest (u.close n) (t.close (φ n)) := by
  refine ⟨fun m => ?_, fun m hm => ?_⟩
  · rw [get_close, get_close, h.get_map]
    by_cases hmn : m = n
    · simp [hmn]
    · rw [if_neg (hφ.injective.ne hmn), if_neg hmn]
  · rw [get_close, if_neg (Ne.symm (hm n))]
    exact h.get_rest m hm

lemma install (hφ : StrictMono φ) (h : Renames φ ψ rest u t) (g : G) :
    Renames φ ψ rest (u.install g).1 (t.install (ψ g)).1 ∧
      (t.install (ψ g)).2 = φ (u.install g).2 := by
  have hfree := h.lowestFree hφ
  refine ⟨?_, hfree⟩
  change Renames φ ψ rest (u.put u.lowestFree g) (t.put t.lowestFree (ψ g))
  rw [hfree]
  exact h.put hφ _ g

lemma dup2 (hφ : StrictMono φ) (h : Renames φ ψ rest u t) (old new : ℕ) :
    Renames φ ψ rest (u.dup2 old new) (t.dup2 (φ old) (φ new)) := by
  cases hold : u.get old with
  | none =>
    rw [dup2_of_closed hold, dup2_of_closed ((h.get_eq_none_iff _).2 hold)]
    exact h
  | some g =>
    have htold : t.get (φ old) = some (ψ g) := by rw [h.get_map, hold]; rfl
    by_cases heq : old = new
    · subst heq
      simp only [FdTable.dup2, hold, htold, if_true]
      exact h
    · simp only [FdTable.dup2, hold, htold, if_neg heq, if_neg (hφ.injective.ne heq)]
      exact h.put hφ new g

end Renames

end FdTable

end PureStd
