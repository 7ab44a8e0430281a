/-
Threads under a lock, and what each of them holds.

Threads are in positions of type `P`.  Some positions are inside a critical section, and
`Exclusive` says that the lock is taken exactly while one thread is inside, and where that
thread is.  In some positions a thread holds a thing that belongs to nobody else; `Holding` lists
these things with their holders.  Both are kept by the moves of one thread at a time, so a proof
about a step only has to say what the step does to the position of the thread that takes it.
-/
import Mathlib.Data.List.Nodup
import Mathlib.Logic.Function.Basic

namespace PureStd.CriticalSection

variable {Tid P G : Type*}

/-! ### The lock -/

/-- The lock is taken exactly while a thread is inside, and then by that thread alone.  The
position `pos` is where that thread is, or `out` if nobody is inside. -/
def Exclusive (inside : P → Bool) (out : P) (locked : Bool) (pc : Tid → P) (pos : P) : Prop :=
  ∃ owner : Option Tid, locked = owner.isSome ∧ (∀ t, inside (pc t) = true ↔ owner = some t) ∧
    pos = owner.elim out pc

namespace Exclusive

variable {inside : P → Bool} {out : P} {locked : Bool} {pc : Tid → P} {pos : P} {t u : Tid} {q : P}

lemma start (h : ∀ t, inside (pc t) = false) : Exclusive inside out false pc out :=
  ⟨none, rfl, fun t => by simp [h t], rfl⟩

lemma unique (h : Exclusive inside out locked pc pos) (ht : inside (pc t) = true)
    (hu : inside (pc u) = true) : t = u := by
  obtain ⟨owner, -, howner, -⟩ := h
  exact Option.some.inj (((howner t).1 ht).symm.trans ((howner u).1 hu))

lemma pos_eq (h : Exclusive inside out locked pc pos) (ht : inside (pc t) = true) :
    pos = pc t := by
  obtain ⟨owner, -, howner, rfl⟩ := h
  rw [(howner t).1 ht]
  rfl

lemma pos_of_free (h : Exclusive inside out false pc pos) : pos = out := by
  obtain ⟨owner, hlocked, -, rfl⟩ := h
  cases owner with
  | none => rfl
  | some t => cases hlocked

/-- The position is outside, or some thread is there. -/
lemma pos_cases (h : Exclusive inside out locked pc pos) :
    pos = out ∨ ∃ t, inside (pc t) = true ∧ pos = pc t := by
  obtain ⟨owner, -, howner, rfl⟩ := h
  cases owner with
  | none => exact Or.inl rfl
  | some t => exact Or.inr ⟨t, (howner t).2 rfl, rfl⟩

lemma outside_of_free (h : Exclusive inside out false pc pos) (t : Tid) :
    inside (pc t) = false := by
  obtain ⟨owner, hlocked, howner, -⟩ := h
  rw [Bool.eq_false_iff]
  intro ht
  rw [(howner t).1 ht] at hlocked
  cases hlocked

/-- The lock is taken exactly if somebody is inside. -/
lemma locked_iff (h : Exclusive inside out locked pc pos) :
    locked = true ↔ ∃ t, inside (pc t) = true := by
  obtain ⟨owner, rfl, howner, -⟩ := h
  rw [Option.isSome_iff_exists]
  exact exists_congr fun t => (howner t).symm

variable [DecidableEq Tid]

/-- A thread takes the free lock. -/
lemma enter (h : Exclusive inside out false pc pos) (hq : inside q = true) :
    Exclusive inside out true (Function.update pc t q) q := by
  refine ⟨some t, rfl, fun u => ?_, (Function.update_self t q pc).symm⟩
  by_cases hut : u = t
  · simp [hut, hq]
  · rw [Function.update_of_ne hut, h.outside_of_free u]
    simpa using fun htu => hut htu.symm

/-- The thread inside leaves and releases the lock. -/
lemma leave (h : Exclusive inside out locked pc pos) (ht : inside (pc t) = true)
    (hq : inside q = false) : Exclusive inside out false (Function.update pc t q) out := by
  refine start fun u => ?_
  by_cases hut : u = t
  · rw [hut, Function.update_self, hq]
  · rw [Function.update_of_ne hut, Bool.eq_false_iff]
    exact fun hu => hut (h.unique hu ht)

/-- The thread inside goes on inside. -/
lemma go_on (h : Exclusive inside out locked pc pos) (ht : inside (pc t) = true)
    (hq : inside q = true) : Exclusive inside out locked (Function.update pc t q) q := by
  obtain ⟨owner, hlocked, howner, -⟩ := h
  have hown := (howner t).1 ht
  refine ⟨owner, hlocked, fun u => ?_, ?_⟩
  · by_cases hut : u = t
    · rw [hut, Function.update_self, hq, hown]
      simp
    · rw [Function.update_of_ne hut, howner u]
  · rw [hown]
    exact (Function.update_self t q pc).symm

/-- A thread outside goes on outside. -/
lemma pass (h : Exclusive inside out locked pc pos) (ht : inside (pc t) = false)
    (hq : inside q = false) : Exclusive inside out locked (Function.update pc t q) pos := by
  obtain ⟨owner, hlocked, howner, rfl⟩ := h
  refine ⟨owner, hlocked, fun u => ?_, ?_⟩
  · by_cases hut : u = t
    · rw [hut, Function.update_self, hq, ← howner t, ht]
    · rw [Function.update_of_ne hut, howner u]
  · cases owner with
    | none => rfl
    | some u =>
      have hut : u ≠ t := by
        rintro rfl
        rw [(howner u).2 rfl] at ht
        cases ht
      exact (Function.update_of_ne hut q pc).symm

end Exclusive

/-! ### What the threads hold -/

/-- The things that threads hold, each with its holder. -/
structure Holding (holds : P → Option G) (pc : Tid → P) (held : List (Tid × G)) : Prop where
  nodup : (held.map Prod.fst).Nodup
  mem_iff : ∀ t g, (t, g) ∈ held ↔ holds (pc t) = some g

namespace Holding

variable {holds : P → Option G} {pc : Tid → P} {held : List (Tid × G)} {t : Tid} {q : P} {g : G}

lemma nil (h : ∀ t, holds (pc t) = none) : Holding holds pc [] :=
  ⟨List.nodup_nil, fun t g => by simp [h t]⟩

variable [DecidableEq Tid]

lemma keep (h : Holding holds pc held) (hq : holds q = holds (pc t)) :
    Holding holds (Function.update pc t q) held := by
  refine ⟨h.nodup, fun u g => ?_⟩
  by_cases hut : u = t
  · rw [hut, Function.update_self, hq, h.mem_iff]
  · rw [Function.update_of_ne hut, h.mem_iff]

/-- A thread that held nothing takes something. -/
lemma gain (h : Holding holds pc held) (ht : holds (pc t) = none) (hq : holds q = some g) :
    Holding holds (Function.update pc t q) ((t, g) :: held) := by
  refine ⟨List.nodup_cons.2 ⟨?_, h.nodup⟩, fun u g' => ?_⟩
  · intro hmem
    obtain ⟨⟨u, g'⟩, hin, rfl⟩ := List.mem_map.1 hmem
    rw [h.mem_iff, ht] at hin
    cases hin
  · by_cases hut : u = t
    · subst hut
      have hno : (u, g') ∉ held := by rw [h.mem_iff, ht]; nofun
      rw [Function.update_self, hq, List.mem_cons, or_iff_left hno]
      simpa using eq_comm
    · rw [Function.update_of_ne hut, ← h.mem_iff, List.mem_cons, or_iff_right]
      simpa using fun hu => absurd hu hut

/-- A thread gives up what it held. -/
lemma lose (h : Holding holds pc held) (ht : holds (pc t) = some g) (hq : holds q = none) :
    ∃ l₁ l₂, held = l₁ ++ (t, g) :: l₂ ∧ Holding holds (Function.update pc t q) (l₁ ++ l₂) := by
  obtain ⟨l₁, l₂, rfl⟩ := List.append_of_mem ((h.mem_iff t g).2 ht)
  refine ⟨l₁, l₂, rfl, ?_⟩
  have hnodup := h.nodup
  rw [List.map_append, List.map_cons, List.nodup_middle, ← List.map_append] at hnodup
  obtain ⟨hnot, hrest⟩ := List.nodup_cons.1 hnodup
  refine ⟨hrest, fun u g' => ?_⟩
  by_cases hut : u = t
  · subst hut
    rw [Function.update_self, hq]
    refine ⟨fun hin => absurd (List.mem_map_of_mem hin) hnot, nofun⟩
  · rw [Function.update_of_ne hut, ← h.mem_iff, List.mem_append, List.mem_append, List.mem_cons]
    have hne : (u, g') ≠ (t, g) := fun heq => hut (Prod.mk.inj heq).1
    rw [or_iff_right hne]

end Holding

end PureStd.CriticalSection
