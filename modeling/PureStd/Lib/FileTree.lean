/-
Trees of directories, files and symbolic links.

A tree is a finite map from locations to nodes, where a location is the list of the names that
lead to it, the innermost one first; whatever has an entry stands in a directory.  The entries
are kept in a list, whose order is the order of the listings.  A tree also knows the working
directory of the process; it may be removed like any other and then is an empty directory that
is not found under its name any more, but from which one may still go up.

A path is walked component by component.  Links on the way are replaced by their targets, and a
walk may do that only so many times; what is left of this budget is a result of the walk.
`Walks` describes the walks that arrive.  They do not depend on what is in the files, and they are
kept if the tree grows (`Walks.grows`, `Walks.mono`).  The walk of two paths one after the other is
the walk of the one and then of the other (`Walks.append`, `Walks.split`).
-/
import Mathlib.Data.List.Infix
import Mathlib.Data.List.Nodup
import Mathlib.Tactic

namespace PureStd

/-- A component of a path. -/
inductive Comp (N : Type*) where
  | self
  | up
  | name (n : N)
deriving DecidableEq, Repr

/-- What a link points to. -/
structure Target (N : Type*) where
  absolute : Bool
  comps : List (Comp N)
  nonempty : absolute = true ∨ comps ≠ []
deriving DecidableEq

/-- What stands at a location. -/
inductive Node (N D : Type*) where
  | dir
  | file (data : D)
  | link (target : Target N)
deriving DecidableEq

/-- A file with other contents. -/
def Node.fill {N D : Type*} (d : D) : Node N D → Node N D
  | file _ => file d
  | x => x

/-- The same node, but for the contents of a file. -/
def Node.Like {N D : Type*} (x y : Node N D) : Prop := y = x ∨ ∃ d d', x = file d ∧ y = file d'

/-- The names that lead to a place, the innermost one first. -/
abbrev Loc (N : Type*) := List N

/-- Where the target of a link in the directory `l` starts. -/
def Target.start {N : Type*} (tgt : Target N) (l : Loc N) : Loc N :=
  if tgt.absolute then [] else l

structure FileTree (N D : Type*) where
  entries : List (Loc N × Node N D)
  cwd : Loc N
  nodup : (entries.map Prod.fst).Nodup
  root : ∀ x, ([], x) ∉ entries
  closed : ∀ n l x, (n :: l, x) ∈ entries → l = [] ∨ (l, .dir) ∈ entries
  cwd_dir : ∀ l x, l <:+ cwd → (l, x) ∈ entries → x = .dir

/-- The tree with the given entries, of a process that is in the root. -/
def FileTree.ofEntries {N D : Type*} (entries : List (Loc N × Node N D))
    (nodup : (entries.map Prod.fst).Nodup)
    (closed : ∀ e ∈ entries, e.1 ≠ [] ∧ (e.1.tail = [] ∨ (e.1.tail, .dir) ∈ entries)) :
    FileTree N D where
  entries
  cwd := []
  nodup
  root _ hmem := (closed _ hmem).1 rfl
  closed _ _ _ hmem := (closed _ hmem).2
  cwd_dir _ _ hs hmem := absurd (List.suffix_nil.1 hs) (closed _ hmem).1

namespace FileTree

variable {N D : Type*} [DecidableEq N] {t t' : FileTree N D} {l l' : Loc N} {n : N} {x : Node N D}

/-! ### Nodes -/

/-- The node at a location; the root is always a directory. -/
def get (t : FileTree N D) (l : Loc N) : Option (Node N D) :=
  if l = [] then some .dir else t.entries.lookup l

@[simp] lemma get_nil (t : FileTree N D) : t.get [] = some .dir := rfl

lemma lookup_eq_some_of_nodup {K V : Type*} [BEq K] [LawfulBEq K] {es : List (K × V)}
    (h : (es.map Prod.fst).Nodup) {k : K} {v : V} : es.lookup k = some v ↔ (k, v) ∈ es := by
  induction es with
  | nil => simp
  | cons e es ih =>
    obtain ⟨k', v'⟩ := e
    rw [List.map_cons, List.nodup_cons] at h
    by_cases hk : k = k'
    · subst hk
      have hnot : (k, v) ∉ es := fun hmem => h.1 (List.mem_map.2 ⟨_, hmem, rfl⟩)
      simp [hnot, eq_comm]
    · have hne : (k == k') = false := beq_eq_false_iff_ne.2 hk
      simp [List.lookup_cons, hne, ih h.2, hk]

lemma get_eq_some (hl : l ≠ []) : t.get l = some x ↔ (l, x) ∈ t.entries := by
  rw [get, if_neg hl, lookup_eq_some_of_nodup t.nodup]

lemma get_cons : t.get (n :: l) = some x ↔ (n :: l, x) ∈ t.entries := get_eq_some (by simp)

/-- Whatever has an entry stands in a directory. -/
lemma get_parent (h : t.get (n :: l) = some x) : t.get l = some .dir := by
  rcases t.closed n l x (get_cons.1 h) with rfl | hmem
  · rfl
  · exact (get_eq_some fun hnil => t.root _ (hnil ▸ hmem)).2 hmem

lemma get_of_suffix (h : t.get l = some x) (hs : l' <:+ l) : l' = l ∨ t.get l' = some .dir := by
  induction l generalizing x with
  | nil => exact Or.inl (List.suffix_nil.1 hs)
  | cons n l ih =>
    rcases List.suffix_cons_iff.1 hs with rfl | hs
    · exact Or.inl rfl
    · rcases ih (get_parent h) hs with rfl | hdir
      · exact Or.inr (get_parent h)
      · exact Or.inr hdir

/-- The entries of a directory. -/
def listing (t : FileTree N D) (l : Loc N) : List (N × Node N D) :=
  t.entries.filterMap fun e =>
    match e.1 with
    | [] => none
    | n :: l' => if l' = l then some (n, e.2) else none

lemma mem_listing : (n, x) ∈ t.listing l ↔ t.get (n :: l) = some x := by
  rw [get_cons, listing, List.mem_filterMap]
  constructor
  · rintro ⟨⟨l', y⟩, hmem, heq⟩
    cases l' with
    | nil => cases heq
    | cons m l' =>
      simp only [Option.ite_none_right_eq_some, Option.some.injEq, Prod.mk.injEq] at heq
      obtain ⟨rfl, rfl, rfl⟩ := heq
      exact hmem
  · intro hmem
    exact ⟨_, hmem, by simp⟩

/-- The first entry of a listing. -/
lemma get_of_listing {rest : List (N × Node N D)} (h : t.listing l = (n, x) :: rest) :
    t.get (n :: l) = some x :=
  mem_listing.1 (h ▸ List.mem_cons_self ..)

/-! ### Changes -/

/-- There is room for a node `n` in the directory `l`: nothing stands there, nor does a process
stand there whose working directory was removed, unless the node is a directory. -/
def Room (t : FileTree N D) (n : N) (l : Loc N) (x : Node N D) : Prop :=
  t.get l = some .dir ∧ t.get (n :: l) = none ∧ (n :: l <:+ t.cwd → x = .dir)

instance [DecidableEq D] (t : FileTree N D) (n : N) (l : Loc N) (x : Node N D) :
    Decidable (t.Room n l x) := inferInstanceAs (Decidable (_ ∧ _ ∧ (_ → _)))

/-- A new node `n` in the directory `l`, if there is room for it. -/
def make [DecidableEq D] (t : FileTree N D) (n : N) (l : Loc N) (x : Node N D) : FileTree N D :=
  if h : t.Room n l x then
    { t with
      entries := t.entries ++ [(n :: l, x)]
      nodup := by
        have hnew : n :: l ∉ t.entries.map Prod.fst := by
          intro hmem
          obtain ⟨⟨l', y⟩, hmem, rfl⟩ := List.mem_map.1 hmem
          have hnone := h.2.1
          rw [get_cons.2 hmem] at hnone
          cases hnone
        rw [List.map_append, List.nodup_append_comm]
        exact List.nodup_cons.2 ⟨hnew, t.nodup⟩
      root := by
        intro y hmem
        rcases List.mem_append.1 hmem with hmem | hmem
        · exact t.root y hmem
        · simp at hmem
      closed := by
        intro m l' y hmem
        rcases List.mem_append.1 hmem with hmem | hmem
        · exact (t.closed m l' y hmem).imp_right fun hl' => List.mem_append_left _ hl'
        · obtain ⟨⟨-, rfl⟩, -⟩ : (m = n ∧ l' = l) ∧ y = x := by simpa using hmem
          by_cases hl : l' = []
          · exact Or.inl hl
          · exact Or.inr (List.mem_append_left _ ((get_eq_some hl).1 h.1))
      cwd_dir := by
        intro l' y hs hmem
        rcases List.mem_append.1 hmem with hmem | hmem
        · exact t.cwd_dir l' y hs hmem
        · obtain ⟨rfl, rfl⟩ := Prod.mk.inj (List.mem_singleton.1 hmem)
          exact h.2.2 hs }
  else t

/-- A new directory `n` in the directory `l`, if there is room for it. -/
def makeDir [DecidableEq D] (t : FileTree N D) (n : N) (l : Loc N) : FileTree N D :=
  t.make n l .dir

/-- The location and everything below it are removed. -/
def remove (t : FileTree N D) (l : Loc N) : FileTree N D where
  entries := t.entries.filter fun e => ¬ l <:+ e.1
  cwd := t.cwd
  nodup := (List.filter_sublist.map _).nodup t.nodup
  root x hmem := t.root x (List.mem_of_mem_filter hmem)
  closed := by
    intro n l' x hmem
    obtain ⟨hmem, hnot⟩ := List.mem_filter.1 hmem
    refine (t.closed n l' x hmem).imp_right fun hdir => List.mem_filter.2 ⟨hdir, ?_⟩
    have hnot' : ¬ l <:+ n :: l' := by simpa using hnot
    simpa using fun hs : l <:+ l' => hnot' (hs.trans (List.suffix_cons n l'))
  cwd_dir l' x hs hmem := t.cwd_dir l' x hs (List.mem_of_mem_filter hmem)

lemma get_make [DecidableEq D] (h : t.Room n l x) (k : Loc N) :
    (t.make n l x).get k = if k = n :: l then some x else t.get k := by
  have hentries : (t.make n l x).entries = t.entries ++ [(n :: l, x)] := by rw [make, dif_pos h]
  by_cases hk : k = []
  · subst hk
    simp
  · refine Option.ext fun y => ?_
    rw [get_eq_some hk, hentries, List.mem_append, ← get_eq_some hk]
    split
    · rename_i heq
      subst heq
      simp [h.2.1, eq_comm]
    · rename_i hne
      simp [hne]

lemma room_dir : t.Room n l .dir ↔ t.get l = some .dir ∧ t.get (n :: l) = none := by
  simp [Room]

lemma makeDir_of_not [DecidableEq D] (h : ¬ (t.get l = some .dir ∧ t.get (n :: l) = none)) :
    t.makeDir n l = t := dif_neg fun hroom => h (room_dir.1 hroom)

lemma get_makeDir [DecidableEq D] (h : t.get l = some .dir) (h' : t.get (n :: l) = none)
    (k : Loc N) : (t.makeDir n l).get k = if k = n :: l then some .dir else t.get k :=
  get_make (room_dir.2 ⟨h, h'⟩) k

lemma get_remove (hl : l ≠ []) (k : Loc N) :
    (t.remove l).get k = if l <:+ k then none else t.get k := by
  by_cases hk : k = []
  · subst hk
    simp [hl]
  · refine Option.ext fun x => ?_
    rw [get_eq_some hk, remove, List.mem_filter, ← get_eq_some hk]
    split <;> rename_i hs <;> simp [hs]

/-- A part of a tree. -/
structure Sub (t t' : FileTree N D) : Prop where
  cwd : t.cwd = t'.cwd
  get : ∀ l x, t.get l = some x → t'.get l = some x

lemma Sub.refl (t : FileTree N D) : Sub t t := ⟨rfl, fun _ _ h => h⟩

lemma Sub.trans {t₁ t₂ t₃ : FileTree N D} (h : Sub t₁ t₂) (h' : Sub t₂ t₃) : Sub t₁ t₃ :=
  ⟨h.cwd.trans h'.cwd, fun l x hx => h'.get l x (h.get l x hx)⟩

lemma Sub.get_eq_none {t t' : FileTree N D} (h : Sub t t') (hnone : t'.get l = none) :
    t.get l = none := by
  cases hx : t.get l with
  | none => rfl
  | some x => exact absurd (h.get l x hx) (by simp [hnone])

lemma sub_remove (t : FileTree N D) (hl : l ≠ []) : Sub (t.remove l) t := by
  refine ⟨rfl, fun k x hx => ?_⟩
  rw [get_remove hl] at hx
  split at hx
  · cases hx
  · exact hx

lemma sub_make [DecidableEq D] (t : FileTree N D) (n : N) (l : Loc N) (x : Node N D) :
    Sub t (t.make n l x) := by
  by_cases h : t.Room n l x
  · refine ⟨by rw [make, dif_pos h], fun k y hy => ?_⟩
    rw [get_make h]
    split
    · rename_i heq
      rw [heq, h.2.1] at hy
      cases hy
    · exact hy
  · rw [make, dif_neg h]
    exact .refl t

lemma sub_makeDir [DecidableEq D] (t : FileTree N D) (n : N) (l : Loc N) :
    Sub t (t.makeDir n l) := sub_make t n l .dir

/-! ### Contents of files -/

/-- The tree with other contents of its files. -/
def fill (t : FileTree N D) (f : Loc N → D) : FileTree N D where
  entries := t.entries.map fun e => (e.1, e.2.fill (f e.1))
  cwd := t.cwd
  nodup := by
    rw [List.map_map]
    exact t.nodup
  root x hmem := by
    obtain ⟨⟨l, y⟩, hmem, heq⟩ := List.mem_map.1 hmem
    obtain ⟨rfl, -⟩ := Prod.mk.inj heq
    exact t.root y hmem
  closed n l x hmem := by
    obtain ⟨⟨l', y⟩, hmem, heq⟩ := List.mem_map.1 hmem
    obtain ⟨rfl, -⟩ := Prod.mk.inj heq
    exact (t.closed n l y hmem).imp_right fun hdir => List.mem_map.2 ⟨_, hdir, rfl⟩
  cwd_dir l x hs hmem := by
    obtain ⟨⟨l', y⟩, hy, heq⟩ := List.mem_map.1 hmem
    obtain ⟨rfl, rfl⟩ := Prod.mk.inj heq
    obtain rfl := t.cwd_dir l' y hs hy
    rfl

lemma get_fill (t : FileTree N D) (f : Loc N → D) (l : Loc N) :
    (t.fill f).get l = (t.get l).map (Node.fill (f l)) := by
  by_cases hl : l = []
  · subst hl
    rfl
  · refine Option.ext fun x => ?_
    rw [get_eq_some hl, Option.map_eq_some_iff]
    constructor
    · intro hmem
      obtain ⟨⟨l', y⟩, hy, heq⟩ := List.mem_map.1 hmem
      obtain ⟨rfl, rfl⟩ := Prod.mk.inj heq
      exact ⟨y, (get_eq_some hl).2 hy, rfl⟩
    · rintro ⟨y, hy, rfl⟩
      exact List.mem_map.2 ⟨_, (get_eq_some hl).1 hy, rfl⟩

/-- What is there stays, but for the contents of files. -/
structure Grows (t t' : FileTree N D) : Prop where
  cwd : t.cwd = t'.cwd
  get : ∀ l x, t.get l = some x → ∃ y, t'.get l = some y ∧ x.Like y

lemma Sub.grows {t t' : FileTree N D} (h : Sub t t') : Grows t t' :=
  ⟨h.cwd, fun l x hx => ⟨x, h.get l x hx, Or.inl rfl⟩⟩

lemma grows_fill (t : FileTree N D) (f : Loc N → D) : Grows t (t.fill f) := by
  refine ⟨rfl, fun l x hx => ⟨x.fill (f l), by rw [get_fill, hx]; rfl, ?_⟩⟩
  cases x with
  | file d => exact Or.inr ⟨d, f l, rfl, rfl⟩
  | _ => exact Or.inl rfl

/-! ### Walks -/

/-- One may go on from here: it is a directory, or the working directory or one above it, which
may have been removed. -/
def Passable (t : FileTree N D) (l : Loc N) : Prop := t.get l = some .dir ∨ l <:+ t.cwd

instance [DecidableEq D] (t : FileTree N D) (l : Loc N) : Decidable (t.Passable l) :=
  inferInstanceAs (Decidable (_ ∨ _))

lemma Grows.dir {t t' : FileTree N D} (h : Grows t t') (hl : t.get l = some .dir) :
    t'.get l = some .dir := by
  obtain ⟨y, hy, rfl | ⟨d, d', hfile, -⟩⟩ := h.get l .dir hl
  · exact hy
  · cases hfile

lemma Passable.grows (h : t.Passable l) (hg : Grows t t') : t'.Passable l :=
  h.imp hg.dir fun hs => hg.cwd ▸ hs

lemma Passable.mono (h : t.Passable l) (hsub : Sub t t') : t'.Passable l := h.grows hsub.grows

lemma Passable.tail (h : t.Passable l) : t.Passable l.tail := by
  cases l with
  | nil => exact h
  | cons n l => exact h.imp get_parent fun hs => (List.suffix_cons n l).trans hs

/-- No file and no link is passable. -/
lemma Passable.eq_dir (h : t.Passable l) (hx : t.get l = some x) : x = .dir := by
  rcases h with hdir | hs
  · exact Option.some.inj (hx.symm.trans hdir)
  · by_cases hl : l = []
    · subst hl
      exact (Option.some.inj hx).symm
    · exact t.cwd_dir l x hs ((get_eq_some hl).1 hx)

/-- Why a walk ends early. -/
inductive WalkError where
  | noEntry
  | notDir
  | loop
deriving DecidableEq, Repr

/-- The walk until the first link, from where it `jump`s; the last component is not replaced if
links are not followed. -/
def walkFrom [DecidableEq D] (t : FileTree N D) (follow : Bool) (budget : ℕ)
    (jump : Loc N → List (Comp N) → Except WalkError (Loc N × ℕ)) :
    Loc N → List (Comp N) → Except WalkError (Loc N × ℕ)
  | l, [] => .ok (l, budget)
  | l, c :: cs =>
    if t.Passable l then
      match c with
      | .self => walkFrom t follow budget jump l cs
      | .up => walkFrom t follow budget jump l.tail cs
      | .name n =>
        match t.get (n :: l) with
        | none => .error .noEntry
        | some (.link tgt) =>
          if cs = [] ∧ follow = false then .ok (n :: l, budget)
          else jump (tgt.start l) (tgt.comps ++ cs)
        | some _ => walkFrom t follow budget jump (n :: l) cs
    else .error .notDir

/-- The walk from a location, with the number of links that may still be replaced. -/
def walk [DecidableEq D] (t : FileTree N D) (follow : Bool) :
    ℕ → Loc N → List (Comp N) → Except WalkError (Loc N × ℕ)
  | 0 => walkFrom t follow 0 fun _ _ => .error .loop
  | budget + 1 => walkFrom t follow (budget + 1) (walk t follow budget)

/-- A walk that arrives. -/
inductive Walks (t : FileTree N D) (follow : Bool) :
    ℕ → Loc N → List (Comp N) → Loc N → ℕ → Prop where
  | done (k : ℕ) (l : Loc N) : Walks t follow k l [] l k
  | self {k k' : ℕ} {l r : Loc N} {cs : List (Comp N)} (hl : t.Passable l)
      (h : Walks t follow k l cs r k') : Walks t follow k l (.self :: cs) r k'
  | up {k k' : ℕ} {l r : Loc N} {cs : List (Comp N)} (hl : t.Passable l)
      (h : Walks t follow k l.tail cs r k') : Walks t follow k l (.up :: cs) r k'
  | entry {k k' : ℕ} {l r : Loc N} {cs : List (Comp N)} {n : N} {x : Node N D}
      (hl : t.Passable l) (hx : t.get (n :: l) = some x)
      (hlink : ∀ tgt, x = .link tgt → cs = [] ∧ follow = false)
      (h : Walks t follow k (n :: l) cs r k') : Walks t follow k l (.name n :: cs) r k'
  | link {k k' : ℕ} {l r : Loc N} {cs : List (Comp N)} {n : N} {tgt : Target N}
      (hl : t.Passable l) (hx : t.get (n :: l) = some (.link tgt))
      (hfollow : ¬ (cs = [] ∧ follow = false))
      (h : Walks t follow k (tgt.start l) (tgt.comps ++ cs) r k') :
      Walks t follow (k + 1) l (.name n :: cs) r k'

section Walks

variable {follow : Bool} {k k' k₁ : ℕ} {r r' : Loc N} {cs ds : List (Comp N)}

@[simp] lemma walk_nil [DecidableEq D] : t.walk follow k l [] = .ok (l, k) := by
  cases k <;> rfl

lemma walk_self [DecidableEq D] (hl : t.Passable l) :
    t.walk follow k l (.self :: cs) = t.walk follow k l cs := by
  cases k <;> simp [walk, walkFrom, hl]

lemma walk_up [DecidableEq D] (hl : t.Passable l) :
    t.walk follow k l (.up :: cs) = t.walk follow k l.tail cs := by
  cases k <;> simp [walk, walkFrom, hl]

lemma walk_name [DecidableEq D] (hl : t.Passable l) :
    t.walk follow k l (.name n :: cs) =
      match t.get (n :: l) with
      | none => .error .noEntry
      | some (.link tgt) =>
        if cs = [] ∧ follow = false then .ok (n :: l, k)
        else
          match k with
          | 0 => .error .loop
          | k + 1 => t.walk follow k (tgt.start l) (tgt.comps ++ cs)
      | some _ => t.walk follow k (n :: l) cs := by
  cases k <;> simp [walk, walkFrom, hl]

lemma walk_not_passable [DecidableEq D] {c : Comp N} (hl : ¬ t.Passable l) :
    t.walk follow k l (c :: cs) = .error .notDir := by
  cases k <;> simp [walk, walkFrom, hl]

lemma Walks.walk_eq [DecidableEq D] (h : Walks t follow k l cs r k') :
    t.walk follow k l cs = .ok (r, k') := by
  induction h with
  | done => exact walk_nil
  | self hl _ ih => rw [walk_self hl, ih]
  | up hl _ ih => rw [walk_up hl, ih]
  | @entry k k' l r cs n x hl hx hlink h ih =>
    rw [walk_name hl, hx]
    cases x with
    | link tgt =>
      obtain ⟨rfl, rfl⟩ := hlink tgt rfl
      rw [walk_nil] at ih
      simp [← ih]
    | dir | file => exact ih
  | link hl hx hfollow _ ih =>
    rw [walk_name hl, hx]
    simp only [if_neg hfollow]
    exact ih

/-- Between two links the path gets shorter. -/
lemma walks_of_walk [DecidableEq D]
    (hjump : ∀ k₀, k = k₀ + 1 → ∀ l cs, t.walk follow k₀ l cs = .ok (r, k') →
      Walks t follow k₀ l cs r k')
    (h : t.walk follow k l cs = .ok (r, k')) : Walks t follow k l cs r k' := by
  induction cs generalizing l with
  | nil =>
    rw [walk_nil] at h
    cases h
    exact .done _ _
  | cons c cs ih =>
    by_cases hl : t.Passable l
    · cases c with
      | self =>
        rw [walk_self hl] at h
        exact .self hl (ih h)
      | up =>
        rw [walk_up hl] at h
        exact .up hl (ih h)
      | name n =>
        rw [walk_name hl] at h
        split at h
        · cases h
        · rename_i tgt hx
          split at h
          · rename_i hstop
            cases h
            obtain ⟨rfl, rfl⟩ := hstop
            exact .entry hl hx (fun _ _ => ⟨rfl, rfl⟩) (.done _ _)
          · rename_i hfollow
            cases k with
            | zero => cases h
            | succ k => exact .link hl hx hfollow (hjump k rfl _ _ h)
        · rename_i x hne hx
          exact .entry hl hx (fun tgt htgt => absurd htgt (hne tgt)) (ih h)
    · rw [walk_not_passable hl] at h
      cases h

/-- The walk finds what `Walks` describes. -/
lemma walk_eq_ok [DecidableEq D] :
    t.walk follow k l cs = .ok (r, k') ↔ Walks t follow k l cs r k' := by
  refine ⟨fun h => ?_, Walks.walk_eq⟩
  induction k generalizing l cs with
  | zero => exact walks_of_walk (by simp) h
  | succ k ih =>
    refine walks_of_walk (fun k₀ hk₀ l cs h => ?_) h
    obtain rfl : k = k₀ := by omega
    exact ih h

/-- Links that have been replaced do not come back. -/
lemma Walks.budget_le (h : Walks t follow k l cs r k') : k' ≤ k := by
  induction h with
  | done => exact le_rfl
  | self _ _ ih => exact ih
  | up _ _ ih => exact ih
  | entry _ _ _ _ ih => exact ih
  | link _ _ _ _ ih => exact Nat.le_succ_of_le ih

lemma Walks.unique (h : Walks t follow k l cs r k') {k'' : ℕ} (h' : Walks t follow k l cs r' k'') :
    r = r' ∧ k' = k'' := by
  classical
  have heq := h.walk_eq.symm.trans h'.walk_eq
  exact Prod.mk.inj (Except.ok.inj heq)

lemma Walks.grows (h : Walks t follow k l cs r k') (hg : Grows t t') :
    Walks t' follow k l cs r k' := by
  induction h with
  | done => exact .done _ _
  | self hl _ ih => exact .self (hl.grows hg) ih
  | up hl _ ih => exact .up (hl.grows hg) ih
  | entry hl hx hlink _ ih =>
    obtain ⟨y, hy, rfl | ⟨d, d', -, rfl⟩⟩ := hg.get _ _ hx
    · exact .entry (hl.grows hg) hy hlink ih
    · exact .entry (hl.grows hg) hy (by simp) ih
  | link hl hx hfollow _ ih =>
    obtain ⟨y, hy, rfl | ⟨d, d', hfile, -⟩⟩ := hg.get _ _ hx
    · exact .link (hl.grows hg) hy hfollow ih
    · cases hfile

lemma Walks.mono (h : Walks t follow k l cs r k') (hsub : Sub t t') :
    Walks t' follow k l cs r k' := h.grows hsub.grows

lemma Walks.append (h : Walks t true k l cs r k₁) (h' : Walks t follow k₁ r ds r' k')
    (hds : ds ≠ []) : Walks t follow k l (cs ++ ds) r' k' := by
  induction h with
  | done => exact h'
  | self hl _ ih => exact .self hl (ih h')
  | up hl _ ih => exact .up hl (ih h')
  | entry hl hx hlink _ ih =>
    exact .entry hl hx (fun tgt htgt => absurd (hlink tgt htgt).2 (by simp)) (ih h')
  | link hl hx hfollow _ ih =>
    refine .link hl hx (fun hnil => hds (List.append_eq_nil_iff.1 hnil.1).2) ?_
    exact List.append_assoc .. ▸ ih h'

lemma Walks.split (h : Walks t follow k l (cs ++ ds) r' k') (hds : ds ≠ []) :
    ∃ r k₁, Walks t true k l cs r k₁ ∧ Walks t follow k₁ r ds r' k' := by
  generalize hes : cs ++ ds = es at h
  induction h generalizing cs with
  | done => exact absurd (List.append_eq_nil_iff.1 hes).2 hds
  | @self k k' l r es hl h ih =>
    cases cs with
    | nil =>
      obtain rfl := hes
      exact ⟨l, k, .done _ _, .self hl h⟩
    | cons c cs =>
      obtain ⟨rfl, rfl⟩ := List.cons.inj hes
      obtain ⟨r, k₁, h₁, h₂⟩ := ih rfl
      exact ⟨r, k₁, .self hl h₁, h₂⟩
  | @up k k' l r es hl h ih =>
    cases cs with
    | nil =>
      obtain rfl := hes
      exact ⟨l, k, .done _ _, .up hl h⟩
    | cons c cs =>
      obtain ⟨rfl, rfl⟩ := List.cons.inj hes
      obtain ⟨r, k₁, h₁, h₂⟩ := ih rfl
      exact ⟨r, k₁, .up hl h₁, h₂⟩
  | @entry k k' l r es n x hl hx hlink h ih =>
    cases cs with
    | nil =>
      obtain rfl := hes
      exact ⟨l, k, .done _ _, .entry hl hx hlink h⟩
    | cons c cs =>
      obtain ⟨rfl, rfl⟩ := List.cons.inj hes
      obtain ⟨r, k₁, h₁, h₂⟩ := ih rfl
      refine ⟨r, k₁, .entry hl hx (fun tgt htgt => ?_) h₁, h₂⟩
      exact absurd (List.append_eq_nil_iff.1 (hlink tgt htgt).1).2 hds
  | @link k k' l r es n tgt hl hx hfollow h ih =>
    cases cs with
    | nil =>
      obtain rfl := hes
      exact ⟨l, k + 1, .done _ _, .link hl hx hfollow h⟩
    | cons c cs =>
      obtain ⟨rfl, rfl⟩ := List.cons.inj hes
      obtain ⟨r, k₁, h₁, h₂⟩ := ih (List.append_assoc ..)
      exact ⟨r, k₁, .link hl hx (by simp) h₁, h₂⟩

/-- A walk that does not follow a last link stops at the link or arrives at the same place. -/
lemma Walks.nofollow (h : Walks t true k l cs r k') :
    ∃ r' k'', Walks t false k l cs r' k'' ∧ (r' = r ∨ ∃ tgt, t.get r' = some (.link tgt)) := by
  induction h with
  | done k l => exact ⟨l, k, .done _ _, Or.inl rfl⟩
  | self hl _ ih =>
    obtain ⟨r', k'', h, hr⟩ := ih
    exact ⟨r', k'', .self hl h, hr⟩
  | up hl _ ih =>
    obtain ⟨r', k'', h, hr⟩ := ih
    exact ⟨r', k'', .up hl h, hr⟩
  | entry hl hx hlink _ ih =>
    obtain ⟨r', k'', h, hr⟩ := ih
    exact ⟨r', k'', .entry hl hx (fun tgt htgt => absurd (hlink tgt htgt).2 (by simp)) h, hr⟩
  | @link k k' l r cs n tgt hl hx _ _ ih =>
    by_cases hcs : cs = []
    · subst hcs
      exact ⟨n :: l, k + 1, .entry hl hx (fun _ _ => ⟨rfl, rfl⟩) (.done _ _), Or.inr ⟨tgt, hx⟩⟩
    · obtain ⟨r', k'', h, hr⟩ := ih
      exact ⟨r', k'', .link hl hx (fun hstop => hcs hstop.1) h, hr⟩

/-- A last component `.` asks for a directory. -/
lemma walks_append_self :
    Walks t follow k l (cs ++ [.self]) r k' ↔ Walks t true k l cs r k' ∧ t.Passable r := by
  constructor
  · intro h
    obtain ⟨r₁, k₁, h₁, h₂⟩ := h.split (by simp)
    cases h₂ with
    | self hr hdone =>
      cases hdone
      exact ⟨h₁, hr⟩
  · rintro ⟨h, hr⟩
    exact h.append (.self hr (.done _ _)) (by simp)

end Walks

end FileTree

end PureStd
