/-
`Path::ancestors`, `src/path.rs`, and the other code that goes from a path to its parent as long
as there is one: `create_dir_all`, `src/fs.rs`, and loops over `PathBuf::pop`.

A parent is shorter than its path, also where the root is put in for it: this is done only if a
name stands behind the slash.  So the list of the ancestors is finite, and has at most one path
more than the first one has bytes; `create_dir_all` runs along this list, and a loop over `pop`
does as long as its body leaves the path alone.  What may not end takes fuel here; `none` means
that there was not enough of it.
-/
import PureStd.Fs.Dirs
import PureStd.Lib.Descent
import PureStd.Path.Names

namespace PureStd

namespace Path

/-- `Ancestors`. -/
structure Ancestors where
  next : Option Path

/-- `Ancestors::next`: the item, and the iterator after. -/
def Ancestors.nextItem (self : Ancestors) : Option Path × Ancestors :=
  match self.next with
  | none => (none, self)
  | some cur => (some cur, { next := parent cur })

/-- `Path::ancestors`. -/
def ancestors (p : Path) : Ancestors := { next := some p }

/-- The items of a loop over the iterator. -/
def Ancestors.collect : ℕ → Ancestors → Option (List Path)
  | 0, _ => none
  | fuel + 1, self =>
    match self.nextItem with
    | (none, _) => some []
    | (some cur, self) => (collect fuel self).map (cur :: ·)

/-- The body of a loop over `pop`.  It has a state of its own, answers whether the loop goes on,
and leaves a path that is not longer than the one it found. -/
abbrev PopBody (σ : Type) := (q : Path) → σ → Bool × { r : Path // r.length ≤ q.length } × σ

/-- `while p.pop() { body }`: the path and the state after the loop. -/
def popLoop {σ : Type} (body : PopBody σ) : ℕ → Path → σ → Option (Path × σ)
  | 0, _, _ => none
  | fuel + 1, p, s =>
    match pop p with
    | (false, p) => some (p, s)
    | (true, p) =>
      match body p s with
      | (false, r, s) => some (r, s)
      | (true, r, s) => popLoop body fuel r s

end Path

namespace Fs

/-- `create_dir_all`, with at most `depth` calls one in another. -/
def createDirAllWithin : ℕ → Path → World → Option (World × Io.Result Unit)
  | 0, _, _ => none
  | depth + 1, p, w =>
    match metadata p w with
    | (w, .ok .dir) => some (w, .ok ())
    | (w, _) =>
      (match Path.parent p with
        | some parent =>
          if parent ≠ [] then createDirAllWithin depth parent w else some (w, .ok ())
        | none => some (w, .ok ())).map (createLast p)

end Fs

namespace Path

variable {p : Path} {items : List Path}

/-! ### The iterator -/

lemma collect_descent (h : Descent parent p items) :
    ∀ fuel > items.length, (ancestors p).collect fuel = some items := by
  induction h with
  | last hnone =>
    intro fuel hfuel
    obtain ⟨fuel, rfl⟩ := Nat.exists_eq_add_of_le' (show 2 ≤ fuel from hfuel)
    simp [Ancestors.collect, Ancestors.nextItem, ancestors, hnone]
  | step hparent _ ih =>
    intro fuel hfuel
    rw [List.length_cons] at hfuel
    obtain ⟨fuel, rfl⟩ := Nat.exists_eq_add_of_le' (Nat.one_le_of_lt hfuel)
    have hrest := ih fuel (by omega)
    rw [ancestors] at hrest
    simp [Ancestors.collect, Ancestors.nextItem, ancestors, hparent, hrest]

/-! ### Loops over `pop` -/

lemma popLoop_returns {σ : Type} (body : PopBody σ) (p : Path) (s : σ) :
    ∃ q s', ∀ fuel > p.length, popLoop body fuel p s = some (q, s') := by
  induction hlen : p.length using Nat.strong_induction_on generalizing p s with
  | _ n ih =>
    cases hparent : parent p with
    | none =>
      refine ⟨p, s, fun fuel hfuel => ?_⟩
      obtain ⟨fuel, rfl⟩ := Nat.exists_eq_add_of_le' (Nat.one_le_of_lt hfuel)
      simp [popLoop, pop, hparent]
    | some q =>
      have hlt := length_parent_lt hparent
      rcases hbody : body q s with ⟨_ | _, r, s₁⟩
      · refine ⟨r, s₁, fun fuel hfuel => ?_⟩
        obtain ⟨fuel, rfl⟩ := Nat.exists_eq_add_of_le' (Nat.one_le_of_lt hfuel)
        simp [popLoop, pop, hparent, hbody]
      · have hle := r.property
        obtain ⟨q', s', hrun⟩ := ih r.val.length (by omega) r s₁ rfl
        refine ⟨q', s', fun fuel hfuel => ?_⟩
        obtain ⟨fuel, rfl⟩ := Nat.exists_eq_add_of_le' (Nat.one_le_of_lt hfuel)
        simp [popLoop, pop, hparent, hbody, hrun fuel (by omega)]

/-! ### `create_dir_all` -/

/-- If the depth is enough for the call on the parent, one more is enough for the path. -/
lemma createDirAllWithin_succ {depth : ℕ} (hrec : ∀ q, parent p = some q → ∀ w,
      Fs.createDirAllWithin depth q w = some (Fs.createDirAll q w)) (w : Fs.World) :
    Fs.createDirAllWithin (depth + 1) p w = some (Fs.createDirAll p w) := by
  rw [Fs.createDirAll]
  split
  · rename_i w₁ hmeta
    rw [Fs.createDirAllWithin, hmeta]
  · rename_i w₁ r hdir hmeta
    split
    · rename_i q hparent
      simp only [Fs.createDirAllWithin, hmeta, hparent, hrec q hparent]
      split <;> rfl
    · rename_i hparent
      simp only [Fs.createDirAllWithin, hmeta, hparent, Option.map_some]

lemma createDirAllWithin_descent (h : Descent parent p items) :
    ∀ depth ≥ items.length, ∀ w, Fs.createDirAllWithin depth p w = some (Fs.createDirAll p w) := by
  induction h with
  | last hnone =>
    intro depth hdepth w
    obtain ⟨depth, rfl⟩ := Nat.exists_eq_add_of_le' hdepth
    refine createDirAllWithin_succ (fun q hq => ?_) w
    rw [hnone] at hq
    cases hq
  | step hparent _ ih =>
    intro depth hdepth w
    obtain ⟨depth, rfl⟩ := Nat.exists_eq_add_of_le' (Nat.le_of_add_left_le hdepth)
    rw [List.length_cons] at hdepth
    refine createDirAllWithin_succ (fun q hq => ?_) w
    obtain rfl := Option.some.inj (hparent.symm.trans hq)
    exact ih depth (by omega)

/-- The ancestors of a path are finitely many, each the parent of the one before and shorter than
it.  `create_dir_all` calls itself no deeper than there are ancestors, and a loop over `pop` ends,
whatever its body does apart from making the path longer. -/
theorem ancestors_finite (p : Path) :
    ∃ items : List Path,
      (∀ fuel > items.length, (ancestors p).collect fuel = some items) ∧
      items.head? = some p ∧
      items.IsChain (fun q r => parent q = some r ∧ r.length < q.length) ∧
      (∀ q ∈ items.getLast?, parent q = none) ∧
      items.length ≤ p.length + 1 ∧
      (∀ depth ≥ items.length, ∀ w,
        Fs.createDirAllWithin depth p w = some (Fs.createDirAll p w)) ∧
      ∀ (σ : Type) (body : PopBody σ) (s : σ), ∃ q s', ∀ fuel > p.length,
        popLoop body fuel p s = some (q, s') := by
  have hlt : ∀ q r, parent q = some r → r.length < q.length := fun _ _ => length_parent_lt
  obtain ⟨items, h⟩ := Descent.exists_of_lt hlt p
  refine ⟨items, collect_descent h, h.head?, ?_, h.next_getLast?, h.length_le hlt,
    createDirAllWithin_descent h, fun σ body s => popLoop_returns body p s⟩
  exact h.isChain.imp fun q r hparent => ⟨hparent, hlt q r hparent⟩

/-- The ancestors of `/a//b` are `/a//b`, `/a/` and `/`. -/
example : (ancestors [47, 97, 47, 47, 98]).collect 4 =
    some [[47, 97, 47, 47, 98], [47, 97, 47], [47]] := by
  decide

end Path

end PureStd
