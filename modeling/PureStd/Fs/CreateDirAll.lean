/-
What `create_dir_all` leaves behind.

Whatever other processes make in the meantime and whichever calls fail, `create_dir_all(p)` adds
directories on the way to `p` and nothing else.  If it returns `Ok`, then `p` names a directory,
unless an entry that is no directory stands in its place: `AlreadyExists` is taken for success.
-/
import PureStd.Fs.Lookup

namespace PureStd.Fs

open FileTree

variable {t t' : Tree} {p q : Path} {w w' w₁ w₂ : World}

/-! ### The statement -/

/-- The location is reached by the first components of the path. -/
def OnTheWay (t : Tree) (p : Path) (l : Loc FileName) : Prop :=
  ∃ cs k, cs <+: comps p ∧ Walks t true maxLinks (start t p) cs l k

/-- Another process makes a directory there. -/
def MadeByOthers (turns : List Turn) (l : Loc FileName) : Prop :=
  ∃ turn ∈ turns, ∃ d ∈ turn.others, l = d.1 :: d.2

/-- Whatever happens at its calls, `create_dir_all(p)` returns `Ok` only if `p` then names a
directory; everything that was there is still there; and what is new are directories on the way
to `p`, apart from those that others make. -/
def Creates (t : Tree) (p : Path) : Prop :=
  ∀ turns typed,
    ((createDirAll p ⟨t, turns, typed⟩).2 = .ok () →
      NamesDir (createDirAll p ⟨t, turns, typed⟩).1.tree p) ∧
    Sub t (createDirAll p ⟨t, turns, typed⟩).1.tree ∧
    ∀ l x, (createDirAll p ⟨t, turns, typed⟩).1.tree.get l = some x →
      t.get l = some x ∨
      x = .dir ∧ (OnTheWay (createDirAll p ⟨t, turns, typed⟩).1.tree p l ∨ MadeByOthers turns l)

/-- The last name of the path is taken by something that is no directory and does not lead to
one. -/
def Occupied (t : Tree) (p : Path) : Prop :=
  0 ∉ p ∧ (∃ l n, lookupParent t p = .ok (.entry l n) ∧ t.get (n :: l) ≠ none) ∧ ¬ NamesDir t p

/-! ### Growing trees -/

lemma makeDirs_append (t : Tree) (ds es : List (FileName × Loc FileName)) :
    makeDirs t (ds ++ es) = makeDirs (makeDirs t ds) es := List.foldl_append

lemma sub_makeDirs (t : Tree) (ds : List (FileName × Loc FileName)) : Sub t (makeDirs t ds) := by
  induction ds generalizing t with
  | nil => exact .refl t
  | cons d ds ih => exact (sub_makeDir t d.1 d.2).trans (ih _)

lemma get_makeDirs {ds : List (FileName × Loc FileName)} {l : Loc FileName}
    {x : Node FileName (List UInt8)} (h : (makeDirs t ds).get l = some x) :
    t.get l = some x ∨ x = .dir ∧ ∃ d ∈ ds, l = d.1 :: d.2 := by
  induction ds generalizing t with
  | nil => exact Or.inl h
  | cons d ds ih =>
    rcases ih h with hx | ⟨hdir, d', hd', hl⟩
    · change (t.makeDir d.1 d.2).get l = some x at hx
      by_cases hmade : t.get d.2 = some .dir ∧ t.get (d.1 :: d.2) = none
      · rw [get_makeDir hmade.1 hmade.2] at hx
        split at hx
        · exact Or.inr ⟨(Option.some.inj hx).symm, d, List.mem_cons_self .., ‹_›⟩
        · exact Or.inl hx
      · rw [makeDir_of_not hmade] at hx
        exact Or.inl hx
    · exact Or.inr ⟨hdir, d', List.mem_cons_of_mem d hd', hl⟩

lemma OnTheWay.mono {l : Loc FileName} (h : OnTheWay t p l) (hsub : Sub t t') :
    OnTheWay t' p l := by
  obtain ⟨cs, k, hcs, hwalk⟩ := h
  exact ⟨cs, k, hcs, start_of_sub hsub p ▸ hwalk.mono hsub⟩

/-- The way to the parent is a part of the way. -/
lemma OnTheWay.of_parent {l : Loc FileName} (h : OnTheWay t q l) (hq : Path.parent p = some q) :
    OnTheWay t p l := by
  obtain ⟨cs, k, hcs, hwalk⟩ := h
  have hcomps : comps q <+: comps p := by
    rw [comps, Path.pieces_parent hq, comps]
    exact (List.dropLast_prefix _).filterMap comp
  rw [start_parent hq] at hwalk
  exact ⟨cs, k, hcs.trans hcomps, hwalk⟩

/-- What a part of `create_dir_all(p)` does to the world. -/
structure Grew (p : Path) (w w' : World) : Prop where
  tree : ∃ ds, w'.tree = makeDirs w.tree ds
  turns : w'.turns <:+ w.turns
  added : ∀ l x, w'.tree.get l = some x →
    w.tree.get l = some x ∨ x = .dir ∧ (OnTheWay w'.tree p l ∨ MadeByOthers w.turns l)

namespace Grew

lemma sub (h : Grew p w w') : Sub w.tree w'.tree := by
  obtain ⟨ds, hds⟩ := h.tree
  rw [hds]
  exact sub_makeDirs _ _

lemma refl (p : Path) (w : World) : Grew p w w :=
  ⟨⟨[], rfl⟩, List.suffix_refl _, fun _ _ h => Or.inl h⟩

lemma trans (h : Grew p w w₁) (h' : Grew p w₁ w₂) : Grew p w w₂ := by
  refine ⟨?_, h'.turns.trans h.turns, fun l x hx => ?_⟩
  · obtain ⟨ds, hds⟩ := h.tree
    obtain ⟨es, hes⟩ := h'.tree
    exact ⟨ds ++ es, by rw [makeDirs_append, ← hds, hes]⟩
  · rcases h'.added l x hx with hx | ⟨hdir, hway | hothers⟩
    · rcases h.added l x hx with hx | ⟨hdir, hway | hothers⟩
      · exact Or.inl hx
      · exact Or.inr ⟨hdir, Or.inl (hway.mono h'.sub)⟩
      · exact Or.inr ⟨hdir, Or.inr hothers⟩
    · exact Or.inr ⟨hdir, Or.inl hway⟩
    · obtain ⟨turn, hturn, hmade⟩ := hothers
      exact Or.inr ⟨hdir, Or.inr ⟨turn, h.turns.subset hturn, hmade⟩⟩

lemma of_parent (h : Grew q w w') (hq : Path.parent p = some q) : Grew p w w' := by
  refine ⟨h.tree, h.turns, fun l x hx => ?_⟩
  rcases h.added l x hx with hx | ⟨hdir, hway | hothers⟩
  · exact Or.inl hx
  · exact Or.inr ⟨hdir, Or.inl (hway.of_parent hq)⟩
  · exact Or.inr ⟨hdir, Or.inr hothers⟩

/-- Before a call, others may make directories. -/
lemma pop (p : Path) (w : World) : Grew p w w.pop.1 := by
  rw [World.pop]
  split
  · exact refl p w
  · rename_i turn turns hturns
    refine ⟨⟨turn.others, rfl⟩, ?_, fun l x hx => ?_⟩
    · rw [hturns]
      exact List.suffix_cons turn turns
    · rcases get_makeDirs hx with hx | ⟨hdir, hmade⟩
      · exact Or.inl hx
      · refine Or.inr ⟨hdir, Or.inr ⟨turn, ?_, hmade⟩⟩
        rw [hturns]
        exact List.mem_cons_self ..

end Grew

/-! ### The calls -/

/-- What `mkdir` makes is where its path leads. -/
lemma mkdir_eq_ok (h : mkdir t p = .ok t') :
    ∃ l n k, t.get l = some .dir ∧ t.get (n :: l) = none ∧ t' = t.makeDir n l ∧
      Walks t' true maxLinks (start t' p) (comps p) (n :: l) k := by
  rw [mkdir] at h
  split at h
  · cases h
  · rename_i l n hentry
    split at h
    · cases h
    · rename_i hnone
      split at h
      · rename_i hdir
        cases h
        have hnone' : t.get (n :: l) = none := not_not.1 hnone
        have hsub := sub_makeDir t n l
        obtain ⟨cs, k, hcs, hwalk, hl⟩ := lookupParent_entry.1 hentry
        have hget : (t.makeDir n l).get (n :: l) = some .dir := by
          rw [get_makeDir hdir hnone', if_pos rfl]
        refine ⟨l, n, k, hdir, hnone', rfl, ?_⟩
        rw [hcs, start_of_sub hsub]
        exact (hwalk.mono hsub).append (.entry (hl.mono hsub) hget (by simp) (.done _ _)) (by simp)
      · cases h
  · cases h

lemma Grew.mkdir (h : mkdir w.tree p = .ok t) : Grew p w { w with tree := t } := by
  obtain ⟨l, n, k, hdir, hnone, rfl, hwalk⟩ := mkdir_eq_ok h
  refine ⟨⟨[(n, l)], rfl⟩, List.suffix_refl _, fun l' x hx => ?_⟩
  have hx' : (w.tree.makeDir n l).get l' = some x := hx
  rw [get_makeDir hdir hnone] at hx'
  split at hx'
  · rename_i heq
    subst heq
    exact Or.inr ⟨(Option.some.inj hx').symm, Or.inl ⟨_, k, List.prefix_rfl, hwalk⟩⟩
  · exact Or.inl hx'

lemma mkdir_namesDir (h : mkdir t p = .ok t') : NamesDir t' p := by
  have hp : p ≠ [] := by
    rintro rfl
    cases h
  obtain ⟨l, n, k, hdir, hnone, rfl, hwalk⟩ := mkdir_eq_ok h
  have hpass : (t.makeDir n l).Passable (n :: l) := by
    left
    rw [get_makeDir hdir hnone, if_pos rfl]
  exact namesDir_of_reaches hp (reaches_of_walks hwalk hpass) hpass

lemma lookupParent_ne_exist {e : Errno} (h : lookupParent t p = .error e) : e ≠ .exist := by
  rw [lookupParent] at h
  split at h
  · split at h <;> cases h
    decide
  · split at h
    · rename_i e' _
      cases h
      cases e' <;> decide
    · split at h <;> cases h

/-- If `mkdir` finds an entry, the path names a directory or is occupied. -/
lemma mkdir_exist (hnul : 0 ∉ p) (h : mkdir t p = .error .exist) :
    NamesDir t p ∨ Occupied t p := by
  rw [mkdir] at h
  split at h
  · rename_i e herr
    cases h
    exact absurd rfl (lookupParent_ne_exist herr)
  · rename_i l n hentry
    split at h
    · rename_i hsome
      by_cases hdir : NamesDir t p
      · exact Or.inl hdir
      · exact Or.inr ⟨hnul, ⟨l, n, hentry, hsome⟩, hdir⟩
    · split at h <;> cases h
  · rename_i last hne hlast
    obtain ⟨hp, l, k, hwalk, hl⟩ := lookupParent_dir hnul hlast hne
    exact Or.inl (namesDir_of_reaches hp (reaches_of_walks hwalk hl) hl)

/-- The end of `create_dir_all`. -/
lemma createLast_spec (p : Path) (w : World) :
    Grew p w (createLast p (w, .ok ())).1 ∧
    ((createLast p (w, .ok ())).2 = .ok () →
      NamesDir (createLast p (w, .ok ())).1.tree p ∨
        Occupied (createLast p (w, .ok ())).1.tree p) := by
  have hsys : Sys p (fun t c => (mkdir t c).map (·, ())) w (createDir p w) := sys_cases ..
  rw [createLast]
  generalize createDir p w = res at hsys ⊢
  cases hsys with
  | nul => exact ⟨.refl p w, nofun⟩
  | fault hnul hpop =>
    rename_i e
    have hne : Errno.kind e.1 ≠ .alreadyExists := fun h => e.2 (kind_eq_alreadyExists.1 h)
    simp only [if_neg hne]
    exact ⟨.pop p w, nofun⟩
  | error hnul hpop hop =>
    rename_i e
    have hmkdir : mkdir w.pop.1.tree p = .error e := by
      cases hm : mkdir w.pop.1.tree p with
      | error e' =>
        rw [hm] at hop
        cases hop
        rfl
      | ok t' =>
        rw [hm] at hop
        cases hop
    by_cases he : e.kind = .alreadyExists
    · simp only [if_pos he]
      obtain rfl := kind_eq_alreadyExists.1 he
      exact ⟨.pop p w, fun _ => mkdir_exist hnul hmkdir⟩
    · simp only [if_neg he]
      exact ⟨.pop p w, nofun⟩
  | ok hnul hpop hop =>
    rename_i tree a
    have hmkdir : mkdir w.pop.1.tree p = .ok tree := by
      cases hm : mkdir w.pop.1.tree p with
      | error e' =>
        rw [hm] at hop
        cases hop
      | ok t' =>
        rw [hm] at hop
        cases hop
        rfl
    exact ⟨(Grew.pop p w).trans (.mkdir hmkdir), fun _ => Or.inl (mkdir_namesDir hmkdir)⟩

/-- `metadata` changes nothing but what others make, and says what the path names. -/
lemma metadata_spec (p : Path) (w : World) :
    Grew p w (metadata p w).1 ∧
    ((metadata p w).2 = .ok .dir → NamesDir (metadata p w).1.tree p) := by
  have hsys : Sys p (fun t c => (statat t c true).map (t, ·)) w (metadata p w) := sys_cases ..
  generalize metadata p w = res at hsys ⊢
  cases hsys with
  | nul => exact ⟨.refl p w, nofun⟩
  | fault | error => exact ⟨.pop p w, nofun⟩
  | ok hnul hpop hop =>
    rename_i tree a
    cases hs : statat w.pop.1.tree p true with
    | error e =>
      rw [hs] at hop
      cases hop
    | ok ft =>
      rw [hs] at hop
      cases hop
      refine ⟨.pop p w, fun h => ?_⟩
      rw [NamesDir, hs, Except.ok.inj h]

/-- The two ways through `create_dir_all`. -/
lemma createDirAll_cases (p : Path) (w : World) :
    (∃ w₁, metadata p w = (w₁, .ok .dir) ∧ createDirAll p w = (w₁, .ok ())) ∨
    ∃ w₁ r, metadata p w = (w₁, r) ∧ r ≠ .ok .dir ∧
      ((∃ q, Path.parent p = some q ∧ createDirAll p w = createLast p (createDirAll q w₁)) ∨
        createDirAll p w = createLast p (w₁, .ok ())) := by
  rw [createDirAll]
  split
  · rename_i w₁ heq
    exact Or.inl ⟨w₁, heq, rfl⟩
  · rename_i w₁ r hne heq
    refine Or.inr ⟨w₁, r, heq, fun hr => hne (by rw [hr]), ?_⟩
    split
    · rename_i q hq
      rw [if_pos (Path.head?_parent hq).1]
      exact Or.inl ⟨q, hq, rfl⟩
    · exact Or.inr rfl

lemma createDirAll_spec (p : Path) (w : World) :
    Grew p w (createDirAll p w).1 ∧
    ((createDirAll p w).2 = .ok () →
      NamesDir (createDirAll p w).1.tree p ∨ Occupied (createDirAll p w).1.tree p) := by
  induction hn : p.length using Nat.strong_induction_on generalizing p w with
  | _ n ih =>
    obtain ⟨hmeta, hdir⟩ := metadata_spec p w
    rcases createDirAll_cases p w with ⟨w₁, hw₁, heq⟩ | ⟨w₁, r, hw₁, hr, hrest⟩
    · rw [hw₁] at hmeta hdir
      rw [heq]
      exact ⟨hmeta, fun _ => Or.inl (hdir rfl)⟩
    · rw [hw₁] at hmeta
      rcases hrest with ⟨q, hq, heq⟩ | heq
      · obtain ⟨hgrew, -⟩ := ih q.length (hn ▸ Path.length_parent_lt hq) q w₁ rfl
        have hbefore : Grew p w (createDirAll q w₁).1 := hmeta.trans (hgrew.of_parent hq)
        rw [heq]
        rcases hres : createDirAll q w₁ with ⟨w₂, r₂⟩
        rw [hres] at hbefore
        cases r₂ with
        | error e => exact ⟨hbefore, nofun⟩
        | ok _ =>
          obtain ⟨hlast, hok⟩ := createLast_spec p w₂
          exact ⟨hbefore.trans hlast, hok⟩
      · obtain ⟨hlast, hok⟩ := createLast_spec p w₁
        rw [heq]
        exact ⟨hmeta.trans hlast, hok⟩

/-! ### Paths that are occupied -/

/-- If the path is a directory already, that is all. -/
lemma createDirAll_namesDir (hnul : 0 ∉ p) (hpop : w.pop = (w, none)) (h : NamesDir w.tree p) :
    createDirAll p w = (w, .ok ()) := by
  have hmeta : metadata p w = (w, .ok .dir) := by
    rw [metadata, sys_of_pop hnul hpop, show statat w.tree p true = .ok .dir from h]
    rfl
  rcases createDirAll_cases p w with ⟨w₁, hw₁, heq⟩ | ⟨w₁, r, hw₁, hr, -⟩
  · rw [heq, ← (Prod.mk.inj (hmeta.symm.trans hw₁)).1]
  · exact absurd (Prod.mk.inj (hmeta.symm.trans hw₁)).2.symm hr

lemma createDir_occupied (h : Occupied w₁.tree p) (hpop : w.pop = (w₁, none)) :
    createDir p w = (w₁, .error .alreadyExists) := by
  obtain ⟨hnul, ⟨l, n, hentry, hsome⟩, -⟩ := h
  have hmkdir : mkdir w₁.tree p = .error .exist := by
    rw [mkdir, hentry]
    simp [hsome]
  rw [createDir, sys_of_pop hnul hpop, hmkdir]
  rfl

/-- Others make directories, and then the path is occupied: `create_dir_all` succeeds. -/
lemma createDirAll_occupied {ds : List (FileName × Loc FileName)} (typed : Loc FileName → Bool)
    (h : Occupied (makeDirs t ds) p) :
    createDirAll p ⟨t, [⟨ds, none⟩], typed⟩ = (⟨makeDirs t ds, [], typed⟩, .ok ()) := by
  set w₁ : World := ⟨makeDirs t ds, [], typed⟩ with hw₁
  have hpop : World.pop ⟨t, [⟨ds, none⟩], typed⟩ = (w₁, none) := rfl
  have hpop₁ : w₁.pop = (w₁, none) := rfl
  have hlast : createLast p (w₁, .ok ()) = (w₁, .ok ()) := by
    rw [createLast, createDir_occupied h hpop₁]
    rfl
  have hmeta : (metadata p ⟨t, [⟨ds, none⟩], typed⟩).1 = w₁ := by
    rw [metadata, sys_of_pop h.1 hpop]
    cases statat w₁.tree p true <;> rfl
  have hdir := (metadata_spec p ⟨t, [⟨ds, none⟩], typed⟩).2
  rcases createDirAll_cases p ⟨t, [⟨ds, none⟩], typed⟩ with ⟨w₂, hw₂, -⟩ | ⟨w₂, r, hw₂, hr, hrest⟩
  · rw [hw₂] at hmeta hdir
    obtain rfl : w₂ = w₁ := hmeta
    exact absurd (hdir rfl) h.2.2
  · rw [hw₂] at hmeta
    obtain rfl : w₂ = w₁ := hmeta
    rcases hrest with ⟨q, hq, heq⟩ | heq
    · obtain ⟨hnul, ⟨l, n, hentry, -⟩, -⟩ := h
      have hnulq : 0 ∉ q := fun h0 => hnul (Path.mem_of_mem_parent hq h0)
      rw [heq, createDirAll_namesDir hnulq hpop₁ (namesDir_parent hnul hentry hq), hlast]
    · rw [heq, hlast]

/-! ### When `create_dir_all` creates its directory -/

/-- `create_dir_all(p)` does what it should exactly if `p` is not occupied, whatever directories
are added to the tree. -/
theorem creates_iff (t : Tree) (p : Path) : Creates t p ↔ ∀ ds, ¬ Occupied (makeDirs t ds) p := by
  constructor
  · intro h ds hocc
    obtain ⟨hok, -⟩ := h [⟨ds, none⟩] fun _ => true
    rw [createDirAll_occupied _ hocc] at hok
    exact hocc.2.2 (hok rfl)
  · intro h turns typed
    obtain ⟨hgrew, hok⟩ := createDirAll_spec p ⟨t, turns, typed⟩
    obtain ⟨ds, hds⟩ := hgrew.tree
    refine ⟨fun hres => ?_, hgrew.sub, hgrew.added⟩
    rcases hok hres with hdir | hocc
    · exact hdir
    · rw [hds] at hocc
      exact absurd hocc (h ds)

/-- A tree whose root has one entry `f`. -/
def single (x : Node FileName (List UInt8)) : Tree where
  entries := [([⟨[102], by decide⟩], x)]
  cwd := []
  nodup := by simp
  root := by simp
  closed n l y hmem := Or.inl (List.cons.inj (Prod.mk.inj (List.mem_singleton.1 hmem)).1).2
  cwd_dir l y hs hmem := by
    obtain rfl := List.suffix_nil.1 hs
    simp at hmem

/-- A link to a file `g` that does not exist. -/
def dangling : Target FileName := ⟨false, [.name ⟨[103], by decide⟩], by simp⟩

/-- `create_dir_all("f")` succeeds where `f` is a file, and where `f` is a link to nothing. -/
theorem createDirAll_over_file :
    (createDirAll [102] ⟨single (.file []), [], fun _ => true⟩).2 = .ok () ∧
    statat (createDirAll [102] ⟨single (.file []), [], fun _ => true⟩).1.tree [102] true =
      .ok .file ∧
    ¬ Creates (single (.file [])) [102] ∧
    (createDirAll [102] ⟨single (.link dangling), [], fun _ => true⟩).2 = .ok () ∧
    statat (createDirAll [102] ⟨single (.link dangling), [], fun _ => true⟩).1.tree [102] true =
      .error .noent := by
  have hfile : createDirAll [102] ⟨single (.file []), [], fun _ => true⟩ =
      (⟨single (.file []), [], fun _ => true⟩, .ok ()) := by
    rw [createDirAll]
    rfl
  have hlink : createDirAll [102] ⟨single (.link dangling), [], fun _ => true⟩ =
      (⟨single (.link dangling), [], fun _ => true⟩, .ok ()) := by
    rw [createDirAll]
    rfl
  refine ⟨by rw [hfile], by rw [hfile]; rfl, fun h => ?_, by rw [hlink], by rw [hlink]; rfl⟩
  have hdir := (h [] fun _ => true).1
  rw [hfile] at hdir
  cases hdir rfl

end PureStd.Fs
