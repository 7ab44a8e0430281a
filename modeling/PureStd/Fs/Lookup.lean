/-
What paths name.

The components of `p.join(n)` are those of `p` and the name `n`, and the components of the parent
of `p` are those of `p` without the last.  `lookup` and `lookupParent` are told by walks.
-/
import PureStd.Fs.Dirs

namespace PureStd.Fs

open FileTree

variable {t t' : Tree} {p q : Path} {l : Loc FileName} {n : FileName} {follow : Bool}

/-! ### Components -/

lemma comp_isSome {piece : List UInt8} (hne : piece ≠ []) (hsep : Path.sep ∉ piece)
    (hnul : 0 ∉ piece) : (comp piece).isSome := by
  rw [comp]
  split
  · rfl
  · split
    · rfl
    · rename_i hdot hdotdot
      rw [dif_pos ⟨hne, hsep, hnul, hdot, hdotdot⟩]
      rfl

@[simp] lemma comp_bytes (n : FileName) : comp n.bytes = some (.name n) := by
  rw [comp, if_neg n.proper.2.2.2.1, if_neg n.proper.2.2.2.2, dif_pos n.proper]

lemma comps_join (p : Path) (n : FileName) :
    comps (Path.join p n.bytes) = comps p ++ [.name n] := by
  rw [comps, Path.pieces_join n.proper.1 n.proper.2.1, List.filterMap_append]
  simp [comps]

lemma start_join (hp : p ≠ []) (n : FileName) : start t (Path.join p n.bytes) = start t p := by
  rw [start, Path.head?_join hp n.proper.2.1, start]

lemma getLast?_join (p : Path) (n : FileName) :
    (Path.join p n.bytes).getLast? ≠ some Path.sep := by
  rw [Path.getLast?_join n.proper.1 n.proper.2.1]
  exact fun hlast => n.proper.2.1 (List.mem_of_getLast? hlast)

/-- Every piece of a path without NUL is a component. -/
lemma comps_eq_concat (hnul : 0 ∉ p) {ps : List (List UInt8)} {piece : List UInt8}
    (h : Path.pieces p = ps ++ [piece]) : ∃ c, comps p = ps.filterMap comp ++ [c] := by
  obtain ⟨hne, hsep, hsub⟩ : piece ≠ [] ∧ Path.sep ∉ piece ∧ ∀ b ∈ piece, b ∈ p :=
    Path.mem_pieces (h ▸ by simp)
  obtain ⟨c, hc⟩ := Option.isSome_iff_exists.1 (comp_isSome hne hsep fun h0 => hnul (hsub 0 h0))
  exact ⟨c, by rw [comps, h, List.filterMap_append]; simp [hc]⟩

lemma comps_parent (hnul : 0 ∉ p) (h : Path.parent p = some q) :
    comps q = (comps p).dropLast := by
  have hq := Path.pieces_parent h
  rcases List.eq_nil_or_concat (Path.pieces p) with hnil | ⟨ps, piece, hps⟩
  · rw [comps, hq, comps, hnil]
    rfl
  · rw [List.concat_eq_append] at hps
    obtain ⟨c, hc⟩ := comps_eq_concat hnul hps
    rw [hc, List.dropLast_concat, comps, hq, hps, List.dropLast_concat]

lemma start_parent (h : Path.parent p = some q) : start t q = start t p := by
  simp only [start, (Path.head?_parent h).2]

lemma comps_eq_nil (hnul : 0 ∉ p) (h : comps p = []) : Path.pieces p = [] := by
  rcases List.eq_nil_or_concat (Path.pieces p) with hnil | ⟨ps, piece, hps⟩
  · exact hnil
  · rw [List.concat_eq_append] at hps
    obtain ⟨c, hc⟩ := comps_eq_concat hnul hps
    simp [hc] at h

/-! ### Lookups -/

/-- The walk of the components of a path. -/
def Reaches (t : Tree) (follow : Bool) (p : Path) (l : Loc FileName) (k : ℕ) : Prop :=
  Walks t follow maxLinks (start t p) (comps p ++ trailing p) l k

lemma lookup_eq_ok : lookup t follow p = .ok l ↔ p ≠ [] ∧ ∃ k, Reaches t follow p l k := by
  rw [lookup]
  by_cases hp : p = []
  · simp [hp]
  · rw [if_neg hp]
    simp only [ne_eq, hp, not_false_eq_true, true_and, Reaches, ← walk_eq_ok]
    constructor
    · intro h
      split at h
      · rename_i l' k heq
        cases h
        exact ⟨k, heq⟩
      · cases h
    · rintro ⟨k, hk⟩
      rw [hk]

lemma reaches_true {k : ℕ} :
    Reaches t true p l k ↔ Walks t true maxLinks (start t p) (comps p) l k ∧
      (p.getLast? = some Path.sep → t.Passable l) := by
  rw [Reaches, trailing]
  split
  · rename_i hlast
    rw [walks_append_self]
    simp [hlast]
  · rename_i hlast
    simp [hlast]

/-- Paths start at the same place if the tree grows. -/
lemma start_of_grows (hg : Grows t t') (p : Path) : start t' p = start t p := by
  rw [start, start, hg.cwd]

lemma start_of_sub (hsub : Sub t t') (p : Path) : start t' p = start t p :=
  start_of_grows hsub.grows p

lemma Reaches.grows {k : ℕ} (h : Reaches t follow p l k) (hg : Grows t t') :
    Reaches t' follow p l k := by
  rw [Reaches, start_of_grows hg]
  exact Walks.grows h hg

lemma Reaches.mono {k : ℕ} (h : Reaches t follow p l k) (hsub : Sub t t') :
    Reaches t' follow p l k := h.grows hsub.grows

lemma lookup_grows (h : lookup t follow p = .ok l) (hg : Grows t t') :
    lookup t' follow p = .ok l := by
  obtain ⟨hp, k, hk⟩ := lookup_eq_ok.1 h
  exact lookup_eq_ok.2 ⟨hp, k, hk.grows hg⟩

/-- A path that is walked to a passable location opens it. -/
lemma reaches_of_walks {k : ℕ} (h : Walks t true maxLinks (start t p) (comps p) l k)
    (hl : t.Passable l) : Reaches t true p l k :=
  reaches_true.2 ⟨h, fun _ => hl⟩

lemma lookupParent_entry : lookupParent t p = .ok (.entry l n) ↔
    ∃ cs k, comps p = cs ++ [.name n] ∧ Walks t true maxLinks (start t p) cs l k ∧
      t.Passable l := by
  rw [lookupParent]
  constructor
  · intro h
    split at h
    · split at h <;> cases h
    · rename_i c hc
      obtain ⟨cs, hcs⟩ := List.getLast?_eq_some_iff.1 hc
      rw [hcs, List.dropLast_concat] at h
      split at h
      · cases h
      · rename_i l' k heq
        obtain ⟨hwalk, hl⟩ := walks_append_self.1 (walk_eq_ok.1 heq)
        split at h
        · cases h
        · cases h
        · cases h
          exact ⟨cs, k, hcs, hwalk, hl⟩
  · rintro ⟨cs, k, hcs, hwalk, hl⟩
    rw [hcs, List.getLast?_concat, List.dropLast_concat]
    simp only [walk_eq_ok.2 (walks_append_self.2 ⟨hwalk, hl⟩)]

/-- A path that ends in `.`, `..` or the root is that of a directory. -/
lemma lookupParent_dir {last : Last} (hnul : 0 ∉ p) (h : lookupParent t p = .ok last)
    (hlast : ∀ l n, last ≠ .entry l n) :
    p ≠ [] ∧ ∃ l k, Walks t true maxLinks (start t p) (comps p) l k ∧ t.Passable l := by
  rw [lookupParent] at h
  split at h
  · rename_i hnone
    have hnil := List.getLast?_eq_none_iff.1 hnone
    split at h
    · cases h
    · rename_i hp
      refine ⟨hp, [], maxLinks, ?_, Or.inl rfl⟩
      obtain ⟨b, p, rfl⟩ := List.exists_cons_of_ne_nil hp
      obtain rfl := Path.eq_sep_of_pieces_nil (comps_eq_nil hnul hnil) (List.mem_cons_self ..)
      rw [hnil]
      exact .done _ _
  · rename_i c hc
    obtain ⟨cs, hcs⟩ := List.getLast?_eq_some_iff.1 hc
    have hp : p ≠ [] := by
      rintro rfl
      cases hc
    rw [hcs, List.dropLast_concat] at h
    split at h
    · cases h
    · rename_i l k heq
      obtain ⟨hwalk, hl⟩ := walks_append_self.1 (walk_eq_ok.1 heq)
      rw [hcs]
      cases c with
      | self => exact ⟨hp, l, k, hwalk.append (.self hl (.done _ _)) (by simp), hl⟩
      | up => exact ⟨hp, l.tail, k, hwalk.append (.up hl (.done _ _)) (by simp), hl.tail⟩
      | name n =>
        cases h
        exact absurd rfl (hlast l n)

/-! ### System calls of a program -/

/-- What a system call on a path does. -/
inductive Sys {α : Type} (p : Path) (op : Tree → Path → Except Errno (Tree × α)) (w : World) :
    World × Io.Result α → Prop where
  | nul (hnul : 0 ∈ p) : Sys p op w (w, .error .invalidInput)
  | fault (hnul : 0 ∉ p) {e : Fault} (hpop : w.pop.2 = some e) :
      Sys p op w (w.pop.1, .error (Errno.kind e.1))
  | error (hnul : 0 ∉ p) (hpop : w.pop.2 = none) {e : Errno} (hop : op w.pop.1.tree p = .error e) :
      Sys p op w (w.pop.1, .error e.kind)
  | ok (hnul : 0 ∉ p) (hpop : w.pop.2 = none) {tree : Tree} {a : α}
      (hop : op w.pop.1.tree p = .ok (tree, a)) : Sys p op w ({ w.pop.1 with tree }, .ok a)

lemma sys_cases {α : Type} (p : Path) (op : Tree → Path → Except Errno (Tree × α)) (w : World) :
    Sys p op w (sys p op w) := by
  rw [sys, Env.CString.new]
  by_cases hnul : 0 ∈ p
  · rw [dif_pos hnul]
    exact .nul hnul
  · rw [dif_neg hnul]
    simp only [World.call]
    rcases hpop : w.pop with ⟨w₁, fault⟩
    obtain rfl : w.pop.1 = w₁ := by rw [hpop]
    have hfault : w.pop.2 = fault := by rw [hpop]
    cases fault with
    | some e => exact .fault hnul hfault
    | none =>
      cases hop : op w.pop.1.tree p with
      | error e =>
        simp only [hop]
        exact .error hnul hfault hop
      | ok res =>
        simp only [hop]
        exact .ok hnul hfault hop

/-- A call that does not fail on its own. -/
lemma sys_of_pop {α : Type} {op : Tree → Path → Except Errno (Tree × α)} {w w₁ : World}
    (hnul : 0 ∉ p) (hpop : w.pop = (w₁, none)) :
    sys p op w = match op w₁.tree p with
      | .ok (tree, a) => ({ w₁ with tree }, .ok a)
      | .error e => (w₁, .error e.kind) := by
  rw [sys, Env.CString.new, dif_neg hnul]
  simp only [World.call, hpop]
  cases op w₁.tree p <;> rfl

lemma kind_eq_alreadyExists {e : Errno} : e.kind = .alreadyExists ↔ e = Errno.exist := by
  constructor
  · intro h
    unfold Errno.kind at h
    split at h <;> first | rfl | cases h
  · rintro rfl
    rfl

/-! ### Directories -/

/-- The path names a directory. -/
def NamesDir (t : Tree) (p : Path) : Prop := statat t p true = .ok .dir

lemma typeAt_passable (h : t.Passable l) : typeAt t l = .dir := by
  rw [typeAt]
  cases hx : t.get l with
  | none => rfl
  | some x =>
    rw [h.eq_dir hx]
    rfl

lemma namesDir_of_reaches {k : ℕ} (hp : p ≠ []) (h : Reaches t true p l k) (hl : t.Passable l) :
    NamesDir t p := by
  rw [NamesDir, statat, lookup_eq_ok.2 ⟨hp, k, h⟩, ← typeAt_passable hl]
  rfl

/-- If the last component can be looked up, the parent is a directory. -/
lemma namesDir_parent (hnul : 0 ∉ p) (hentry : lookupParent t p = .ok (.entry l n))
    (h : Path.parent p = some q) : NamesDir t q := by
  obtain ⟨cs, k, hcs, hwalk, hl⟩ := lookupParent_entry.1 hentry
  have hq : comps q = cs := by rw [comps_parent hnul h, hcs, List.dropLast_concat]
  have hwalk' : Walks t true maxLinks (start t q) (comps q) l k := by
    rw [hq, start_parent h]
    exact hwalk
  exact namesDir_of_reaches (Path.head?_parent h).1 (reaches_of_walks hwalk' hl) hl

end PureStd.Fs
