/-
`remove_dir_all` with a path that is a link.

`read_dir` follows the link, so that the entries of the directory it leads to are removed; the
call fails in the end, since a link is no directory for `rmdir`.  The entry that is removed first
is found by going down from the directory through first entries (`FirstLeaf`).  There is one
harmless case: if that entry is the link itself, no path of the call leads anywhere once it is
gone.
-/
import PureStd.Fs.RemoveDirAll

namespace PureStd.Fs

open FileTree

variable {t t₀ t' : Tree} {p q : Path} {w w' w₁ w₂ w₃ : World} {b l L f : Loc FileName}
  {m n : FileName} {x : Node FileName (List UInt8)} {fuel : ℕ} {tgt : Target FileName}

/-! ### Paths that lead nowhere -/

/-- If there is no directory to open, `remove_dir_all` fails and removes nothing. -/
lemma removeDirAll_not_opens (fuel : ℕ) (hw : w.Alone) (h : 0 ∈ q ∨ ∀ L, ¬ Opens w.tree q L) :
    (removeDirAll fuel q w).1.tree = w.tree ∧ (removeDirAll fuel q w).2 ≠ some (.ok ()) := by
  cases fuel with
  | zero => exact ⟨rfl, nofun⟩
  | succ fuel =>
    rcases removeDirAll_cases fuel q w with ⟨w₁, err, hread, heq⟩ | ⟨w₁, es, hread, heq⟩ <;>
      rw [heq]
    · exact ⟨(readDir_same hw hread).1, nofun⟩
    · obtain ⟨hnul, L, hL, -⟩ := readDir_eq_ok hw hread
      exact absurd hL (h.resolve_left hnul L)

/-- No walk follows the path to its end. -/
def Blocked (t : Tree) (q : Path) : Prop :=
  ∀ r k, ¬ Walks t true maxLinks (start t q) (comps q) r k

lemma Blocked.not_opens (h : Blocked t q) (L : Loc FileName) : ¬ Opens t q L := by
  rintro ⟨hL, -⟩
  obtain ⟨-, k, hreach⟩ := lookup_eq_ok.1 hL
  exact h L k (reaches_true.1 hreach).1

/-- A path that goes on is not walked to its end either. -/
lemma Blocked.not_reaches (h : Blocked t q) (hq : q ≠ []) {follow : Bool} {r : Loc FileName}
    {k : ℕ} : ¬ Reaches t follow (Path.join q m.bytes) r k := by
  intro hreach
  have htrail : trailing (Path.join q m.bytes) = [] := if_neg (getLast?_join q m)
  rw [Reaches, htrail, List.append_nil, comps_join, start_join hq] at hreach
  obtain ⟨r₁, k₁, h₁, -⟩ := hreach.split (by simp)
  exact h r₁ k₁ h₁

lemma Blocked.join (h : Blocked t q) (hq : q ≠ []) (m : FileName) :
    Blocked t (Path.join q m.bytes) := by
  intro r k hwalk
  have hreach : Reaches t true (Path.join q m.bytes) r k := by
    rw [Reaches, trailing, if_neg (getLast?_join q m), List.append_nil]
    exact hwalk
  exact h.not_reaches hq hreach

lemma Blocked.unlink (h : Blocked t q) (hq : q ≠ []) : unlink t (Path.join q m.bytes) ≠ .ok t' := by
  intro hunlink
  obtain ⟨l, n, x, hentry, -⟩ := unlink_eq_ok hunlink
  obtain ⟨cs, k, hcs, hwalk, -⟩ := lookupParent_entry.1 hentry
  rw [comps_join] at hcs
  obtain ⟨rfl, -⟩ := List.append_inj' hcs rfl
  rw [start_join hq] at hwalk
  exact h l k hwalk

lemma Blocked.rmdir (h : Blocked t q) : rmdir t q ≠ .ok t' := by
  intro hrmdir
  obtain ⟨l, n, hentry, hdir, -⟩ := rmdir_eq_ok hrmdir
  obtain ⟨k, hreach⟩ := rmdir_reaches hentry hdir true
  exact h _ k (reaches_true.1 hreach).1

lemma Blocked.removeEntry (h : Blocked w.tree q) (hq : q ≠ []) (hw : w.Alone)
    {typed : Loc FileName → Bool} {out : Outcome}
    (heq : removeEntry (removeDirAll fuel) (dirEntry typed q L (n, x)) w = (w', out)) :
    w'.tree = w.tree ∧ out ≠ some (.ok ()) := by
  rcases removeEntry_cases (removeDirAll fuel) (dirEntry typed q L (n, x)) w with
    ⟨w₁, err, hft, heq'⟩ | ⟨w₁, hft, heq'⟩ | ⟨w₁, w₂, ft, r, hft, -, hfile, heq'⟩ <;>
    rw [heq'] at heq <;> obtain ⟨htree, hw₁⟩ := fileType_same hw hft
  · cases heq
    exact ⟨htree, nofun⟩
  · have hblocked : Blocked w₁.tree (dirEntry typed q L (n, x)).path := by
      rw [htree, dirEntry_path]
      exact h.join hq _
    have hfails := removeDirAll_not_opens fuel hw₁ (Or.inr hblocked.not_opens)
    rw [heq] at hfails
    exact ⟨hfails.1.trans htree, hfails.2⟩
  · cases heq
    obtain ⟨-, ⟨htree', err, rfl⟩ | ⟨-, a, -, hop⟩⟩ := sys_eq hw₁ hfile
    · exact ⟨htree'.trans htree, nofun⟩
    · rw [htree, dirEntry_path] at hop
      exact absurd (map_unit_eq_ok hop) (h.unlink hq)

/-- With a path that leads nowhere, the rest of the call removes nothing and fails. -/
lemma Blocked.removeOpened (h : Blocked w.tree q) (hq : q ≠ []) (hw : w.Alone) (fuel : ℕ)
    (typed : Loc FileName → Bool) (L : Loc FileName)
    (es : List (FileName × Node FileName (List UInt8))) :
    (removeOpened (removeDirAll fuel) q (es.map (dirEntry typed q L)) w).1.tree = w.tree ∧
    (removeOpened (removeDirAll fuel) q (es.map (dirEntry typed q L)) w).2 ≠ some (.ok ()) := by
  cases es with
  | nil =>
    rcases removeOpened_nil (removeDirAll fuel) q w with ⟨w₁, err, hn, heq⟩ |
      ⟨w₁, w₂, r, hn, hdir, heq⟩ <;> rw [List.map_nil, heq]
    · exact ⟨(nextEntry_same hw hn).1, nofun⟩
    · obtain ⟨htree, hw₁⟩ := nextEntry_same hw hn
      obtain ⟨-, ⟨htree', err, rfl⟩ | ⟨-, a, -, hop⟩⟩ := sys_eq hw₁ hdir
      · exact ⟨htree'.trans htree, nofun⟩
      · rw [htree] at hop
        exact absurd (map_unit_eq_ok hop) h.rmdir
  | cons d es =>
    obtain ⟨n, x⟩ := d
    rcases removeOpened_cons (removeDirAll fuel) q (dirEntry typed q L (n, x))
      (es.map (dirEntry typed q L)) w with ⟨w₁, err, hn, heq⟩ | ⟨w₁, w₂, out, hn, hentry, hrest⟩
    · rw [List.map_cons, heq]
      exact ⟨(nextEntry_same hw hn).1, nofun⟩
    · obtain ⟨htree, hw₁⟩ := nextEntry_same hw hn
      have hfails := Blocked.removeEntry (htree.symm ▸ h) hq hw₁ hentry
      rcases hrest with ⟨-, heq⟩ | ⟨hout, -⟩
      · rw [List.map_cons, heq]
        exact ⟨hfails.1.trans htree, hfails.2⟩
      · exact absurd hout hfails.2

/-! ### Links -/

/-- The entry of a path that is a link: it is the last name of the path. -/
lemma lookup_link (hb : lookup t false p = .ok b) (hlink : t.get b = some (.link tgt)) :
    ∃ cs n l k, comps p = cs ++ [.name n] ∧ b = n :: l ∧
      Walks t true maxLinks (start t p) cs l k := by
  have hnot : ¬ t.Passable b := fun h => by cases h.eq_dir hlink
  have hstart : t.Passable (start t p) := by
    rw [start]
    split
    · exact Or.inl rfl
    · exact Or.inr (List.suffix_refl _)
  obtain ⟨-, k, hreach⟩ := lookup_eq_ok.1 hb
  rw [Reaches, trailing] at hreach
  split at hreach
  · exact absurd (walks_append_self.1 hreach).2 hnot
  · rw [List.append_nil] at hreach
    rcases List.eq_nil_or_concat (comps p) with hnil | ⟨cs, c, hcs⟩
    · rw [hnil] at hreach
      cases hreach
      exact absurd hstart hnot
    · rw [List.concat_eq_append] at hcs
      rw [hcs] at hreach
      obtain ⟨l, k₁, h₁, h₂⟩ := hreach.split (by simp)
      cases h₂ with
      | self hl hdone =>
        cases hdone
        exact absurd hl hnot
      | up hl hdone =>
        cases hdone
        exact absurd hl.tail hnot
      | entry hl hx _ hdone =>
        cases hdone
        exact ⟨cs, _, l, _, hcs, rfl, h₁⟩
      | link _ _ hfollow => simp at hfollow

/-- Once the link of a path is gone, the path leads nowhere. -/
lemma blocked_of_link (hb : lookup t false p = .ok b) (hlink : t.get b = some (.link tgt)) :
    Blocked (t.remove b) p := by
  obtain ⟨cs, n, l, k, hcs, rfl, hwalk⟩ := lookup_link hb hlink
  have hsub := sub_remove t (l := n :: l) (by simp)
  have hgone : (t.remove (n :: l)).get (n :: l) = none := by
    rw [get_remove (by simp), if_pos (List.suffix_refl _)]
  intro r k' h
  rw [hcs] at h
  obtain ⟨l', k₁, h₁, h₂⟩ := h.split (by simp)
  obtain ⟨rfl, -⟩ := (h₁.mono hsub).unique hwalk
  cases h₂ with
  | entry _ hx => simp [hgone] at hx
  | link _ hx => simp [hgone] at hx

/-- A path that does not follow its link opens a directory only if it is one. -/
lemma opens_of_not_link (hb : lookup t false p = .ok b) (hlink : ∀ tgt, t.get b ≠ some (.link tgt))
    (h : Opens t p L) : L = b := by
  obtain ⟨hp, k, hreach⟩ := lookup_eq_ok.1 h.1
  obtain ⟨-, k', hreach'⟩ := lookup_eq_ok.1 hb
  obtain ⟨r, k'', hr, hcase⟩ := Walks.nofollow hreach
  obtain ⟨rfl, -⟩ := hr.unique hreach'
  rcases hcase with rfl | ⟨tgt, htgt⟩
  · rfl
  · exact absurd htgt (hlink tgt)

lemma lookup_of_opens (h : Opens t p L) : ∃ b, lookup t false p = .ok b := by
  obtain ⟨hp, k, hreach⟩ := lookup_eq_ok.1 h.1
  obtain ⟨r, k', hr, -⟩ := Walks.nofollow hreach
  exact ⟨r, lookup_eq_ok.2 ⟨hp, k', hr⟩⟩

lemma rmdir_link (hb : lookup t false p = .ok b) (hlink : t.get b = some (.link tgt)) :
    rmdir t p ≠ .ok t' := by
  intro h
  obtain ⟨l, n, hentry, hdir, -⟩ := rmdir_eq_ok h
  obtain ⟨k, hreach⟩ := rmdir_reaches hentry hdir false
  obtain ⟨-, k', hreach'⟩ := lookup_eq_ok.1 hb
  obtain ⟨rfl, -⟩ := Walks.unique hreach hreach'
  simp [hdir] at hlink

/-- With a link to an empty directory, nothing happens. -/
lemma removeDirAll_emptyLink (hw : w.Alone) (hb : lookup w.tree false p = .ok b)
    (hlink : w.tree.get b = some (.link tgt)) (hopen : Opens w.tree p L)
    (hnil : w.tree.listing L = []) (fuel : ℕ) : (removeDirAll fuel p w).1.tree = w.tree := by
  cases fuel with
  | zero => rfl
  | succ fuel =>
    rcases removeDirAll_cases fuel p w with ⟨w₁, err, hread, heq⟩ | ⟨w₁, es, hread, heq⟩ <;>
      rw [heq] <;> obtain ⟨htree₁, hw₁⟩ := readDir_same hw hread
    · exact htree₁
    · obtain ⟨-, L', hopen', rfl⟩ := readDir_eq_ok hw hread
      obtain rfl : L' = L := Except.ok.inj (hopen'.1.symm.trans hopen.1)
      rw [hnil, List.map_nil]
      rcases removeOpened_nil (removeDirAll fuel) p w₁ with ⟨w₂, err, hn, heq⟩ |
        ⟨w₂, w₃, r, hn, hdir, heq⟩ <;> rw [heq] <;>
        obtain ⟨htree₂, hw₂⟩ := nextEntry_same hw₁ hn <;> rw [htree₁] at htree₂
      · exact htree₂
      · obtain ⟨-, ⟨htree₃, -⟩ | ⟨-, a, -, hop⟩⟩ := sys_eq hw₂ hdir
        · exact htree₃.trans htree₂
        · rw [htree₂] at hop
          exact absurd (map_unit_eq_ok hop) (rmdir_link hb hlink)

/-! ### The harmless case -/

/-- Every name in the tree is UTF-8. -/
def Utf8Names (t : Tree) : Prop := ∀ l n x, t.get (n :: l) = some x → Utf8.Valid n.bytes

/-- The entry that is removed first from a directory. -/
inductive FirstLeaf (t : Tree) : Loc FileName → Loc FileName → Prop where
  | leaf {L : Loc FileName} {n : FileName} {x : Node FileName (List UInt8)}
      {rest : List (FileName × Node FileName (List UInt8))}
      (hlist : t.listing L = (n, x) :: rest) (hx : x ≠ .dir) : FirstLeaf t L (n :: L)
  | empty {L : Loc FileName} {n : FileName}
      {rest : List (FileName × Node FileName (List UInt8))}
      (hlist : t.listing L = (n, .dir) :: rest) (hnil : t.listing (n :: L) = []) :
      FirstLeaf t L (n :: L)
  | down {L f : Loc FileName} {n : FileName}
      {rest : List (FileName × Node FileName (List UInt8))}
      (hlist : t.listing L = (n, .dir) :: rest) (h : FirstLeaf t (n :: L) f) : FirstLeaf t L f

/-- The path of an entry that is a directory opens it. -/
lemma opens_join_dir (hopen : Opens t q L) (hdir : t.get (n :: L) = some .dir) :
    Opens t (Path.join q n.bytes) (n :: L) := by
  obtain ⟨hq, k, hreach⟩ := lookup_eq_ok.1 hopen.1
  have hpass : t.Passable (n :: L) := Or.inl hdir
  have hwalk : Walks t true maxLinks (start t (Path.join q n.bytes)) (comps (Path.join q n.bytes))
      (n :: L) k := by
    rw [start_join hq, comps_join]
    exact (reaches_true.1 hreach).1.append (.entry hopen.2 hdir (by simp) (.done _ _)) (by simp)
  have hne : Path.join q n.bytes ≠ [] := by
    intro hnil
    have hcomps := comps_join q n
    rw [hnil] at hcomps
    simp [comps] at hcomps
  exact ⟨lookup_eq_ok.2 ⟨hne, k, reaches_of_walks hwalk hpass⟩, hpass⟩

/-- The type of an entry whose name is shown as it is. -/
lemma fileType_entry {typed : Loc FileName → Bool} {ft : FileType} (hw : w.Alone)
    (hopen : Opens w.tree q L) (hx : w.tree.get (n :: L) = some x) (hn : n.shown = n)
    (h : (dirEntry typed q L (n, x)).fileType w = (w', .ok ft)) : ft = nodeType x := by
  rcases fileType_eq_ok hw h with htold | ⟨-, l, hl, rfl⟩
  · simp only [dirEntry, Option.ite_none_right_eq_some, Option.some.injEq] at htold
    exact htold.2.symm
  · obtain ⟨hq, k, hreach⟩ := lookup_eq_ok.1 hopen.1
    obtain ⟨-, k₁, hreach₁⟩ := lookup_eq_ok.1 hl
    rw [dirEntry_path, hn] at hreach₁
    cases walks_join hq hreach (.refl _) hreach₁ with
    | entry _ _ _ hdone =>
      cases hdone
      rw [typeAt, hx]
      rfl
    | link _ _ hfollow => simp at hfollow

/-- Nothing has been removed, or only the location `b`. -/
def AtMost (t₀ : Tree) (b : Loc FileName) (w : World) : Prop :=
  w.tree = t₀ ∨ w.tree = t₀.remove b

/-- The turn of the loop with the first entry: a directory is left to `rec`, and anything else
is `b`. -/
lemma removeEntry_harmless {rec : Path → World → World × Outcome} {typed : Loc FileName → Bool}
    {out : Outcome} (hw : w.Alone) (htree : w.tree = t₀) (hopen : Opens t₀ q L)
    (hx : t₀.get (n :: L) = some x) (hn : n.shown = n)
    (hrec : x = .dir → ∀ w, w.Alone → w.tree = t₀ →
      AtMost t₀ b (rec (Path.join q n.bytes) w).1 ∧
        (rec (Path.join q n.bytes) w).2 ≠ some (.ok ()))
    (hfile : x ≠ .dir → n :: L = b)
    (heq : removeEntry rec (dirEntry typed q L (n, x)) w = (w', out)) :
    AtMost t₀ b w' ∧ (out = some (.ok ()) → w'.tree = t₀.remove b) := by
  subst htree
  rcases removeEntry_cases rec (dirEntry typed q L (n, x)) w with
    ⟨w₁, err, hft, heq'⟩ | ⟨w₁, hft, heq'⟩ | ⟨w₁, w₂, ft, r, hft, hdir, hremove, heq'⟩ <;>
    rw [heq'] at heq <;> obtain ⟨htree₁, hw₁⟩ := fileType_same hw hft
  · cases heq
    exact ⟨Or.inl htree₁, nofun⟩
  · have hdir : x = .dir := by
      have htype := fileType_entry hw hopen hx hn hft
      cases x with
      | dir => rfl
      | file | link => cases htype
    have hbelow := hrec hdir w₁ hw₁ htree₁
    rw [dirEntry_path, hn] at heq
    rw [heq] at hbelow
    exact ⟨hbelow.1, fun hout => absurd hout hbelow.2⟩
  · cases heq
    have hb : n :: L = b := by
      apply hfile
      rintro rfl
      exact hdir (fileType_entry hw hopen hx hn hft)
    obtain ⟨-, ⟨htree₂, err, rfl⟩ | ⟨-, u, -, hop⟩⟩ := sys_eq hw₁ hremove
    · exact ⟨Or.inl (htree₂.trans htree₁), nofun⟩
    · obtain ⟨l, m, -, hentry, -, -, hgone⟩ := unlink_eq_ok (map_unit_eq_ok hop)
      rw [dirEntry_path, hn] at hentry
      obtain ⟨hq, k, hreach⟩ := lookup_eq_ok.1 hopen.1
      obtain ⟨rfl, rfl⟩ := lookupParent_join hq hreach (htree₁ ▸ .refl _) hentry
      rw [htree₁, hb] at hgone
      exact ⟨Or.inr hgone, fun _ => hgone⟩

/-- If the way down through first entries ends at the link `b` through which the path goes, then
`b` is all that is removed. -/
lemma removeDirAll_harmless (hlink : t₀.get b = some (.link tgt)) (hutf : Utf8Names t₀) (fuel : ℕ)
    (hw : w.Alone) (htree : w.tree = t₀) (hopen : Opens t₀ q L) (hne : t₀.listing L ≠ [])
    (hleaf : ∀ f, FirstLeaf t₀ L f → f = b) (hblocked : Blocked (t₀.remove b) q) :
    AtMost t₀ b (removeDirAll fuel q w).1 ∧ (removeDirAll fuel q w).2 ≠ some (.ok ()) := by
  induction fuel generalizing q L w with
  | zero => exact ⟨Or.inl htree, nofun⟩
  | succ fuel ih =>
    rcases removeDirAll_cases fuel q w with ⟨w₁, err, hread, heq⟩ | ⟨w₁, es, hread, heq⟩ <;>
      rw [heq] <;> obtain ⟨htree₁, hw₁⟩ := readDir_same hw hread <;> rw [htree] at htree₁
    · exact ⟨Or.inl htree₁, nofun⟩
    · obtain ⟨-, L', hopen', rfl⟩ := readDir_eq_ok hw hread
      rw [htree] at hopen' ⊢
      obtain rfl : L' = L := Except.ok.inj (hopen'.1.symm.trans hopen.1)
      obtain ⟨⟨n, x⟩, rest, hlist⟩ := List.exists_cons_of_ne_nil hne
      have hx := get_of_listing hlist
      have hn : n.shown = n := FileName.shown_of_valid (hutf L' n x hx)
      have hq : q ≠ [] := (lookup_eq_ok.1 hopen.1).1
      rw [hlist, List.map_cons]
      rcases removeOpened_cons (removeDirAll fuel) q (dirEntry w.typed q L' (n, x))
        (rest.map (dirEntry w.typed q L')) w₁ with ⟨w₂, err, hnext, heq⟩ |
        ⟨w₂, w₃, out, hnext, hentry, hrest⟩ <;>
        obtain ⟨htree₂, hw₂⟩ := nextEntry_same hw₁ hnext <;> rw [htree₁] at htree₂
      · rw [heq]
        exact ⟨Or.inl htree₂, nofun⟩
      · have hturn : AtMost t₀ b w₃ ∧ (out = some (.ok ()) → w₃.tree = t₀.remove b) := by
          refine removeEntry_harmless hw₂ htree₂ hopen hx hn ?_
            (fun hdir => hleaf _ (.leaf hlist hdir)) hentry
          rintro rfl w' hw' htree'
          -- an empty directory would be removed first, but `b` is a link
          have hne' : t₀.listing (n :: L') ≠ [] := by
            intro hnil
            rw [← hleaf _ (.empty hlist hnil), hx] at hlink
            cases hlink
          exact ih hw' htree' (opens_join_dir hopen hx) hne'
            (fun f hf => hleaf f (.down hlist hf)) (hblocked.join hq n)
        rcases hrest with ⟨hout, heq⟩ | ⟨hout, heq⟩ <;> rw [heq]
        · exact ⟨hturn.1, hout⟩
        · -- the link is gone, and with it the way to the other entries
          have hgone := hturn.2 hout
          have hw₃ : w₃.Alone :=
            (removeEntry_shrinks (removeDirAll_shrinks fuel) hw₂ hentry).alone hw₂
          have hfails := Blocked.removeOpened (hgone.symm ▸ hblocked) hq hw₃ fuel w.typed L' rest
          exact ⟨Or.inr (hfails.1.trans hgone), hfails.2⟩

end PureStd.Fs
