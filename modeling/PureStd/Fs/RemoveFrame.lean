/-
When `remove_dir_all` removes its tree and nothing else.

Two things lead it astray: a path that is a link to a directory, and a subdirectory whose name is
not UTF-8, if what `read_dir` shows for the name is the name of a link.
-/
import PureStd.Fs.RemoveLink
import PureStd.Fs.RemoveReturns

namespace PureStd.Fs

open FileTree

variable {t t₀ t' : Tree} {p q : Path} {w w' w₁ w₂ w₃ : World} {b l L f : Loc FileName}
  {m n : FileName} {x : Node FileName (List UInt8)} {e : DirEntry} {fuel : ℕ}
  {tgt : Target FileName} {rec : Path → World → World × Outcome}

/-! ### The statement -/

/-- The world of a process that no other one interferes with: only calls may fail. -/
def World.alone (t : Tree) (typed : Loc FileName → Bool) (faults : List (Option Fault)) : World :=
  ⟨t, faults.map fun fault => ⟨[], fault⟩, typed⟩

/-- Whichever calls fail and whatever the listings tell: if `remove_dir_all(p)` returns `Ok`, then
the entry `p` and everything below are gone; and in any case, what is gone was there or below,
where `p` and the way down are understood without following links. -/
def RemovesOnly (t : Tree) (p : Path) : Prop :=
  ∀ typed faults fuel,
    ((removeDirAll fuel p (.alone t typed faults)).2 = some (.ok ()) →
      ∃ b, lookup t false p = .ok b ∧
        ∀ l, b <:+ l → (removeDirAll fuel p (.alone t typed faults)).1.tree.get l = none) ∧
    ∀ l x, t.get l = some x →
      (removeDirAll fuel p (.alone t typed faults)).1.tree.get l = some x ∨
        ∃ b, lookup t false p = .ok b ∧ b <:+ l

/-- The path is no link to a directory that has entries, but for the harmless case; and no
subdirectory below it is shown under the name of a link beside it. -/
def Harmless (t : Tree) (p : Path) : Prop :=
  0 ∈ p ∨ ∀ b, lookup t false p = .ok b →
    ((∀ tgt, t.get b ≠ some (.link tgt)) → NoClash t b) ∧
    ∀ tgt, t.get b = some (.link tgt) → ∀ L, Opens t p L →
      t.listing L = [] ∨ Utf8Names t ∧ ∀ f, FirstLeaf t L f → f = b

lemma World.alone_alone (t : Tree) (typed : Loc FileName → Bool) (faults : List (Option Fault)) :
    (World.alone t typed faults).Alone := by
  intro turn hturn
  obtain ⟨fault, -, rfl⟩ := List.mem_map.1 hturn
  rfl

/-! ### Success -/

lemma removeDir_eq_ok {u : Unit} (hw : w.Alone) (h : removeDir p w = (w', .ok u)) :
    rmdir w.tree p = .ok w'.tree := by
  obtain ⟨-, ⟨-, err, herr⟩ | ⟨-, a, -, hop⟩⟩ := sys_eq hw h
  · cases herr
  · exact map_unit_eq_ok hop

/-- If `rmdir` succeeds in what is left of a tree, the entry of its path is gone, with all that
was below. -/
lemma rmdir_gone (hsub : Sub t t₀) (h : rmdir t p = .ok t') :
    ∃ b, lookup t₀ false p = .ok b ∧ ∀ l, b <:+ l → t'.get l = none := by
  obtain ⟨l, n, hentry, hdir, -, rfl⟩ := rmdir_eq_ok h
  obtain ⟨k, hreach⟩ := rmdir_reaches hentry hdir false
  have hp : p ≠ [] := by
    rintro rfl
    cases hentry
  refine ⟨n :: l, lookup_eq_ok.2 ⟨hp, k, hreach.mono hsub⟩, fun l' hl' => ?_⟩
  rw [get_remove (by simp), if_pos hl']

lemma removeOpened_gone {es : List DirEntry} (hrec : ∀ q w, w.Alone → Shrunk [] w (rec q w).1)
    (hw : w.Alone) (hsub : Sub w.tree t₀) (h : (removeOpened rec p es w).2 = some (.ok ())) :
    ∃ b, lookup t₀ false p = .ok b ∧
      ∀ l, b <:+ l → (removeOpened rec p es w).1.tree.get l = none := by
  induction es generalizing w with
  | nil =>
    rcases removeOpened_nil rec p w with ⟨w₁, err, hn, heq⟩ | ⟨w₁, w₂, r, hn, hdir, heq⟩ <;>
      rw [heq] at h ⊢
    · cases h
    · obtain ⟨htree, hw₁⟩ := nextEntry_same hw hn
      cases h
      exact rmdir_gone (htree ▸ hsub) (removeDir_eq_ok hw₁ hdir)
  | cons e es ih =>
    rcases removeOpened_cons rec p e es w with ⟨w₁, err, hn, heq⟩ |
      ⟨w₁, w₂, out, hn, hentry, ⟨hout, heq⟩ | ⟨-, heq⟩⟩ <;> rw [heq] at h ⊢
    · cases h
    · exact absurd h hout
    · obtain ⟨htree, hw₁⟩ := nextEntry_same hw hn
      have hturn := removeEntry_shrinks hrec hw₁ hentry
      exact ih (hturn.alone hw₁) (hturn.sub.trans (htree ▸ hsub)) h

/-- If `remove_dir_all` succeeds, the entry of its path is gone, with all that was below. -/
lemma removeDirAll_gone (hw : w.Alone) (h : (removeDirAll fuel p w).2 = some (.ok ())) :
    ∃ b, lookup w.tree false p = .ok b ∧
      ∀ l, b <:+ l → (removeDirAll fuel p w).1.tree.get l = none := by
  cases fuel with
  | zero => cases h
  | succ fuel =>
    rcases removeDirAll_cases fuel p w with ⟨w₁, err, hread, heq⟩ | ⟨w₁, es, hread, heq⟩ <;>
      rw [heq] at h ⊢
    · cases h
    · obtain ⟨htree, hw₁⟩ := readDir_same hw hread
      exact removeOpened_gone (removeDirAll_shrinks fuel) hw₁ (htree ▸ .refl _) h

/-! ### A run in which no call fails -/

/-- The world in which nothing else happens and listings tell the types. -/
def World.quiet (t : Tree) : World := ⟨t, [], fun _ => true⟩

lemma World.quiet_alone (t : Tree) : (World.quiet t).Alone := nofun

lemma World.quiet_pop (t : Tree) : (World.quiet t).pop = (.quiet t, none) := rfl

lemma not_mem_join (hq : 0 ∉ q) (n : FileName) : 0 ∉ Path.join q n.bytes := by
  intro h
  rcases Path.mem_join h with h | h | h
  · exact hq h
  · cases h
  · exact n.proper.2.2.1 h

lemma readDir_quiet (hq : 0 ∉ q) (hopen : Opens t q L) :
    readDir q (.quiet t) =
      (.quiet t, .ok ((t.listing L).map (dirEntry (World.quiet t).typed q L))) := by
  have hdir : opendir t q = .ok (L, t.listing L) := by
    rw [opendir, hopen.1]
    exact if_pos hopen.2
  rw [readDir, sys_of_pop hq (World.quiet_pop t)]
  simp only [World.quiet, hdir]
  rfl

lemma removeFile_quiet (hq : 0 ∉ q) (h : unlink t q = .ok t') :
    removeFile q (.quiet t) = (.quiet t', .ok ()) := by
  rw [removeFile, sys_of_pop hq (World.quiet_pop t)]
  simp only [World.quiet, h]
  rfl

lemma removeDir_quiet (hq : 0 ∉ q) (h : rmdir t q = .ok t') :
    removeDir q (.quiet t) = (.quiet t', .ok ()) := by
  rw [removeDir, sys_of_pop hq (World.quiet_pop t)]
  simp only [World.quiet, h]
  rfl

lemma lookupParent_opens (hopen : Opens t q L) (n : FileName) :
    lookupParent t (Path.join q n.bytes) = .ok (.entry L n) := by
  obtain ⟨hq, k, hreach⟩ := lookup_eq_ok.1 hopen.1
  refine lookupParent_entry.2 ⟨comps q, k, comps_join _ n, ?_, hopen.2⟩
  rw [start_join hq]
  exact (reaches_true.1 hreach).1

lemma unlink_join (hopen : Opens t q L) (hx : t.get (n :: L) = some x) (hdir : x ≠ .dir) :
    unlink t (Path.join q n.bytes) = .ok (t.remove (n :: L)) := by
  simp only [unlink, lookupParent_opens hopen, hx]
  cases x with
  | dir => exact absurd rfl hdir
  | file | link => exact if_neg (getLast?_join q n)

lemma rmdir_join (hopen : Opens t q L) (hx : t.get (n :: L) = some .dir)
    (hnil : t.listing (n :: L) = []) :
    rmdir t (Path.join q n.bytes) = .ok (t.remove (n :: L)) := by
  simp only [rmdir, lookupParent_opens hopen, hx]
  exact if_pos hnil

lemma removeEntry_dir (hn : n.shown = n) :
    removeEntry rec (dirEntry (World.quiet t).typed q L (n, .dir)) (.quiet t) =
      rec (Path.join q n.bytes) (.quiet t) := by
  nth_rewrite 2 [← hn]
  rfl

lemma removeEntry_leaf (hn : n.shown = n) (hdir : x ≠ .dir) :
    removeEntry rec (dirEntry (World.quiet t).typed q L (n, x)) (.quiet t) =
      (removeFile (Path.join q n.bytes) (.quiet t)).map id some := by
  nth_rewrite 2 [← hn]
  cases x with
  | dir => exact absurd rfl hdir
  | file | link => rfl

/-- What is gone after the turn with the first entry is gone in the end. -/
lemma removeDirAll_first {rest : List (FileName × Node FileName (List UInt8))} (hq : 0 ∉ q)
    (hopen : Opens t q L) (hlist : t.listing L = (n, x) :: rest)
    (h : (removeEntry (removeDirAll fuel) (dirEntry (World.quiet t).typed q L (n, x))
      (.quiet t)).1.tree.get f = none) :
    (removeDirAll (fuel + 1) q (.quiet t)).1.tree.get f = none := by
  rw [removeDirAll, readDir_quiet hq hopen, hlist, List.map_cons]
  dsimp only
  rcases removeOpened_cons (removeDirAll fuel) q (dirEntry (World.quiet t).typed q L (n, x))
    (rest.map (dirEntry (World.quiet t).typed q L)) (.quiet t) with ⟨w₁, err, hnext, -⟩ |
    ⟨w₁, w₂, out, hnext, hentry, hrest⟩
  · cases hnext
  · cases hnext
    have hturn := removeEntry_shrinks (removeDirAll_shrinks fuel) (World.quiet_alone t) hentry
    rw [hentry] at h
    rcases hrest with ⟨-, heq⟩ | ⟨-, heq⟩ <;> rw [heq]
    · exact h
    · have hw₂ := hturn.alone (World.quiet_alone t)
      have hlast : Shrunk [] w₂ (removeOpened (removeDirAll fuel) q
          (rest.map (dirEntry (World.quiet t).typed q L)) w₂).1 :=
        removeRule_shrinks.removeOpened (removeDirAll_shrinks fuel) hw₂ fun _ _ => hw₂
      exact hlast.sub.get_eq_none h

/-- An empty directory is removed. -/
lemma removeDirAll_empty (hq : 0 ∉ q) (hopen : Opens t q L) (hnil : t.listing L = [])
    (hrmdir : rmdir t q = .ok t') : removeDirAll 1 q (.quiet t) = (.quiet t', some (.ok ())) := by
  rw [removeDirAll, readDir_quiet hq hopen, hnil, List.map_nil]
  dsimp only
  rcases removeOpened_nil (removeDirAll 0) q (.quiet t) with ⟨w₁, err, hnext, -⟩ |
    ⟨w₁, w₂, r, hnext, hdir, heq⟩
  · cases hnext
  · cases hnext
    rw [heq]
    cases hdir.symm.trans (removeDir_quiet hq hrmdir)
    rfl

/-- What is removed first is removed. -/
lemma removeDirAll_firstLeaf (hutf : Utf8Names t) (h : FirstLeaf t L f) (hq : 0 ∉ q)
    (hopen : Opens t q L) : ∃ fuel, (removeDirAll fuel q (.quiet t)).1.tree.get f = none := by
  have hentry {L : Loc FileName} {n : FileName} {x : Node FileName (List UInt8)}
      {rest : List (FileName × Node FileName (List UInt8))} (hlist : t.listing L = (n, x) :: rest) :
      t.get (n :: L) = some x ∧ n.shown = n := by
    have hx := get_of_listing hlist
    exact ⟨hx, FileName.shown_of_valid (hutf L n x hx)⟩
  have hgone (L : Loc FileName) (n : FileName) :
      (World.quiet (t.remove (n :: L))).tree.get (n :: L) = none := by
    rw [World.quiet, get_remove (by simp), if_pos (List.suffix_refl _)]
  induction h generalizing q with
  | @leaf L n x rest hlist hdir =>
    obtain ⟨hx, hn⟩ := hentry hlist
    refine ⟨1, removeDirAll_first hq hopen hlist ?_⟩
    rw [removeEntry_leaf hn hdir,
      removeFile_quiet (not_mem_join hq n) (unlink_join hopen hx hdir)]
    exact hgone L n
  | @empty L n rest hlist hnil =>
    obtain ⟨hx, hn⟩ := hentry hlist
    refine ⟨2, removeDirAll_first hq hopen hlist ?_⟩
    rw [removeEntry_dir hn, removeDirAll_empty (not_mem_join hq n) (opens_join_dir hopen hx) hnil
      (rmdir_join hopen hx hnil)]
    exact hgone L n
  | @down L f n rest hlist _ ih =>
    obtain ⟨hx, hn⟩ := hentry hlist
    obtain ⟨fuel, hfuel⟩ := ih (not_mem_join hq n) (opens_join_dir hopen hx)
    refine ⟨fuel + 1, removeDirAll_first hq hopen hlist ?_⟩
    rw [removeEntry_dir hn]
    exact hfuel

/-! ### The result -/

lemma FirstLeaf.get_ne_none (h : FirstLeaf t L f) : t.get f ≠ none := by
  have hentry {L : Loc FileName} {n : FileName} {x : Node FileName (List UInt8)}
      {rest : List (FileName × Node FileName (List UInt8))} (hlist : t.listing L = (n, x) :: rest) :
      t.get (n :: L) ≠ none := by
    rw [get_of_listing hlist]
    exact nofun
  induction h with
  | leaf hlist _ => exact hentry hlist
  | empty hlist _ => exact hentry hlist
  | down _ _ ih => exact ih

lemma shrunk_of_harmless (hw : w.Alone) (h : Harmless w.tree p) (fuel : ℕ) :
    (removeDirAll fuel p w).1.tree = w.tree ∨
      ∃ b, lookup w.tree false p = .ok b ∧ Shrunk b w (removeDirAll fuel p w).1 := by
  by_cases hopen : 0 ∈ p ∨ ∀ L, ¬ Opens w.tree p L
  · exact Or.inl (removeDirAll_not_opens fuel hw hopen).1
  push Not at hopen
  obtain ⟨hnul, L, hL⟩ := hopen
  obtain ⟨b, hb⟩ := lookup_of_opens hL
  obtain ⟨hclash, hleaf⟩ := h.resolve_left hnul b hb
  by_cases hlink : ∃ tgt, w.tree.get b = some (.link tgt)
  · obtain ⟨tgt, htgt⟩ := hlink
    by_cases hnil : w.tree.listing L = []
    · exact Or.inl (removeDirAll_emptyLink hw hb htgt hL hnil fuel)
    · obtain ⟨hutf, hfirst⟩ := (hleaf tgt htgt L hL).resolve_left hnil
      have hmost := (removeDirAll_harmless htgt hutf fuel hw rfl hL hnil hfirst
        (blocked_of_link hb htgt)).1
      have hne : b ≠ [] := by
        rintro rfl
        cases htgt
      refine hmost.imp_right fun hgone => ⟨b, hb, .of_remove hne hgone (List.suffix_refl b) ?_⟩
      exact (removeDirAll_shrinks fuel p w hw).alone
  · push Not at hlink
    have hbelow : Below w.tree b p w :=
      ⟨hw, .refl _, fun L' hL' => opens_of_not_link hb hlink hL' ▸ List.suffix_refl _⟩
    exact Or.inr ⟨b, hb, (removeRule_below (hclash hlink)).removeDirAll fuel hbelow⟩

lemma removesOnly_of_harmless (h : Harmless t p) : RemovesOnly t p := by
  intro typed faults fuel
  have hw := World.alone_alone t typed faults
  refine ⟨removeDirAll_gone hw, fun l x hx => ?_⟩
  rcases shrunk_of_harmless hw h fuel with hsame | ⟨b, hb, hshrunk⟩
  · rw [hsame]
    exact Or.inl hx
  · exact (hshrunk.kept l x hx).imp_right fun hl => ⟨b, hb, hl⟩

/-- A link to a directory with entries loses one that is not the link. -/
lemma harmless_of_removesOnly (hutf : Utf8Names t) (h : RemovesOnly t p) : Harmless t p := by
  by_cases hnul : 0 ∈ p
  · exact Or.inl hnul
  refine Or.inr fun b hb => ⟨fun _ l n _ _ hdir hshown => ?_, fun tgt htgt L hL => ?_⟩
  · exact absurd (FileName.shown_of_valid (hutf l n _ hdir)) hshown
  · refine Or.inr ⟨hutf, fun f hf => ?_⟩
    obtain ⟨fuel, hgone⟩ := removeDirAll_firstLeaf hutf hf hnul hL
    obtain ⟨x, hx⟩ := Option.ne_none_iff_exists'.1 hf.get_ne_none
    rcases (h (fun _ => true) [] fuel).2 f x hx with hkept | ⟨b', hb', hs⟩
    · cases hgone.symm.trans hkept
    · -- nothing stands below a link
      obtain rfl : b' = b := Except.ok.inj (hb'.symm.trans hb)
      rcases get_of_suffix hx hs with rfl | hdir
      · rfl
      · cases htgt.symm.trans hdir

/-- `remove_dir_all` returns.  If its path is harmless, it removes the tree of its path and
nothing else; where all names are UTF-8, only then. -/
theorem removesOnly_iff (t : Tree) (p : Path) :
    (∃ fuel, ∀ typed faults, (removeDirAll fuel p (.alone t typed faults)).2 ≠ none) ∧
    (Harmless t p → RemovesOnly t p) ∧ (Utf8Names t → (RemovesOnly t p ↔ Harmless t p)) := by
  refine ⟨?_, removesOnly_of_harmless, fun hutf => ⟨harmless_of_removesOnly hutf, ?_⟩⟩
  · obtain ⟨fuel, hreturns⟩ := removeDirAll_returns t p
    exact ⟨fuel, fun typed faults => hreturns _ (World.alone_alone t typed faults) rfl⟩
  · exact removesOnly_of_harmless

/-- Something is gone that is not below the path. -/
lemma not_removesOnly {typed : Loc FileName → Bool} {faults : List (Option Fault)}
    (hx : t.get f = some x) (hb : lookup t false p = .ok b) (hs : ¬ b <:+ f)
    (hgone : (removeDirAll fuel p (.alone t typed faults)).1.tree.get f = none) :
    ¬ RemovesOnly t p := by
  intro h
  rcases (h typed faults fuel).2 f x hx with hkept | ⟨b', hb', hs'⟩
  · cases hgone.symm.trans hkept
  · exact hs (Except.ok.inj (hb.symm.trans hb') ▸ hs')

/-- The location `d/x`. -/
def dx : Loc FileName := [⟨[120], by decide⟩, ⟨[100], by decide⟩]

/-- A root with a directory `d`, a file `x` in it, and a link `l` to `d`. -/
def linked : Tree :=
  .ofEntries
    [(dx.tail, .dir), (dx, .file []),
      ([⟨[108], by decide⟩], .link ⟨false, [.name ⟨[100], by decide⟩], by simp⟩)]
    (by decide) (by decide)

/-- A root with a directory `d`, a file `x` in it, and a directory `e`; in that one, there is a
directory whose name is the byte 255 and a link to `d` whose name is what is shown for it. -/
def clashing : Tree :=
  .ofEntries
    [(dx.tail, .dir), (dx, .file []),
      ([⟨[101], by decide⟩], .dir),
      ([⟨[255], by decide⟩, ⟨[101], by decide⟩], .dir),
      ([⟨[239, 191, 189], by decide⟩, ⟨[101], by decide⟩],
        .link ⟨true, [.name ⟨[100], by decide⟩], by simp⟩)]
    (by decide) (by decide)

/-- `remove_dir_all("l")` in the one tree and `remove_dir_all("e")` in the other remove the file
`d/x`, and fail. -/
theorem removeDirAll_through_link :
    (linked.get dx = some (.file []) ∧
      (removeDirAll 1 [108] (.alone linked (fun _ => true) [])).2 = some (.error .other) ∧
      (removeDirAll 1 [108] (.alone linked (fun _ => true) [])).1.tree.get dx = none ∧
      ¬ RemovesOnly linked [108]) ∧
    clashing.get dx = some (.file []) ∧
    (removeDirAll 2 [101] (.alone clashing (fun _ => true) [])).2 = some (.error .other) ∧
    (removeDirAll 2 [101] (.alone clashing (fun _ => true) [])).1.tree.get dx = none ∧
    ¬ RemovesOnly clashing [101] := by
  have hlinked :
      (removeDirAll 1 [108] (.alone linked (fun _ => true) [])).1.tree.get dx = none := by
    decide +kernel
  have hclashing :
      (removeDirAll 2 [101] (.alone clashing (fun _ => true) [])).1.tree.get dx = none := by
    decide +kernel
  have hl : lookup linked false [108] = .ok [⟨[108], by decide⟩] := by rfl
  have he : lookup clashing false [101] = .ok [⟨[101], by decide⟩] := by rfl
  refine ⟨⟨rfl, by decide +kernel, hlinked, not_removesOnly rfl hl ?_ hlinked⟩, rfl,
    by decide +kernel, hclashing, not_removesOnly rfl he ?_ hclashing⟩
  · decide
  · decide

end PureStd.Fs
