/-
What `remove_dir_all` can remove.

The calls of `remove_dir_all` are followed with a rule (`RemoveRule`): a relation that every
single call keeps holds between the worlds before and after.  The paths that it builds, of a
directory that was opened and the name of an entry, lead to that entry: the directory may have
been removed since, but nothing else can stand there.  So everything that is removed lies below
the location that the first path opens, if the entries that are taken for directories are not
links.
-/
import PureStd.Fs.Lookup

namespace PureStd.Fs

open FileTree

variable {t t₀ t' : Tree} {p q : Path} {w w' w₁ w₂ w₃ : World} {b l L r : Loc FileName}
  {m n : FileName} {e : DirEntry} {follow : Bool} {k k' : ℕ}

/-! ### Names as they are shown -/

/-- The name that `ReadDir` shows is a name as well. -/
lemma proper_lossy {bs : List UInt8} (h : Proper bs) : Proper (Utf8.lossy bs) := by
  have hplain : Utf8.lossy bs = bs ∨ 0xef ∈ Utf8.lossy bs := by
    by_cases hmem : 0xef ∈ Utf8.lossy bs
    · exact Or.inr hmem
    · exact Or.inl (Utf8.lossy_eq_of_not_mem hmem)
  have hother {x : UInt8} (hx : x ∉ bs) (hrep : x ∉ Utf8.replacement) : x ∉ Utf8.lossy bs :=
    fun hmem => (Utf8.mem_lossy hmem).elim hx hrep
  have hne {bs' : List UInt8} (hbs : bs ≠ bs') (hmem : 0xef ∉ bs') : Utf8.lossy bs ≠ bs' := by
    intro heq
    rcases hplain with hsame | hrep
    · exact hbs (hsame.symm.trans heq)
    · exact hmem (heq ▸ hrep)
  exact ⟨hne h.1 (by simp), hother h.2.1 (by decide), hother h.2.2.1 (by decide),
    hne h.2.2.2.1 (by decide), hne h.2.2.2.2 (by decide)⟩

/-- The name that `ReadDir` shows for an entry. -/
def FileName.shown (n : FileName) : FileName := ⟨Utf8.lossy n.bytes, proper_lossy n.proper⟩

lemma FileName.shown_of_valid (h : Utf8.Valid n.bytes) : n.shown = n :=
  FileName.ext (Utf8.lossy_of_valid h)

lemma dirEntry_path (typed : Loc FileName → Bool) (x : Node FileName (List UInt8)) :
    (dirEntry typed q L (n, x)).path = Path.join q n.shown.bytes := rfl

/-! ### Paths of entries -/

/-- The path of an entry is walked through the directory that was opened before. -/
lemma walks_join (hq : q ≠ []) (hopen : Reaches t true q L k) (hsub : Sub t' t)
    (h : Reaches t' follow (Path.join q m.bytes) r k') : Walks t' follow k L [.name m] r k' := by
  have htrail : trailing (Path.join q m.bytes) = [] := if_neg (getLast?_join q m)
  rw [Reaches, htrail, List.append_nil, comps_join, start_join hq] at h
  obtain ⟨l, k₁, h₁, h₂⟩ := h.split (by simp)
  obtain ⟨rfl, rfl⟩ := (start_of_sub hsub q ▸ h₁.mono hsub).unique (reaches_true.1 hopen).1
  exact h₂

lemma lookupParent_join (hq : q ≠ []) (hopen : Reaches t true q L k) (hsub : Sub t' t)
    (h : lookupParent t' (Path.join q m.bytes) = .ok (.entry l n)) : l = L ∧ n = m := by
  obtain ⟨cs, k₁, hcs, hwalk, -⟩ := lookupParent_entry.1 h
  rw [comps_join] at hcs
  obtain ⟨rfl, hn⟩ := List.append_inj' hcs rfl
  obtain rfl : m = n := by simpa using hn
  rw [start_join hq] at hwalk
  exact ⟨((start_of_sub hsub q ▸ hwalk.mono hsub).unique (reaches_true.1 hopen).1).1, rfl⟩

/-! ### Calls that remove -/

lemma unlink_eq_ok (h : unlink t p = .ok t') :
    ∃ l n x, lookupParent t p = .ok (.entry l n) ∧ t.get (n :: l) = some x ∧ x ≠ .dir ∧
      t' = t.remove (n :: l) := by
  rw [unlink] at h
  split at h
  · cases h
  · rename_i l n hentry
    split at h
    · cases h
    · cases h
    · rename_i x hdir hx
      split at h
      · cases h
      · cases h
        exact ⟨l, n, x, hentry, hx, hdir, rfl⟩
  · cases h

lemma rmdir_eq_ok (h : rmdir t p = .ok t') :
    ∃ l n, lookupParent t p = .ok (.entry l n) ∧ t.get (n :: l) = some .dir ∧
      t.listing (n :: l) = [] ∧ t' = t.remove (n :: l) := by
  rw [rmdir] at h
  split at h
  · cases h
  · rename_i l n hentry
    split at h
    · cases h
    · rename_i hdir
      split at h
      · rename_i hnil
        cases h
        exact ⟨l, n, hentry, hdir, hnil, rfl⟩
      · cases h
    · cases h
  · cases h
  · cases h
  · cases h

/-- The directory that `rmdir` removes is the one that the path names, links followed or not. -/
lemma rmdir_reaches (hentry : lookupParent t p = .ok (.entry l n))
    (hdir : t.get (n :: l) = some .dir) (follow : Bool) :
    ∃ k, Reaches t follow p (n :: l) k := by
  obtain ⟨cs, k, hcs, hwalk, hl⟩ := lookupParent_entry.1 hentry
  have hpass : t.Passable (n :: l) := Or.inl hdir
  refine ⟨k, ?_⟩
  rw [Reaches, hcs, List.append_assoc]
  refine hwalk.append (.entry hl hdir (by simp) ?_) (by simp)
  rw [trailing]
  split
  · exact .self hpass (.done _ _)
  · exact .done _ _

/-! ### Worlds that shrink -/

/-- No other process interferes. -/
def World.Alone (w : World) : Prop := ∀ turn ∈ w.turns, turn.others = []

lemma World.Alone.pop (h : w.Alone) : w.pop.1.tree = w.tree ∧ w.pop.1.Alone := by
  rw [World.pop]
  split
  · exact ⟨rfl, h⟩
  · rename_i turn turns hturns
    rw [World.Alone, hturns] at h
    refine ⟨?_, fun turn' hturn' => h turn' (List.mem_cons_of_mem _ hturn')⟩
    rw [h turn (List.mem_cons_self ..)]
    rfl

/-- Nothing has changed but what stood at `b` and below, which may be gone. -/
structure Shrunk (b : Loc FileName) (w w' : World) : Prop where
  sub : Sub w'.tree w.tree
  kept : ∀ l x, w.tree.get l = some x → w'.tree.get l = some x ∨ b <:+ l
  alone : w.Alone → w'.Alone

namespace Shrunk

lemma of_tree (h : w'.tree = w.tree) (halone : w.Alone → w'.Alone) : Shrunk b w w' :=
  ⟨h ▸ .refl _, fun _ _ hx => Or.inl (h ▸ hx), halone⟩

lemma of_same (h : w'.tree = w.tree ∧ w'.Alone) : Shrunk b w w' := of_tree h.1 fun _ => h.2

lemma refl (b : Loc FileName) (w : World) : Shrunk b w w := of_tree rfl id

lemma trans (h : Shrunk b w₁ w₂) (h' : Shrunk b w₂ w₃) : Shrunk b w₁ w₃ where
  sub := h'.sub.trans h.sub
  kept l x hx := (h.kept l x hx).elim (h'.kept l x) Or.inr
  alone := h'.alone ∘ h.alone

lemma of_remove (hl : l ≠ []) (h : w'.tree = w.tree.remove l) (hb : b <:+ l)
    (halone : w.Alone → w'.Alone) : Shrunk b w w' := by
  refine ⟨h ▸ sub_remove _ hl, fun k x hx => ?_, halone⟩
  rw [h, get_remove hl]
  split
  · exact Or.inr (hb.trans ‹_›)
  · exact Or.inl hx

end Shrunk

/-- A call fails and leaves the tree as it is, or does what it should. -/
lemma sys_eq {α : Type} {op : Tree → Path → Except Errno (Tree × α)} {r : Io.Result α}
    (hw : w.Alone) (h : sys p op w = (w', r)) :
    w'.Alone ∧ (w'.tree = w.tree ∧ (∃ err, r = .error err) ∨
      0 ∉ p ∧ ∃ a, r = .ok a ∧ op w.tree p = .ok (w'.tree, a)) := by
  have hsys := sys_cases p op w
  rw [h] at hsys
  cases hsys with
  | nul => exact ⟨hw, Or.inl ⟨rfl, _, rfl⟩⟩
  | fault | error => exact ⟨hw.pop.2, Or.inl ⟨hw.pop.1, _, rfl⟩⟩
  | ok hnul hpop hop =>
    rw [hw.pop.1] at hop
    exact ⟨hw.pop.2, Or.inr ⟨hnul, _, rfl, hop⟩⟩

/-- The result of a call that changes nothing. -/
lemma map_eq_ok {α β : Type} {res : Except Errno α} {f : α → β} {y : β}
    (h : res.map (fun a => (t, f a)) = .ok (t', y)) : t' = t ∧ ∃ a, res = .ok a ∧ y = f a := by
  cases res with
  | error e => cases h
  | ok a =>
    cases h
    exact ⟨rfl, a, rfl, rfl⟩

/-- The result of a call that changes the tree. -/
lemma map_unit_eq_ok {res : Except Errno Tree} {u : Unit}
    (h : res.map (·, ()) = .ok (t', u)) : res = .ok t' := by
  cases res with
  | error e => cases h
  | ok a =>
    cases h
    rfl

/-- A call that only looks at the tree leaves it as it is. -/
lemma sys_same {α β : Type} {op : Tree → Path → Except Errno α} {f : α → β} {r : Io.Result β}
    (hw : w.Alone) (h : sys p (fun t c => (op t c).map fun a => (t, f a)) w = (w', r)) :
    w'.tree = w.tree ∧ w'.Alone := by
  obtain ⟨hw', ⟨htree, -⟩ | ⟨-, a, -, hop⟩⟩ := sys_eq hw h
  · exact ⟨htree, hw'⟩
  · exact ⟨(map_eq_ok hop).1, hw'⟩

lemma fileType_same {r : Io.Result FileType} (hw : w.Alone) (h : e.fileType w = (w', r)) :
    w'.tree = w.tree ∧ w'.Alone := by
  rw [DirEntry.fileType] at h
  split at h
  · cases h
    exact ⟨rfl, hw⟩
  · exact sys_same hw h

lemma readDir_same {r : Io.Result (List DirEntry)} (hw : w.Alone) (h : readDir p w = (w', r)) :
    w'.tree = w.tree ∧ w'.Alone :=
  sys_same hw h

lemma nextEntry_same {r : Io.Result Unit} (hw : w.Alone) (h : nextEntry w = (w', r)) :
    w'.tree = w.tree ∧ w'.Alone := by
  have hpop := hw.pop
  rw [nextEntry, World.call] at h
  rcases heq : w.pop with ⟨w₁, fault⟩
  rw [heq] at h hpop
  cases fault with
  | none | some =>
    cases h
    exact hpop

lemma removeFile_shrunk (hw : w.Alone)
    (hb : ∀ l n, lookupParent w.tree p = .ok (.entry l n) → b <:+ n :: l) :
    Shrunk b w (removeFile p w).1 := by
  rcases hres : removeFile p w with ⟨w', r⟩
  obtain ⟨hw', ⟨htree, -⟩ | ⟨-, u, -, hop⟩⟩ := sys_eq hw hres
  · exact .of_same ⟨htree, hw'⟩
  · obtain ⟨l, n, x, hentry, -, -, htree⟩ := unlink_eq_ok (map_unit_eq_ok hop)
    exact .of_remove (by simp) htree (hb l n hentry) fun _ => hw'

lemma removeDir_shrunk (hw : w.Alone)
    (hb : ∀ l n, lookupParent w.tree p = .ok (.entry l n) → w.tree.get (n :: l) = some .dir →
      b <:+ n :: l) :
    Shrunk b w (removeDir p w).1 := by
  rcases hres : removeDir p w with ⟨w', r⟩
  obtain ⟨hw', ⟨htree, -⟩ | ⟨-, u, -, hop⟩⟩ := sys_eq hw hres
  · exact .of_same ⟨htree, hw'⟩
  · obtain ⟨l, n, hentry, hdir, -, htree⟩ := rmdir_eq_ok (map_unit_eq_ok hop)
    exact .of_remove (by simp) htree (hb l n hentry hdir) fun _ => hw'

/-! ### The ways through `remove_dir_all` -/

section Cases

variable (rec : Path → World → World × Outcome)

lemma removeDirAll_cases (fuel : ℕ) (p : Path) (w : World) :
    (∃ w₁ err, readDir p w = (w₁, .error err) ∧
      removeDirAll (fuel + 1) p w = (w₁, some (.error err))) ∨
    ∃ w₁ es, readDir p w = (w₁, .ok es) ∧
      removeDirAll (fuel + 1) p w = removeOpened (removeDirAll fuel) p es w₁ := by
  rw [removeDirAll]
  rcases readDir p w with ⟨w₁, err | es⟩
  · exact Or.inl ⟨w₁, err, rfl, rfl⟩
  · exact Or.inr ⟨w₁, es, rfl, rfl⟩

lemma removeOpened_nil (p : Path) (w : World) :
    (∃ w₁ err, nextEntry w = (w₁, .error err) ∧
      removeOpened rec p [] w = (w₁, some (.error err))) ∨
    ∃ w₁ w₂ r, nextEntry w = (w₁, .ok ()) ∧ removeDir p w₁ = (w₂, r) ∧
      removeOpened rec p [] w = (w₂, some r) := by
  rw [removeOpened, removeEntries]
  rcases nextEntry w with ⟨w₁, err | ⟨⟩⟩
  · exact Or.inl ⟨w₁, err, rfl, rfl⟩
  · exact Or.inr ⟨w₁, _, _, rfl, rfl, rfl⟩

lemma removeOpened_cons (p : Path) (e : DirEntry) (es : List DirEntry) (w : World) :
    (∃ w₁ err, nextEntry w = (w₁, .error err) ∧
      removeOpened rec p (e :: es) w = (w₁, some (.error err))) ∨
    ∃ w₁ w₂ out, nextEntry w = (w₁, .ok ()) ∧ removeEntry rec e w₁ = (w₂, out) ∧
      (out ≠ some (.ok ()) ∧ removeOpened rec p (e :: es) w = (w₂, out) ∨
        out = some (.ok ()) ∧ removeOpened rec p (e :: es) w = removeOpened rec p es w₂) := by
  rw [removeOpened, removeEntries]
  rcases nextEntry w with ⟨w₁, err | ⟨⟩⟩
  · exact Or.inl ⟨w₁, err, rfl, rfl⟩
  · rcases hres : removeEntry rec e w₁ with ⟨w₂, out⟩
    refine Or.inr ⟨w₁, w₂, out, rfl, hres, ?_⟩
    simp only [hres]
    match out with
    | none => exact Or.inl ⟨nofun, rfl⟩
    | some (.error err) => exact Or.inl ⟨nofun, rfl⟩
    | some (.ok ()) => exact Or.inr ⟨rfl, rfl⟩

lemma removeEntry_cases (e : DirEntry) (w : World) :
    (∃ w₁ err, e.fileType w = (w₁, .error err) ∧ removeEntry rec e w = (w₁, some (.error err))) ∨
    (∃ w₁, e.fileType w = (w₁, .ok .dir) ∧ removeEntry rec e w = rec e.path w₁) ∨
    ∃ w₁ w₂ ft r, e.fileType w = (w₁, .ok ft) ∧ ft ≠ .dir ∧ removeFile e.path w₁ = (w₂, r) ∧
      removeEntry rec e w = (w₂, some r) := by
  rw [removeEntry]
  rcases e.fileType w with ⟨w₁, err | ft⟩
  · exact Or.inl ⟨w₁, err, rfl, rfl⟩
  · by_cases hdir : ft = .dir
    · subst hdir
      exact Or.inr (Or.inl ⟨w₁, rfl, rfl⟩)
    · rcases hfile : removeFile e.path w₁ with ⟨w₂, r⟩
      refine Or.inr (Or.inr ⟨w₁, w₂, ft, r, rfl, hdir, hfile, ?_⟩)
      simp only [if_neg hdir, hfile]

end Cases

/-! ### The rule -/

/-- What makes `remove_dir_all` stay at `b` and below: `Q q` holds before the call with the path
`q` and `E e` before the turn of the loop with the entry `e`. -/
structure RemoveRule (b : Loc FileName) (Q : Path → World → Prop)
    (E : DirEntry → World → Prop) : Prop where
  alone : ∀ q w, Q q w → w.Alone
  path_stable : ∀ q w w', Q q w → Shrunk b w w' → Q q w'
  entry_stable : ∀ e w w', E e w → Shrunk b w w' → E e w'
  listed : ∀ q w w' es, Q q w → readDir q w = (w', .ok es) → ∀ e ∈ es, E e w'
  recurse : ∀ e w w', w.Alone → E e w → e.fileType w = (w', .ok .dir) → Q e.path w'
  removeFile : ∀ e w, w.Alone → E e w → Shrunk b w (removeFile e.path w).1
  removeDir : ∀ q w, Q q w → Shrunk b w (removeDir q w).1

namespace RemoveRule

variable {Q : Path → World → Prop} {E : DirEntry → World → Prop}
  {rec : Path → World → World × Outcome}

lemma removeEntry (h : RemoveRule b Q E) (hrec : ∀ q w, Q q w → Shrunk b w (rec q w).1)
    (hw : w.Alone) (he : E e w) : Shrunk b w (removeEntry rec e w).1 := by
  rcases removeEntry_cases rec e w with ⟨w₁, err, hft, heq⟩ | ⟨w₁, hft, heq⟩ |
    ⟨w₁, w₂, ft, r, hft, -, hfile, heq⟩ <;> rw [heq] <;>
    have htype : Shrunk b w w₁ := .of_same (fileType_same hw hft)
  · exact htype
  · exact htype.trans (hrec _ _ (h.recurse e w w₁ hw he hft))
  · have hremove := h.removeFile e w₁ (htype.alone hw) (h.entry_stable e w w₁ he htype)
    rw [hfile] at hremove
    exact htype.trans hremove

lemma removeOpened (h : RemoveRule b Q E) (hrec : ∀ q w, Q q w → Shrunk b w (rec q w).1)
    {es : List DirEntry} (hq : Q q w) (hes : ∀ e ∈ es, E e w) :
    Shrunk b w (removeOpened rec q es w).1 := by
  have hw := h.alone q w hq
  induction es generalizing w with
  | nil =>
    rcases removeOpened_nil rec q w with ⟨w₁, err, hn, heq⟩ | ⟨w₁, w₂, r, hn, hdir, heq⟩ <;>
      rw [heq] <;> have hnext : Shrunk b w w₁ := .of_same (nextEntry_same hw hn)
    · exact hnext
    · have hremove := h.removeDir q w₁ (h.path_stable q w w₁ hq hnext)
      rw [hdir] at hremove
      exact hnext.trans hremove
  | cons e es ih =>
    rcases removeOpened_cons rec q e es w with ⟨w₁, err, hn, heq⟩ |
      ⟨w₁, w₂, out, hn, hentry, hrest⟩ <;>
      have hnext : Shrunk b w w₁ := .of_same (nextEntry_same hw hn)
    · rw [heq]
      exact hnext
    · have he : E e w₁ := h.entry_stable e w w₁ (hes e (List.mem_cons_self ..)) hnext
      have hturn := hnext.trans (h.removeEntry hrec (hnext.alone hw) he)
      rw [hentry] at hturn
      rcases hrest with ⟨-, heq⟩ | ⟨-, heq⟩
      · rw [heq]
        exact hturn
      · rw [heq]
        refine hturn.trans (ih (h.path_stable q w w₂ hq hturn) (fun e' he' => ?_)
          (hturn.alone hw))
        exact h.entry_stable e' w w₂ (hes e' (List.mem_cons_of_mem e he')) hturn

/-- `remove_dir_all` stays at `b` and below. -/
lemma removeDirAll (h : RemoveRule b Q E) (fuel : ℕ) (hq : Q q w) :
    Shrunk b w (removeDirAll fuel q w).1 := by
  induction fuel generalizing q w with
  | zero => exact .refl b w
  | succ fuel ih =>
    rcases removeDirAll_cases fuel q w with ⟨w₁, err, hread, heq⟩ | ⟨w₁, es, hread, heq⟩ <;>
      rw [heq] <;> have hopen : Shrunk b w w₁ := .of_same (readDir_same (h.alone q w hq) hread)
    · exact hopen
    · exact hopen.trans (h.removeOpened (fun _ _ => ih) (h.path_stable q w w₁ hq hopen)
        (h.listed q w w₁ es hq hread))

end RemoveRule

/-- Whatever happens, `remove_dir_all` only removes. -/
lemma removeRule_shrinks : RemoveRule [] (fun _ w => w.Alone) (fun _ w => w.Alone) where
  alone _ _ hw := hw
  path_stable _ _ _ hw h := h.alone hw
  entry_stable _ _ _ hw h := h.alone hw
  listed _ _ _ _ hw hread _ _ := (readDir_same hw hread).2
  recurse _ _ _ hw _ hft := (fileType_same hw hft).2
  removeFile _ _ hw _ := removeFile_shrunk hw fun _ _ _ => List.nil_suffix
  removeDir _ _ hw := removeDir_shrunk hw fun _ _ _ _ => List.nil_suffix

lemma removeDirAll_shrinks (fuel : ℕ) (q : Path) (w : World) (hw : w.Alone) :
    Shrunk [] w (removeDirAll fuel q w).1 :=
  removeRule_shrinks.removeDirAll fuel hw

lemma removeEntry_shrinks {rec : Path → World → World × Outcome} {out : Outcome}
    (hrec : ∀ q w, w.Alone → Shrunk [] w (rec q w).1) (hw : w.Alone)
    (h : removeEntry rec e w = (w', out)) : Shrunk [] w w' := by
  have hturn := removeRule_shrinks.removeEntry hrec (e := e) hw hw
  rw [h] at hturn
  exact hturn

/-! ### Directories that are opened -/

/-- The path opens a directory. -/
def Opens (t : Tree) (p : Path) (L : Loc FileName) : Prop :=
  lookup t true p = .ok L ∧ t.Passable L

lemma Opens.mono (h : Opens t p L) (hsub : Sub t t') : Opens t' p L :=
  ⟨lookup_grows h.1 hsub.grows, h.2.mono hsub⟩

lemma opendir_eq_ok {es : List (FileName × Node FileName (List UInt8))}
    (h : opendir t p = .ok (L, es)) : Opens t p L ∧ es = t.listing L := by
  rw [opendir] at h
  split at h
  · cases h
  · rename_i l hl
    split at h
    · rename_i hpass
      cases h
      exact ⟨⟨hl, hpass⟩, rfl⟩
    · cases h

/-- What `read_dir` returns. -/
lemma readDir_eq_ok {es : List DirEntry} (hw : w.Alone) (h : readDir q w = (w', .ok es)) :
    0 ∉ q ∧ ∃ L, Opens w.tree q L ∧ es = (w.tree.listing L).map (dirEntry w.typed q L) := by
  obtain ⟨-, ⟨-, err, herr⟩ | ⟨hnul, a, ha, hop⟩⟩ := sys_eq hw h
  · cases herr
  · cases ha
    obtain ⟨-, ⟨L, es'⟩, hopen, rfl⟩ := map_eq_ok hop
    obtain ⟨hopens, rfl⟩ := opendir_eq_ok hopen
    exact ⟨hnul, L, hopens, rfl⟩

/-- What `file_type` returns: what the listing has told, or what stands there now. -/
lemma fileType_eq_ok {ft : FileType} (hw : w.Alone) (h : e.fileType w = (w', .ok ft)) :
    e.dType = some ft ∨
      e.dType = none ∧ ∃ l, lookup w.tree false e.path = .ok l ∧ typeAt w.tree l = ft := by
  rw [DirEntry.fileType] at h
  split at h
  · rename_i ft' hft'
    cases h
    exact Or.inl hft'
  · rename_i hnone
    obtain ⟨-, ⟨-, err, herr⟩ | ⟨-, a, ha, hop⟩⟩ := sys_eq hw h
    · cases herr
    · cases ha
      obtain ⟨-, ft', hstat, rfl⟩ := map_eq_ok hop
      rw [statat] at hstat
      cases hl : lookup w.tree false e.path with
      | error err =>
        rw [hl] at hstat
        cases hstat
      | ok l =>
        rw [hl] at hstat
        cases hstat
        exact Or.inr ⟨hnone, l, rfl, rfl⟩

/-- An entry was listed in a directory at `b` or below, in a part of the tree `t₀`. -/
def Listed (t₀ : Tree) (b : Loc FileName) (e : DirEntry) (w : World) : Prop :=
  ∃ typed q L n x t, e = dirEntry typed q L (n, x) ∧ Opens t q L ∧ Sub w.tree t ∧ Sub t t₀ ∧
    t.get (n :: L) = some x ∧ b <:+ L

/-- What the path opens is at `b` or below. -/
structure Below (t₀ : Tree) (b : Loc FileName) (q : Path) (w : World) : Prop where
  alone : w.Alone
  sub : Sub w.tree t₀
  opens : ∀ L, Opens w.tree q L → b <:+ L

/-- No directory at `b` or below has a subdirectory whose name is shown as the name of a link
that stands beside it. -/
def NoClash (t : Tree) (b : Loc FileName) : Prop :=
  ∀ l n tgt, b <:+ l → t.get (n :: l) = some .dir → n.shown ≠ n →
    t.get (n.shown :: l) ≠ some (.link tgt)

/-- The path of an entry of a directory at `b` or below leads to a place below `b`, if there is
no link. -/
lemma opens_join {k : Loc FileName} (hopen : Opens t q L) (hsub : Sub t' t) (hb : b <:+ L)
    (hlink : ∀ tgt, t'.get (m :: L) ≠ some (.link tgt)) (h : Opens t' (Path.join q m.bytes) k) :
    b <:+ k := by
  obtain ⟨hq, k₀, hreach⟩ := lookup_eq_ok.1 hopen.1
  obtain ⟨-, k₁, hreach₁⟩ := lookup_eq_ok.1 h.1
  cases walks_join hq hreach hsub hreach₁ with
  | entry hl hx hstop hdone =>
    cases hdone
    exact hb.trans (List.suffix_cons m L)
  | link hl hx => exact absurd hx (hlink _)

/-- An entry that is taken for a directory is none of the links. -/
lemma Listed.not_link (hclash : NoClash t₀ b) {typed : Loc FileName → Bool}
    {x : Node FileName (List UInt8)} (hw : w.Alone) (hopen : Opens t q L) (hsub : Sub w.tree t)
    (hsub₀ : Sub t t₀) (hx : t.get (n :: L) = some x) (hb : b <:+ L)
    (htype : (dirEntry typed q L (n, x)).fileType w = (w', .ok .dir)) (tgt : Target FileName) :
    w.tree.get (n.shown :: L) ≠ some (.link tgt) := by
  intro hlink
  rcases fileType_eq_ok hw htype with htold | ⟨-, l, hl, htype⟩
  · -- the listing says that the entry itself is a directory
    have hdir : x = .dir := by
      simp only [dirEntry, Option.ite_none_right_eq_some, Option.some.injEq] at htold
      cases x with
      | dir => rfl
      | file | link => cases htold.2
    subst hdir
    by_cases hshown : n.shown = n
    · rw [hshown] at hlink
      cases (hsub.get _ _ hlink).symm.trans hx
    · exact hclash L n tgt hb (hsub₀.get _ _ hx) hshown (hsub₀.get _ _ (hsub.get _ _ hlink))
  · obtain ⟨hq, k₀, hreach⟩ := lookup_eq_ok.1 hopen.1
    obtain ⟨-, k₁, hreach₁⟩ := lookup_eq_ok.1 hl
    rw [dirEntry_path] at hreach₁
    cases walks_join hq hreach hsub hreach₁ with
    | entry _ _ _ hdone =>
      cases hdone
      simp [typeAt, hlink, nodeType] at htype
    | link _ _ hfollow => simp at hfollow

/-- `remove_dir_all` stays at `b` and below, if its path opens nothing else and there is no
clash of names. -/
lemma removeRule_below (hclash : NoClash t₀ b) :
    RemoveRule b (Below t₀ b) (fun e w => Sub w.tree t₀ ∧ Listed t₀ b e w) where
  alone _ _ hq := hq.alone
  path_stable _ _ _ hq h :=
    ⟨h.alone hq.alone, h.sub.trans hq.sub, fun L hL => hq.opens L (hL.mono h.sub)⟩
  entry_stable := by
    rintro e w w' ⟨hsub, typed, q, L, n, x, t, he, hopen, hsub', hrest⟩ h
    exact ⟨h.sub.trans hsub, typed, q, L, n, x, t, he, hopen, h.sub.trans hsub', hrest⟩
  listed := by
    intro q w w' es hq hread e he
    obtain ⟨-, L, hopen, rfl⟩ := readDir_eq_ok hq.alone hread
    have htree := (readDir_same hq.alone hread).1
    obtain ⟨⟨n, x⟩, hmem, rfl⟩ := List.mem_map.1 he
    exact ⟨htree ▸ hq.sub, w.typed, q, L, n, x, w.tree, rfl, hopen, htree ▸ .refl _, hq.sub,
      mem_listing.1 hmem, hq.opens L hopen⟩
  recurse := by
    rintro e w w' hw ⟨hsub, typed, q, L, n, x, t, rfl, hopen, hsub', hsub₀, hx, hb⟩ hft
    obtain ⟨htree, hw'⟩ := fileType_same hw hft
    refine ⟨hw', htree ▸ hsub, fun k hk => ?_⟩
    rw [dirEntry_path, htree] at hk
    refine opens_join hopen hsub' hb (fun tgt => ?_) hk
    exact Listed.not_link hclash hw hopen hsub' hsub₀ hx hb hft tgt
  removeFile := by
    rintro e w hw ⟨hsub, typed, q, L, n, x, t, rfl, hopen, hsub', hsub₀, hx, hb⟩
    refine removeFile_shrunk hw fun l m hentry => ?_
    rw [dirEntry_path] at hentry
    obtain ⟨hq, k₀, hreach⟩ := lookup_eq_ok.1 hopen.1
    obtain ⟨rfl, rfl⟩ := lookupParent_join hq hreach hsub' hentry
    exact hb.trans (List.suffix_cons _ _)
  removeDir := by
    intro q w hq
    refine removeDir_shrunk hq.alone fun l n hentry hdir => ?_
    obtain ⟨k, hreach⟩ := rmdir_reaches hentry hdir true
    have hne : q ≠ [] := by
      rintro rfl
      cases hentry
    exact hq.opens _ ⟨lookup_eq_ok.2 ⟨hne, k, hreach⟩, Or.inl hdir⟩

end PureStd.Fs
