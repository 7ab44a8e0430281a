/-
The file name of a path and its parts, `src/path.rs`: `file_name`, `file_stem`, `extension`,
and the operations that replace them.

A path with a file name is the name alone or a text, a slash and the name.  `set_file_name`
pops the parent and pushes the new name: a path that is a name alone has no parent, so nothing is
popped there and the path is extended.  When the old name stands after several slashes, `parent`
and `push` together take one slash away.
-/
import PureStd.Lib.Separators
import PureStd.Path.Components

namespace PureStd

namespace Path

/-- `rfind` of a character of one byte. -/
def rfindByte (c : UInt8) (s : Path) : Option ℕ :=
  (s.reverse.findIdx? (· == c)).map fun i => s.length - 1 - i

/-- `Path::file_name`. -/
def fileName (p : Path) : Option Path :=
  if p = [] ∨ p.getLast? = some sep then none
  else
    match rfindByte sep p with
    | some i => some (p.drop (i + 1))
    | none => some p

/-- `Path::extension`. -/
def extension (p : Path) : Option Path := do
  let name ← fileName p
  match rfindByte dot name with
  | some 0 | none => none
  | some i => some (name.drop (i + 1))

/-- `Path::file_stem`. -/
def fileStem (p : Path) : Option Path := do
  let name ← fileName p
  match rfindByte dot name with
  | some 0 | none => some name
  | some i => some (name.take i)

/-- `Path::with_file_name`. -/
def withFileName (p name : Path) : Path :=
  match parent p with
  | some q => join q name
  | none => name

/-- `PathBuf::pop`: the answer, and the path after. -/
def pop (p : Path) : Bool × Path :=
  match parent p with
  | some q => (true, q)
  | none => (false, p)

/-- `PathBuf::set_file_name`. -/
def setFileName (p name : Path) : Path :=
  let popped := if (fileName p).isSome then (pop p).2 else p
  push popped name

/-- `PathBuf::set_extension`: the answer, and the path after. -/
def setExtension (p ext : Path) : Bool × Path :=
  match fileStem p with
  | none => (false, p)
  | some stem =>
    let name := if ext ≠ [] then stem ++ [dot] ++ ext else stem
    (true, setFileName p name)

/-- `Path::with_extension`. -/
def withExtension (p ext : Path) : Path := (setExtension p ext).2

/-! ### The last occurrence -/

variable {p d f n e : Path} {c : UInt8}

lemma rfindByte_append (h : c ∉ f) : rfindByte c (d ++ c :: f) = some d.length := by
  rw [rfindByte, Separators.findIdx?_reverse_last h]
  simp

lemma rfindByte_of_not_mem (h : c ∉ p) : rfindByte c p = none := by
  rw [rfindByte, Option.map_eq_none_iff, List.findIdx?_eq_none_iff]
  intro b hb
  rw [beq_eq_false_iff_ne]
  rintro rfl
  exact h (List.mem_reverse.1 hb)

/-! ### File names -/

/-- A name that a path can end with. -/
def IsName (f : Path) : Prop := f ≠ [] ∧ sep ∉ f

lemma IsName.getLast? (h : IsName f) (d : Path) : (d ++ f).getLast? ≠ some sep := by
  intro hlast
  rw [List.getLast?_append_of_ne_nil _ h.1] at hlast
  exact h.2 (List.mem_of_getLast? hlast)

lemma IsName.isAbsolute (h : IsName f) : isAbsolute f = false := by
  rw [Path.isAbsolute, beq_eq_false_iff_ne]
  exact fun heq => h.2 (List.mem_of_head? heq)

lemma fileName_self (h : IsName f) : fileName f = some f := by
  have hlast := h.getLast? []
  rw [fileName, if_neg (by simpa [h.1] using hlast), rfindByte_of_not_mem h.2]

lemma fileName_append (h : IsName f) (d : Path) : fileName (d ++ sep :: f) = some f := by
  have hlast : ¬ (d ++ sep :: f = [] ∨ (d ++ sep :: f).getLast? = some sep) := by
    have := h.getLast? (d ++ [sep])
    rw [List.append_assoc, List.singleton_append] at this
    simpa using this
  rw [fileName, if_neg hlast, rfindByte_append h.2]
  simp

/-- A path with a file name is the name alone, or ends with a slash and the name. -/
lemma fileName_cases (h : fileName p = some f) :
    IsName f ∧ (p = f ∨ ∃ d, p = d ++ sep :: f) := by
  unfold fileName at h
  split_ifs at h with hend
  obtain ⟨hne, hlast⟩ := not_or.1 hend
  by_cases hsep : sep ∈ p
  · obtain ⟨d, g, rfl, hg⟩ := Separators.exists_last hsep
    have hgne : g ≠ [] := by
      rintro rfl
      simp at hlast
    rw [rfindByte_append hg] at h
    obtain rfl : g = f := by simpa using h
    exact ⟨⟨hgne, hg⟩, Or.inr ⟨d, rfl⟩⟩
  · rw [rfindByte_of_not_mem hsep] at h
    obtain rfl : p = f := by simpa using h
    exact ⟨⟨hne, hsep⟩, Or.inl rfl⟩

/-! ### Replacing the name -/

lemma parent_self (h : IsName f) : parent f = none := by
  rw [parent, Separators.rdropWhile_of_notMem h.2, rfind_eq_none.2 h.2]

lemma parent_append (h : IsName f) (d : Path) :
    parent (d ++ sep :: f) = some (if d = [] then [sep] else d) := by
  have htrim : (d ++ sep :: f).rdropWhile (· == sep) = d ++ sep :: f := by
    have hnot := h.getLast? (d ++ [sep])
    rw [List.append_assoc, List.singleton_append] at hnot
    exact Separators.rdropWhile_of_getLast? hnot
  have hfind : rfind (d ++ sep :: f) = some d.length := rfindByte_append h.2
  rw [parent, htrim, hfind]
  cases d with
  | nil => rfl
  | cons b d => simp

/-- What `push` leaves before the slash of the new name. -/
def lessOneSlash (d : Path) : Path := if d.getLast? = some sep then d.dropLast else d

lemma lessOneSlash_concat (d : Path) : lessOneSlash (d ++ [sep]) = d := by
  simp [lessOneSlash]

lemma push_parent (hn : IsName n) (d : Path) :
    push (if d = [] then [sep] else d) n = lessOneSlash d ++ sep :: n := by
  rw [push, if_neg (head?_of_not_isAbsolute hn.isAbsolute)]
  by_cases hd : d = []
  · simp [hd, lessOneSlash]
  · rw [if_neg hd, lessOneSlash]
    by_cases hlast : d.getLast? = some sep
    · obtain ⟨d', rfl⟩ := List.getLast?_eq_some_iff.1 hlast
      simp
    · simp [hd, hlast]

lemma setFileName_self (hf : IsName f) (hn : IsName n) : setFileName f n = f ++ sep :: n := by
  have hlast := hf.getLast? []
  simp only [setFileName, pop, fileName_self hf, parent_self hf, Option.isSome_some, if_true]
  rw [push, if_neg (head?_of_not_isAbsolute hn.isAbsolute), if_pos ⟨hf.1, by simpa using hlast⟩]
  simp

lemma setFileName_append (hf : IsName f) (hn : IsName n) (d : Path) :
    setFileName (d ++ sep :: f) n = lessOneSlash d ++ sep :: n := by
  simp only [setFileName, pop, fileName_append hf, parent_append hf, Option.isSome_some, if_true]
  exact push_parent hn d

lemma withFileName_self (hf : IsName f) (n : Path) : withFileName f n = n := by
  rw [withFileName, parent_self hf]

lemma withFileName_append (hf : IsName f) (hn : IsName n) (d : Path) :
    withFileName (d ++ sep :: f) n = lessOneSlash d ++ sep :: n := by
  rw [withFileName, parent_append hf]
  exact push_parent hn d

/-! ### The components before the name -/

/-- The text of a path before its file name. -/
def beforeName (p : Path) : Path := p.take (p.length - ((fileName p).getD []).length)

lemma beforeName_self (hf : IsName f) : beforeName f = [] := by
  simp [beforeName, fileName_self hf]

lemma beforeName_append (hf : IsName f) (d : Path) : beforeName (d ++ sep :: f) = d ++ [sep] := by
  have hlen : (d ++ sep :: f).length - f.length = (d ++ [sep]).length := by simp; omega
  have hsplit : d ++ sep :: f = (d ++ [sep]) ++ f := by simp
  rw [beforeName, fileName_append hf, Option.getD_some, hlen, hsplit, List.take_left]

/-- The components that a name is. -/
def nameComponents (f : Path) : List Component := if f = [dot] then [] else [.ofSegment f]

lemma collect_name (hf : IsName f) : (components f).collect = nameComponents f := by
  rw [collect_components, hf.isAbsolute, names_of_not_mem hf.1 hf.2, nameComponents]
  by_cases hdot : f = [dot] <;> simp [hdot]

lemma collect_append_name (hf : IsName f) (d : Path) :
    (components (d ++ sep :: f)).collect =
      (components (d ++ [sep])).collect ++ nameComponents f := by
  have hpush : push (d ++ [sep]) f = d ++ sep :: f := by
    rw [push, if_neg (head?_of_not_isAbsolute hf.isAbsolute), if_neg (by simp)]
    simp
  rw [← hpush, collect_push hf.isAbsolute, collect_name hf]

lemma collect_lessOneSlash (d : Path) :
    (components (lessOneSlash d ++ [sep])).collect = (components (d ++ [sep])).collect := by
  by_cases hlast : d.getLast? = some sep
  · obtain ⟨d', rfl⟩ := List.getLast?_eq_some_iff.1 hlast
    have habs : isAbsolute (d' ++ [sep] ++ [sep]) = isAbsolute (d' ++ [sep]) :=
      isAbsolute_append (by simp) _
    have hnames : names (d' ++ [sep] ++ [sep]) = names (d' ++ [sep]) := by
      rw [names, pieces_append_sep, pieces_nil, List.append_nil, names]
    rw [lessOneSlash_concat, collect_components, collect_components, habs, hnames]
  · rw [lessOneSlash, if_neg hlast]

/-! ### `set_file_name` and `with_file_name` -/

/-- The two operations agree, and replace the file name and nothing before it. -/
def ReplacesName (p n : Path) : Prop :=
  setFileName p n = withFileName p n ∧ fileName (setFileName p n) = some n ∧
    (components (setFileName p n)).collect.dropLast = (components p).collect.dropLast

lemma dropLast_nameComponents (f n : Path) (cs : List Component) :
    (cs ++ nameComponents n).dropLast = (cs ++ nameComponents f).dropLast ↔
      ((f = [dot] ↔ n = [dot]) ∨ cs = []) := by
  have hlen : cs.dropLast = cs ↔ cs = [] := by
    constructor
    · intro h
      have := congrArg List.length h
      rw [List.length_dropLast] at this
      exact List.eq_nil_of_length_eq_zero (by omega)
    · rintro rfl
      rfl
  have hlen' : cs = cs.dropLast ↔ cs = [] := eq_comm.trans hlen
  unfold nameComponents
  by_cases hf : f = [dot] <;> by_cases hn : n = [dot] <;> simp [hf, hn, hlen, hlen']

/-- The file name is replaced if the path has a slash, and a name `.`, which is no component,
is given or replaced only for another one or where no component stands before it. -/
theorem replacesName_iff (hf : fileName p = some f) (hne : n ≠ []) (hsep : sep ∉ n) :
    ReplacesName p n ↔
      sep ∈ p ∧ ((f = [dot] ↔ n = [dot]) ∨ (components (beforeName p)).collect = []) := by
  have hn : IsName n := ⟨hne, hsep⟩
  obtain ⟨hname, rfl | ⟨d, rfl⟩⟩ := fileName_cases hf
  · refine iff_of_false ?_ (fun h => hname.2 h.1)
    rintro ⟨heq, -⟩
    rw [setFileName_self hname hn, withFileName_self hname] at heq
    have hlen := congrArg List.length heq
    rw [List.length_append, List.length_cons] at hlen
    omega
  · simp only [ReplacesName, setFileName_append hname hn, withFileName_append hname hn,
      fileName_append hn, collect_append_name hn, collect_append_name hname, collect_lessOneSlash,
      beforeName_append hname, dropLast_nameComponents]
    simp

/-- `a/b` becomes `a/c`. -/
theorem replacesName_a_b : ReplacesName [97, 47, 98] [99] :=
  (replacesName_iff (f := [98]) (by decide) (by decide) (by decide)).2 (by decide)

/-- A path that is a name alone is extended: `a` becomes `a/c`, and not `c`. -/
theorem setFileName_bare :
    fileName [97] = some [97] ∧ setFileName [97] [99] = [97, 47, 99] ∧
      withFileName [97] [99] = [99] := by
  decide

/-! ### `set_extension` -/

/-- The name with the given stem and extension, as `set_extension` builds it. -/
def extendedName (stem e : Path) : Path := if e ≠ [] then stem ++ [dot] ++ e else stem

variable {stem : Path}

lemma IsName.extendedName (h : IsName stem) (he : sep ∉ e) : IsName (extendedName stem e) := by
  unfold Path.extendedName
  split_ifs
  · have hdot : sep ≠ dot := by decide
    exact ⟨by simp, by simp [h.2, he, hdot]⟩
  · exact h

/-- Every file name has a stem. -/
lemma exists_fileStem (hf : fileName p = some f) :
    ∃ stem, fileStem p = some stem ∧ IsName stem := by
  have hname := (fileName_cases hf).1
  simp only [fileStem, hf, Option.bind_eq_bind, Option.bind_some]
  split
  · exact ⟨f, rfl, hname⟩
  · exact ⟨f, rfl, hname⟩
  · rename_i i hzero hi
    have hpos : i ≠ 0 := fun h => hzero (h ▸ rfl)
    refine ⟨f.take i, rfl, by simp [hpos, hname.1], fun hmem => hname.2 (List.mem_of_mem_take hmem)⟩

/-- The parts of a name are read back where the extension has no dot. -/
lemma fileStem_extendedName (hp : fileName p = some (extendedName stem e)) (hne : e ≠ [])
    (hstem : stem ≠ []) (he : dot ∉ e) : fileStem p = some stem ∧ extension p = some e := by
  have hname : extendedName stem e = stem ++ dot :: e := by simp [extendedName, hne]
  have hlen : stem.length ≠ 0 := by simpa using hstem
  obtain ⟨k, hk⟩ := Nat.exists_eq_succ_of_ne_zero hlen
  rw [hname] at hp
  simp only [fileStem, extension, hp, Option.bind_eq_bind, Option.bind_some,
    rfindByte_append he, hk]
  constructor
  · rw [← hk, List.take_left]
  · have hdrop : (stem ++ dot :: e).drop (stem.length + 1) = e := by simp
    rw [← hk, hdrop]

lemma setExtension_of_fileStem (h : fileStem p = some stem) (e : Path) :
    setExtension p e = (true, setFileName p (extendedName stem e)) := by
  simp only [setExtension, h]
  rfl

/-- `set_extension` and `with_extension` change the extension only. -/
def ChangesExtension (p e : Path) : Prop :=
  let q := (setExtension p e).2
  withExtension p e = q ∧
    (components (beforeName q)).collect = (components (beforeName p)).collect ∧
    (e ≠ [] → fileStem q = fileStem p ∧ extension q = some e ∧ (setExtension q e).2 = q) ∧
    (e = [] → fileName q = fileStem p)

lemma lessOneSlash_eq_self : lessOneSlash d = d ↔ d.getLast? ≠ some sep := by
  constructor
  · intro h hlast
    obtain ⟨d', rfl⟩ := List.getLast?_eq_some_iff.1 hlast
    rw [lessOneSlash_concat] at h
    have := congrArg List.length h
    simp at this
  · intro h
    rw [lessOneSlash, if_neg h]

/-- What is left to show when the new path is the text `d`, a slash and the new name. -/
lemma changesExtension_of_setFileName (hstem : fileStem p = some stem) (hname : IsName stem)
    (hsep : sep ∉ e) (hdot : dot ∉ e)
    (hset : setFileName p (extendedName stem e) = d ++ sep :: extendedName stem e) :
    ChangesExtension p e ↔
      (components (d ++ [sep])).collect = (components (beforeName p)).collect ∧
        (e ≠ [] → d.getLast? ≠ some sep) := by
  have hext : IsName (extendedName stem e) := hname.extendedName hsep
  have hfile := fileName_append hext d
  simp only [ChangesExtension, withExtension, setExtension_of_fileStem hstem, hset,
    beforeName_append hext, hfile, hstem, true_and]
  refine and_congr_right fun _ => ?_
  by_cases he : e = []
  · simp [he, extendedName]
  · obtain ⟨hstem', hext'⟩ := fileStem_extendedName hfile he hname.1 hdot
    simp only [he, ne_eq, not_false_eq_true, true_imp_iff, false_imp_iff, and_true, hstem', hext',
      setExtension_of_fileStem hstem', setFileName_append hext hext, true_and,
      List.append_cancel_right_eq]
    exact lessOneSlash_eq_self

lemma getLast?_lessOneSlash :
    (lessOneSlash d).getLast? = some sep ↔ [sep, sep, sep] <:+ d ++ [sep] := by
  by_cases hlast : d.getLast? = some sep
  · obtain ⟨d', rfl⟩ := List.getLast?_eq_some_iff.1 hlast
    rw [lessOneSlash_concat, List.getLast?_eq_some_iff]
    constructor
    · rintro ⟨d'', rfl⟩
      exact ⟨d'', by simp⟩
    · rintro ⟨d'', h⟩
      have h' : d' ++ [sep, sep] = (d'' ++ [sep]) ++ [sep, sep] := by simpa using h.symm
      exact ⟨d'', List.append_cancel_right h'⟩
  · rw [lessOneSlash, if_neg hlast]
    refine iff_of_false hlast ?_
    rintro ⟨d', h⟩
    apply hlast
    have h' : d ++ [sep] = (d' ++ [sep, sep]) ++ [sep] := by simpa using h.symm
    simp [List.append_cancel_right h']

/-- The extension is changed and nothing else if the path has a slash, or is `.`; and a new
extension is set for good unless three slashes stand before the file name. -/
theorem changesExtension_iff (hf : fileName p = some f) (hsep : sep ∉ e) (hdot : dot ∉ e) :
    ChangesExtension p e ↔
      (sep ∈ p ∨ p = [dot]) ∧ (e ≠ [] → ¬ [sep, sep, sep] <:+ beforeName p) := by
  obtain ⟨stem, hstem, hstemName⟩ := exists_fileStem hf
  have hext : IsName (extendedName stem e) := hstemName.extendedName hsep
  obtain ⟨hname, rfl | ⟨d, rfl⟩⟩ := fileName_cases hf
  · -- nothing is popped, so the old name stands before the new one
    have hset := setFileName_self hname hext
    have hlast : p.getLast? ≠ some sep := by simpa using hname.getLast? []
    have hbefore : (components (p ++ [sep])).collect = nameComponents p := by
      have hnames : names (p ++ [sep]) = names p := by
        rw [names, pieces_append_sep, pieces_nil, List.append_nil, names]
      rw [collect_components, isAbsolute_append hname.1, hnames, ← collect_components,
        collect_name hname]
    rw [changesExtension_of_setFileName hstem hstemName hsep hdot hset, hbefore,
      beforeName_self hname, collect_nil]
    simp [nameComponents, hlast, hname.2]
  · have hset := setFileName_append hname hext d
    rw [changesExtension_of_setFileName hstem hstemName hsep hdot hset, collect_lessOneSlash,
      beforeName_append hname, Ne, Ne, getLast?_lessOneSlash]
    simp

/-- `a/b` becomes `a/b.c`. -/
theorem changesExtension_a_b : ChangesExtension [97, 47, 98] [99] :=
  (changesExtension_iff (f := [98]) (by decide) (by decide) (by decide)).2 (by decide)

/-- The extension of a path that is a name alone is put on a second name: `a` becomes `a/a.c`. -/
theorem setExtension_bare :
    fileName [97] = some [97] ∧ (setExtension [97] [99]).2 = [97, 47, 97, 46, 99] ∧
      (components (beforeName [97, 47, 97, 46, 99])).collect ≠
        (components (beforeName [97])).collect := by
  refine ⟨by decide, by decide, ?_⟩
  simp only [collect_components]
  decide

end Path

end PureStd
