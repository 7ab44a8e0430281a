/-
`Path::parent` and `Path::file_name` against `Path::components`, `src/path.rs`.

The two cut the text at its last slash.  `parent` does not count slashes at the end and
`file_name` does; neither looks whether what stands behind the slash is a component.  So they
agree with the component list if the text has a slash before its last segment, this segment is not
`.`, and it is `..` exactly if a slash follows.
-/
import PureStd.Path.Names
import PureStd.Path.Prefixes

namespace PureStd

namespace Path

variable {p a b : Path}

/-! ### The last segment -/

/-- A path without its trailing slashes is empty, a segment, or a text, a slash and a segment. -/
lemma trimEnd_cases (p : Path) :
    trimEnd p = [] ∨ IsName (trimEnd p) ∨ ∃ a b, trimEnd p = a ++ sep :: b ∧ IsName b := by
  by_cases hmem : sep ∈ trimEnd p
  · obtain ⟨a, b, hsplit, hb⟩ := Separators.exists_last hmem
    refine Or.inr (Or.inr ⟨a, b, hsplit, ?_, hb⟩)
    rintro rfl
    have hlast := getLast?_trimEnd p
    rw [hsplit] at hlast
    simp at hlast
  · by_cases hne : trimEnd p = []
    · exact Or.inl hne
    · exact Or.inr (Or.inl ⟨hne, hmem⟩)

/-- Slashes at the end do not count. -/
lemma collect_trimEnd (h : trimEnd p ≠ []) :
    (components (trimEnd p)).collect = (components p).collect := by
  rw [collect_components, collect_components, names_trimEnd, isAbsolute_trimEnd h]

lemma parent_trimEnd (p : Path) : parent (trimEnd p) = parent p := by
  have htwice : (trimEnd p).rdropWhile (· == sep) = p.rdropWhile (· == sep) :=
    List.rdropWhile_idempotent _ _
  rw [parent, htwice, ← parent]

/-- The file name is the last segment, unless a slash follows. -/
lemma fileName_of_trimEnd (h : fileName (trimEnd p) = some b) :
    fileName p = if p.getLast? = some sep then none else some b := by
  split_ifs with hlast
  · rw [fileName, if_pos (Or.inr hlast)]
  · rwa [trimEnd_of_getLast? hlast] at h

/-! ### Agreement -/

/-- `parent` takes the last component away and `file_name` is the last component if that is a
normal one, where there is one besides the root; a path of slashes has neither. -/
def AgreesWithComponents (p : Path) : Prop :=
  ((components p).collect ≠ [] → (components p).collect.getLast? ≠ some .rootDir →
    (∃ q, parent p = some q ∧
      (components q).collect = (components p).collect.dropLast) ∧
    ∀ n, fileName p = some n ↔ (components p).collect.getLast? = some (.normal n)) ∧
  (trimEnd p = [] → parent p = none ∧ fileName p = none)

lemma parent_of_trimEnd_nil (h : trimEnd p = []) : parent p = none ∧ fileName p = none := by
  constructor
  · rw [← parent_trimEnd, h]
    rfl
  · by_cases hp : p = []
    · rw [hp]
      rfl
    · have hlast : p.getLast? = some sep := by
        by_contra hne
        exact hp ((trimEnd_of_getLast? hne).symm.trans h)
      rw [fileName, if_pos (Or.inr hlast)]

/-- The component list goes on after the root exactly if the path has a segment other than `.`. -/
lemma collect_ends_iff :
    ((components p).collect ≠ [] ∧ (components p).collect.getLast? ≠ some .rootDir) ↔
      names p ≠ [] := by
  rw [collect_components]
  rcases List.eq_nil_or_concat (names p) with hnil | ⟨segs, seg, hsegs⟩
  · rw [hnil]
    cases isAbsolute p <;> simp
  · have hroot : Component.ofSegment seg ≠ .rootDir := fun heq =>
      rootDir_not_mem_map [seg] (by simp [heq])
    rw [hsegs, List.concat_eq_append, List.map_append, ← List.append_assoc]
    simp [hroot]

/-- What `parent` leaves has the components before the last slash. -/
lemma collect_parent (a : Path) :
    (components (if a = [] then [sep] else a)).collect = (components (a ++ [sep])).collect := by
  split_ifs with ha
  · rw [ha, List.nil_append]
  · rw [collect_components, collect_components, isAbsolute_append ha, names, names,
      pieces_append_sep, pieces_nil, List.append_nil]

/-- The file name against the component of the last segment `b`, which `file_name` sees unless a
slash follows it. -/
lemma fileName_iff_normal {ended : Prop} [Decidable ended] :
    (∀ n, (if ended then none else some b) = some n ↔ Component.ofSegment b = .normal n) ↔
      (b = [dot, dot] ↔ ended) := by
  unfold Component.ofSegment
  constructor
  · intro h
    have := h b
    split_ifs at this <;> simp_all
  · intro h n
    split_ifs <;> simp_all

/-- `parent` and `file_name` agree with the component list if no component stands behind the
root, or the path without its trailing slashes is a text, a slash and a segment other than `.`,
and that segment is `..` exactly if a slash follows it. -/
theorem agreesWithComponents_iff (p : Path) :
    AgreesWithComponents p ↔
      names p = [] ∨ ∃ a b, trimEnd p = a ++ sep :: b ∧ IsName b ∧ b ≠ [dot] ∧
        (b = [dot, dot] ↔ p.getLast? = some sep) := by
  rw [AgreesWithComponents, and_iff_left parent_of_trimEnd_nil, ← and_imp, collect_ends_iff]
  by_cases hnames : names p = []
  · simp [hnames]
  rw [imp_iff_right hnames, or_iff_right hnames]
  obtain hnil | hname | ⟨a, b, hsplit, hb⟩ := trimEnd_cases p
  · rw [← names_trimEnd, hnil] at hnames
    exact absurd rfl hnames
  · -- no slash before the last segment: there is a component and no parent
    refine iff_of_false ?_ ?_
    · rintro ⟨⟨q, hq, -⟩, -⟩
      rw [← parent_trimEnd, parent_self hname] at hq
      cases hq
    · rintro ⟨a, b, hsplit, -⟩
      exact hname.2 (by simp [hsplit])
  · have hne : trimEnd p ≠ [] := by simp [hsplit]
    have hfile : fileName (trimEnd p) = some b := by rw [hsplit, fileName_append hb]
    -- the segment behind the last slash is the only one
    have hright : (∃ a' b', trimEnd p = a' ++ sep :: b' ∧ IsName b' ∧ b' ≠ [dot] ∧
        (b' = [dot, dot] ↔ p.getLast? = some sep)) ↔
        b ≠ [dot] ∧ (b = [dot, dot] ↔ p.getLast? = some sep) := by
      constructor
      · rintro ⟨a', b', hsplit', hb', hrest⟩
        rw [hsplit', fileName_append hb'] at hfile
        cases hfile
        exact hrest
      · exact fun hrest => ⟨a, b, hsplit, hb, hrest⟩
    rw [hright, ← collect_trimEnd hne, ← parent_trimEnd, fileName_of_trimEnd hfile, hsplit,
      collect_append_name hb, parent_append hb, nameComponents]
    by_cases hdot : b = [dot]
    · -- nothing is taken away
      refine iff_of_false ?_ (fun h => h.1 hdot)
      rintro ⟨⟨q, hq, hcollect⟩, -⟩
      cases hq
      have hcs := (collect_ends_iff.2 hnames).1
      rw [← collect_trimEnd hne, hsplit, collect_append_name hb, nameComponents, if_pos hdot,
        List.append_nil] at hcs
      rw [if_pos hdot, List.append_nil, collect_parent] at hcollect
      have hlen := congrArg List.length hcollect
      rw [List.length_dropLast] at hlen
      have := List.length_pos_iff.2 hcs
      omega
    · rw [if_neg hdot, and_iff_right hdot, ← fileName_iff_normal]
      simp [collect_parent]

/-- `a` has one component and no parent. -/
theorem parent_bare :
    parent [97] = none ∧ (components [97]).collect = [.normal [97]] ∧
      ¬ AgreesWithComponents [97] := by
  have hcollect : (components [97]).collect = [.normal [97]] := by
    rw [collect_components]
    decide
  refine ⟨by decide, hcollect, fun h => ?_⟩
  obtain ⟨⟨q, hq, -⟩, -⟩ := h.1 (by simp [hcollect]) (by simp [hcollect])
  cases hq

end Path

end PureStd
