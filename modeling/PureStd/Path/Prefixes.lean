/-
`Path::starts_with`, `Path::ends_with` and `Path::strip_prefix`, `src/path.rs`.

The three compare texts from which the outer slashes have been taken, and look for a slash at
the place where the shorter text ends.  `starts_with` and `ends_with` so compare the segments
between the slashes, empty and `.` segments included; `strip_prefix` does not look for the slash.
-/
import PureStd.Lib.Separators
import PureStd.Path.Components

namespace PureStd

namespace Path

/-- `trim_end_matches('/')`. -/
def trimEnd (p : Path) : Path := p.rdropWhile (· == sep)

/-- `trim_matches('/')`. -/
def trimMatches (p : Path) : Path := trimEnd (p.dropWhile (· == sep))

/-- `Path::starts_with`. -/
def startsWith (p base : Path) : Bool :=
  let base := trimEnd base
  let me := trimEnd p
  if base = [] then true
  else me == base || ((me.dropPrefix? base).map (fun r => r.head? == some sep)).getD false

/-- `Path::ends_with`. -/
def endsWith (p child : Path) : Bool :=
  let child := trimMatches child
  let me := trimEnd p
  me == child || ((me.dropSuffix? child).map (fun r => r.getLast? == some sep)).getD false

/-- `StripPrefixError`. -/
structure StripPrefixError where
  unit : Unit
  deriving DecidableEq, Repr

/-- `Path::strip_prefix`. -/
def stripPrefix (p base : Path) : Except StripPrefixError Path :=
  let base := trimEnd base
  if base = [] then .ok p
  else
    match p.dropPrefix? base with
    | some rest => .ok (rest.dropWhile (· == sep))
    | none => .error ⟨()⟩

/-! ### Trimmed texts -/

variable {p q base : Path}

lemma trimEnd_prefix (p : Path) : trimEnd p <+: p := List.rdropWhile_prefix _ p

lemma trimEnd_append (p q : Path) :
    trimEnd (p ++ q) = if trimEnd q = [] then trimEnd p else p ++ trimEnd q := by
  rw [trimEnd, List.rdropWhile, List.reverse_append, List.dropWhile_append]
  simp only [trimEnd, List.rdropWhile, List.isEmpty_iff, List.reverse_eq_nil_iff]
  split <;> simp

lemma trimEnd_of_getLast? (h : p.getLast? ≠ some sep) : trimEnd p = p :=
  Separators.rdropWhile_of_getLast? h

lemma getLast?_trimEnd (p : Path) : (trimEnd p).getLast? ≠ some sep := by
  intro h
  have hne : trimEnd p ≠ [] := by
    intro hnil
    simp [hnil] at h
  rw [List.getLast?_eq_some_getLast hne] at h
  have hnot := List.rdropWhile_last_not (· == sep) p hne
  simp_all [trimEnd]

lemma trimEnd_eq_nil : trimEnd p = [] ↔ ∀ b ∈ p, b = sep := by
  rw [trimEnd, List.rdropWhile_eq_nil_iff]
  simp

lemma isAbsolute_trimEnd (h : trimEnd p ≠ []) : isAbsolute (trimEnd p) = isAbsolute p := by
  obtain ⟨r, hr⟩ := trimEnd_prefix p
  conv_rhs => rw [← hr]
  exact (isAbsolute_append h r).symm

lemma names_trimEnd (p : Path) : names (trimEnd p) = names p := by
  rw [names, trimEnd, pieces_trim, names]

lemma names_trimMatches (p : Path) : names (trimMatches p) = names p := by
  rw [trimMatches, names_trimEnd, names, pieces_trimStart, names]

/-! ### Segments -/

/-- The texts between the slashes of a path without its trailing slashes. -/
def segments (p : Path) : List (List UInt8) := (trimEnd p).splitOn sep

/-- The texts between the slashes of a path without its outer slashes. -/
def innerSegments (p : Path) : List (List UInt8) := (trimMatches p).splitOn sep

lemma getD_map_eq_true {o : Option Path} {f : Path → Bool} :
    (o.map f).getD false = true ↔ ∃ r, o = some r ∧ f r = true := by
  cases o with
  | none => simp
  | some r => simp

/-- `starts_with` compares segments, unless its argument has none. -/
lemma startsWith_iff :
    startsWith p q = true ↔ trimEnd q = [] ∨ segments q <+: segments p := by
  simp only [startsWith, segments, Separators.splitOn_prefix_iff]
  split_ifs with hnil
  · simp [hnil]
  · rw [Bool.or_eq_true, beq_iff_eq, getD_map_eq_true, or_iff_right hnil]
    refine or_congr_right ⟨?_, ?_⟩
    · rintro ⟨r, hr, hhead⟩
      rw [Separators.dropPrefix?_eq_some_iff] at hr
      obtain ⟨t, rfl⟩ := List.head?_eq_some_iff.1 (beq_iff_eq.1 hhead)
      exact ⟨t, hr⟩
    · rintro ⟨t, ht⟩
      exact ⟨sep :: t, Separators.dropPrefix?_eq_some_iff.2 ht, by simp⟩

/-- `ends_with` compares segments. -/
lemma endsWith_iff : endsWith p q = true ↔ innerSegments q <:+ segments p := by
  simp only [endsWith, segments, innerSegments, Separators.splitOn_suffix_iff, Bool.or_eq_true,
    beq_iff_eq, getD_map_eq_true]
  refine or_congr_right ⟨?_, ?_⟩
  · rintro ⟨r, hr, hlast⟩
    rw [Separators.dropSuffix?_eq_some_iff] at hr
    obtain ⟨t, rfl⟩ := List.getLast?_eq_some_iff.1 hlast
    exact ⟨t, by simpa using hr⟩
  · rintro ⟨t, ht⟩
    exact ⟨t ++ [sep], Separators.dropSuffix?_eq_some_iff.2 (by simpa using ht), by simp⟩

/-! ### Stripping a prefix -/

lemma stripPrefix_of_trimEnd_nil (h : trimEnd base = []) : stripPrefix p base = .ok p := by
  rw [stripPrefix, h]
  rfl

lemma stripPrefix_append (h : trimEnd base ≠ []) (r : Path) :
    stripPrefix (trimEnd base ++ r) base = .ok (r.dropWhile (· == sep)) := by
  have hdrop : (trimEnd base ++ r).dropPrefix? (trimEnd base) = some r :=
    Separators.dropPrefix?_eq_some_iff.2 rfl
  simp only [stripPrefix, if_neg h, hdrop]

lemma stripPrefix_of_forall_ne (h : trimEnd base ≠ []) (hnot : ∀ r, p ≠ trimEnd base ++ r) :
    stripPrefix p base = .error ⟨()⟩ := by
  have hdrop : p.dropPrefix? (trimEnd base) = none := by
    rw [Option.eq_none_iff_forall_ne_some]
    exact fun r hr => hnot r (Separators.dropPrefix?_eq_some_iff.1 hr)
  simp only [stripPrefix, if_neg h, hdrop]

/-- A path that begins with the text of the base starts with the base if a slash follows. -/
lemma startsWith_append (h : trimEnd base ≠ []) (r : Path) :
    startsWith (trimEnd base ++ r) base = true ↔ r = [] ∨ isAbsolute r = true := by
  rw [startsWith_iff, or_iff_right h, segments, segments, Separators.splitOn_prefix_iff,
    trimEnd_append]
  split_ifs with hr
  · -- only slashes follow
    have hleft : trimEnd (trimEnd base) = trimEnd base :=
      trimEnd_of_getLast? (getLast?_trimEnd base)
    refine iff_of_true (Or.inl hleft) ?_
    cases r with
    | nil => exact Or.inl rfl
    | cons b r =>
      obtain rfl := trimEnd_eq_nil.1 hr b (List.mem_cons_self ..)
      exact Or.inr rfl
  · have hne : r ≠ [] := fun hnil => hr (by rw [hnil]; rfl)
    rw [or_iff_right (by simpa using hr), or_iff_right hne, ← isAbsolute_trimEnd hr, isAbsolute,
      beq_iff_eq, List.head?_eq_some_iff]
    simp only [List.append_cancel_left_eq]

lemma not_startsWith (h : trimEnd base ≠ []) (hnot : ∀ r, p ≠ trimEnd base ++ r) :
    startsWith p base ≠ true := by
  rw [Ne, startsWith_iff, or_iff_right h, segments, segments, Separators.splitOn_prefix_iff]
  obtain ⟨s, hs⟩ := trimEnd_prefix p
  rintro (heq | ⟨r, hr⟩)
  · exact hnot s (by rw [← heq, hs])
  · exact hnot (sep :: r ++ s) (by rw [← List.append_assoc, ← hr, hs])

lemma names_append {r : Path} (hr : r = [] ∨ isAbsolute r = true) :
    names (p ++ r) = names p ++ names r := by
  rcases hr with rfl | habs
  · simp [names]
  · obtain ⟨r, rfl⟩ := List.head?_eq_some_iff.1 (by simpa [isAbsolute] using habs)
    rw [names, pieces_append_sep, List.filter_append, names, names, pieces_cons_sep]

lemma names_of_trimEnd_nil (h : trimEnd p = []) : names p = [] := by
  rw [← names_trimEnd, h]
  rfl

/-- Slashes make a root. -/
lemma isAbsolute_of_trimEnd_nil (h : trimEnd p = []) (hne : p ≠ []) : isAbsolute p = true := by
  obtain ⟨b, p, rfl⟩ := List.exists_cons_of_ne_nil hne
  obtain rfl := trimEnd_eq_nil.1 h b (List.mem_cons_self ..)
  rfl

/-- A path of slashes is the root. -/
lemma collect_of_trimEnd_nil (h : trimEnd p = []) (hne : p ≠ []) :
    (components p).collect = [.rootDir] := by
  rw [collect_components, isAbsolute_of_trimEnd_nil h hne, names_of_trimEnd_nil h]
  rfl

/-- What is stripped at a slash can be joined again. -/
lemma collect_join_stripped (h : trimEnd base ≠ []) {r : Path} (hr : r = [] ∨ isAbsolute r = true) :
    (components (join base (r.dropWhile (· == sep)))).collect =
      (components (trimEnd base ++ r)).collect := by
  have habs : isAbsolute (r.dropWhile (· == sep)) = false := by
    simpa [isAbsolute] using head?_trimStart r
  have hnames : names (r.dropWhile (· == sep)) = names r := by
    rw [names, pieces_trimStart, names]
  rw [join, collect_push habs, collect_components, collect_components, collect_components,
    isAbsolute_append h, isAbsolute_trimEnd h, names_append hr, names_trimEnd, habs, hnames]
  simp

/-- `strip_prefix` succeeds exactly if `starts_with` holds, and the rest joined to the base is
the path again. -/
def StripsPrefix (p base : Path) : Prop :=
  ((∃ rest, stripPrefix p base = .ok rest) ↔ startsWith p base = true) ∧
    ∀ rest, stripPrefix p base = .ok rest →
      (components (join base rest)).collect = (components p).collect

lemma stripsPrefix_of_trimEnd_nil (h : trimEnd base = []) :
    StripsPrefix p base ↔ (components (join base p)).collect = (components p).collect := by
  have hstarts : startsWith p base = true := startsWith_iff.2 (Or.inl h)
  simp [StripsPrefix, stripPrefix_of_trimEnd_nil h, hstarts]

/-- The base is empty; or it is a root and the path is absolute; or the path does not go on
with other bytes where the text of the base ends. -/
theorem stripsPrefix_iff (p base : Path) :
    StripsPrefix p base ↔
      base = [] ∨ (trimEnd base = [] ∧ isAbsolute p = true) ∨
        (trimEnd base ≠ [] ∧ ∀ r, p = trimEnd base ++ r → r = [] ∨ isAbsolute r = true) := by
  by_cases hnil : trimEnd base = []
  · have hright : (trimEnd base ≠ [] ∧ ∀ r, p = trimEnd base ++ r → r = [] ∨ isAbsolute r = true)
        ↔ False := iff_false_intro fun h => h.1 hnil
    rw [stripsPrefix_of_trimEnd_nil hnil, hright, or_false, and_iff_right hnil]
    by_cases hbase : base = []
    · have hjoin : join [] p = p := by simp [join, push]
      simp [hbase, hjoin]
    · rw [or_iff_right hbase]
      cases habs : isAbsolute p with
      | true => simp [join, push_of_isAbsolute habs]
      | false =>
        rw [join, collect_push habs, collect_of_trimEnd_nil hnil hbase]
        simp
  · have hbase : base ≠ [] := fun heq => hnil (by rw [heq]; rfl)
    rw [or_iff_right hbase, or_iff_right (fun h => hnil h.1), and_iff_right hnil]
    by_cases hp : ∃ r, p = trimEnd base ++ r
    · obtain ⟨r, rfl⟩ := hp
      simp only [StripsPrefix, stripPrefix_append hnil, startsWith_append hnil]
      constructor
      · rintro ⟨hiff, -⟩ r' hr'
        obtain rfl := List.append_cancel_left hr'
        exact hiff.1 ⟨_, rfl⟩
      · intro h
        have hr := h r rfl
        refine ⟨iff_of_true ⟨_, rfl⟩ hr, ?_⟩
        rintro rest hrest
        cases hrest
        exact collect_join_stripped hnil hr
    · have hnot : ∀ r, p ≠ trimEnd base ++ r := fun r hr => hp ⟨r, hr⟩
      refine iff_of_true ⟨?_, ?_⟩ fun r hr => absurd hr (hnot r)
      · simp [stripPrefix_of_forall_ne hnil hnot, not_startsWith hnil hnot]
      · simp [stripPrefix_of_forall_ne hnil hnot]

/-- `foobar` does not start with `foo`, but `foo` is stripped from it. -/
theorem stripPrefix_foobar :
    stripPrefix [102, 111, 111, 98, 97, 114] [102, 111, 111] = .ok [98, 97, 114] ∧
      startsWith [102, 111, 111, 98, 97, 114] [102, 111, 111] = false := by
  decide

/-! ### Prefixes of the component list -/

lemma rootDir_not_mem_map (segs : List (List UInt8)) :
    Component.rootDir ∉ segs.map .ofSegment := by
  intro h
  obtain ⟨seg, -, hseg⟩ := List.mem_map.1 h
  unfold Component.ofSegment at hseg
  split_ifs at hseg

lemma collect_of_isAbsolute (h : isAbsolute p = true) :
    (components p).collect = .rootDir :: (names p).map .ofSegment := by
  rw [collect_components, h]
  rfl

lemma collect_of_not_isAbsolute (h : isAbsolute p = false) :
    (components p).collect = (names p).map .ofSegment := by
  rw [collect_components, h]
  rfl

lemma map_ofSegment_prefix {xs ys : List (List UInt8)} :
    xs.map Component.ofSegment <+: ys.map .ofSegment ↔ xs <+: ys := by
  refine ⟨fun h => ?_, fun h => h.map _⟩
  simpa only [List.map_map, Function.comp_def, Component.asStr_ofSegment, List.map_id'] using
    h.map Component.asStr

lemma map_ofSegment_suffix {xs ys : List (List UInt8)} :
    xs.map Component.ofSegment <:+ ys.map .ofSegment ↔ xs <:+ ys := by
  refine ⟨fun h => ?_, fun h => h.map _⟩
  simpa only [List.map_map, Function.comp_def, Component.asStr_ofSegment, List.map_id'] using
    h.map Component.asStr

/-- A path begins the components of another one if its names come first and the two begin at the
same place, or if it has no component. -/
lemma collect_prefix_iff : (components q).collect <+: (components p).collect ↔
    names q <+: names p ∧ (isAbsolute q = isAbsolute p ∨ isAbsolute q = false ∧ names q = []) := by
  cases hq : isAbsolute q with
  | true =>
    rw [collect_of_isAbsolute hq]
    cases hp : isAbsolute p with
    | true => simp [collect_of_isAbsolute hp, List.cons_prefix_cons, map_ofSegment_prefix]
    | false =>
      simp only [collect_of_not_isAbsolute hp, Bool.true_eq_false, false_and, or_self,
        and_false, iff_false]
      exact fun h => rootDir_not_mem_map _ (h.subset List.mem_cons_self)
  | false =>
    rw [collect_of_not_isAbsolute hq]
    cases hp : isAbsolute p with
    | true =>
      rw [collect_of_isAbsolute hp]
      cases hnames : names q with
      | nil => simp
      | cons seg segs =>
        -- a name is no root
        simp only [List.map_cons, List.cons_prefix_cons, Bool.false_eq_true, reduceCtorEq,
          and_false, or_self, iff_false]
        exact fun h => rootDir_not_mem_map [seg] (h.1 ▸ List.mem_singleton_self _)
    | false => simp [collect_of_not_isAbsolute hp, map_ofSegment_prefix]

/-- A path closes the components of another one if its names come last, and with a root it has to
be all. -/
lemma collect_suffix_iff : (components q).collect <:+ (components p).collect ↔
    names q <:+ names p ∧ (isAbsolute q = true → isAbsolute p = true ∧ names p = names q) := by
  have hcons : ∀ {cs : List Component} {segs : List (List UInt8)}, .rootDir ∉ cs →
      (cs <:+ .rootDir :: segs.map .ofSegment ↔ cs <:+ segs.map .ofSegment) := by
    intro cs segs hcs
    rw [List.suffix_cons_iff]
    refine or_iff_right ?_
    rintro rfl
    exact hcs List.mem_cons_self
  cases hq : isAbsolute q with
  | true =>
    rw [collect_of_isAbsolute hq]
    cases hp : isAbsolute p with
    | true =>
      rw [collect_of_isAbsolute hp, List.suffix_cons_iff]
      constructor
      · rintro (heq | hsuffix)
        · have heq : (names q).map Component.ofSegment = (names p).map .ofSegment :=
            List.cons_inj_right _ |>.1 heq
          have hnames : names q <:+ names p := map_ofSegment_suffix.1 (heq ▸ List.suffix_rfl)
          exact ⟨hnames, fun _ => ⟨rfl, (hnames.eq_of_length
            (by simpa using congrArg List.length heq)).symm⟩⟩
        · exact absurd (hsuffix.subset List.mem_cons_self) (rootDir_not_mem_map _)
      · rintro ⟨-, hnames⟩
        exact Or.inl (by rw [(hnames rfl).2])
    | false =>
      simp only [collect_of_not_isAbsolute hp, Bool.false_eq_true, false_and, true_imp_iff,
        and_false, iff_false]
      exact fun h => rootDir_not_mem_map _ (h.subset List.mem_cons_self)
  | false =>
    rw [collect_of_not_isAbsolute hq]
    cases hp : isAbsolute p with
    | true => simp [collect_of_isAbsolute hp, hcons (rootDir_not_mem_map _), map_ofSegment_suffix]
    | false => simp [collect_of_not_isAbsolute hp, map_ofSegment_suffix]

lemma names_eq_filter_segments (p : Path) :
    names p = (segments p).filter fun seg => seg ≠ [dot] ∧ seg ≠ [] := by
  rw [← names_trimEnd, names, pieces, List.filter_filter, segments]
  simp

lemma names_eq_filter_innerSegments (p : Path) :
    names p = (innerSegments p).filter fun seg => seg ≠ [dot] ∧ seg ≠ [] := by
  rw [← names_trimMatches, names, pieces, List.filter_filter, innerSegments]
  simp

lemma isAbsolute_of_segments (hq : trimEnd q ≠ []) (h : segments q <+: segments p) :
    isAbsolute p = isAbsolute q := by
  rw [segments, segments, Separators.splitOn_prefix_iff] at h
  have hp : trimEnd p ≠ [] := by
    rcases h with h | ⟨r, h⟩ <;> simp [h, hq]
  rw [← isAbsolute_trimEnd hp, ← isAbsolute_trimEnd hq]
  rcases h with h | ⟨r, h⟩
  · rw [h]
  · rw [h, isAbsolute_append hq]

lemma innerSegments_suffix_of_nil (h : trimEnd q = []) :
    innerSegments q <:+ segments p ↔ trimEnd p = [] := by
  have hinner : trimMatches q = [] := by
    rw [trimMatches, trimEnd_eq_nil]
    intro b hb
    exact trimEnd_eq_nil.1 h b ((List.dropWhile_suffix _).subset hb)
  rw [innerSegments, segments, hinner, Separators.splitOn_suffix_iff]
  refine or_iff_left ?_
  rintro ⟨r, hr⟩
  exact getLast?_trimEnd p (by simp [hr])

/-! ### Plain paths -/

/-- The text has no empty and no `.` segment: no two slashes in a row, but at the end, and no `.`
alone between slashes. -/
def Plain (p : Path) : Prop :=
  trimEnd p = [] ∨
    ∀ seg ∈ (if isAbsolute p then (segments p).tail else segments p), seg ≠ [] ∧ seg ≠ [dot]

instance (p : Path) : Decidable (Plain p) := inferInstanceAs (Decidable (_ ∨ _))

lemma splitOn_cons_sep (p : Path) : (sep :: p).splitOn sep = [] :: p.splitOn sep :=
  List.splitOn_append_cons_self [] p

/-- It does not matter at which end one begins to trim. -/
lemma trimMatches_eq (p : Path) : trimMatches p = (trimEnd p).dropWhile (· == sep) := by
  rw [trimMatches]
  induction p with
  | nil => rfl
  | cons b p ih =>
    by_cases hb : b = sep
    · subst hb
      have hcons : trimEnd (sep :: p) = if trimEnd p = [] then [] else sep :: trimEnd p :=
        trimEnd_append [sep] p
      rw [List.dropWhile_cons_of_pos (by simp), ih, hcons]
      split
      · simp [*]
      · rw [List.dropWhile_cons_of_pos (by simp)]
    · have hdrop : (b :: p).dropWhile (· == sep) = b :: p :=
        List.dropWhile_cons_of_neg (by simpa using hb)
      have htrim : trimEnd (b :: p) = b :: trimEnd p := by
        have happend := trimEnd_append [b] p
        have hsingle : trimEnd [b] = [b] := trimEnd_of_getLast? (by simpa using hb)
        rw [List.singleton_append, hsingle] at happend
        split at happend <;> simp_all
      rw [hdrop, htrim, List.dropWhile_cons_of_neg (by simpa using hb)]

/-- The one slash at the beginning of a plain path is that of the root. -/
lemma trimEnd_of_plain (h : Plain p) (hne : trimEnd p ≠ []) :
    trimEnd p = (if isAbsolute p then [sep] else []) ++ trimMatches p := by
  have hsegs := h.resolve_left hne
  have hdrop : ∀ {r : Path}, r.head? ≠ some sep → r.dropWhile (· == sep) = r := by
    rintro (_ | ⟨b, r⟩) hr
    · rfl
    · exact List.dropWhile_cons_of_neg (by simpa using hr)
  rw [trimMatches_eq]
  cases habs : isAbsolute p with
  | true =>
    have htrim := isAbsolute_trimEnd hne
    rw [habs, isAbsolute, beq_iff_eq, List.head?_eq_some_iff] at htrim
    obtain ⟨r, hr⟩ := htrim
    rw [habs, if_pos rfl, segments, hr, splitOn_cons_sep, List.tail_cons] at hsegs
    have hhead : r.head? ≠ some sep := by
      intro hhead
      obtain ⟨r', rfl⟩ := List.head?_eq_some_iff.1 hhead
      rw [splitOn_cons_sep] at hsegs
      exact (hsegs [] List.mem_cons_self).1 rfl
    rw [hr, List.dropWhile_cons_of_pos (by simp), hdrop hhead]
    rfl
  | false =>
    have htrim := isAbsolute_trimEnd hne
    rw [habs] at htrim
    rw [hdrop (head?_of_not_isAbsolute htrim)]
    rfl

/-- The segments of a plain path are its names, after the empty one of the root. -/
lemma segments_of_plain (h : Plain p) (hne : trimEnd p ≠ []) :
    segments p = (if isAbsolute p then [[]] else []) ++ names p ∧ innerSegments p = names p := by
  have hroot : segments p = (if isAbsolute p then [[]] else []) ++ innerSegments p := by
    rw [segments, trimEnd_of_plain h hne, innerSegments]
    split
    · exact splitOn_cons_sep _
    · rfl
  have hinner : ∀ seg ∈ innerSegments p, seg ≠ [] ∧ seg ≠ [dot] := by
    have hsegs := h.resolve_left hne
    rw [hroot] at hsegs
    split at hsegs <;> exact hsegs
  have hnames : innerSegments p = names p := by
    rw [names_eq_filter_innerSegments, List.filter_eq_self.2]
    exact fun seg hseg => by simpa using (hinner seg hseg).symm
  exact ⟨hnames ▸ hroot, hnames⟩

lemma names_of_plain (h : Plain p) : names p = [] ↔ trimEnd p = [] := by
  refine ⟨fun hnames => ?_, names_of_trimEnd_nil⟩
  by_contra hne
  rw [← (segments_of_plain h hne).2] at hnames
  exact List.splitOn_ne_nil _ _ hnames

/-- `starts_with` compares the components of plain paths. -/
lemma startsWith_components_of_plain (hp : Plain p) (hq : Plain q) (hne : trimEnd q ≠ []) :
    startsWith p q = true ↔ (components q).collect <+: (components p).collect := by
  have hnames : names q ≠ [] := (names_of_plain hq).not.2 hne
  rw [startsWith_iff, or_iff_right hne, collect_prefix_iff]
  constructor
  · intro h
    refine ⟨?_, Or.inl (isAbsolute_of_segments hne h).symm⟩
    rw [names_eq_filter_segments q, names_eq_filter_segments p]
    exact h.filter _
  · rintro ⟨hsub, habs⟩
    have hp' : trimEnd p ≠ [] := by
      intro hnil
      rw [names_of_trimEnd_nil hnil, List.prefix_nil] at hsub
      exact hnames hsub
    rw [(segments_of_plain hq hne).1, (segments_of_plain hp hp').1,
      habs.resolve_right fun h => hnames h.2]
    exact (List.prefix_append_right_inj _).2 hsub

/-- A plain path that ends with the names of another one ends with its segments. -/
lemma innerSegments_suffix_iff (hp : Plain p) (hq : Plain q) (hne : trimEnd q ≠ []) :
    innerSegments q <:+ segments p ↔ names q <:+ names p := by
  constructor
  · intro h
    rw [names_eq_filter_innerSegments q, names_eq_filter_segments p]
    exact h.filter _
  · intro h
    have hp' : trimEnd p ≠ [] := by
      intro hnil
      rw [names_of_trimEnd_nil hnil, List.suffix_nil] at h
      exact (names_of_plain hq).not.2 hne h
    rw [(segments_of_plain hq hne).2, (segments_of_plain hp hp').1]
    exact h.trans (List.suffix_append ..)

/-- Two absolute plain paths with the same names are the same but for slashes at the end. -/
lemma trimEnd_eq_iff_of_plain (hp : Plain p) (hq : Plain q) (hne : trimEnd q ≠ [])
    (habs : isAbsolute q = true) :
    trimEnd p = trimEnd q ↔ isAbsolute p = true ∧ names p = names q := by
  constructor
  · intro h
    rw [← isAbsolute_trimEnd (h ▸ hne), ← names_trimEnd p, h, isAbsolute_trimEnd hne, names_trimEnd]
    exact ⟨habs, rfl⟩
  · rintro ⟨hpa, hnames⟩
    have hp' : trimEnd p ≠ [] := by
      rw [Ne, ← names_of_plain hp, hnames, names_of_plain hq]
      exact hne
    refine Separators.splitOn_injective (a := sep) ?_
    change segments p = segments q
    rw [(segments_of_plain hq hne).1, (segments_of_plain hp hp').1, hpa, habs, hnames]

/-- `ends_with` compares the components of plain paths, if the second one is relative, or the two
are the same, or the text of the second one, with or without its first slash, does not close the
first one. -/
lemma endsWith_components_of_plain (hp : Plain p) (hq : Plain q) (hne : trimEnd q ≠ []) :
    (endsWith p q = true ↔ (components q).collect <:+ (components p).collect) ↔
      (isAbsolute q = true → trimEnd p = trimEnd q ∨
        (¬ trimEnd q <:+ trimEnd p ∧ trimEnd q ≠ sep :: trimEnd p)) := by
  have hsegs := innerSegments_suffix_iff hp hq hne
  rw [endsWith_iff, collect_suffix_iff, ← hsegs]
  cases habs : isAbsolute q with
  | false => simp
  | true =>
    have htext : trimEnd q = sep :: trimMatches q := by
      rw [trimEnd_of_plain hq hne, habs]
      rfl
    have hclose : innerSegments q <:+ segments p ↔
        trimEnd q = sep :: trimEnd p ∨ trimEnd q <:+ trimEnd p := by
      rw [innerSegments, segments, Separators.splitOn_suffix_iff, htext, List.cons_inj_right]
      exact or_congr eq_comm ⟨fun ⟨r, hr⟩ => ⟨r, hr.symm⟩, fun ⟨r, hr⟩ => ⟨r, hr.symm⟩⟩
    rw [← trimEnd_eq_iff_of_plain hp hq hne habs, hclose]
    tauto

/-- `starts_with` and `ends_with` say what the component lists say. -/
def ComparesComponents (p q : Path) : Prop :=
  (startsWith p q = true ↔ (components q).collect <+: (components p).collect) ∧
    (endsWith p q = true ↔ (components q).collect <:+ (components p).collect)

/-- What it takes at the root: next to an empty path, slashes only; next to a path of slashes, an
absolute path; and next to another absolute path, the same path or one that is not closed by its
text, with or without the first slash. -/
def RootsAgree (p q : Path) : Prop :=
  if q = [] then trimEnd p = []
  else if trimEnd q = [] then isAbsolute p = true
  else isAbsolute q = true → trimEnd p = trimEnd q ∨
    (¬ trimEnd q <:+ trimEnd p ∧ trimEnd q ≠ sep :: trimEnd p)

instance (p q : Path) : Decidable (RootsAgree p q) := by
  unfold RootsAgree
  infer_instance

lemma comparesComponents_of_plain (hp : Plain p) (hq : Plain q) :
    ComparesComponents p q ↔ RootsAgree p q := by
  rw [ComparesComponents, RootsAgree]
  split_ifs with hnil htrim
  · rw [startsWith_iff, endsWith_iff, innerSegments_suffix_of_nil (by rw [hnil]; rfl),
      collect_prefix_iff, collect_suffix_iff, hnil]
    simp [trimEnd, names, pieces, isAbsolute]
  · -- the path of slashes starts and ends every absolute one that has no name
    rw [startsWith_iff, endsWith_iff, innerSegments_suffix_of_nil htrim, collect_prefix_iff,
      collect_suffix_iff, names_of_trimEnd_nil htrim, isAbsolute_of_trimEnd_nil htrim hnil,
      names_of_plain hp]
    simpa [htrim] using fun habs _ => habs
  · rw [and_iff_right (startsWith_components_of_plain hp hq htrim),
      endsWith_components_of_plain hp hq htrim]

/-- The path with one more `.` segment. -/
def respell (p : Path) : Path := if isAbsolute p then sep :: dot :: p else dot :: sep :: p

lemma collect_respell (p : Path) :
    (components (respell p)).collect = (components p).collect := by
  have hsep : names (sep :: p) = names p := by rw [names, pieces_cons_sep, names]
  cases habs : isAbsolute p with
  | true =>
    have hnames : names ([sep, dot] ++ p) = names p := by
      rw [names_append (Or.inr habs)]
      rfl
    rw [respell, habs, collect_of_isAbsolute habs, collect_of_isAbsolute rfl]
    exact congrArg _ (congrArg _ hnames)
  | false =>
    have hnames : names ([dot] ++ sep :: p) = names p := by
      rw [names_append (Or.inr rfl), hsep]
      rfl
    rw [respell, habs, collect_of_not_isAbsolute habs, collect_of_not_isAbsolute rfl]
    exact congrArg _ hnames

/-- The texts that are compared are longer than the path. -/
lemma length_respell (h : trimEnd p ≠ []) :
    (trimEnd p).length < (trimEnd (respell p)).length ∧
      (trimEnd p).length < (trimMatches (respell p)).length := by
  have htrim : ∀ b c : UInt8, trimEnd (b :: c :: p) = b :: c :: trimEnd p := by
    intro b c
    rw [show b :: c :: p = [b, c] ++ p from rfl, trimEnd_append, if_neg h]
    rfl
  rw [trimMatches_eq, respell]
  split
  · rw [htrim, List.dropWhile_cons_of_pos (by simp), List.dropWhile_cons_of_neg (by decide)]
    simp
  · rw [htrim, List.dropWhile_cons_of_neg (by decide)]
    simp

/-- Neither function finds a path with a name in itself if it is spelled with one more `.`. -/
lemma not_compares_respell (h : names p ≠ []) :
    startsWith p (respell p) = false ∧ endsWith p (respell p) = false := by
  have hne : trimEnd p ≠ [] := fun hnil => h (names_of_trimEnd_nil hnil)
  obtain ⟨hstart, hend⟩ := length_respell hne
  refine ⟨eq_false_of_ne_true fun htrue => ?_, eq_false_of_ne_true fun htrue => ?_⟩
  · rcases startsWith_iff.1 htrue with hnil | hsegs
    · simp [hnil] at hstart
    · rw [segments, segments, Separators.splitOn_prefix_iff] at hsegs
      rcases hsegs with heq | ⟨r, heq⟩ <;> rw [heq] at hstart <;> simp at hstart
  · rw [endsWith_iff, innerSegments, segments, Separators.splitOn_suffix_iff] at htrue
    rcases htrue with heq | ⟨r, heq⟩ <;> rw [heq] at hend <;> simp at hend
    omega

end Path

end PureStd
