/-
`Path::components`, `src/path.rs`.

The iterator keeps the text that is left and a flag for the root.  Each call skips slashes and
cuts one segment off; a segment `.` is passed over.  So the components of a path are its pieces
between the slashes without the `.` ones, after the root if the path is absolute.
-/
import PureStd.Path

namespace PureStd

namespace Path

/-- The byte `.`. -/
def dot : UInt8 := 46

/-- `Path::is_absolute`. -/
def isAbsolute (p : Path) : Bool := p.head? == some sep

/-- `Component`. -/
inductive Component where
  | rootDir
  | curDir
  | parentDir
  | normal (s : List UInt8)
  deriving DecidableEq, Repr

/-- `Component::as_str`. -/
def Component.asStr : Component → Path
  | .rootDir => [sep]
  | .curDir => [dot]
  | .parentDir => [dot, dot]
  | .normal s => s

/-- `Components`. -/
structure Components where
  rest : Path
  rootPending : Bool

/-- The loop of `Components::next`: the component found and the text left. -/
def Components.scan (rest : Path) : Option Component × Path :=
  let rest' := rest.dropWhile (· == sep)
  if rest' = [] then (none, rest')
  else
    let stop := rest'.findIdx (· == sep)
    let seg := rest'.take stop
    if _hdot : seg = [dot] then scan (rest'.drop stop)
    else if seg = [dot, dot] then (some .parentDir, rest'.drop stop)
    else (some (.normal seg), rest'.drop stop)
termination_by rest.length
decreasing_by
  have hle : rest'.length ≤ rest.length := (List.dropWhile_suffix _).length_le
  have hseg : min stop rest'.length = 1 := by
    rw [← List.length_take]
    exact congrArg List.length _hdot
  change (rest'.drop stop).length < rest.length
  rw [List.length_drop]
  omega

/-- `Components::next`. -/
def Components.next (self : Components) : Option Component × Components :=
  if self.rootPending then (some .rootDir, { self with rootPending := false })
  else
    let found := scan self.rest
    (found.1, { self with rest := found.2 })

/-- `Path::components`. -/
def components (p : Path) : Components := ⟨p, isAbsolute p⟩

/-! ### One turn of the loop -/

variable {p q rest : Path}

lemma pieces_cons_sep (p : Path) : pieces (sep :: p) = pieces p := by
  simpa using pieces_append_sep [] p

lemma pieces_trimStart (p : Path) : pieces (p.dropWhile (· == sep)) = pieces p := by
  induction p with
  | nil => rfl
  | cons b p ih =>
    by_cases hb : b = sep
    · subst hb
      rw [List.dropWhile_cons_of_pos (by simp), ih, pieces_cons_sep]
    · rw [List.dropWhile_cons_of_neg (by simpa using hb)]

lemma head?_trimStart (p : Path) : (p.dropWhile (· == sep)).head? ≠ some sep := by
  intro h
  have := List.head?_dropWhile_not (· == sep) p
  rw [h] at this
  simp at this

/-- A text is its first segment and what follows, which is nothing or a slash. -/
lemma take_findIdx_sep (p : Path) :
    sep ∉ p.take (p.findIdx (· == sep)) ∧
      (p.drop (p.findIdx (· == sep)) = [] ∨ ∃ t, p.drop (p.findIdx (· == sep)) = sep :: t) := by
  have htake : p.takeWhile (· != sep) = p.take (p.findIdx (· == sep)) := by
    simp [List.takeWhile_eq_take_findIdx_not, bne]
  have hdrop : p.dropWhile (· != sep) = p.drop (p.findIdx (· == sep)) := by
    simp [List.dropWhile_eq_drop_findIdx_not, bne]
  rw [← htake, ← hdrop]
  constructor
  · intro hmem
    simpa using List.mem_takeWhile_imp hmem
  · cases hrest : p.dropWhile (· != sep) with
    | nil => exact Or.inl rfl
    | cons b t =>
      have hhead := List.head?_dropWhile_not (· != sep) p
      rw [hrest] at hhead
      obtain rfl : b = sep := by simpa using hhead
      exact Or.inr ⟨t, rfl⟩

/-- What the loop cuts off is the first piece. -/
lemma pieces_cut (hne : p ≠ []) (hhead : p.head? ≠ some sep) :
    0 < p.findIdx (· == sep) ∧
      pieces p = p.take (p.findIdx (· == sep)) :: pieces (p.drop (p.findIdx (· == sep))) := by
  have hpos : 0 < p.findIdx (· == sep) := by
    obtain ⟨b, t, rfl⟩ := List.exists_cons_of_ne_nil hne
    have hb : (b == sep) = false := by simpa using hhead
    simp [List.findIdx_cons, hb]
  have hseg : p.take (p.findIdx (· == sep)) ≠ [] := by simp [hne, hpos.ne']
  obtain ⟨hnot, hend⟩ := take_findIdx_sep p
  refine ⟨hpos, ?_⟩
  conv_lhs => rw [← List.take_append_drop (p.findIdx (· == sep)) p]
  rcases hend with hnil | ⟨u, hu⟩
  · rw [hnil, List.append_nil, pieces_of_not_mem hnot hseg, pieces_nil]
  · rw [hu, pieces_append_sep, pieces_of_not_mem hnot hseg, pieces_cons_sep]
    rfl

/-! ### The iterator -/

/-- The segments of a path that are components. -/
def names (p : Path) : List (List UInt8) := (pieces p).filter (· ≠ [dot])

/-- The component a segment other than `.` is. -/
def Component.ofSegment (seg : List UInt8) : Component :=
  if seg = [dot, dot] then .parentDir else .normal seg

/-- One turn of the loop, on the text `rest'` that is left after the slashes. -/
lemma names_cut {rest rest' : Path} (htrim : rest.dropWhile (· == sep) = rest') (hne : rest' ≠ []) :
    (rest'.drop (rest'.findIdx (· == sep))).length < rest.length ∧
      names rest = (if rest'.take (rest'.findIdx (· == sep)) = [dot] then []
        else [rest'.take (rest'.findIdx (· == sep))]) ++
          names (rest'.drop (rest'.findIdx (· == sep))) := by
  subst htrim
  obtain ⟨hpos, hpieces⟩ := pieces_cut hne (head?_trimStart rest)
  constructor
  · have hle := (List.dropWhile_suffix (· == sep) (l := rest)).length_le
    have hlen := List.length_pos_iff.2 hne
    rw [List.length_drop]
    omega
  · rw [names, ← pieces_trimStart, hpieces, List.filter_cons]
    split_ifs with hdot <;> simp_all [names]

/-- The loop finds the first segment that is a component, and leaves the others. -/
lemma Components.scan_spec (rest : Path) :
    (names rest = [] ∧ (scan rest).1 = none) ∨
    ∃ seg, names rest = seg :: names (scan rest).2 ∧
      (scan rest).1 = some (.ofSegment seg) ∧ (scan rest).2.length < rest.length := by
  fun_induction scan rest with
  | case1 rest rest' hnil =>
    left
    constructor
    · rw [names, ← pieces_trimStart]
      change (pieces rest').filter _ = []
      rw [hnil]
      rfl
    · rfl
  | case2 rest rest' hne stop seg hdot ih =>
    -- a segment `.` is passed over
    obtain ⟨hlt, hnames⟩ := names_cut (rfl : rest.dropWhile (· == sep) = rest') hne
    rw [if_pos hdot, List.nil_append] at hnames
    rcases ih with ⟨hnil, hnone⟩ | ⟨seg', hseg', hsome, hlt'⟩
    · exact Or.inl ⟨hnames.trans hnil, hnone⟩
    · exact Or.inr ⟨seg', hnames.trans hseg', hsome, hlt'.trans hlt⟩
  | case3 rest rest' hne stop seg hdot hdots =>
    obtain ⟨hlt, hnames⟩ := names_cut (rfl : rest.dropWhile (· == sep) = rest') hne
    rw [if_neg hdot] at hnames
    exact Or.inr ⟨seg, hnames, by rw [Component.ofSegment, if_pos hdots], hlt⟩
  | case4 rest rest' hne stop seg hdot hdots =>
    obtain ⟨hlt, hnames⟩ := names_cut (rfl : rest.dropWhile (· == sep) = rest') hne
    rw [if_neg hdot] at hnames
    exact Or.inr ⟨seg, hnames, by rw [Component.ofSegment, if_neg hdots], hlt⟩

/-- What is left to be iterated over. -/
def Components.measure (self : Components) : ℕ := self.rest.length + self.rootPending.toNat

lemma Components.measure_next {self : Components} {c : Component} (h : self.next.1 = some c) :
    self.next.2.measure < self.measure := by
  unfold Components.next at h ⊢
  split_ifs at h ⊢ with hroot
  · simp [measure, hroot]
  · rcases scan_spec self.rest with ⟨-, hnone⟩ | ⟨seg, -, -, hlt⟩
    · rw [hnone] at h
      cases h
    · simpa [measure] using hlt

/-- The items of the iterator, in order. -/
def Components.collect (self : Components) : List Component :=
  match _h : self.next.1 with
  | none => []
  | some c => c :: self.next.2.collect
termination_by self.measure
decreasing_by exact measure_next _h

lemma Components.collect_of_none {self : Components} (h : self.next.1 = none) :
    self.collect = [] := by
  rw [collect]
  split
  · rfl
  · simp_all

lemma Components.collect_of_some {self : Components} {c : Component} (h : self.next.1 = some c) :
    self.collect = c :: self.next.2.collect := by
  rw [collect]
  split
  · simp_all
  · simp_all

lemma Components.collect_rest (rest : Path) :
    (Components.mk rest false).collect = (names rest).map .ofSegment := by
  induction hn : rest.length using Nat.strong_induction_on generalizing rest with
  | _ n ih =>
    subst hn
    rcases scan_spec rest with ⟨hnil, hnone⟩ | ⟨seg, hnames, hsome, hlt⟩
    · rw [collect_of_none (by simpa [next] using hnone), hnil]
      rfl
    · rw [collect_of_some (by simpa [next] using hsome), hnames, List.map_cons]
      exact congrArg _ (ih _ hlt _ rfl)

/-- The component list of a path: the root of an absolute path, then the segments other
than `.`. -/
theorem collect_components (p : Path) :
    (components p).collect =
      (if isAbsolute p then [.rootDir] else []) ++ (names p).map .ofSegment := by
  rw [components]
  cases isAbsolute p with
  | false => simpa using Components.collect_rest p
  | true =>
    rw [Components.collect_of_some (c := .rootDir) (by simp [Components.next])]
    simpa [Components.next] using Components.collect_rest p

/-! ### Joined paths -/

lemma collect_nil : (components []).collect = [] := by
  rw [collect_components]
  rfl

lemma collect_sep : (components [sep]).collect = [.rootDir] := by
  rw [collect_components]
  rfl

lemma head?_of_not_isAbsolute (h : isAbsolute p = false) : p.head? ≠ some sep := by
  simpa [isAbsolute] using h

lemma isAbsolute_append (hp : p ≠ []) (q : Path) : isAbsolute (p ++ q) = isAbsolute p := by
  obtain ⟨b, p, rfl⟩ := List.exists_cons_of_ne_nil hp
  rfl

lemma isAbsolute_push (hp : p ≠ []) (hq : isAbsolute q = false) :
    isAbsolute (push p q) = isAbsolute p := by
  rw [push, if_neg (head?_of_not_isAbsolute hq)]
  split
  · rw [List.append_assoc, isAbsolute_append hp]
  · exact isAbsolute_append hp q

lemma names_push (hq : isAbsolute q = false) : names (push p q) = names p ++ names q := by
  rw [names, pieces_push (head?_of_not_isAbsolute hq), List.filter_append]
  rfl

lemma push_of_isAbsolute (hq : isAbsolute q = true) : push p q = q := by
  rw [push, if_pos (by simpa [isAbsolute] using hq)]

lemma collect_push (hq : isAbsolute q = false) :
    (components (push p q)).collect = (components p).collect ++ (components q).collect := by
  by_cases hp : p = []
  · subst hp
    rw [push, if_neg (head?_of_not_isAbsolute hq), if_neg (by simp), List.nil_append,
      collect_nil, List.nil_append]
  · rw [collect_components, collect_components, collect_components q, isAbsolute_push hp hq,
      names_push hq, hq, List.map_append, List.append_assoc]
    rfl

/-! ### The texts of the components -/

lemma Component.asStr_ofSegment (seg : List UInt8) : (ofSegment seg).asStr = seg := by
  unfold ofSegment
  split_ifs with hdots
  · rw [hdots]
    rfl
  · rfl

lemma names_of_not_mem (hne : p ≠ []) (hsep : sep ∉ p) :
    names p = if p = [dot] then [] else [p] := by
  rw [names, pieces_of_not_mem hsep hne, List.filter_singleton]
  split_ifs with hdot <;> simp [hdot]

/-- A segment that is a component is the path with that component alone. -/
lemma collect_segment {seg : List UInt8} (h : seg ∈ names p) :
    isAbsolute seg = false ∧ (components seg).collect = [.ofSegment seg] := by
  obtain ⟨hmem, hdot⟩ := List.mem_filter.1 h
  obtain ⟨hne, hsep, -⟩ := mem_pieces hmem
  have habs : isAbsolute seg = false := by
    rw [isAbsolute, beq_eq_false_iff_ne]
    exact fun heq => hsep (List.mem_of_head? heq)
  refine ⟨habs, ?_⟩
  have hdot' : seg ≠ [dot] := by simpa using hdot
  rw [collect_components, habs, names_of_not_mem hne hsep, if_neg hdot']
  rfl

lemma collect_foldl_push (segs : List (List UInt8)) (hsegs : ∀ seg ∈ segs, seg ∈ names p)
    (acc : Path) :
    (components (segs.foldl push acc)).collect =
      (components acc).collect ++ segs.map .ofSegment := by
  induction segs generalizing acc with
  | nil => simp
  | cons seg segs ih =>
    obtain ⟨habs, hseg⟩ := collect_segment (hsegs seg (List.mem_cons_self ..))
    rw [List.foldl_cons, ih (fun s hs => hsegs s (List.mem_cons_of_mem _ hs)),
      collect_push habs, hseg, List.append_assoc]
    rfl

/-- `join` puts the component lists together unless its argument is absolute, and a path can
be rebuilt from the texts of its components. -/
theorem components_join (a b p : Path) :
    (components (join a b)).collect =
        (if isAbsolute b then (components b).collect
          else (components a).collect ++ (components b).collect) ∧
      (components (((components p).collect.map Component.asStr).foldl push [])).collect =
        (components p).collect := by
  constructor
  · rw [join]
    split_ifs with hb
    · rw [push_of_isAbsolute hb]
    · exact collect_push (by simpa using hb)
  · have htexts : ((names p).map Component.ofSegment).map Component.asStr = names p := by
      simp [Function.comp_def, Component.asStr_ofSegment]
    rw [collect_components p, List.map_append, List.foldl_append, htexts,
      collect_foldl_push (names p) (fun seg hseg => hseg)]
    -- the root, when there is one, is pushed on the empty path
    cases isAbsolute p with
    | false => simp [collect_nil]
    | true => simp [push, Component.asStr, collect_sep]

end Path

end PureStd
