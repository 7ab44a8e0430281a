/-
`Path::parent` and `Path::join`, `src/path.rs`.

A path is known by the bytes of its string.  The functions cut it at `/` only, which is one byte
of UTF-8, so they cut it between characters.

The names on a path are the pieces between its slashes (`pieces`); `join` adds one at the end
and `parent` takes one away.
-/
import Mathlib.Data.List.DropRight
import Mathlib.Tactic

namespace PureStd

/-- `Path` and `PathBuf`. -/
abbrev Path := List UInt8

namespace Path

/-- `SEP`. -/
def sep : UInt8 := 47

/-- `rfind(SEP)`. -/
def rfind (s : Path) : Option ℕ :=
  (s.reverse.findIdx? (· == sep)).map fun i => s.length - 1 - i

/-- `Path::parent`. -/
def parent (p : Path) : Option Path :=
  let trimmed := p.rdropWhile (· == sep)
  match rfind trimmed with
  | some 0 => some [sep]
  | some i => some (trimmed.take i)
  | none => none

/-- `PathBuf::push`. -/
def push (self p : Path) : Path :=
  if p.head? = some sep then p
  else if self ≠ [] ∧ self.getLast? ≠ some sep then self ++ [sep] ++ p
  else self ++ p

/-- `Path::join`. -/
def join (self p : Path) : Path := push self p

/-- The pieces between the slashes. -/
def pieces (p : Path) : List (List UInt8) := (p.splitOn sep).filter (· ≠ [])

/-! ### Pieces -/

variable {p q : Path}

@[simp] lemma pieces_nil : pieces [] = [] := rfl

lemma pieces_append_sep (p q : Path) : pieces (p ++ sep :: q) = pieces p ++ pieces q := by
  rw [pieces, List.splitOn_append_cons_self, List.filter_append]
  rfl

lemma pieces_of_not_mem (h : sep ∉ p) (hp : p ≠ []) : pieces p = [p] := by
  rw [pieces, List.splitOn_eq_singleton h]
  simp [hp]

lemma mem_splitOn {piece : List UInt8} (h : piece ∈ p.splitOn sep) :
    sep ∉ piece ∧ ∀ b ∈ piece, b ∈ p := by
  induction p generalizing piece with
  | nil =>
    obtain rfl : piece = [] := by simpa using h
    simp
  | cons c p ih =>
    rw [List.splitOn_cons_eq_if_modifyHead] at h
    split at h
    · rcases List.mem_cons.1 h with rfl | hmem
      · simp
      · exact ⟨(ih hmem).1, fun b hb => List.mem_cons_of_mem c ((ih hmem).2 b hb)⟩
    · rename_i hc
      obtain ⟨first, rest, heq⟩ := List.exists_cons_of_ne_nil (List.splitOn_ne_nil sep p)
      rw [heq] at h ih
      rcases List.mem_cons.1 h with rfl | hmem
      · obtain ⟨hsep, hsub⟩ := ih (List.mem_cons_self ..)
        have hne : sep ≠ c := fun hsc => hc (by simp [hsc])
        refine ⟨by simp [hne, hsep], fun b hb => ?_⟩
        rcases List.mem_cons.1 hb with rfl | hb
        · exact List.mem_cons_self ..
        · exact List.mem_cons_of_mem c (hsub b hb)
      · obtain ⟨hsep, hsub⟩ := ih (List.mem_cons_of_mem _ hmem)
        exact ⟨hsep, fun b hb => List.mem_cons_of_mem c (hsub b hb)⟩

lemma mem_pieces {piece : List UInt8} (h : piece ∈ pieces p) :
    piece ≠ [] ∧ sep ∉ piece ∧ ∀ b ∈ piece, b ∈ p := by
  obtain ⟨hmem, hne⟩ := List.mem_filter.1 h
  exact ⟨by simpa using hne, mem_splitOn hmem⟩

/-- A path without names consists of slashes. -/
lemma eq_sep_of_pieces_nil (h : pieces p = []) {b : UInt8} (hb : b ∈ p) : b = sep := by
  induction p with
  | nil => cases hb
  | cons c p ih =>
    rw [pieces, List.splitOn_cons_eq_if_modifyHead] at h
    split at h
    · rename_i hc
      rcases List.mem_cons.1 hb with rfl | hb
      · exact eq_of_beq hc
      · exact ih (by simpa [pieces] using h) hb
    · obtain ⟨first, rest, heq⟩ := List.exists_cons_of_ne_nil (List.splitOn_ne_nil sep p)
      simp [heq] at h

lemma pieces_push (h : q.head? ≠ some sep) : pieces (push p q) = pieces p ++ pieces q := by
  rw [push, if_neg h]
  split
  · rw [List.append_assoc, List.singleton_append, pieces_append_sep]
  · rename_i hlast
    by_cases hp : p = []
    · simp [hp]
    · have hlast' : p.getLast? = some sep := by
        by_contra hne
        exact hlast ⟨hp, hne⟩
      obtain ⟨p', rfl⟩ := List.getLast?_eq_some_iff.1 hlast'
      rw [List.append_assoc, List.singleton_append, pieces_append_sep, pieces_append_sep,
        pieces_nil, List.append_nil]

lemma pieces_join (hq : q ≠ []) (h : sep ∉ q) : pieces (join p q) = pieces p ++ [q] := by
  have hhead : q.head? ≠ some sep := fun heq => h (List.mem_of_head? heq)
  rw [join, pieces_push hhead, pieces_of_not_mem h hq]

lemma mem_join {x : UInt8} (h : x ∈ join p q) : x ∈ p ∨ x = sep ∨ x ∈ q := by
  rw [join, push] at h
  split_ifs at h
  · exact Or.inr (Or.inr h)
  · simpa [or_assoc] using h
  · exact (List.mem_append.1 h).imp_right Or.inr

lemma head?_join (hp : p ≠ []) (h : sep ∉ q) : (join p q).head? = p.head? := by
  have hhead : q.head? ≠ some sep := fun heq => h (List.mem_of_head? heq)
  obtain ⟨b, p, rfl⟩ := List.exists_cons_of_ne_nil hp
  rw [join, push, if_neg hhead]
  split <;> rfl

lemma getLast?_join (hq : q ≠ []) (h : sep ∉ q) : (join p q).getLast? = q.getLast? := by
  have hhead : q.head? ≠ some sep := fun heq => h (List.mem_of_head? heq)
  rw [join, push, if_neg hhead]
  split <;> rw [List.getLast?_append_of_ne_nil _ hq]

/-! ### The parent -/

/-- `rfind` finds the last separator. -/
lemma rfind_eq_some {i : ℕ} (h : rfind p = some i) :
    ∃ b, p = p.take i ++ sep :: b ∧ sep ∉ b := by
  obtain ⟨j, hj, rfl⟩ := Option.map_eq_some_iff.1 h
  obtain ⟨hlt, hsep, hbefore⟩ := List.findIdx?_eq_some_iff_getElem.1 hj
  have hget : p.reverse[j] = sep := by simpa using hsep
  have hrev : p.reverse = p.reverse.take j ++ sep :: p.reverse.drop (j + 1) := by
    rw [← hget, List.getElem_cons_drop, List.take_append_drop]
  have hp : p = (p.reverse.drop (j + 1)).reverse ++ sep :: (p.reverse.take j).reverse := by
    have := congrArg List.reverse hrev
    simpa using this
  have hlen : (p.reverse.drop (j + 1)).reverse.length = p.length - 1 - j := by
    rw [List.length_reverse, List.length_drop, List.length_reverse]
    omega
  have htake : p.take (p.length - 1 - j) = (p.reverse.drop (j + 1)).reverse :=
    (congrArg (List.take _) hp).trans (List.take_left' hlen)
  refine ⟨(p.reverse.take j).reverse, ?_, ?_⟩
  · rw [htake]
    exact hp
  · rw [List.mem_reverse, List.mem_take_iff_getElem]
    rintro ⟨k, hk, heq⟩
    have hlt' : k < j := by omega
    have := hbefore k hlt'
    rw [heq] at this
    simp at this

lemma rfind_eq_none : rfind p = none ↔ sep ∉ p := by
  rw [rfind, Option.map_eq_none_iff, List.findIdx?_eq_none_iff]
  constructor
  · intro h hmem
    simpa using h sep (List.mem_reverse.2 hmem)
  · intro h b hb
    rw [beq_eq_false_iff_ne]
    rintro rfl
    exact h (List.mem_reverse.1 hb)

lemma pieces_trim (p : Path) : pieces (p.rdropWhile (· == sep)) = pieces p := by
  induction p using List.reverseRecOn with
  | nil => rfl
  | append_singleton p b ih =>
    by_cases hb : b = sep
    · subst hb
      rw [List.rdropWhile_concat_pos _ _ _ (by simp), ih, pieces_append_sep, pieces_nil,
        List.append_nil]
    · rw [List.rdropWhile_concat_neg _ _ _ (by simpa using hb)]

/-- The part of a path before the trailing separators, as `parent` cuts it. -/
lemma parent_cases (p : Path) :
    (parent p = none ∧ (pieces p).length ≤ 1) ∨
    ∃ a b, p.rdropWhile (· == sep) = a ++ sep :: b ∧ b ≠ [] ∧ sep ∉ b ∧
      parent p = some (if a = [] then [sep] else a) := by
  set trimmed := p.rdropWhile (· == sep) with htrim
  cases hfind : rfind trimmed with
  | none =>
    refine Or.inl ⟨by rw [parent, ← htrim, hfind], ?_⟩
    have hmem := rfind_eq_none.1 hfind
    rw [← pieces_trim, ← htrim]
    by_cases hnil : trimmed = []
    · simp [hnil]
    · simp [pieces_of_not_mem hmem hnil]
  | some i =>
    obtain ⟨b, hsplit, hb⟩ := rfind_eq_some hfind
    have hlen : i ≤ trimmed.length := by
      by_contra hlt
      rw [List.take_of_length_le (by omega)] at hsplit
      simp at hsplit
    refine Or.inr ⟨trimmed.take i, b, hsplit, ?_, hb, ?_⟩
    · rintro rfl
      have hne : trimmed ≠ [] := fun hnil => by simp [hnil] at hsplit
      have hlast : trimmed.getLast? = some sep := by
        rw [hsplit]
        simp
      rw [List.getLast?_eq_some_getLast hne] at hlast
      have hnot := List.rdropWhile_last_not (· == sep) p hne
      rw [Option.some.inj hlast] at hnot
      simp at hnot
    · rw [parent, ← htrim, hfind]
      cases i with
      | zero => simp
      | succ i =>
        have hne : trimmed ≠ [] := fun hnil => by simp [hnil] at hsplit
        simp [hne]

lemma pieces_parent (h : parent p = some q) : pieces q = (pieces p).dropLast := by
  rcases parent_cases p with ⟨hnone, -⟩ | ⟨a, b, hsplit, hb, hsep, hsome⟩
  · rw [hnone] at h
    cases h
  · have hp : pieces p = pieces a ++ [b] := by
      rw [← pieces_trim, hsplit, pieces_append_sep, pieces_of_not_mem hsep hb]
    obtain rfl := Option.some.inj (h.symm.trans hsome)
    rw [hp, List.dropLast_concat]
    split
    · rename_i hnil
      rw [hnil]
      rfl
    · rfl

/-- A parent is not empty, and starts like the path. -/
lemma head?_parent (h : parent p = some q) :
    q ≠ [] ∧ (q.head? = some sep ↔ p.head? = some sep) := by
  rcases parent_cases p with ⟨hnone, -⟩ | ⟨a, b, hsplit, hb, hsep, hsome⟩
  · rw [hnone] at h
    cases h
  · obtain rfl := Option.some.inj (h.symm.trans hsome)
    obtain ⟨rest, hrest⟩ := hsplit ▸ List.rdropWhile_prefix (· == sep) (l := p)
    cases a with
    | nil => simp [← hrest]
    | cons c a => simp [← hrest]

/-- A parent has no bytes of its own. -/
lemma mem_of_mem_parent (h : parent p = some q) {b : UInt8} (hb : b ∈ q) : b ∈ p := by
  rcases parent_cases p with ⟨hnone, -⟩ | ⟨a, c, hsplit, hc, hsep, hsome⟩
  · rw [hnone] at h
    cases h
  · obtain rfl := Option.some.inj (h.symm.trans hsome)
    have hsub := (List.rdropWhile_prefix (· == sep) (l := p)).subset
    rw [hsplit] at hsub
    split at hb
    · exact hsub (by simp [List.mem_singleton.1 hb])
    · exact hsub (List.mem_append_left _ hb)

lemma length_parent_lt (h : parent p = some q) : q.length < p.length := by
  rcases parent_cases p with ⟨hnone, -⟩ | ⟨a, b, hsplit, hb, hsep, hsome⟩
  · rw [hnone] at h
    cases h
  · obtain rfl := Option.some.inj (h.symm.trans hsome)
    have hle := (List.rdropWhile_prefix (· == sep) (l := p)).length_le
    have hpos := List.length_pos_iff.2 hb
    rw [hsplit, List.length_append, List.length_cons] at hle
    split
    · simp
      omega
    · omega

end Path

end PureStd
