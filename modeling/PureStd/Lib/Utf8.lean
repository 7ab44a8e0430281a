/-
UTF-8 byte strings and lossy decoding.

A byte string is read by a machine that stands between characters or owes continuation
bytes; the first continuation byte after some lead bytes comes from a smaller range, which
rules out overlong forms, surrogates and numbers beyond the last code point.  A byte string
is UTF-8 if the machine reads all of it and ends between characters.

`lossy` copies what is UTF-8 and puts the replacement character in the place of each longest
run of bytes that could have started a character and did not, as `String::from_utf8_lossy`
does.  Its result is UTF-8, it changes nothing that is, and apart from the replacement
characters it adds no byte.

`Str` is a string of the language: its bytes, which are UTF-8, ordered by their bytes.
-/
import Mathlib.Tactic

namespace PureStd.Utf8

/-- The continuation bytes that are still owed, and the range of the next one. -/
structure Owed where
  count : ℕ
  lo : UInt8
  hi : UInt8
deriving DecidableEq, Repr

/-- A first byte: the state behind it, or `none` for a byte that starts no character. -/
def lead (b : UInt8) : Option (Option Owed) :=
  if b < 0x80 then some none
  else if b < 0xc2 then none
  else if b < 0xe0 then some (some ⟨1, 0x80, 0xbf⟩)
  else if b = 0xe0 then some (some ⟨2, 0xa0, 0xbf⟩)
  else if b = 0xed then some (some ⟨2, 0x80, 0x9f⟩)
  else if b < 0xf0 then some (some ⟨2, 0x80, 0xbf⟩)
  else if b = 0xf0 then some (some ⟨3, 0x90, 0xbf⟩)
  else if b < 0xf4 then some (some ⟨3, 0x80, 0xbf⟩)
  else if b = 0xf4 then some (some ⟨3, 0x80, 0x8f⟩)
  else none

/-- The state behind a byte, or `none` if the byte cannot stand there. -/
def step : Option Owed → UInt8 → Option (Option Owed)
  | none, b => lead b
  | some o, b =>
    if o.lo ≤ b ∧ b ≤ o.hi then
      if o.count ≤ 1 then some none else some (some ⟨o.count - 1, 0x80, 0xbf⟩)
    else none

/-- The state behind a byte string. -/
def run : Option Owed → List UInt8 → Option (Option Owed)
  | s, [] => some s
  | s, b :: bs => (step s b).bind fun s' => run s' bs

/-- The byte string is UTF-8. -/
def Valid (bs : List UInt8) : Prop := run none bs = some none

instance (bs : List UInt8) : Decidable (Valid bs) := inferInstanceAs (Decidable (_ = _))

/-- The bytes of U+FFFD. -/
def replacement : List UInt8 := [0xef, 0xbf, 0xbd]

/-- The lossy reading of `bs` behind the bytes `acc` of a character that is not complete. -/
def lossyFrom : Option Owed → List UInt8 → List UInt8 → List UInt8
  | none, _, [] => []
  | some _, _, [] => replacement
  | none, _, b :: bs =>
    match lead b with
    | some none => b :: lossyFrom none [] bs
    | some (some o) => lossyFrom (some o) [b] bs
    | none => replacement ++ lossyFrom none [] bs
  | some o, acc, b :: bs =>
    match step (some o) b with
    | some none => acc ++ b :: lossyFrom none [] bs
    | some (some o') => lossyFrom (some o') (acc ++ [b]) bs
    -- the byte ends the run of bytes before it and may start a character itself
    | none =>
      match lead b with
      | some none => replacement ++ b :: lossyFrom none [] bs
      | some (some o') => replacement ++ lossyFrom (some o') [b] bs
      | none => replacement ++ (replacement ++ lossyFrom none [] bs)

/-- `String::from_utf8_lossy`. -/
def lossy (bs : List UInt8) : List UInt8 := lossyFrom none [] bs

lemma run_append (s : Option Owed) (as bs : List UInt8) :
    run s (as ++ bs) = (run s as).bind fun s' => run s' bs := by
  induction as generalizing s with
  | nil => rfl
  | cons a as ih =>
    rw [List.cons_append, run, run]
    cases step s a with
    | none => rfl
    | some s' => exact ih s'

variable {bs : List UInt8} {b : UInt8} {s : Option Owed}

lemma Valid.append {as : List UInt8} (ha : Valid as) (hb : Valid bs) : Valid (as ++ bs) := by
  rw [Valid, run_append, ha]
  exact hb

lemma valid_nil : Valid [] := rfl

lemma valid_replacement : Valid replacement := by decide

lemma valid_cons_of_lead (h : lead b = some none) (hbs : Valid bs) : Valid (b :: bs) := by
  have hrun : run none (b :: bs) = (lead b).bind fun s => run s bs := rfl
  rw [Valid, hrun, h]
  exact hbs

lemma run_lead {o : Owed} (h : lead b = some (some o)) : run none [b] = some (some o) := by
  have hrun : run none [b] = (lead b).bind fun s => run s [] := rfl
  rw [hrun, h]
  rfl

/-- A step behind the bytes read so far. -/
lemma run_snoc {acc : List UInt8} {o : Owed} (hacc : run none acc = some (some o))
    (h : step (some o) b = some s) : run none (acc ++ [b]) = some s := by
  have hrun : run (some o) [b] = (step (some o) b).bind fun s' => run s' [] := rfl
  rw [run_append, hacc, Option.bind_some, hrun, h]
  rfl

/-- The result is UTF-8, if the bytes `acc` are the start of a character. -/
lemma valid_lossyFrom (s : Option Owed) (acc bs : List UInt8)
    (hacc : ∀ o, s = some o → run none acc = some s) : Valid (lossyFrom s acc bs) := by
  fun_induction lossyFrom s acc bs with
  | case1 => exact valid_nil
  | case2 => exact valid_replacement
  | case3 acc b bs hb ih => exact valid_cons_of_lead hb (ih (by simp))
  | case4 acc b bs o hb ih =>
    refine ih ?_
    intro o' ho'
    exact run_lead hb
  | case5 acc b bs hb ih => exact valid_replacement.append (ih (by simp))
  | case6 o acc b bs hb ih =>
    have hchar : Valid (acc ++ [b]) := run_snoc (hacc o rfl) hb
    have hall := hchar.append (ih (by simp))
    rwa [List.append_assoc] at hall
  | case7 o acc b bs o' hb ih =>
    refine ih ?_
    intro o'' ho''
    exact run_snoc (hacc o rfl) hb
  | case8 o acc b bs hb hl ih =>
    exact valid_replacement.append (valid_cons_of_lead hl (ih (by simp)))
  | case9 o acc b bs hb o' hl ih =>
    refine valid_replacement.append (ih ?_)
    intro o'' ho''
    exact run_lead hl
  | case10 o acc b bs hb hl ih =>
    exact valid_replacement.append (valid_replacement.append (ih (by simp)))

lemma valid_lossy (bs : List UInt8) : Valid (lossy bs) :=
  valid_lossyFrom none [] bs fun _ h => by cases h

/-- What is UTF-8 is copied. -/
lemma lossyFrom_of_run (s : Option Owed) (acc bs : List UInt8) (hacc : s = none → acc = [])
    (h : run s bs = some none) : lossyFrom s acc bs = acc ++ bs := by
  fun_induction lossyFrom s acc bs with
  | case1 acc => rw [hacc rfl, List.append_nil]
  | case2 o acc => cases h
  | case3 acc b bs hb ih =>
    rw [run, step, hb] at h
    rw [ih (fun _ => rfl) h, hacc rfl]
    rfl
  | case4 acc b bs o hb ih =>
    rw [run, step, hb] at h
    rw [ih (by simp) h, hacc rfl]
    rfl
  | case5 acc b bs hb ih =>
    rw [run, step, hb] at h
    cases h
  | case6 o acc b bs hb ih =>
    rw [run, hb] at h
    rw [ih (fun _ => rfl) h]
    rfl
  | case7 o acc b bs o' hb ih =>
    rw [run, hb] at h
    rw [ih (by simp) h, List.append_assoc]
    rfl
  | case8 o acc b bs hb hl ih | case9 o acc b bs hb o' hl ih | case10 o acc b bs hb hl ih =>
    rw [run, hb] at h
    cases h

lemma lossy_of_valid (h : Valid bs) : lossy bs = bs :=
  lossyFrom_of_run none [] bs (fun _ => rfl) h

/-- Every byte of the result is a byte of the input or of the replacement character. -/
lemma mem_lossyFrom {acc : List UInt8} {x : UInt8} (h : x ∈ lossyFrom s acc bs) :
    x ∈ acc ∨ x ∈ bs ∨ x ∈ replacement := by
  fun_induction lossyFrom s acc bs with
  | case1 => cases h
  | case2 => exact Or.inr (Or.inr h)
  | case3 | case4 | case5 | case6 | case7 | case8 | case9 | case10 => grind

lemma mem_lossy {x : UInt8} (h : x ∈ lossy bs) : x ∈ bs ∨ x ∈ replacement := by
  rcases mem_lossyFrom h with hx | hx
  · cases hx
  · exact hx

/-- Without a replacement character, nothing has been replaced. -/
lemma lossyFrom_eq_of_not_mem (s : Option Owed) (acc bs : List UInt8) (hacc : s = none → acc = [])
    (h : 0xef ∉ lossyFrom s acc bs) : lossyFrom s acc bs = acc ++ bs := by
  have hmem : 0xef ∈ replacement := by decide
  fun_induction lossyFrom s acc bs with
  | case1 acc => rw [hacc rfl, List.append_nil]
  | case2 => exact absurd hmem h
  | case3 acc b bs hb ih =>
    rw [ih (fun _ => rfl) fun h' => h (List.mem_cons_of_mem b h'), hacc rfl]
    rfl
  | case4 acc b bs o hb ih =>
    rw [ih (by simp) h, hacc rfl]
    rfl
  | case5 => exact absurd (List.mem_append_left _ hmem) h
  | case6 o acc b bs hb ih =>
    rw [ih (fun _ => rfl) fun h' => h (List.mem_append_right acc (List.mem_cons_of_mem b h'))]
    rfl
  | case7 o acc b bs o' hb ih => rw [ih (by simp) h, List.append_assoc, List.singleton_append]
  | case8 | case9 | case10 => exact absurd (List.mem_append_left _ hmem) h

lemma lossy_eq_of_not_mem (h : 0xef ∉ lossy bs) : lossy bs = bs :=
  lossyFrom_eq_of_not_mem none [] bs (fun _ => rfl) h

/-! ### One-byte characters -/

/-- Only bytes from `0x80` on continue a character. -/
lemma step_lo {s' : Option Owed} (hs : ∀ o, s = some o → 0x80 ≤ o.lo) (h : step s b = some s') :
    ∀ o, s' = some o → 0x80 ≤ o.lo := by
  rintro o rfl
  cases s with
  | none =>
    rw [step, lead] at h
    repeat' split at h
    all_goals cases h <;> decide
  | some o' =>
    simp only [step] at h
    split_ifs at h <;> cases h
    exact UInt8.le_refl _

lemma run_lo {s' : Option Owed} (hs : ∀ o, s = some o → 0x80 ≤ o.lo) (h : run s bs = some s') :
    ∀ o, s' = some o → 0x80 ≤ o.lo := by
  induction bs generalizing s with
  | nil =>
    cases h
    exact hs
  | cons b bs ih =>
    obtain ⟨s₁, hstep, hrun⟩ := Option.bind_eq_some_iff.1 h
    exact ih (step_lo hs hstep) hrun

/-- A byte below `0x80` is a character of its own, so what stands before and after it is
UTF-8. -/
lemma Valid.split_ascii {as : List UInt8} {c : UInt8} (h : Valid (as ++ c :: bs)) (hc : c < 0x80) :
    Valid as ∧ Valid bs := by
  rw [Valid, run_append] at h
  obtain ⟨s, hs, hrest⟩ := Option.bind_eq_some_iff.1 h
  obtain ⟨s', hstep, hbs⟩ := Option.bind_eq_some_iff.1 hrest
  cases s with
  | none =>
    rw [step, lead, if_pos hc] at hstep
    cases hstep
    exact ⟨hs, hbs⟩
  | some o =>
    have hlo := run_lo (fun _ h => by cases h) hs o rfl
    have hnot : ¬ (o.lo ≤ c ∧ c ≤ o.hi) := fun hle =>
      UInt8.not_le.2 hc (UInt8.le_trans hlo hle.1)
    rw [step, if_neg hnot] at hstep
    cases hstep

/-! ### Strings -/

/-- `String` and `str`: bytes that are UTF-8. -/
@[ext] structure Str where
  bytes : List UInt8
  valid : Valid bytes
deriving DecidableEq

namespace Str

/-- Strings are compared by their bytes. -/
instance : Ord Str where
  compare a b := compare a.bytes b.bytes

instance : Std.TransOrd Str where
  eq_swap {a b} :=
    (Std.OrientedOrd.eq_swap : compare a.bytes b.bytes = (compare b.bytes a.bytes).swap)
  isLE_trans {a _ c} hab hbc :=
    (Std.TransOrd.isLE_trans hab hbc : (compare a.bytes c.bytes).isLE)

instance : Std.LawfulEqOrd Str where
  eq_of_compare h := Str.ext (Std.LawfulEqOrd.eq_of_compare h)
  compare_self := Std.ReflOrd.compare_self

instance : Inhabited Str := ⟨⟨[], valid_nil⟩⟩

/-- `String::push_str`. -/
def pushStr (s t : Str) : Str := ⟨s.bytes ++ t.bytes, s.valid.append t.valid⟩

/-- `core::str::from_utf8`. -/
def fromUtf8 (bs : List UInt8) : Option Str := if h : Valid bs then some ⟨bs, h⟩ else none

/-- `String::pop` of a one-byte character. -/
def pop (s : Str) {c : UInt8} (hc : c < 0x80) (h : s.bytes.getLast? = some c) : Str where
  bytes := s.bytes.dropLast
  valid := by
    have hs := s.valid
    rw [← List.dropLast_append_getLast? c h] at hs
    exact (hs.split_ascii hc).1

lemma fromUtf8_of_valid (h : Valid bs) : fromUtf8 bs = some ⟨bs, h⟩ := dif_pos h

lemma fromUtf8_of_not_valid (h : ¬ Valid bs) : fromUtf8 bs = none := dif_neg h

/-- The string that a byte string is decoded to. -/
def fromUtf8Lossy (bs : List UInt8) : Str := ⟨lossy bs, valid_lossy bs⟩

/-- Decoding the bytes of a string gives the string. -/
lemma fromUtf8Lossy_bytes (s : Str) : fromUtf8Lossy s.bytes = s :=
  Str.ext (lossy_of_valid s.valid)

end Str

end PureStd.Utf8
