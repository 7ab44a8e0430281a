/-
Readers that deliver a definite sequence of bytes.

A reader may cut its bytes into pieces of any sizes and fail between them as often as it likes.
`Stream` says what does not depend on that: each state has bytes that are still to come, a read
takes the first of them, at the end there are none, and a failed read takes none.  A reader does
not fail for ever, so each failure uses up some of its `delay`.

A loop over such a reader ends since in every turn there are fewer bytes to come, or equally many
and less delay.
-/
import PureStd.Io.Traits
import PureStd.Lib.Fuel

namespace PureStd.Io

variable {σ : Type*} {rd : Reader σ} {buf : List UInt8} {r : Result ℕ}

/-- Fewer bytes to come, or the same bytes and less delay. -/
def Closer {α : Type*} (f : α → List UInt8 × ℕ) (a b : α) : Prop :=
  (f a).1.length < (f b).1.length ∨ (f a).1 = (f b).1 ∧ (f a).2 < (f b).2

lemma closer_wf {α : Type*} (f : α → List UInt8 × ℕ) : WellFounded (Closer f) := by
  refine Subrelation.wf ?_
    (InvImage.wf (fun a => ((f a).1.length, (f a).2)) (Prod.lex Nat.lt_wfRel Nat.lt_wfRel).wf)
  rintro a b (hlt | ⟨heq, hlt⟩)
  · exact Prod.Lex.left _ _ hlt
  · simp only [InvImage, heq]
    exact Prod.Lex.right _ hlt

lemma Closer.trans {α : Type*} {f : α → List UInt8 × ℕ} {a b c : α} (hab : Closer f a b)
    (hbc : Closer f b c) : Closer f a c := by
  rcases hab with hab | ⟨hab, hab'⟩ <;> rcases hbc with hbc | ⟨hbc, hbc'⟩
  · exact Or.inl (hab.trans hbc)
  · exact Or.inl (hbc ▸ hab)
  · exact Or.inl (hab ▸ hbc)
  · exact Or.inr ⟨hab.trans hbc, hab'.trans hbc'⟩

/-- The states of the reader `rd` that fail only with errors in `Allowed`, and the bytes that each
of them still has to deliver. -/
structure Stream (rd : Reader σ) (Allowed : ErrorKind → Prop) where
  Good : σ → Prop
  rest : σ → List UInt8
  /-- A bound for the number of failures before the next success. -/
  delay : σ → ℕ
  read_ok : ∀ {s s' buf buf' n}, Good s → buf ≠ [] → rd.read s buf = (s', buf', .ok n) →
    Good s' ∧ rest s = buf'.take n ++ rest s' ∧ (n = 0 → rest s = [])
  read_error : ∀ {s s' buf buf' e}, Good s → buf ≠ [] → rd.read s buf = (s', buf', .error e) →
    Allowed e ∧ Good s' ∧ rest s' = rest s ∧ delay s' < delay s

/-- The error after which every loop tries again. -/
def Interrupted (e : ErrorKind) : Prop := e = .interrupted

lemma Reader.read_of_get {i i' : Source σ} {buf' : List UInt8} (h : rd.get i buf = (i', buf', r)) :
    rd.read i.state buf = (i'.state, buf', r) := by
  rw [Reader.get] at h
  split at h <;>
  · rename_i hread
    cases h
    exact hread

/-- A buffer stays as long as it is. -/
lemma Reader.get_ne_nil {i i' : Source σ} {buf' : List UInt8} (hbuf : buf ≠ [])
    (h : rd.get i buf = (i', buf', r)) : buf' ≠ [] := by
  have hlen : buf'.length = buf.length := by
    simpa only [Reader.read_of_get h] using rd.read_length i.state buf
  rw [← List.length_pos_iff, hlen]
  exact List.length_pos_iff.2 hbuf

namespace Stream

variable {Allowed : ErrorKind → Prop} (S : Stream rd Allowed)

/-- The reader has come closer to its end or to its next success. -/
def Before : σ → σ → Prop := Closer fun s => (S.rest s, S.delay s)

lemma before_wf : WellFounded S.Before := closer_wf _

variable {S} {i i' : Source σ} {buf' : List UInt8}

lemma get_ok {n : ℕ} (hs : S.Good i.state) (hbuf : buf ≠ [])
    (h : rd.get i buf = (i', buf', .ok n)) :
    S.Good i'.state ∧ S.rest i.state = buf'.take n ++ S.rest i'.state ∧
      (n = 0 → S.rest i.state = []) :=
  S.read_ok hs hbuf (Reader.read_of_get h)

/-- Every read but the last makes progress. -/
lemma read_before {s s' : σ} (hs : S.Good s) (hbuf : buf ≠ []) (h : rd.read s buf = (s', buf', r))
    (hr : r ≠ .ok 0) : S.Good s' ∧ S.Before s' s := by
  cases r with
  | ok n =>
    have hn : n ≠ 0 := fun hzero => hr (by rw [hzero])
    have hle := rd.read_le s buf n (by rw [h])
    have hlen : buf'.length = buf.length := by simpa only [h] using rd.read_length s buf
    obtain ⟨hgood, hrest, -⟩ := S.read_ok hs hbuf h
    refine ⟨hgood, Or.inl ?_⟩
    show (S.rest s').length < (S.rest s).length
    rw [hrest, List.length_append, List.length_take]
    omega
  | error e =>
    obtain ⟨-, hgood, hrest, hdelay⟩ := S.read_error hs hbuf h
    exact ⟨hgood, Or.inr ⟨hrest, hdelay⟩⟩

lemma get_error {e : ErrorKind} (hs : S.Good i.state) (hbuf : buf ≠ [])
    (h : rd.get i buf = (i', buf', .error e)) :
    Allowed e ∧ S.Good i'.state ∧ S.rest i'.state = S.rest i.state := by
  obtain ⟨he, hs', hrest, -⟩ := S.read_error hs hbuf (Reader.read_of_get h)
  exact ⟨he, hs', hrest⟩

end Stream

/-! ### Readers and writers that come to an end -/

/-- A read that is not the end of the input. -/
def Reader.GoesOn (rd : Reader σ) (s' s : σ) : Prop :=
  ∃ buf buf' r, buf ≠ [] ∧ rd.read s buf = (s', buf', r) ∧ r ≠ .ok 0

/-- However it is read, the reader comes to the end of its input. -/
def Reader.Ends (rd : Reader σ) (s : σ) : Prop := Acc rd.GoesOn s

lemma Stream.ends {Allowed : ErrorKind → Prop} (S : Stream rd Allowed) {s : σ} (hs : S.Good s) :
    rd.Ends s := by
  induction s using S.before_wf.induction with
  | _ s ih =>
    refine Acc.intro s ?_
    rintro s' ⟨buf, buf', r, hbuf, hread, hr⟩
    obtain ⟨hs', hbefore⟩ := S.read_before hs hbuf hread hr
    exact ih s' hbefore hs'

/-- The writer is nowhere interrupted for ever. -/
def Writer.Patient (w : Writer σ) : Prop :=
  WellFounded fun s' s => ∃ buf, w.write s buf = (s', .error .interrupted)

lemma Writer.write_of_put {w : Writer σ} {o o' : Sink σ} (h : w.put o buf = (o', r)) :
    w.write o.state buf = (o'.state, r) := by
  rw [Writer.put] at h
  split at h <;>
  · rename_i hwrite
    cases h
    exact hwrite

lemma scripted_patient : scripted.Patient := by
  refine Subrelation.wf ?_ (InvImage.wf List.length Nat.lt_wfRel.wf)
  rintro s' s ⟨buf, hwrite⟩
  match s, hwrite with
  | r :: rest, hwrite =>
    obtain ⟨rfl, -⟩ := Prod.mk.inj hwrite
    exact Nat.lt_succ_self _

/-- `write_all` on such a writer returns. -/
lemma Writer.Patient.writeAll_returns {w : Writer σ} (hw : w.Patient) (o : Sink σ)
    (buf : List UInt8) :
    ∃ out,
      Fuel.Returns (fun fuel => writeAll (fun o buf => some (w.put o buf)) fuel o buf) out := by
  -- on the bytes left, and for the same bytes on the interruptions
  induction hlen : buf.length using Nat.strong_induction_on generalizing o buf with
  | _ n ihn =>
    obtain ⟨s, accepted⟩ := o
    induction s using hw.induction with
    | _ s ihs =>
      by_cases hnil : buf = []
      · exact ⟨_, Fuel.Returns.now fun fuel => by rw [writeAll, if_pos hnil]⟩
      · cases hput : w.put ⟨s, accepted⟩ buf with
        | mk o' r =>
          cases r with
          | error e =>
            by_cases he : e = .interrupted
            · subst he
              obtain ⟨s', accepted'⟩ := o'
              obtain rfl : accepted' = accepted := Writer.put_error hput
              obtain ⟨out, hout⟩ := ihs s' ⟨buf, Writer.write_of_put hput⟩
              refine ⟨out, hout.step fun fuel => ?_⟩
              rw [writeAll, if_neg hnil]
              simp only [hput]
            · refine ⟨(o', .error e), Fuel.Returns.now fun fuel => ?_⟩
              rw [writeAll, if_neg hnil]
              simp only [hput]
          | ok k =>
            cases k with
            | zero =>
              refine ⟨(o', .error .writeZero), Fuel.Returns.now fun fuel => ?_⟩
              rw [writeAll, if_neg hnil]
              simp only [hput]
            | succ k =>
              have hlt : (buf.drop (k + 1)).length < n := by
                have := List.length_pos_iff.2 hnil
                rw [List.length_drop]
                omega
              obtain ⟨out, hout⟩ := ihn _ hlt o' (buf.drop (k + 1)) rfl
              refine ⟨out, hout.step fun fuel => ?_⟩
              rw [writeAll, if_neg hnil]
              simp only [hput]

/-! ### Streams -/

/-- The bytes of a script. -/
def scriptBytes (script : List (Result (List UInt8))) : List UInt8 :=
  script.flatMap fun r => r.toOption.getD []

/-- No chunk of the script is empty, and every error is allowed. -/
def Script (Allowed : ErrorKind → Prop) (script : List (Result (List UInt8))) : Prop :=
  ∀ r ∈ script, match r with
    | .ok chunk => chunk ≠ []
    | .error e => Allowed e

/-- The bytes that a chunk leaves in the buffer. -/
lemma take_chunk (chunk buf : List UInt8) :
    (chunk.take buf.length ++ buf.drop chunk.length).take (min chunk.length buf.length) =
      chunk.take buf.length :=
  List.take_left' (by rw [List.length_take, Nat.min_comm])

/-- A script is the stream of its chunks, whatever their sizes and wherever the errors. -/
def chunkedStream (Allowed : ErrorKind → Prop) : Stream chunked Allowed where
  Good := Script Allowed
  rest := scriptBytes
  delay := List.length
  read_ok {s s' buf buf' n} hs hbuf h := by
    match s, hs, h with
    | [], _, h =>
      cases h
      exact ⟨fun r hr => absurd hr List.not_mem_nil, rfl, fun _ => rfl⟩
    | .ok chunk :: script, hs, h =>
      have hchunk : chunk ≠ [] := hs _ (List.mem_cons_self ..)
      have hscript : Script Allowed script := fun r hr => hs r (List.mem_cons_of_mem _ hr)
      cases h
      refine ⟨?_, ?_, ?_⟩
      · split_ifs with hlt
        · -- the rest of a chunk that was too long is the next chunk
          intro r hr
          rcases List.mem_cons.1 hr with rfl | hr
          · show chunk.drop buf.length ≠ []
            rw [Ne, List.drop_eq_nil_iff]
            omega
          · exact hscript r hr
        · exact hscript
      · rw [take_chunk]
        split_ifs with hlt
        · show chunk ++ scriptBytes script =
            chunk.take buf.length ++ (chunk.drop buf.length ++ scriptBytes script)
          rw [← List.append_assoc, List.take_append_drop]
        · rw [List.take_of_length_le (Nat.not_lt.1 hlt)]
          rfl
      · intro hzero
        have hpos := List.length_pos_iff.2 hbuf
        have hpos' := List.length_pos_iff.2 hchunk
        omega
  read_error {s s' buf buf' e} hs hbuf h := by
    match s, hs, h with
    | .error e :: script, hs, h =>
      cases h
      exact ⟨hs _ (List.mem_cons_self ..), fun r hr => hs r (List.mem_cons_of_mem _ hr), rfl,
        Nat.lt_succ_self _⟩

end PureStd.Io
