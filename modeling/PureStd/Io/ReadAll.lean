/-
`Read::read_to_end`, `read_to_string` and `read_exact` of `src/io.rs`.

Over a reader that is only interrupted, the three depend on the bytes to come and not on how the
reader cuts them:

* `readExact_returns`: `read_exact` fills the slice with the next bytes, or comes to the end;
* `readToEnd_returns`: `read_to_end` appends all bytes;
* `readToString_returns`: `read_to_string` appends them if they are UTF-8.

An error of another kind ends `read_to_end` with the bytes appended that were delivered up to
it (`readToEnd_delivered`).
-/
import PureStd.Io.Streams
import PureStd.Lib.Utf8

namespace PureStd.Io

open Fuel Utf8

variable {σ : Type*} (rd : Reader σ)

/-- The loop of `read_to_end`, with the array `tmp`. -/
def readToEndLoop : ℕ → Source σ → List UInt8 → List UInt8 →
    Option (Source σ × List UInt8 × Result Unit)
  | 0, _, _, _ => none
  | fuel + 1, i, tmp, buf =>
    match rd.get i tmp with
    | (i, _, .ok 0) => some (i, buf, .ok ())
    | (i, tmp, .ok n) => readToEndLoop fuel i tmp (buf ++ tmp.take n)
    | (i, tmp, .error .interrupted) => readToEndLoop fuel i tmp buf
    | (i, _, .error e) => some (i, buf, .error e)

/-- `read_to_end`. -/
def readToEnd (fuel : ℕ) (i : Source σ) (buf : List UInt8) :
    Option (Source σ × List UInt8 × Result ℕ) :=
  let start := buf.length
  (readToEndLoop rd fuel i (List.replicate 4096 0) buf).map fun (i, buf, r) =>
    (i, buf, r.map fun _ => buf.length - start)

/-- What `read_to_string` does with the bytes that `read_to_end` has put into a new vector. -/
def pushBytes (buf : Str) : Source σ × List UInt8 × Result ℕ → Source σ × Str × Result ℕ
  | (i, bytes, .ok n) =>
    match Str.fromUtf8 bytes with
    | some s => (i, buf.pushStr s, .ok n)
    | none => (i, buf, .error .invalidData)
  | (i, _, .error e) => (i, buf, .error e)

/-- `read_to_string`. -/
def readToString (fuel : ℕ) (i : Source σ) (buf : Str) : Option (Source σ × Str × Result ℕ) :=
  (readToEnd rd fuel i []).map (pushBytes buf)

/-- `read_exact`.  The result has the slice as it is left. -/
def readExact : ℕ → Source σ → List UInt8 → Option (Source σ × List UInt8 × Result Unit)
  | 0, _, _ => none
  | fuel + 1, i, buf =>
    if buf = [] then some (i, [], .ok ()) else
      match rd.get i buf with
      | (i, buf, .ok 0) => some (i, buf, .error .unexpectedEof)
      | (i, buf, .ok n) =>
        (readExact fuel i (buf.drop n)).map fun (i, tail, r) => (i, buf.take n ++ tail, r)
      | (i, buf, .error .interrupted) => readExact fuel i buf
      | (i, buf, .error e) => some (i, buf, .error e)

/-! ### The bytes that were delivered -/

variable {rd} {i i' : Source σ} {tmp buf buf' : List UInt8}

/-- `read_to_end` appends what is delivered, also when it fails. -/
lemma readToEndLoop_delivered {fuel : ℕ} {r : Result Unit}
    (h : readToEndLoop rd fuel i tmp buf = some (i', buf', r)) :
    ∃ more, buf' = buf ++ more ∧ i'.delivered = i.delivered ++ more := by
  induction fuel generalizing i tmp buf with
  | zero => cases h
  | succ fuel ih =>
    rw [readToEndLoop] at h
    split at h
    · rename_i i₁ tmp₁ hget
      cases h
      exact ⟨[], by simp, by simpa using (Reader.get_ok hget).2.2⟩
    · rename_i i₁ tmp₁ n _ hget
      obtain ⟨more, rfl, hmore⟩ := ih h
      refine ⟨tmp₁.take n ++ more, List.append_assoc .., ?_⟩
      rw [hmore, (Reader.get_ok hget).2.2, List.append_assoc]
    · rename_i i₁ tmp₁ hget
      obtain ⟨more, rfl, hmore⟩ := ih h
      exact ⟨more, rfl, by rw [hmore, (Reader.get_error hget).2]⟩
    · rename_i i₁ tmp₁ e _ hget
      cases h
      exact ⟨[], by simp, by simpa using (Reader.get_error hget).2⟩

lemma readToEnd_delivered {fuel : ℕ} {r : Result ℕ}
    (h : readToEnd rd fuel i buf = some (i', buf', r)) :
    ∃ more, buf' = buf ++ more ∧ i'.delivered = i.delivered ++ more := by
  obtain ⟨⟨i₁, buf₁, r₁⟩, hloop, heq⟩ := Option.map_eq_some_iff.1 h
  cases heq
  exact readToEndLoop_delivered hloop

/-- A `read_to_string` that fails leaves the string as it was. -/
lemma readToString_error {fuel : ℕ} {s s' : Str} {e : ErrorKind}
    (h : readToString rd fuel i s = some (i', s', .error e)) : s' = s := by
  obtain ⟨⟨i₁, bytes, r⟩, -, hpush⟩ := Option.map_eq_some_iff.1 h
  cases r with
  | error e' =>
    cases hpush
    rfl
  | ok n =>
    rw [pushBytes] at hpush
    split at hpush
    · cases hpush
    · cases hpush
      rfl

/-! ### Readers that are only interrupted -/

variable {S : Stream rd Interrupted}

lemma Stream.readToEndLoop_returns {s : σ} (hs : S.Good s) (htmp : tmp ≠ [])
    (delivered buf : List UInt8) :
    ∃ i', Returns (fun fuel => readToEndLoop rd fuel ⟨s, delivered⟩ tmp buf)
      (i', buf ++ S.rest s, .ok ()) ∧ S.rest i'.state = [] := by
  induction s using S.before_wf.induction generalizing tmp delivered buf with
  | _ s ih =>
    obtain ⟨i₁, tmp₁, r, hget⟩ : ∃ i₁ tmp₁ r, rd.get ⟨s, delivered⟩ tmp = (i₁, tmp₁, r) :=
      ⟨_, _, _, rfl⟩
    have htmp₁ := Reader.get_ne_nil htmp hget
    have hprogress := S.read_before hs htmp (Reader.read_of_get hget)
    match r, hget, hprogress with
    | .ok 0, hget, _ =>
      obtain ⟨-, hrest, hzero⟩ := S.get_ok hs htmp hget
      have hnil : S.rest s = [] := hzero rfl
      refine ⟨i₁, Returns.now fun fuel => ?_, ?_⟩
      · simp only [readToEndLoop, hget, hnil, List.append_nil]
      · rw [List.take_zero, List.nil_append] at hrest
        exact hrest.symm.trans hnil
    | .ok (n + 1), hget, hprogress =>
      obtain ⟨hgood, hbefore⟩ := hprogress (by simp)
      have hrest : S.rest s = tmp₁.take (n + 1) ++ S.rest i₁.state := (S.get_ok hs htmp hget).2.1
      obtain ⟨i', hret, hend⟩ := ih i₁.state hbefore hgood htmp₁ i₁.delivered
        (buf ++ tmp₁.take (n + 1))
      rw [List.append_assoc, ← hrest] at hret
      exact ⟨i', hret.step fun fuel => by simp only [readToEndLoop, hget], hend⟩
    | .error e, hget, hprogress =>
      obtain ⟨hgood, hbefore⟩ := hprogress (by simp)
      obtain ⟨he, -, hrest⟩ := S.get_error hs htmp hget
      obtain ⟨i', hret, hend⟩ := ih i₁.state hbefore hgood htmp₁ i₁.delivered buf
      rw [hrest] at hret
      cases he
      exact ⟨i', hret.step fun fuel => by simp only [readToEndLoop, hget], hend⟩

lemma Stream.readToEnd_returns (hi : S.Good i.state) (buf : List UInt8) :
    ∃ i', Returns (fun fuel => readToEnd rd fuel i buf)
      (i', buf ++ S.rest i.state, .ok (S.rest i.state).length) ∧ S.rest i'.state = [] := by
  have htmp : List.replicate 4096 (0 : UInt8) ≠ [] :=
    List.ne_nil_of_length_eq_add_one List.length_replicate
  obtain ⟨i', hret, hend⟩ := S.readToEndLoop_returns hi htmp i.delivered buf
  refine ⟨i', ?_, hend⟩
  have hcount : (buf ++ S.rest i.state).length - buf.length = (S.rest i.state).length := by
    rw [List.length_append, Nat.add_sub_cancel_left]
  rw [← hcount]
  exact hret.map

lemma Stream.readToString_returns (hi : S.Good i.state) (buf : Str) :
    ∃ i' s' r, Returns (fun fuel => readToString rd fuel i buf) (i', s', r) ∧
      S.rest i'.state = [] ∧
      if Valid (S.rest i.state) then
        s'.bytes = buf.bytes ++ S.rest i.state ∧ r = .ok (S.rest i.state).length
      else s' = buf ∧ r = .error .invalidData := by
  obtain ⟨i', hret, hend⟩ := S.readToEnd_returns hi []
  have hmap : Returns (fun fuel => readToString rd fuel i buf)
      (pushBytes buf (i', [] ++ S.rest i.state, .ok (S.rest i.state).length)) := hret.map
  rw [List.nil_append, pushBytes] at hmap
  split_ifs with hvalid
  · rw [Str.fromUtf8_of_valid hvalid] at hmap
    exact ⟨i', _, _, hmap, hend, rfl, rfl⟩
  · rw [Str.fromUtf8_of_not_valid hvalid] at hmap
    exact ⟨i', _, _, hmap, hend, rfl, rfl⟩

/-- `read_exact` fills the slice with the next bytes and takes no more, or there are not enough. -/
lemma Stream.readExact_returns {s : σ} (hs : S.Good s) (delivered buf : List UInt8) :
    ∃ i' buf' r, Returns (fun fuel => readExact rd fuel ⟨s, delivered⟩ buf) (i', buf', r) ∧
      if buf.length ≤ (S.rest s).length then
        r = .ok () ∧ buf' = (S.rest s).take buf.length ∧
          S.rest i'.state = (S.rest s).drop buf.length ∧ i'.delivered = delivered ++ buf'
      else r = .error .unexpectedEof := by
  induction s using S.before_wf.induction generalizing delivered buf with
  | _ s ih =>
    by_cases hbuf : buf = []
    · refine ⟨⟨s, delivered⟩, [], .ok (), Returns.now fun fuel => ?_, ?_⟩
      · rw [readExact, if_pos hbuf]
      · simp [hbuf]
    · obtain ⟨i₁, buf₁, r, hget⟩ : ∃ i₁ buf₁ r, rd.get ⟨s, delivered⟩ buf = (i₁, buf₁, r) :=
        ⟨_, _, _, rfl⟩
      have hprogress := S.read_before hs hbuf (Reader.read_of_get hget)
      match r, hget, hprogress with
      | .ok 0, hget, _ =>
        have hnil : S.rest s = [] := (S.get_ok hs hbuf hget).2.2 rfl
        refine ⟨i₁, buf₁, .error .unexpectedEof, Returns.now fun fuel => ?_, ?_⟩
        · rw [readExact, if_neg hbuf]
          simp only [hget]
        · have := List.length_pos_iff.2 hbuf
          rw [if_neg (by rw [hnil]; exact Nat.not_le.2 this)]
      | .ok (n + 1), hget, hprogress =>
        obtain ⟨hgood, hbefore⟩ := hprogress (by simp)
        obtain ⟨hle, hlen, hdel⟩ := Reader.get_ok hget
        have hrest : S.rest s = buf₁.take (n + 1) ++ S.rest i₁.state :=
          (S.get_ok hs hbuf hget).2.1
        obtain ⟨i', tail, r, hret, hspec⟩ := ih i₁.state hbefore hgood i₁.delivered
          (buf₁.drop (n + 1))
        have hturn : ∀ fuel, readExact rd (fuel + 1) ⟨s, delivered⟩ buf =
            (readExact rd fuel i₁ (buf₁.drop (n + 1))).map fun (i, tail, r) =>
              (i, buf₁.take (n + 1) ++ tail, r) := fun fuel => by
          rw [readExact, if_neg hbuf]
          simp only [hget]
        refine ⟨i', buf₁.take (n + 1) ++ tail, r, Returns.step hturn hret.map, ?_⟩
        -- the first bytes fill the first part of the slice
        have htake : (buf₁.take (n + 1)).length = n + 1 := by
          rw [List.length_take]
          omega
        have hsum : buf.length = (buf₁.take (n + 1)).length + (buf₁.drop (n + 1)).length := by
          rw [← List.length_append, List.take_append_drop, hlen]
        rw [hsum, hrest, List.length_append, List.take_length_add_append,
          List.drop_length_add_append]
        split_ifs at hspec ⊢ with hfits hfits'
        · obtain ⟨hr, htail, hleft, hdel'⟩ := hspec
          exact ⟨hr, by rw [htail], hleft, by rw [hdel', hdel, List.append_assoc]⟩
        · omega
        · omega
        · exact hspec
      | .error e, hget, hprogress =>
        obtain ⟨hgood, hbefore⟩ := hprogress (by simp)
        obtain ⟨he, -, hrest⟩ := S.get_error hs hbuf hget
        obtain ⟨hlen, hdel⟩ := Reader.get_error hget
        obtain ⟨i', buf', r, hret, hspec⟩ := ih i₁.state hbefore hgood i₁.delivered buf₁
        rw [hrest, hlen, hdel] at hspec
        cases he
        refine ⟨i', buf', r, hret.step fun fuel => ?_, hspec⟩
        rw [readExact, if_neg hbuf]
        simp only [hget]

/-- For every reader: where it is only interrupted and otherwise delivers its bytes in any way,
`read_exact` succeeds exactly if there are enough bytes for the slice, fills it with the next ones
and takes no more, and ends in `UnexpectedEof` if there are too few; `read_to_end` appends all bytes
and returns their number; `read_to_string` appends them if they are UTF-8, and otherwise leaves the
string as it was.  On any error, `read_to_end` has appended the bytes that were delivered, and
`read_to_string` has left the string as it was. -/
theorem reads_whatever_the_cut (rd : Reader σ) (i : Source σ) :
    (∀ S : Stream rd Interrupted, S.Good i.state →
      (∀ buf, ∃ i' buf' r, Returns (fun fuel => readExact rd fuel i buf) (i', buf', r) ∧
        if buf.length ≤ (S.rest i.state).length then
          r = .ok () ∧ buf' = (S.rest i.state).take buf.length ∧
            S.rest i'.state = (S.rest i.state).drop buf.length ∧
            i'.delivered = i.delivered ++ buf'
        else r = .error .unexpectedEof) ∧
      (∀ buf, ∃ i', Returns (fun fuel => readToEnd rd fuel i buf)
        (i', buf ++ S.rest i.state, .ok (S.rest i.state).length) ∧ S.rest i'.state = []) ∧
      ∀ buf, ∃ i' s' r, Returns (fun fuel => readToString rd fuel i buf) (i', s', r) ∧
        S.rest i'.state = [] ∧
        if Valid (S.rest i.state) then
          s'.bytes = buf.bytes ++ S.rest i.state ∧ r = .ok (S.rest i.state).length
        else s' = buf ∧ r = .error .invalidData) ∧
    (∀ fuel buf i' buf' e, readToEnd rd fuel i buf = some (i', buf', .error e) →
      ∃ more, buf' = buf ++ more ∧ i'.delivered = i.delivered ++ more) ∧
    ∀ fuel s i' s' e, readToString rd fuel i s = some (i', s', .error e) → s' = s := by
  refine ⟨fun S hi => ⟨fun buf => ?_, fun buf => ?_, fun buf => ?_⟩, ?_, ?_⟩
  · exact S.readExact_returns hi i.delivered buf
  · exact S.readToEnd_returns hi buf
  · exact S.readToString_returns hi buf
  · exact fun fuel buf i' buf' e h => readToEnd_delivered h
  · exact fun fuel s i' s' e h => readToString_error h

/-- Three bytes are read exactly from a script that is interrupted between them. -/
theorem reads_three_bytes : ∃ i' buf' r,
    Returns (fun fuel => readExact chunked fuel ⟨[.ok [1], .error .interrupted, .ok [2, 3, 4]], []⟩
      [0, 0, 0]) (i', buf', r) ∧ r = .ok () ∧ buf' = [1, 2, 3] := by
  have hgood : Script Interrupted [.ok [1], .error .interrupted, .ok [2, 3, 4]] := by
    intro r hr
    fin_cases hr <;> simp [Interrupted]
  obtain ⟨hexact, -⟩ := (reads_whatever_the_cut chunked
    ⟨[.ok [1], .error .interrupted, .ok [2, 3, 4]], []⟩).1 (chunkedStream Interrupted) hgood
  obtain ⟨i', buf', r, hret, hspec⟩ := hexact [0, 0, 0]
  rw [if_pos (by decide)] at hspec
  exact ⟨i', buf', r, hret, hspec.1, hspec.2.1⟩

end PureStd.Io
