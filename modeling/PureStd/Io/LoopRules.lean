/-
Rules for the loops of `read_to_end` and `write_all`.

A relation that every call of `read` or `write` keeps is kept by the loop, and holds before the
call that has ended it.  `read_to_end` returns on every reader that comes to its end, whatever
errors it meets.
-/
import PureStd.Io.ReadAll

namespace PureStd.Io

open Fuel

variable {σ τ : Type*} {rd : Reader σ} {i i' : Source σ} {tmp buf buf' : List UInt8} {fuel : ℕ}

/-- What the reads keep, `read_to_end` keeps.  The last read has returned zero bytes, or the
error. -/
lemma readToEndLoop_rule {P : Source σ → List UInt8 → Prop} {r : Result Unit}
    (hok : ∀ i tmp i' tmp' n buf, P i buf → tmp ≠ [] → rd.get i tmp = (i', tmp', .ok n) →
      P i' (buf ++ tmp'.take n))
    (herror : ∀ i tmp i' tmp' e buf, P i buf → tmp ≠ [] → rd.get i tmp = (i', tmp', .error e) →
      P i' buf)
    (htmp : tmp ≠ []) (hP : P i buf) (h : readToEndLoop rd fuel i tmp buf = some (i', buf', r)) :
    P i' buf' ∧ ∃ i₀ tmp₀ tmp₁, tmp₀ ≠ [] ∧ P i₀ buf' ∧
      rd.get i₀ tmp₀ = (i', tmp₁, r.map fun _ => 0) := by
  induction fuel generalizing i tmp buf with
  | zero => cases h
  | succ fuel ih =>
    rw [readToEndLoop] at h
    split at h
    · rename_i i₁ tmp₁ hget
      cases h
      refine ⟨?_, i, tmp, tmp₁, htmp, hP, hget⟩
      simpa using hok _ _ _ _ _ _ hP htmp hget
    · rename_i i₁ tmp₁ n _ hget
      exact ih (Reader.get_ne_nil htmp hget) (hok _ _ _ _ _ _ hP htmp hget) h
    · rename_i i₁ tmp₁ hget
      exact ih (Reader.get_ne_nil htmp hget) (herror _ _ _ _ _ _ hP htmp hget) h
    · rename_i i₁ tmp₁ e _ hget
      cases h
      exact ⟨herror _ _ _ _ _ _ hP htmp hget, i, tmp, tmp₁, htmp, hP, hget⟩

/-- `read_to_end` returns if the reader comes to its end. -/
lemma readToEndLoop_terminates (hi : rd.Ends i.state) (htmp : tmp ≠ []) (buf : List UInt8) :
    ∃ out, Returns (fun fuel => readToEndLoop rd fuel i tmp buf) out := by
  obtain ⟨s, delivered⟩ := i
  have hacc : Acc rd.GoesOn s := hi
  clear hi
  induction hacc generalizing delivered tmp buf with
  | intro s _ ih =>
    cases hget : rd.get ⟨s, delivered⟩ tmp with
    | mk i₁ rest =>
      obtain ⟨tmp₁, r⟩ := rest
      have htmp₁ := Reader.get_ne_nil htmp hget
      have hread := Reader.read_of_get hget
      cases r with
      | ok n =>
        cases n with
        | zero => exact ⟨(i₁, buf, .ok ()), .now fun fuel => by simp only [readToEndLoop, hget]⟩
        | succ n =>
          obtain ⟨out, hout⟩ := ih i₁.state ⟨tmp, tmp₁, _, htmp, hread, by simp⟩ htmp₁
            (buf ++ tmp₁.take (n + 1)) i₁.delivered
          exact ⟨out, hout.step fun fuel => by simp only [readToEndLoop, hget]⟩
      | error e =>
        by_cases he : e = .interrupted
        · subst he
          obtain ⟨out, hout⟩ := ih i₁.state ⟨tmp, tmp₁, _, htmp, hread, by simp⟩ htmp₁ buf
            i₁.delivered
          exact ⟨out, hout.step fun fuel => by simp only [readToEndLoop, hget]⟩
        · exact ⟨(i₁, buf, .error e), .now fun fuel => by simp only [readToEndLoop, hget]⟩

/-- An error of `write_all` is the error of a call of `write`, or it has accepted nothing. -/
lemma writeAll_error {write : τ → List UInt8 → Option (τ × Result ℕ)} {P : τ → List UInt8 → Prop}
    (hok : ∀ s buf s' n, P s buf → write s buf = some (s', .ok n) → P s' (buf.drop n))
    (herror : ∀ s buf s' e, P s buf → write s buf = some (s', .error e) → P s' buf)
    {s s' : τ} {e : ErrorKind} (hP : P s buf)
    (h : writeAll write fuel s buf = some (s', .error e)) :
    ∃ s₀ rest, P s₀ rest ∧ rest ≠ [] ∧
      (write s₀ rest = some (s', .error e) ∨ write s₀ rest = some (s', .ok 0)) := by
  induction fuel generalizing s buf with
  | zero => cases h
  | succ fuel ih =>
    rw [writeAll] at h
    split at h
    · cases h
    · rename_i hnil
      split at h
      · rename_i s₁ hw
        cases h
        exact ⟨s, buf, hP, hnil, Or.inr hw⟩
      · rename_i s₁ n _ hw
        exact ih (hok _ _ _ _ hP hw) h
      · rename_i s₁ hw
        exact ih (herror _ _ _ _ hP hw) h
      · rename_i s₁ e' _ hw
        cases h
        exact ⟨s, buf, hP, hnil, Or.inl hw⟩
      · cases h

/-- What a sink records makes no difference. -/
lemma writeAll_state (w : Writer σ) (fuel : ℕ) (o : Sink σ) (buf : List UInt8) :
    writeAll (fun s buf => some (w.write s buf)) fuel o.state buf =
      (writeAll (fun o buf => some (w.put o buf)) fuel o buf).map fun (o, r) => (o.state, r) := by
  induction fuel generalizing o buf with
  | zero => rfl
  | succ fuel ih =>
    rw [writeAll, writeAll]
    split
    · rfl
    · cases hput : w.put o buf with
      | mk o' r =>
        rw [Writer.write_of_put hput]
        cases r with
        | ok n =>
          cases n with
          | zero => rfl
          | succ n => exact ih o' _
        | error e =>
          cases e
          case interrupted => exact ih o' buf
          all_goals rfl

/-- `write_all` on a writer that is not interrupted for ever returns. -/
lemma writeAll_terminates {w : Writer σ} (hw : w.Patient) (s : σ) (buf : List UInt8) :
    ∃ out, Returns (fun fuel => writeAll (fun s buf => some (w.write s buf)) fuel s buf) out := by
  obtain ⟨out, hout⟩ := hw.writeAll_returns ⟨s, []⟩ buf
  have hstate := fun fuel => writeAll_state w fuel ⟨s, []⟩ buf
  simp only [hstate]
  exact ⟨_, hout.map⟩

end PureStd.Io
