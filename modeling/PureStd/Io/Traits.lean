/-
`ErrorKind`, `Read` and `Write` of `src/io.rs`.

A reader or a writer is any function on a state of any type; that it may cut its work into
pieces and fail at any call is up to the function.  An error is known by its kind.  The
bytes that a reader has delivered and that a writer has accepted are recorded.

`writeAll` retries as long as it is interrupted, so it takes fuel; `none` means that there
was not enough of it.
-/
import Mathlib.Data.List.Basic

namespace PureStd.Io

inductive ErrorKind where
  | notFound
  | permissionDenied
  | connectionRefused
  | connectionReset
  | connectionAborted
  | notConnected
  | addrInUse
  | addrNotAvailable
  | brokenPipe
  | alreadyExists
  | wouldBlock
  | invalidInput
  | invalidData
  | timedOut
  | writeZero
  | interrupted
  | unexpectedEof
  | unsupported
  | outOfMemory
  | other
deriving DecidableEq, Repr

/-- `io::Result`. -/
abbrev Result := Except ErrorKind

variable {σ τ : Type*}

/-! ### Writers -/

/-- `Write`. -/
structure Writer (σ : Type*) where
  write : σ → List UInt8 → σ × Result ℕ
  flush : σ → σ × Result Unit
  /-- A writer does not accept more than it is given. -/
  write_le : ∀ s buf n, (write s buf).2 = .ok n → n ≤ buf.length

/-- The state of a writer, and the bytes that it has accepted. -/
structure Sink (σ : Type*) where
  state : σ
  accepted : List UInt8
deriving DecidableEq, Repr

/-- `Write::write`, recorded. -/
def Writer.put (w : Writer σ) (i : Sink σ) (buf : List UInt8) : Sink σ × Result ℕ :=
  match w.write i.state buf with
  | (s, .ok n) => (⟨s, i.accepted ++ buf.take n⟩, .ok n)
  | (s, .error e) => (⟨s, i.accepted⟩, .error e)

/-- `Write::flush`. -/
def Writer.sync (w : Writer σ) (i : Sink σ) : Sink σ × Result Unit :=
  (⟨(w.flush i.state).1, i.accepted⟩, (w.flush i.state).2)

variable {w : Writer σ} {i i' : Sink σ} {buf : List UInt8}
  {write : τ → List UInt8 → Option (τ × Result ℕ)} {fuel : ℕ} {s : τ}

lemma Writer.put_ok {n : ℕ} (h : w.put i buf = (i', .ok n)) :
    n ≤ buf.length ∧ i'.accepted = i.accepted ++ buf.take n := by
  rw [Writer.put] at h
  split at h
  · rename_i s m hw
    cases h
    exact ⟨w.write_le _ _ n (by rw [hw]), rfl⟩
  · cases h

lemma Writer.put_error {e : ErrorKind} (h : w.put i buf = (i', .error e)) :
    i'.accepted = i.accepted := by
  rw [Writer.put] at h
  split at h
  · cases h
  · cases h
    rfl

/-- `Write::write_all`, over the `write` of any writer. -/
def writeAll (write : τ → List UInt8 → Option (τ × Result ℕ)) :
    ℕ → τ → List UInt8 → Option (τ × Result Unit)
  | 0, _, _ => none
  | fuel + 1, s, buf =>
    if buf = [] then some (s, .ok ()) else
      match write s buf with
      | some (s, .ok 0) => some (s, .error .writeZero)
      | some (s, .ok n) => writeAll write fuel s (buf.drop n)
      | some (s, .error .interrupted) => writeAll write fuel s buf
      | some (s, .error e) => some (s, .error e)
      | none => none

/-- A relation between the state and the bytes that are left is kept by `writeAll` if every
call of `write` keeps it. -/
lemma writeAll_rule {P : τ → List UInt8 → Prop}
    (hok : ∀ s buf s' n, P s buf → write s buf = some (s', .ok n) → P s' (buf.drop n))
    (herror : ∀ s buf s' e, P s buf → write s buf = some (s', .error e) → P s' buf) {s' : τ}
    {r : Result Unit} (hP : P s buf) (h : writeAll write fuel s buf = some (s', r)) :
    ∃ rest, P s' rest ∧ (r = .ok () → rest = []) := by
  induction fuel generalizing s buf with
  | zero => cases h
  | succ fuel ih =>
    rw [writeAll] at h
    split at h
    · cases h
      exact ⟨buf, hP, fun _ => ‹_›⟩
    · split at h
      · rename_i s₁ hw
        cases h
        exact ⟨buf, hok _ _ _ _ hP hw, by simp⟩
      · rename_i s₁ n _ hw
        exact ih (hok _ _ _ _ hP hw) h
      · rename_i s₁ hw
        exact ih (herror _ _ _ _ hP hw) h
      · rename_i s₁ e _ hw
        cases h
        exact ⟨buf, herror _ _ _ _ hP hw, by simp⟩
      · cases h

/-- More fuel makes no difference. -/
lemma writeAll_mono {fuel' : ℕ} {out : τ × Result Unit} (hle : fuel ≤ fuel')
    (h : writeAll write fuel s buf = some out) : writeAll write fuel' s buf = some out := by
  induction fuel generalizing fuel' s buf with
  | zero => cases h
  | succ fuel ih =>
    obtain ⟨fuel', rfl⟩ := Nat.exists_eq_add_of_le' (Nat.le_of_add_left_le hle)
    have hle' : fuel ≤ fuel' := Nat.le_of_succ_le_succ hle
    rw [writeAll] at h ⊢
    split at h
    · exact (if_pos ‹_›).trans h
    · rw [if_neg ‹_›]
      split at h
      · exact h
      · exact ih hle' h
      · exact ih hle' h
      · exact h
      · exact h

/-- What `write_all` comes to does not depend on the fuel. -/
lemma writeAll_unique {fuel' : ℕ} {out out' : τ × Result Unit}
    (h : writeAll write fuel s buf = some out) (h' : writeAll write fuel' s buf = some out') :
    out = out' :=
  Option.some.inj ((writeAll_mono (Nat.le_max_left fuel fuel') h).symm.trans
    (writeAll_mono (Nat.le_max_right fuel fuel') h'))

/-- `writeAll` on a writer: the writer has accepted the beginning of the bytes, and all of them
if it returns `Ok`. -/
lemma writeAll_put {r : Result Unit}
    (h : writeAll (fun i buf => some (w.put i buf)) fuel i buf = some (i', r)) :
    ∃ k ≤ buf.length, i'.accepted = i.accepted ++ buf.take k ∧ (r = .ok () → k = buf.length) := by
  -- what has been accepted and what is left is all of it
  let P : Sink σ → List UInt8 → Prop := fun i' rest =>
    ∃ k ≤ buf.length, rest = buf.drop k ∧ i'.accepted = i.accepted ++ buf.take k
  have hok : ∀ s rest s' n, P s rest → some (w.put s rest) = some (s', .ok n) →
      P s' (rest.drop n) := by
    rintro s rest s' n ⟨k, hk, rfl, hacc⟩ hw
    obtain ⟨hn, hs'⟩ := Writer.put_ok (Option.some.inj hw)
    rw [List.length_drop] at hn
    refine ⟨k + n, by omega, by rw [List.drop_drop], ?_⟩
    rw [hs', hacc, List.append_assoc, List.take_add]
  have herror : ∀ s rest s' e, P s rest → some (w.put s rest) = some (s', .error e) →
      P s' rest := by
    rintro s rest s' e ⟨k, hk, hrest, hacc⟩ hw
    exact ⟨k, hk, hrest, (Writer.put_error (Option.some.inj hw)).trans hacc⟩
  obtain ⟨rest, ⟨k, hk, hrest, hacc⟩, hr⟩ :=
    writeAll_rule hok herror ⟨0, Nat.zero_le _, rfl, by simp⟩ h
  refine ⟨k, hk, hacc, fun hfull => ?_⟩
  have hlen : (buf.drop k).length = 0 := by rw [← hrest, hr hfull, List.length_nil]
  rw [List.length_drop] at hlen
  omega

/-! ### Readers -/

/-- `Read`.  The result has the buffer as `read` has left it. -/
structure Reader (σ : Type*) where
  read : σ → List UInt8 → σ × List UInt8 × Result ℕ
  read_length : ∀ s buf, (read s buf).2.1.length = buf.length
  /-- A reader does not deliver more than there is room for. -/
  read_le : ∀ s buf n, (read s buf).2.2 = .ok n → n ≤ buf.length

/-- The state of a reader, and the bytes that it has delivered. -/
structure Source (σ : Type*) where
  state : σ
  delivered : List UInt8
deriving DecidableEq, Repr

/-- `Read::read`, recorded. -/
def Reader.get (rd : Reader σ) (i : Source σ) (buf : List UInt8) :
    Source σ × List UInt8 × Result ℕ :=
  match rd.read i.state buf with
  | (s, buf, .ok n) => (⟨s, i.delivered ++ buf.take n⟩, buf, .ok n)
  | (s, buf, .error e) => (⟨s, i.delivered⟩, buf, .error e)

lemma Reader.get_ok {rd : Reader σ} {i i' : Source σ} {buf' : List UInt8} {n : ℕ}
    (h : rd.get i buf = (i', buf', .ok n)) :
    n ≤ buf.length ∧ buf'.length = buf.length ∧ i'.delivered = i.delivered ++ buf'.take n := by
  have hlen := rd.read_length i.state buf
  have hle := rd.read_le i.state buf
  rw [Reader.get] at h
  split at h
  · rename_i s b m hr
    rw [hr] at hlen hle
    cases h
    exact ⟨hle n rfl, hlen, rfl⟩
  · cases h

lemma Reader.get_error {rd : Reader σ} {i i' : Source σ} {buf' : List UInt8} {e : ErrorKind}
    (h : rd.get i buf = (i', buf', .error e)) :
    buf'.length = buf.length ∧ i'.delivered = i.delivered := by
  have hlen := rd.read_length i.state buf
  rw [Reader.get] at h
  split at h
  · cases h
  · rename_i s b e' hr
    rw [hr] at hlen
    cases h
    exact ⟨hlen, rfl⟩

/-- `Read` for `&[u8]`.  The state is the slice that is left. -/
def sliceReader : Reader (List UInt8) where
  read s buf :=
    let n := min buf.length s.length
    (s.drop n, s.take n ++ buf.drop n, .ok n)
  read_length s buf := by
    simp only [List.length_append, List.length_take, List.length_drop]
    omega
  read_le s buf n h := by
    cases h
    exact Nat.min_le_left _ _

/-! ### Readers and writers that follow a script -/

/-- A writer that answers from a list, and takes everything after that. -/
def scripted : Writer (List (Result ℕ)) where
  write
    | [], buf => ([], .ok buf.length)
    | r :: rest, buf => (rest, r.map (min buf.length))
  flush s := (s, .ok ())
  write_le s buf n h := by
    cases s with
    | nil =>
      cases h
      exact Nat.le_refl _
    | cons r rest =>
      cases r with
      | error e => cases h
      | ok m =>
        cases h
        exact Nat.min_le_left _ _

/-- A reader that delivers the chunks of a list, as far as there is room. -/
def chunked : Reader (List (Result (List UInt8))) where
  read
    | [], buf => ([], buf, .ok 0)
    | .error e :: rest, buf => (rest, buf, .error e)
    | .ok chunk :: rest, buf =>
      (if buf.length < chunk.length then .ok (chunk.drop buf.length) :: rest else rest,
        chunk.take buf.length ++ buf.drop chunk.length, .ok (min chunk.length buf.length))
  read_length s buf := by
    match s with
    | [] => rfl
    | .error e :: rest => rfl
    | .ok chunk :: rest =>
      simp only [List.length_append, List.length_take, List.length_drop]
      omega
  read_le s buf n h := by
    match s, h with
    | [], h =>
      cases h
      exact Nat.zero_le _
    | .ok chunk :: rest, h =>
      cases h
      exact Nat.min_le_right _ _

end PureStd.Io
