/-
`ReadDir` of `src/fs.rs`: the iterator over the records that the kernel writes.

`getdents64` and `getdirentries64` fill the buffer with records one after another.  The length of
a record is taken from the record itself, and so is the length of the name on macOS.  The model
indexes with `Slice.Checked`, so an access outside the record would be a panic.

The entries of a batch are `entries`, which walks over its bytes alone; iterating to the end
gives the entries of all batches in order (`drain_returns`).
-/
import PureStd.Io.Streams
import PureStd.Lib.LittleEndian
import PureStd.Lib.Slice
import PureStd.Lib.Utf8
import PureStd.Path
import PureStd.Target

namespace PureStd.Fs.Dirent

open Slice Utf8 LittleEndian Fuel

/-- `DirEntry`. -/
structure DirEntry where
  name : Str
  dType : UInt8
  parent : Path
deriving DecidableEq

/-- `ReadDir`, with what the descriptor is going to deliver. -/
structure ReadDir (κ : Type) where
  fd : κ
  parent : Path
  buf : List UInt8
  pos : ℕ
  cap : ℕ

/-- `read_dir`, after the directory was opened. -/
def readDir {κ : Type} (parent : Path) (fd : κ) : ReadDir κ where
  fd := fd
  parent := parent
  buf := List.replicate 4096 0
  pos := 0
  cap := 0

/-! ### The code -/

/-- `d_reclen`. -/
def recordLength (rec : List UInt8) : Checked ℕ := do
  let lo ← index rec 16
  let hi ← index rec 17
  return leNat [lo, hi]

/-- The bytes of the name, and `d_type`. -/
def recordName (os : Os) (rec : List UInt8) (reclen : ℕ) : Checked (List UInt8 × UInt8) :=
  match os with
  | .macos => do
    let lo ← index rec 18
    let hi ← index rec 19
    let namlen := leNat [lo, hi]
    let dType ← index rec 20
    let name ← range rec 21 (21 + namlen)
    return (name, dType)
  | .linux => do
    let dType ← index rec 18
    let tail ← range rec 19 reclen
    let end_ := ((tail.findIdx? (· = 0)).map (19 + ·)).getD reclen
    let name ← range rec 19 end_
    return (name, dType)

/-- The name is `.` or `..`. -/
def IsDot (name : Str) : Prop := name.bytes = [46] ∨ name.bytes = [46, 46]

instance (name : Str) : Decidable (IsDot name) := inferInstanceAs (Decidable (_ ∨ _))

variable {κ : Type} {rec : List UInt8} {reclen : ℕ}

/-- The loop of `next` after the buffer was filled; `none` stands for `continue`. -/
def parse (os : Os) (d : ReadDir κ) : Checked (ReadDir κ × Option DirEntry) := do
  let rec ← range d.buf d.pos d.cap
  let reclen ← recordLength rec
  -- the branch that the source calls defensive
  if reclen = 0 ∨ d.pos + reclen > d.cap then
    return ({ d with pos := d.cap }, none)
  else
    let (bytes, dType) ← recordName os rec reclen
    let name := Str.fromUtf8Lossy bytes
    -- the position is moved before the name is looked at
    if IsDot name then
      return ({ d with pos := d.pos + reclen }, none)
    else
      return ({ d with pos := d.pos + reclen }, some ⟨name, dType, d.parent⟩)

/-- The refill at the start of the loop of `next`, with what `next` returns there if it does. -/
def refill (k : Io.Reader κ) (d : ReadDir κ) :
    ReadDir κ × Option (Option (Io.Result DirEntry)) :=
  if d.cap ≤ d.pos then
    match k.read d.fd d.buf with
    | (fd, buf, .ok 0) => ({ d with fd := fd, buf := buf }, some none)
    | (fd, buf, .ok (n + 1)) => ({ d with fd := fd, buf := buf, cap := n + 1, pos := 0 }, none)
    | (fd, buf, .error e) => ({ d with fd := fd, buf := buf }, some (some (.error e)))
  else (d, none)

/-- One turn of the loop of `next`: what it returns, or `none` for `continue`. -/
def turn (os : Os) (k : Io.Reader κ) (d : ReadDir κ) :
    Checked (ReadDir κ × Option (Option (Io.Result DirEntry))) :=
  match refill k d with
  | (d, some r) => .ok (d, some r)
  | (d, none) => (parse os d).map fun (d, e) => (d, e.map fun e => some (.ok e))

/-- `ReadDir::next`. -/
def next (os : Os) (k : Io.Reader κ) :
    ℕ → ReadDir κ → Option (Checked (ReadDir κ × Option (Io.Result DirEntry)))
  | 0, _ => none
  | fuel + 1, d =>
    match turn os k d with
    | .error p => some (.error p)
    | .ok (d, none) => next os k fuel d
    | .ok (d, some item) => some (.ok (d, item))

/-- What the iterator yields. -/
def drain (os : Os) (k : Io.Reader κ) : ℕ → ReadDir κ → Option (Checked (List (Io.Result DirEntry)))
  | 0, _ => none
  | fuel + 1, d =>
    (next os k fuel d).bind fun
      | .error p => some (.error p)
      | .ok (_, none) => some (.ok [])
      | .ok (d, some item) => (drain os k fuel d).map (Except.map (item :: ·))

/-! ### The fields of a record -/

/-- The number of two bytes at an offset. -/
def field (rec : List UInt8) (i : ℕ) : ℕ := leNat ((rec.drop i).take 2)

lemma field_eq {i : ℕ} (hlo : i < rec.length) (hhi : i + 1 < rec.length) :
    field rec i = leNat [rec[i], rec[i + 1]] := by
  rw [field, List.drop_eq_getElem_cons hlo, List.drop_eq_getElem_cons hhi]
  rfl

lemma recordLength_of_le (h : 18 ≤ rec.length) : recordLength rec = .ok (field rec 16) := by
  rw [recordLength, index_of_lt (by omega), index_of_lt (by omega), field_eq (by omega) (by omega)]
  rfl

lemma recordLength_of_lt (h : rec.length < 18) : ∃ p, recordLength rec = .error p := by
  rw [recordLength]
  rcases Nat.lt_or_ge 16 rec.length with hlt | hge
  · rw [index_of_lt hlt, ok_bind, index_of_le (by omega)]
    exact ⟨_, rfl⟩
  · rw [index_of_le hge]
    exact ⟨_, rfl⟩

/-- On Linux the name ends at the first NUL of the record. -/
lemma recordName_linux (h : 19 ≤ reclen) (hle : reclen ≤ rec.length) :
    ∃ hlt : 18 < rec.length, recordName .linux rec reclen =
      .ok (((rec.drop 19).take (reclen - 19)).takeWhile (· ≠ 0), rec[18]) := by
  refine ⟨by omega, ?_⟩
  rw [recordName, index_of_lt (by omega), ok_bind, range_of_le h hle, ok_bind]
  generalize htail : (rec.drop 19).take (reclen - 19) = tail
  have hlength : tail.length = reclen - 19 := by
    rw [← htail, List.length_take, List.length_drop]
    omega
  have hfound : tail.findIdx (· = 0) ≤ tail.length := List.findIdx_le_length
  -- without a NUL the name goes on to the end of the record
  have hend : ((tail.findIdx? (· = 0)).map (19 + ·)).getD reclen = 19 + tail.findIdx (· = 0) := by
    rw [List.findIdx_eq_getD_findIdx?]
    cases tail.findIdx? (· = 0) with
    | none =>
      show reclen = 19 + tail.length
      omega
    | some i => rfl
  have hname : (rec.drop 19).take (tail.findIdx (· = 0)) = tail.takeWhile (· ≠ 0) := by
    rw [List.takeWhile_eq_take_findIdx_not, ← htail, List.take_take, htail]
    congr 1
    simp only [ne_eq, decide_not, Bool.not_not]
    omega
  simp only [hend]
  rw [range_of_le (by omega) (by omega), ok_bind, Nat.add_sub_cancel_left, hname]
  rfl

lemma recordName_linux_of_lt (h : reclen < 19) : ∃ p, recordName .linux rec reclen = .error p := by
  rw [recordName]
  rcases Nat.lt_or_ge 18 rec.length with hlt | hge
  · rw [index_of_lt hlt, ok_bind, range_of_not_le (by omega)]
    exact ⟨_, rfl⟩
  · rw [index_of_le hge]
    exact ⟨_, rfl⟩

/-- On macOS the record has the length of the name. -/
lemma recordName_macos (reclen : ℕ) (h : 21 + field rec 18 ≤ rec.length) :
    ∃ hlt : 20 < rec.length, recordName .macos rec reclen =
      .ok ((rec.drop 21).take (field rec 18), rec[20]) := by
  refine ⟨by omega, ?_⟩
  have hfield := field_eq (show 18 < rec.length by omega) (by omega)
  rw [recordName, index_of_lt (show 18 < rec.length by omega), ok_bind,
    index_of_lt (show 19 < rec.length by omega), ok_bind]
  simp only [← hfield]
  rw [index_of_lt (by omega), ok_bind, range_of_le (by omega) h, ok_bind, Nat.add_sub_cancel_left]
  rfl

lemma recordName_macos_of_lt (reclen : ℕ) (h : rec.length < 21 + field rec 18) :
    ∃ p, recordName .macos rec reclen = .error p := by
  rw [recordName]
  rcases Nat.lt_or_ge 18 rec.length with h18 | h18
  · rw [index_of_lt h18, ok_bind]
    rcases Nat.lt_or_ge 19 rec.length with h19 | h19
    · rw [index_of_lt h19, ok_bind]
      simp only [← field_eq h18 h19]
      rcases Nat.lt_or_ge 20 rec.length with h20 | h20
      · rw [index_of_lt h20, ok_bind, range_of_not_le (by omega)]
        exact ⟨_, rfl⟩
      · rw [index_of_le h20]
        exact ⟨_, rfl⟩
    · rw [index_of_le h19]
      exact ⟨_, rfl⟩
  · rw [index_of_le h18]
    exact ⟨_, rfl⟩

/-! ### The entries of a batch -/

/-- The first record of a batch, or `none` if it ends the batch. -/
def entry (os : Os) (rec : List UInt8) : Checked (Option (ℕ × Str × UInt8)) := do
  let reclen ← recordLength rec
  if reclen = 0 ∨ rec.length < reclen then return none
  else
    let (bytes, dType) ← recordName os rec reclen
    return some (reclen, Str.fromUtf8Lossy bytes, dType)

lemma entry_some {os : Os} {name : Str} {dType : UInt8}
    (h : entry os rec = .ok (some (reclen, name, dType))) : 0 < reclen ∧ reclen ≤ rec.length := by
  rw [entry] at h
  cases hlen : recordLength rec with
  | error p =>
    rw [hlen] at h
    cases h
  | ok n =>
    rw [hlen, ok_bind] at h
    split_ifs at h with hstop
    · cases h
    · cases hname : recordName os rec n with
      | error p =>
        rw [hname] at h
        cases h
      | ok x =>
        rw [hname] at h
        cases h
        omega

/-- The entry that a record gives, if any. -/
def shown (parent : Path) (name : Str) (dType : UInt8) : List DirEntry :=
  if IsDot name then [] else [⟨name, dType, parent⟩]

/-- The entries of a batch. -/
def entries (os : Os) (parent : Path) (rec : List UInt8) : Checked (List DirEntry) :=
  if rec = [] then .ok [] else
    match _h : entry os rec with
    | .error p => .error p
    | .ok none => .ok []
    | .ok (some (reclen, name, dType)) =>
      (entries os parent (rec.drop reclen)).map (shown parent name dType ++ ·)
termination_by rec.length
decreasing_by
  have := entry_some _h
  rw [List.length_drop]
  omega

section entries

variable {os : Os} {parent : Path}

@[simp] lemma entries_nil : entries os parent [] = .ok [] := by
  rw [entries, if_pos rfl]

lemma entries_error {p : Panic} (hrec : rec ≠ []) (h : entry os rec = .error p) :
    entries os parent rec = .error p := by
  rw [entries, if_neg hrec]
  split <;> simp_all

lemma entries_none (hrec : rec ≠ []) (h : entry os rec = .ok none) :
    entries os parent rec = .ok [] := by
  rw [entries, if_neg hrec]
  split <;> simp_all

lemma entries_some {name : Str} {dType : UInt8} (hrec : rec ≠ [])
    (h : entry os rec = .ok (some (reclen, name, dType))) :
    entries os parent rec =
      (entries os parent (rec.drop reclen)).map (shown parent name dType ++ ·) := by
  rw [entries, if_neg hrec]
  split <;> simp_all

end entries

/-! ### What the kernel delivers -/

/-- The bytes that one call of `getdirentries` delivers. -/
structure Batch where
  bytes : List UInt8
  ne_nil : bytes ≠ []
  le_room : bytes.length ≤ 4096

/-- The kernel answers the next calls in this way, and then it is at the end of the directory.
What it leaves in the buffer behind the bytes that it announces is not restricted. -/
inductive Delivers (k : Io.Reader κ) : κ → List (Io.Result Batch) → Prop
  | done {s : κ} (hread : ∀ buf, buf.length = 4096 → (k.read s buf).2.2 = .ok 0) :
      Delivers k s []
  | batch {s : κ} {b : Batch} {script : List (Io.Result Batch)}
      (hread : ∀ buf, buf.length = 4096 → (k.read s buf).2.2 = .ok b.bytes.length)
      (hbytes : ∀ buf, buf.length = 4096 → (k.read s buf).2.1.take b.bytes.length = b.bytes)
      (hrest : ∀ buf, buf.length = 4096 → Delivers k (k.read s buf).1 script) :
      Delivers k s (.ok b :: script)
  | error {s : κ} {e : Io.ErrorKind} {script : List (Io.Result Batch)}
      (hread : ∀ buf, buf.length = 4096 → (k.read s buf).2.2 = .error e)
      (hrest : ∀ buf, buf.length = 4096 → Delivers k (k.read s buf).1 script) :
      Delivers k s (.error e :: script)

/-- A script of batches is delivered as it is. -/
lemma chunked_delivers (script : List (Io.Result Batch)) :
    Delivers Io.chunked (script.map (Except.map Batch.bytes)) script := by
  induction script with
  | nil => exact .done fun _ _ => rfl
  | cons r script ih =>
    cases r with
    | error e => exact .error (fun _ _ => rfl) fun _ _ => ih
    | ok b =>
      have hroom {buf : List UInt8} (hbuf : buf.length = 4096) :
          b.bytes.length ≤ buf.length := hbuf ▸ b.le_room
      refine .batch (fun buf hbuf => ?_) (fun buf hbuf => ?_) fun buf hbuf => ?_
      · exact congrArg Except.ok (Nat.min_eq_left (hroom hbuf))
      · show (b.bytes.take buf.length ++ buf.drop b.bytes.length).take b.bytes.length = b.bytes
        rw [List.take_of_length_le (hroom hbuf), List.take_left]
      · have hrest : ¬ buf.length < b.bytes.length := Nat.not_lt.2 (hroom hbuf)
        simp only [List.map_cons, Except.map, Io.chunked, if_neg hrest]
        exact ih

/-- What the iterator yields from the batches and errors of the kernel. -/
def listing (os : Os) (parent : Path) :
    List (Io.Result Batch) → Checked (List (Io.Result DirEntry))
  | [] => .ok []
  | .error e :: script => (listing os parent script).map (.error e :: ·)
  | .ok b :: script => do
    let es ← entries os parent b.bytes
    let items ← listing os parent script
    return es.map .ok ++ items

/-- The part of the buffer that has not been looked at. -/
def ReadDir.window (d : ReadDir κ) : List UInt8 := (d.buf.drop d.pos).take (d.cap - d.pos)

/-- The iterator between two turns, with what the kernel is going to deliver. -/
structure Ready (k : Io.Reader κ) (d : ReadDir κ) (script : List (Io.Result Batch)) : Prop where
  delivers : Delivers k d.fd script
  room : d.buf.length = 4096
  cap_le : d.cap ≤ d.buf.length

/-- What the iterator is going to yield. -/
def pending (os : Os) (d : ReadDir κ) (script : List (Io.Result Batch)) :
    Checked (List (Io.Result DirEntry)) := do
  let es ← entries os d.parent d.window
  let items ← listing os d.parent script
  return es.map .ok ++ items

/-- The call itself, and the bytes that it delivers. -/
def cost : Io.Result Batch → ℕ
  | .ok b => b.bytes.length + 1
  | .error _ => 1

/-- The bytes that are left and the calls that are left.  Every turn makes this smaller. -/
def weight (d : ReadDir κ) (script : List (Io.Result Batch)) : ℕ :=
  d.window.length + (script.map cost).sum

section run

variable {os : Os} {k : Io.Reader κ} {d d' : ReadDir κ} {script : List (Io.Result Batch)}

lemma window_eq_nil (h : d.cap ≤ d.pos) : d.window = [] := by
  rw [ReadDir.window, Nat.sub_eq_zero_of_le h, List.take_zero]

lemma length_window (h : d.cap ≤ d.buf.length) : d.window.length = d.cap - d.pos := by
  rw [ReadDir.window, List.length_take, List.length_drop]
  omega

lemma window_ne_nil (hcap : d.cap ≤ d.buf.length) (hpos : d.pos < d.cap) : d.window ≠ [] := by
  rw [← List.length_pos_iff, length_window hcap]
  exact Nat.sub_pos_of_lt hpos

lemma refill_of_lt (hpos : d.pos < d.cap) : refill k d = (d, none) :=
  if_neg (Nat.not_le.2 hpos)

lemma window_advance (n : ℕ) :
    ({ d with pos := d.pos + n } : ReadDir κ).window = d.window.drop n := by
  show (d.buf.drop (d.pos + n)).take (d.cap - (d.pos + n)) =
    ((d.buf.drop d.pos).take (d.cap - d.pos)).drop n
  rw [List.drop_take, List.drop_drop, Nat.sub_add_eq]

/-- Where the window is empty, only what the kernel delivers is left. -/
lemma pending_of_window_nil (h : d.window = []) :
    pending os d script = listing os d.parent script := by
  rw [pending, h, entries_nil, ok_bind]
  cases listing os d.parent script <;> rfl

/-- Entries of the window come first. -/
lemma pending_of_entries {es : List DirEntry} (hparent : d'.parent = d.parent)
    (h : entries os d.parent d.window = (entries os d.parent d'.window).map (es ++ ·)) :
    pending os d script = (pending os d' script).map (es.map .ok ++ ·) := by
  rw [pending, pending, h, hparent]
  cases entries os d.parent d'.window with
  | error p => rfl
  | ok es' =>
    cases listing os d.parent script with
    | error p => rfl
    | ok items =>
      show Except.ok ((es ++ es').map .ok ++ items) =
        Except.ok (es.map .ok ++ (es'.map .ok ++ items))
      rw [List.map_append, List.append_assoc]

/-- A parse looks at the window only. -/
lemma parse_eq (hpos : d.pos < d.cap) (hcap : d.cap ≤ d.buf.length) :
    parse os d = (entry os d.window).map fun
      | none => ({ d with pos := d.cap }, none)
      | some (reclen, name, dType) =>
        ({ d with pos := d.pos + reclen }, (shown d.parent name dType).head?) := by
  have hwindow : range d.buf d.pos d.cap = .ok d.window := range_of_le hpos.le hcap
  have hlength := length_window hcap
  rw [parse, entry, hwindow, ok_bind]
  cases recordLength d.window with
  | error p => rfl
  | ok reclen =>
    have hstop : (reclen = 0 ∨ d.pos + reclen > d.cap) ↔
        (reclen = 0 ∨ d.window.length < reclen) := by omega
    simp only [ok_bind, hstop]
    split_ifs with h
    · rfl
    · cases recordName os d.window reclen with
      | error p => rfl
      | ok x =>
        by_cases hdot : IsDot (Str.fromUtf8Lossy x.1)
        · simp [hdot, shown, Except.map]
        · simp [hdot, shown, Except.map]

/-- What a turn may come to: it yields the first of what is pending, or it goes on, and there is
less left. -/
inductive Explains (os : Os) (k : Io.Reader κ) (d : ReadDir κ) (script : List (Io.Result Batch)) :
    Checked (ReadDir κ × Option (Option (Io.Result DirEntry))) → Prop
  | panic {p : Panic} (hpending : pending os d script = .error p) :
      Explains os k d script (.error p)
  | done {d' : ReadDir κ} (hpending : pending os d script = .ok []) :
      Explains os k d script (.ok (d', some none))
  | goesOn {d' : ReadDir κ} {script' : List (Io.Result Batch)} (hready : Ready k d' script')
      (hweight : weight d' script' < weight d script)
      (hpending : pending os d script = pending os d' script') :
      Explains os k d script (.ok (d', none))
  | yields {d' : ReadDir κ} {script' : List (Io.Result Batch)} {item : Io.Result DirEntry}
      (hready : Ready k d' script') (hweight : weight d' script' < weight d script)
      (hpending : pending os d script = (pending os d' script').map (item :: ·)) :
      Explains os k d script (.ok (d', some (some item)))

lemma Explains.mono {script' : List (Io.Result Batch)}
    {out : Checked (ReadDir κ × Option (Option (Io.Result DirEntry)))}
    (h : Explains os k d' script' out) (hpending : pending os d script = pending os d' script')
    (hweight : weight d' script' ≤ weight d script) : Explains os k d script out := by
  cases h with
  | panic h => exact .panic (hpending.trans h)
  | done h => exact .done (hpending.trans h)
  | goesOn hready hlt h => exact .goesOn hready (hlt.trans_le hweight) (hpending.trans h)
  | yields hready hlt h => exact .yields hready (hlt.trans_le hweight) (hpending.trans h)

/-- A turn that finds bytes in the buffer. -/
lemma parse_explains (h : Ready k d script) (hpos : d.pos < d.cap) :
    Explains os k d script
      ((parse os d).map fun (d, e) => (d, e.map fun e => some (.ok e))) := by
  have hlength := length_window h.cap_le
  have hne := window_ne_nil h.cap_le hpos
  rw [parse_eq hpos h.cap_le]
  rcases hentry : entry os d.window with p | (_ | ⟨reclen, name, dType⟩)
  · refine .panic ?_
    rw [pending, entries_error hne hentry]
    rfl
  · -- the rest of the batch is dropped
    have hnil : ({ d with pos := d.cap } : ReadDir κ).window = [] := window_eq_nil le_rfl
    refine .goesOn ⟨h.delivers, h.room, h.cap_le⟩ ?_ ?_
    · rw [weight, weight, hnil, List.length_nil]
      omega
    · rw [pending_of_window_nil hnil, pending, entries_none hne hentry, ok_bind]
      cases listing os d.parent script <;> rfl
  · obtain ⟨hreclen, hle⟩ := entry_some hentry
    have hadvance := window_advance (d := d) reclen
    have hready : Ready k { d with pos := d.pos + reclen } script :=
      ⟨h.delivers, h.room, h.cap_le⟩
    have hweight : weight { d with pos := d.pos + reclen } script < weight d script := by
      rw [weight, weight, hadvance, List.length_drop]
      omega
    have hpending : pending os d script =
        (pending os { d with pos := d.pos + reclen } script).map
          ((shown d.parent name dType).map .ok ++ ·) := by
      have hentries : entries os d.parent d.window = (entries os d.parent
          ({ d with pos := d.pos + reclen } : ReadDir κ).window).map
            (shown d.parent name dType ++ ·) := by
        rw [hadvance]
        exact entries_some hne hentry
      exact pending_of_entries rfl hentries
    show Explains os k d script (.ok ({ d with pos := d.pos + reclen },
      (shown d.parent name dType).head?.map fun e => some (.ok e)))
    by_cases hdot : IsDot name
    · have hshown : shown d.parent name dType = [] := if_pos hdot
      rw [hshown] at hpending ⊢
      refine .goesOn hready hweight (hpending.trans ?_)
      cases pending os { d with pos := d.pos + reclen } script <;> rfl
    · have hshown : shown d.parent name dType = [⟨name, dType, d.parent⟩] := if_neg hdot
      rw [hshown] at hpending ⊢
      exact .yields hready hweight hpending

lemma turn_explains (os : Os) (h : Ready k d script) : Explains os k d script (turn os k d) := by
  by_cases hpos : d.pos < d.cap
  · rw [turn, refill_of_lt hpos]
    exact parse_explains h hpos
  · -- the window is empty, so all that is pending comes from the kernel
    have hcap := Nat.not_lt.1 hpos
    have hnil := window_eq_nil hcap
    obtain ⟨hdelivers, hroom, hcap_le⟩ := h
    rcases hread : k.read d.fd d.buf with ⟨fd, buf, r⟩
    have hlength : buf.length = d.buf.length := by
      simpa only [hread] using k.read_length d.fd d.buf
    rw [turn, refill, if_pos hcap, hread]
    cases hdelivers with
    | done hanswer =>
      obtain rfl : r = .ok 0 := by simpa only [hread] using hanswer d.buf hroom
      exact .done (pending_of_window_nil hnil)
    | @batch _ b script hanswer hbytes hrest =>
      obtain rfl : r = .ok b.bytes.length := by simpa only [hread] using hanswer d.buf hroom
      have hbuf : buf.take b.bytes.length = b.bytes := by
        simpa only [hread] using hbytes d.buf hroom
      have hfd : Delivers k fd script := by simpa only [hread] using hrest d.buf hroom
      have hlen := List.length_pos_iff.2 b.ne_nil
      obtain ⟨n, hn⟩ := Nat.exists_eq_succ_of_ne_zero hlen.ne'
      rw [hn]
      have hready : Ready k { d with fd := fd, buf := buf, cap := n + 1, pos := 0 } script :=
        ⟨hfd, hlength.trans hroom, by
          have := b.le_room
          show n + 1 ≤ buf.length
          omega⟩
      have hwindow :
          ({ d with fd := fd, buf := buf, cap := n + 1, pos := 0 } : ReadDir κ).window =
            b.bytes := by
        rw [← hbuf, hn]
        rfl
      -- the bytes move from the script to the window, and the call itself is paid for
      refine (parse_explains hready (Nat.succ_pos n)).mono ?_ ?_
      · rw [pending_of_window_nil hnil, pending, hwindow]
        rfl
      · rw [weight, weight, hwindow, hnil, List.map_cons, List.sum_cons, List.length_nil, cost]
        omega
    | @error _ e script hanswer hrest =>
      obtain rfl : r = .error e := by simpa only [hread] using hanswer d.buf hroom
      have hfd : Delivers k fd script := by simpa only [hread] using hrest d.buf hroom
      have hnil' : ({ d with fd := fd, buf := buf } : ReadDir κ).window = [] :=
        window_eq_nil hcap
      have hready : Ready k { d with fd := fd, buf := buf } script :=
        ⟨hfd, hlength.trans hroom, hcap_le.trans_eq hlength.symm⟩
      refine .yields hready ?_ ?_
      · rw [weight, weight, hnil, hnil', List.map_cons, List.sum_cons, cost]
        omega
      · rw [pending_of_window_nil hnil, pending_of_window_nil hnil']
        rfl

/-- A call of `next` yields the first of what is pending. -/
lemma next_returns (os : Os) (h : Ready k d script) :
    ∃ out, Returns (fun fuel => next os k fuel d) out ∧
      Explains os k d script (out.map fun (d, item) => (d, some item)) := by
  -- on the weight, which is smaller after each turn that goes on
  induction hw : weight d script using Nat.strong_induction_on generalizing d script with
  | _ w ih =>
    subst hw
    have hturn := turn_explains os h
    generalize hout : turn os k d = out at hturn
    cases hturn with
    | @panic p hpending =>
      refine ⟨.error p, Returns.now fun fuel => ?_, .panic hpending⟩
      simp only [next, hout]
    | @done d' hpending =>
      refine ⟨.ok (d', none), Returns.now fun fuel => ?_, .done hpending⟩
      simp only [next, hout]
    | @goesOn d' script' hready hweight hpending =>
      obtain ⟨out, hret, hexplains⟩ := ih _ hweight hready rfl
      refine ⟨out, hret.step fun fuel => ?_, hexplains.mono hpending hweight.le⟩
      simp only [next, hout]
    | @yields d' script' item hready hweight hpending =>
      refine ⟨.ok (d', some item), Returns.now fun fuel => ?_, .yields hready hweight hpending⟩
      simp only [next, hout]

/-- The iterator comes to its end, with all that is pending. -/
lemma drain_returns (h : Ready k d script) :
    Returns (fun fuel => drain os k fuel d) (pending os d script) := by
  induction hw : weight d script using Nat.strong_induction_on generalizing d script with
  | _ w ih =>
    subst hw
    obtain ⟨out, hret, hexplains⟩ := next_returns os h
    refine Returns.step (fun fuel => rfl) (hret.bind ?_)
    match out, hexplains with
    | .error p, .panic hpending =>
      rw [hpending]
      exact Returns.now fun fuel => rfl
    | .ok (d', none), .done hpending =>
      rw [hpending]
      exact Returns.now fun fuel => rfl
    | .ok (d', some item), .yields hready hweight hpending =>
      rw [hpending]
      exact (ih _ hweight hready rfl).map

end run

end PureStd.Fs.Dirent
