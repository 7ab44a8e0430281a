/-
Files and cursors.

`Read`, `Write` and `Seek` of a `File` that is open for reading and writing, and that nobody else
uses, return what those of a `Cursor` over a vector with the same bytes return
(`file_like_cursor`), as long as the kernel transfers what it is asked for.  A cursor over a vector
computes positions as `i64`, where those from `2^63` on are negative; the kernel rejects exactly
these.  The offsets reach the kernel whole on the targets that pass them in two registers
(`kernelOffset_lseekArgs`).

`set_len` does what `resize` does with the vector.  The two differ where a cursor on a 32-bit
target cuts its position off, and a write of no bytes behind the end makes a vector longer but not
a file.
-/
import PureStd.Fs.FileCalls

namespace PureStd.Fs

open Io ZeroFilled

/-! ### Registers -/

lemma or_halves (x : BitVec 64) :
    (x >>> 32) <<< 32 ||| (x.truncate 32).zeroExtend 64 = x := by
  ext i hi
  simp only [BitVec.getElem_or, BitVec.getElem_shiftLeft, BitVec.getElem_setWidth,
    BitVec.truncate_eq_setWidth]
  by_cases h : i < 32
  · simp [h, BitVec.getLsbD_eq_getElem hi]
  · have hback : 32 + (i - 32) = i := by omega
    simp [h, hback, BitVec.getLsbD_eq_getElem hi]

/-- The sign of the upper half does not reach the kernel. -/
lemma shiftLeft_high (x : BitVec 64) :
    ((x.sshiftRight 32).truncate 32).zeroExtend 64 <<< 32 = (x >>> 32) <<< 32 := by
  ext i hi
  by_cases h : i < 32
  · simp [h]
  · have hback : 32 + (i - 32) < 64 := by omega
    have hlt : i - 32 < 32 := by omega
    have hsub : i - 32 < 64 := by omega
    simp [h, hlt, hsub, BitVec.getElem_sshiftRight, hback]

/-- The kernel finds the offset that `lseek` was called with. -/
lemma kernelOffset_lseekArgs (m : Machine) (off : Int64) :
    kernelOffset (lseekArgs m off) = off.toInt := by
  cases m with
  | wide => exact off.toInt_toBitVec
  | x86 | arm =>
    show ((((off.toBitVec.sshiftRight 32).truncate 32).zeroExtend 64 <<< 32) |||
      (off.toBitVec.truncate 32).zeroExtend 64).toInt = off.toInt
    rw [shiftLeft_high, or_halves, Int64.toInt_toBitVec]

/-- The kernel finds the length that `ftruncate` was called with. -/
lemma kernelLength_ftruncateArgs (m : Machine) (len : UInt64) :
    kernelLength m (ftruncateArgs m len) = len.toBitVec.toInt := by
  cases m with
  | wide => rfl
  | x86 | arm =>
    show ((len.toBitVec >>> 32) <<< 32 ||| (len.toBitVec.truncate 32).zeroExtend 64).toInt = _
    rw [or_halves]

/-! ### Calls -/

/-- The width of `usize`. -/
def Machine.width : Machine → PtrWidth
  | wide => .w64
  | _ => .w32

/-- What a vector may have is what a file may have. -/
lemma sizeLimit_eq (m : Machine) : sizeLimit m = m.width.isizeMax := by cases m <;> rfl

/-- A call on a file, or on a cursor over a vector. -/
inductive FileOp (w : PtrWidth) where
  | read (dest : List UInt8)
  /-- `write`, and what memory there is at that time. -/
  | write (grant : ℕ → Bool) (buf : Bytes w)
  | seek (pos : SeekFrom)
  /-- `set_len` of a file, `get_mut().resize` of a cursor. -/
  | setLen (grant : ℕ → Bool) (size : UInt64)

/-- What a call returns. -/
inductive Out where
  | read (dest : List UInt8) (r : Result ℕ)
  | wrote (r : Result ℕ)
  | moved (r : Result UInt64)
  | resized (r : Result Unit)
deriving DecidableEq

variable {m : Machine} {profile : Profile} {fd i : ℕ} {s : Session} {c c' : Cursor (Bytes m.width)}

/-- A call on a file. -/
def fileCall (m : Machine) (fd : ℕ) (s : Session) : FileOp m.width → Session × Out
  | .read dest => ((fdRead fd s dest).1, .read (fdRead fd s dest).2.1 (fdRead fd s dest).2.2)
  | .write _ buf => ((fdWrite fd s buf.toList).1, .wrote (fdWrite fd s buf.toList).2)
  | .seek pos => ((fdSeek fd m s pos).1, .moved (fdSeek fd m s pos).2)
  | .setLen _ size => ((File.setLen m s fd size).1, .resized (File.setLen m s fd size).2)

/-- A call on a cursor. -/
def cursorCall (m : Machine) (profile : Profile) (c : Cursor (Bytes m.width)) :
    FileOp m.width → Except Abort (Cursor (Bytes m.width) × Out)
  | .read dest => .ok ((c.read m.width dest).1,
      .read (c.read m.width dest).2.1 (c.read m.width dest).2.2)
  | .write grant buf => (c.write grant buf).map fun (c, r) => (c, .wrote r)
  | .seek pos => (Cursor.seek m.width profile c pos).map fun (c, r) =>
    (c, .moved (r.mapError CustomError.kind))
  | .setLen grant size => (Cursor.resize grant c.inner size.toNat).map fun v =>
    ({ c with inner := v }, .resized (.ok ()))

/-- A call is made at a position that is a `usize`, or where what is left of the position does no
harm; and what is written is not empty. -/
def Fitting (c : Cursor (Bytes m.width)) : FileOp m.width → Prop
  | .read dest => Cursor.Fits c (.read dest)
  | .write grant buf => buf.toList ≠ [] ∧ Cursor.Fits c (.write grant buf)
  | _ => True

/-- The file `i` has the bytes, and its descriptor the position, of the cursor. -/
structure Agree (m : Machine) (fd i : ℕ) (s : Session) (c : Cursor (Bytes m.width)) : Prop where
  turns : s.turns = []
  pos : c.pos.toNat < 2 ^ 63
  data : s.disk.data i = c.inner.toList
  desc : ∃ k mode, s.disk.desc fd = some (k, ⟨i, c.pos.toNat, mode⟩) ∧ mode.readable = true ∧
    mode.writable = true ∧ mode.append = false ∧ mode.limit = sizeLimit m

/-! ### Steps -/

lemma agree_read (h : Agree m fd i s c) {dest : List UInt8} (hfits : Cursor.Fits c (.read dest)) :
    ∃ s', fdRead fd s dest = (s', (c.read m.width dest).2) ∧
      Agree m fd i s' (c.read m.width dest).1 := by
  obtain ⟨hturns, hpos, hdata, k, mode, hdesc, hr, hw, ha, hl⟩ := h
  have hbehaves := (Cursor.behaves_read_iff .release c dest).2 hfits
  rcases hread : c.read m.width dest with ⟨c', dest', r⟩
  obtain ⟨rfl, rfl, hinner, hmoved⟩ := hbehaves _ _ _ hread
  have hlen : c.inner.toList.length < 2 ^ 63 := Cursor.length_data_lt (w := m.width) c
  have hdisk := Disk.read_of_readable hdesc hr dest.length
  simp only [hdata] at hdisk
  refine ⟨⟨s.disk.seekTo k (c.pos.toNat + min dest.length
      (c.inner.toList.drop c.pos.toNat).length), []⟩, ?_, rfl, ?_, ?_, k, mode, ?_, hr, hw, ha, hl⟩
  · rw [fdRead, hturns]
    simp only [Session.retry, id, hdisk, Session.settle, List.length_take, List.take_take]
    simp
  · rw [hmoved, List.length_drop]
    omega
  · rw [hinner]
    exact hdata
  · rw [hmoved]
    exact Disk.desc_seekTo hdesc _

lemma agree_write (h : Agree m fd i s c) {grant : ℕ → Bool} {buf : Bytes m.width}
    (hbuf : buf.toList ≠ []) (hfits : Cursor.Fits c (.write grant buf)) {r : Result ℕ}
    (hwrite : c.write grant buf = .ok (c', r)) :
    ∃ s', fdWrite fd s buf.toList = (s', r) ∧ Agree m fd i s' c' := by
  obtain ⟨hturns, hpos, hdata, k, mode, hdesc, hr, hw, ha, hl⟩ := h
  have href : ¬ Cursor.Refused grant c.inner buf (m.width.wrap c.pos.toNat) := by
    intro href
    obtain ⟨a, ha⟩ := Cursor.write_of_refused href
    rw [ha] at hwrite
    cases hwrite
  have hwrap := PtrWidth.wrap_of_lt (hfits.resolve_right href)
  have hend := Cursor.write_end href
  obtain ⟨v, hv, hok⟩ := Cursor.write_of_not_refused href
  rw [hok] at hwrite
  cases hwrite
  rw [hwrap] at hv hend ⊢
  have hwritePos : s.disk.writePos ⟨i, c.pos.toNat, mode⟩ = c.pos.toNat := by
    simp [Disk.writePos, ha]
  have hdisk := Disk.write_all hdesc hw hbuf (by rw [hwritePos, hl, sizeLimit_eq]; exact hend)
  have hnat := Cursor.toNat_ofNat_of_le hend
  have hmax : m.width.isizeMax < 2 ^ 63 := by cases m <;> decide
  refine ⟨⟨s.disk.put k ⟨i, c.pos.toNat, mode⟩ buf.toList, []⟩, ?_, rfl, ?_, ?_, k, mode, ?_, hr,
    hw, ha, hl⟩
  · rw [fdWrite, hturns]
    simp [Session.retry, hdisk, Session.settle]
  · rw [hnat]
    exact hend.trans_lt hmax
  · rw [Disk.data_put, Function.update_self, hwritePos, hdata, hv]
  · rw [hnat, Disk.desc_put hdesc, hwritePos]

/-- A sum of which one side is not negative is negative where the exact sum is, and where that
is no `i64`. -/
lemma addI64_ok {a b new : Int64} (ha : 0 ≤ a.toInt) (h : addI64 profile a b = .ok new) :
    new.toInt = a.toInt + b.toInt ∨ (2 ^ 63 ≤ a.toInt + b.toInt ∧ new.toInt < 0) := by
  have hb := b.le_toInt
  have ha' := a.toInt_lt
  have hb' := b.toInt_lt
  have hnew : new = a + b := by
    unfold addI64 at h
    split_ifs at h
    exact (Except.ok.inj h).symm
  rw [hnew, Int64.toInt_add, Int.bmod_def]
  omega

/-- Where a seek to the target `t` leads. -/
def seekOut (c : Cursor (Bytes m.width)) (t : ℤ) : Cursor (Bytes m.width) × Result UInt64 :=
  if 0 ≤ t ∧ t < 2 ^ 63 then ({ c with pos := UInt64.ofNat t.toNat }, .ok (UInt64.ofNat t.toNat))
  else (c, .error .invalidInput)

lemma cursor_seek {pos : SeekFrom} (hpos : c.pos.toNat < 2 ^ 63)
    {r : Except CustomError UInt64} (h : Cursor.seek m.width profile c pos = .ok (c', r)) :
    (c', r.mapError CustomError.kind) = seekOut c (Cursor.target m.width c pos) := by
  obtain ⟨new, hnew, hsettle⟩ : ∃ new, Cursor.newPos m.width profile c pos = .ok new ∧
      c.settle new = (c', r) := by
    rw [Cursor.seek] at h
    rcases hnew : Cursor.newPos m.width profile c pos with a | new
    · rw [hnew] at h
      cases h
    · rw [hnew] at h
      exact ⟨new, rfl, Except.ok.inj h⟩
  have hcases : new.toInt = Cursor.target m.width c pos ∨
      (2 ^ 63 ≤ Cursor.target m.width c pos ∧ new.toInt < 0) := by
    cases pos with
    | start n =>
      cases hnew
      have hn := Cursor.toInt_toInt64 n
      have hsize := n.toNat_lt
      simp only [Cursor.target]
      split_ifs at hn <;> omega
    | end_ n =>
      have hlen := Int64.toInt_ofNat_of_lt (Cursor.length_data_lt (w := m.width) c)
      simpa only [hlen, Cursor.target] using addI64_ok (by omega) hnew
    | current n =>
      have hn := (Cursor.toInt_toInt64 c.pos).trans (if_pos hpos)
      simpa only [hn, Cursor.target] using addI64_ok (by omega) hnew
  have hlt : new < 0 ↔ new.toInt < 0 := Int64.lt_iff_toInt_lt
  have hbound := new.toInt_lt
  unfold Cursor.settle at hsettle
  unfold seekOut
  rw [if_congr hlt rfl rfl] at hsettle
  split_ifs at hsettle ⊢ with ht hneg hneg
  · omega
  · have hval : new.toUInt64 = UInt64.ofNat (Cursor.target m.width c pos).toNat := by
      have hnat := Cursor.toNat_toUInt64 (Int.not_lt.1 hneg)
      have hlt : (Cursor.target m.width c pos).toNat < 2 ^ 64 := by omega
      apply UInt64.toNat_inj.1
      rw [UInt64.toNat_ofNat_of_lt' hlt]
      omega
    rw [hval] at hsettle
    cases hsettle
    rfl
  · cases hsettle
    rfl
  · omega

/-- The kernel rejects the targets that an `i64` does not hold, in whatever way they are named. -/
lemma settle_seek {d : Disk Path} {k : ℕ} {a t : ℤ} (h : a = t ∨ (a < 0 ∧ 2 ^ 63 ≤ t)) :
    Session.settle d [] (if 0 ≤ a ∧ a < 2 ^ 63 then .ok (d.seekTo k a.toNat, a.toNat)
      else .error .invalid) =
    if 0 ≤ t ∧ t < 2 ^ 63 then (⟨d.seekTo k t.toNat, []⟩, .ok t.toNat)
    else (⟨d, []⟩, .error (errno .invalid)) := by
  rcases h with rfl | ⟨hneg, hbig⟩
  · split_ifs <;> rfl
  · rw [if_neg (by omega), if_neg (by omega)]
    rfl

/-- The seek of a descriptor that is at the position of the cursor. -/
lemma fdSeek_eq {d : Disk Path} {k : ℕ} {mode : Mode}
    (hdesc : d.desc fd = some (k, ⟨i, c.pos.toNat, mode⟩)) (hdata : d.data i = c.inner.toList)
    (pos : SeekFrom) : fdSeek fd m ⟨d, []⟩ pos =
      if 0 ≤ Cursor.target m.width c pos ∧ Cursor.target m.width c pos < 2 ^ 63 then
        (⟨d.seekTo k (Cursor.target m.width c pos).toNat, []⟩,
          .ok (UInt64.ofNat (Cursor.target m.width c pos).toNat))
      else (⟨d, []⟩, .error .invalidInput) := by
  have hlen : c.data m.width = c.inner.toList := rfl
  generalize ht : Cursor.target m.width c pos = t
  cases pos with
  | start n =>
    have hn := Cursor.toInt_toInt64 n
    have hsize := n.toNat_lt
    simp only [Cursor.target] at ht
    simp only [fdSeek, Session.call, Disk.seek, hdesc, kernelOffset_lseekArgs]
    rw [settle_seek (t := t) (by split_ifs at hn <;> omega)]
    split_ifs <;> rfl
  | end_ n =>
    simp only [Cursor.target, hlen] at ht
    simp only [fdSeek, Session.call, Disk.seek, hdesc, hdata, kernelOffset_lseekArgs]
    rw [settle_seek (t := t) (by omega)]
    split_ifs <;> rfl
  | current n =>
    simp only [Cursor.target] at ht
    simp only [fdSeek, Session.call, Disk.seek, hdesc, kernelOffset_lseekArgs]
    rw [settle_seek (t := t) (by omega)]
    split_ifs <;> rfl

lemma agree_seek (h : Agree m fd i s c) (pos : SeekFrom) :
    ∃ s', fdSeek fd m s pos = (s', (seekOut c (Cursor.target m.width c pos)).2) ∧
      Agree m fd i s' (seekOut c (Cursor.target m.width c pos)).1 := by
  have hagree := h
  obtain ⟨hturns, hpos, hdata, k, mode, hdesc, hr, hw, ha, hl⟩ := h
  obtain ⟨d, turns⟩ := s
  subst hturns
  unfold seekOut
  rw [fdSeek_eq hdesc hdata pos]
  split_ifs with ht
  · have hlt : (Cursor.target m.width c pos).toNat < 2 ^ 64 := by omega
    have hnat := UInt64.toNat_ofNat_of_lt' hlt
    refine ⟨_, rfl, rfl, ?_, hdata, k, mode, ?_, hr, hw, ha, hl⟩
    · rw [hnat]
      omega
    · rw [hnat]
      exact Disk.desc_seekTo hdesc _
  · exact ⟨_, rfl, hagree⟩

/-- A vector that was resized. -/
lemma resize_ok {w : PtrWidth} {grant : ℕ → Bool} {v v' : Bytes w} {n : ℕ}
    (h : Cursor.resize grant v n = .ok v') :
    n ≤ w.isizeMax ∧ v'.toList = (pad v.toList n).take n := by
  unfold Cursor.resize at h
  split_ifs at h with hle hmax
  · cases h
    exact ⟨hle.trans v.le_isizeMax, by rw [pad_of_le hle]⟩
  · cases h
    refine ⟨hmax, (List.take_of_length_le ?_).symm⟩
    rw [length_pad]
    omega

lemma agree_setLen (h : Agree m fd i s c) {grant : ℕ → Bool} {size : UInt64}
    {v : Bytes m.width} (hresize : Cursor.resize grant c.inner size.toNat = .ok v) :
    ∃ s', File.setLen m s fd size = (s', .ok ()) ∧ Agree m fd i s' { c with inner := v } := by
  obtain ⟨hturns, hpos, hdata, k, mode, hdesc, hr, hw, ha, hl⟩ := h
  obtain ⟨hsize, hv⟩ := resize_ok hresize
  have hmax : m.width.isizeMax < 2 ^ 63 := by cases m <;> decide
  have hlen : size.toBitVec.toInt = size.toNat := by
    rw [BitVec.toInt_eq_toNat_of_lt] <;> rw [UInt64.toNat_toBitVec]
    omega
  have htruncate : s.disk.truncate fd (kernelLength m (ftruncateArgs m size)) =
      .ok (s.disk.setData i v.toList) := by
    rw [kernelLength_ftruncateArgs, hlen, hv, ← hdata]
    simp [Disk.truncate, hdesc, hw]
  refine ⟨⟨s.disk.setData i v.toList, []⟩, ?_, rfl, hpos, Function.update_self .., k, mode, hdesc,
    hr, hw, ha, hl⟩
  rw [File.setLen, Session.call, hturns]
  simp only [htruncate]
  rfl

/-! ### Runs -/

/-- A run of calls on a file. -/
def fileRun (m : Machine) (fd : ℕ) : Session → List (FileOp m.width) → Session × List Out
  | s, [] => (s, [])
  | s, op :: ops =>
    let (s, out) := fileCall m fd s op
    let (s, outs) := fileRun m fd s ops
    (s, out :: outs)

/-- A run of calls on a cursor. -/
def cursorRun (m : Machine) (profile : Profile) : Cursor (Bytes m.width) →
    List (FileOp m.width) → Except Abort (Cursor (Bytes m.width) × List Out)
  | c, [] => .ok (c, [])
  | c, op :: ops => do
    let (c, out) ← cursorCall m profile c op
    let (c, outs) ← cursorRun m profile c ops
    .ok (c, out :: outs)

/-- Every call of a run is fitting. -/
def AllFitting (m : Machine) (profile : Profile) : Cursor (Bytes m.width) →
    List (FileOp m.width) → Prop
  | _, [] => True
  | c, op :: ops => Fitting c op ∧ match cursorCall m profile c op with
      | .ok (c, _) => AllFitting m profile c ops
      | .error _ => True

/-- A call on a cursor is a call on a file. -/
lemma agree_call (h : Agree m fd i s c) {op : FileOp m.width} (hop : Fitting c op)
    {out : Out} (hcall : cursorCall m profile c op = .ok (c', out)) :
    (fileCall m fd s op).2 = out ∧ Agree m fd i (fileCall m fd s op).1 c' := by
  cases op with
  | read dest =>
    cases hcall
    obtain ⟨s', hs', hagree⟩ := agree_read h hop
    simp only [fileCall, hs']
    exact ⟨trivial, hagree⟩
  | write grant buf =>
    rcases hwrite : c.write grant buf with a | ⟨c₁, r⟩
    · simp only [cursorCall, hwrite] at hcall
      cases hcall
    · simp only [cursorCall, hwrite] at hcall
      cases hcall
      obtain ⟨s', hs', hagree⟩ := agree_write h hop.1 hop.2 hwrite
      simp only [fileCall, hs']
      exact ⟨trivial, hagree⟩
  | seek pos =>
    rcases hseek : Cursor.seek m.width profile c pos with a | ⟨c₁, r⟩
    · simp only [cursorCall, hseek] at hcall
      cases hcall
    · simp only [cursorCall, hseek] at hcall
      cases hcall
      have hout := cursor_seek h.pos hseek
      obtain ⟨s', hs', hagree⟩ := agree_seek h pos
      rw [← hout] at hs' hagree
      simp only [fileCall, hs']
      exact ⟨trivial, hagree⟩
  | setLen grant size =>
    rcases hresize : Cursor.resize grant c.inner size.toNat with a | v
    · simp only [cursorCall, hresize] at hcall
      cases hcall
    · simp only [cursorCall, hresize] at hcall
      cases hcall
      obtain ⟨s', hs', hagree⟩ := agree_setLen h hresize
      simp only [fileCall, hs']
      exact ⟨trivial, hagree⟩

lemma agree_run (ops : List (FileOp m.width)) (h : Agree m fd i s c)
    (hfit : AllFitting m profile c ops) {outs : List Out}
    (hrun : cursorRun m profile c ops = .ok (c', outs)) :
    (fileRun m fd s ops).2 = outs ∧ Agree m fd i (fileRun m fd s ops).1 c' := by
  induction ops generalizing s c outs with
  | nil =>
    cases hrun
    exact ⟨rfl, h⟩
  | cons op ops ih =>
    obtain ⟨hop, hrest⟩ := hfit
    rw [cursorRun] at hrun
    rcases hcall : cursorCall m profile c op with a | ⟨c₁, out⟩
    · rw [hcall] at hrun
      cases hrun
    · rw [hcall] at hrun hrest
      rcases htail : cursorRun m profile c₁ ops with a | ⟨c₂, outs₂⟩
      · simp only [htail, bind, Except.bind] at hrun
        cases hrun
      · simp only [htail, bind, Except.bind] at hrun
        cases hrun
        obtain ⟨hout, hagree⟩ := agree_call h hop hcall
        obtain ⟨houts, hend⟩ := ih hagree hrest htail
        exact ⟨by rw [← hout, ← houts]; rfl, hend⟩

/-- A file that has just been opened is a new cursor. -/
lemma agree_of_openFile {o : OpenOptions} (hread : o.read = true) (hwrite : o.write = true)
    (happend : o.append = false) {s' : Session} {p : Path} (hturns : s.turns = [])
    (hopen : o.openFile m s p = (s', .ok fd)) :
    ∃ i, s'.disk.names p = some i ∧
      ∀ v : Bytes m.width, s'.disk.data i = v.toList → Agree m fd i s' (.new v) := by
  obtain ⟨s₁, hsuffix, ⟨e, herr, -, -⟩ | ⟨fd', hok, i, d₀, hprep, hdisk, hfd⟩⟩ :=
    openFile_cases o m s p
  · rw [hopen] at herr
    cases (Prod.mk.inj herr).2
  · rw [hopen] at hok
    cases hok
    subst hfd
    refine ⟨i, ?_, fun v hv => ⟨?_, ?_, hv, d₀.opened.length, o.mode m, ?_, ?_, ?_, ?_, rfl⟩⟩
    · rw [hdisk]
      exact hprep.name
    · rw [hturns] at hsuffix
      exact List.suffix_nil.1 hsuffix
    · show (0 : UInt64).toNat < 2 ^ 63
      decide
    · rw [hdisk]
      exact Disk.desc_openAt d₀ i (o.mode m)
    · simp [OpenOptions.mode, hread, hwrite]
    · simp [OpenOptions.mode, hread, hwrite]
    · simp [OpenOptions.mode, happend]

/-- A file that was opened for reading and writing, and not for appending, and that nobody else
uses, returns at every sequence of reads, writes, seeks and changes of its length what a cursor over
a vector with the same bytes returns, if the cursor does not run out of memory or of positions, and
if no system call is interrupted, fails for a reason of its own, such as a full disk, or transfers
less than it could (`turns`; the kernel does not transfer more than `0x7ffff000` bytes at once).
The file has the same bytes as the vector in the end. -/
theorem file_like_cursor (m : Machine) (profile : Profile) {o : OpenOptions} {s s' : Session}
    {p : Path} {fd : ℕ} {v : Bytes m.width} {ops : List (FileOp m.width)}
    {c' : Cursor (Bytes m.width)} {outs : List Out} (hread : o.read = true)
    (hwrite : o.write = true) (happend : o.append = false) (hturns : s.turns = [])
    (hopen : o.openFile m s p = (s', .ok fd))
    (hv : (s'.disk.names p).map s'.disk.data = some v.toList)
    (hfit : AllFitting m profile (.new v) ops)
    (hrun : cursorRun m profile (.new v) ops = .ok (c', outs)) :
    (fileRun m fd s' ops).2 = outs ∧
      (s'.disk.names p).map (fileRun m fd s' ops).1.disk.data = some c'.inner.toList := by
  obtain ⟨i, hname, hnew⟩ := agree_of_openFile hread hwrite happend hturns hopen
  rw [hname] at hv
  obtain ⟨houts, hagree⟩ := agree_run ops (hnew v (Option.some.inj hv)) hfit hrun
  rw [hname]
  exact ⟨houts, congrArg some hagree.data⟩

/-- An empty file with the name "f". -/
def emptyFile : Session where
  disk := { names := fun p => if p = [102] then some 0 else none, data := fun _ => [],
            inodes := 1, opened := [], fds := ⟨[]⟩ }
  turns := []

/-- A write behind the end, a seek before the beginning and one to where an `i64` ends, a seek back,
a read over the gap, and a file that is made shorter and longer again. -/
def seeks : List (FileOp .w64) :=
  [.seek (.start 2), .write (fun _ => true) ⟨[7, 8], by decide⟩, .seek (.current (-5)),
    .seek (.current 0x7fffffffffffffff), .seek (.end_ (-3)), .read [9, 9, 9, 9],
    .setLen (fun _ => true) 3, .setLen (fun _ => true) 5, .seek (.start 1), .read [9, 9, 9, 9]]

/-- The file, opened for reading and writing. -/
def openedFile : Session × Result ℕ :=
  OpenOptions.openFile { OpenOptions.new with read := true, write := true } .wide emptyFile [102]

theorem file_like_cursor_gap :
    openedFile.2 = .ok 0 ∧ (fileRun .wide 0 openedFile.1 seeks).2 =
      [.moved (.ok 2), .wrote (.ok 2), .moved (.error .invalidInput),
        .moved (.error .invalidInput), .moved (.ok 1), .read [0, 7, 8, 9] (.ok 3),
        .resized (.ok ()), .resized (.ok ()), .moved (.ok 1), .read [0, 7, 0, 0] (.ok 4)] := by
  have hopen : openedFile = (openedFile.1, .ok 0) := rfl
  have hfit : AllFitting .wide .release (.new ⟨[], by decide⟩) seeks :=
    ⟨trivial, ⟨by decide, Or.inl (by decide)⟩, trivial, trivial, trivial, Or.inl (by decide),
      trivial, trivial, trivial, Or.inl (by decide), trivial⟩
  have hrun : cursorRun .wide .release (.new ⟨[], by decide⟩) seeks =
      .ok (⟨⟨[0, 0, 7, 0, 0], by decide⟩, 5⟩, [.moved (.ok 2), .wrote (.ok 2),
        .moved (.error .invalidInput), .moved (.error .invalidInput), .moved (.ok 1),
        .read [0, 7, 8, 9] (.ok 3), .resized (.ok ()), .resized (.ok ()), .moved (.ok 1),
        .read [0, 7, 0, 0] (.ok 4)]) := by rfl
  exact ⟨rfl, (file_like_cursor .wide .release rfl rfl rfl rfl hopen rfl hfit hrun).1⟩

end PureStd.Fs
