/-
Files that are opened with `OpenOptions::append`.

Threads and processes call the functions of `File` in any order, on any descriptors and
duplicates of them, and whatever happens at the system calls.  As long as a file is written
only by those who have opened it with `append`, and is not truncated, every write goes to the
end of it: no write is lost or cuts into another one, whatever is read and wherever the
descriptors are put by `seek` (`append_only`).
-/
import PureStd.Fs.FileCalls

namespace PureStd.Fs

open Io ZeroFilled

/-- A call on files.  `dup` is not in `src/fs.rs`; a program may make it by itself. -/
inductive Call where
  | openFile (o : OpenOptions) (p : Path)
  | read (fd : ℕ) (buf : List UInt8)
  | write (fd : ℕ) (buf : List UInt8)
  | seek (fd : ℕ) (pos : SeekFrom)
  | setLen (fd : ℕ) (size : UInt64)
  | dup (fd : ℕ)
  | drop (fd : ℕ)

/-- The files, and the bytes that were accepted for one of them, in the order of the calls. -/
structure Log where
  session : Session
  accepted : List UInt8

variable {m : Machine} {i : ℕ} {d d' : Disk Path} {s : Session}

/-- The descriptor refers to file `i`. -/
def RefersTo (i : ℕ) (d : Disk Path) (fd : ℕ) : Prop := ∃ k f, d.desc fd = some (k, f) ∧ f.ino = i

instance (i : ℕ) (d : Disk Path) (fd : ℕ) : Decidable (RefersTo i d fd) :=
  match h : d.desc fd with
  | none => .isFalse fun ⟨_, _, h', _⟩ => by rw [h] at h'; cases h'
  | some (k, f) =>
    if hf : f.ino = i then .isTrue ⟨k, f, h, hf⟩
    else .isFalse fun ⟨_, _, h', hf'⟩ => by rw [h] at h'; cases h'; exact hf hf'

/-- Another descriptor for an open file. -/
def fdDup (fd : ℕ) (s : Session) : Session × Result ℕ :=
  match s.call fun d _ => d.dup fd with
  | (s, .ok fd) => (s, .ok fd)
  | (s, .error e) => (s, .error e.kind)

/-- The files after a call. -/
def Call.session (m : Machine) (s : Session) : Call → Session
  | openFile o p => (o.openFile m s p).1
  | read fd buf => (fdRead fd s buf).1
  | write fd buf => (fdWrite fd s buf).1
  | seek fd pos => (fdSeek fd m s pos).1
  | setLen fd size => (File.setLen m s fd size).1
  | dup fd => (fdDup fd s).1
  | drop fd => File.drop s fd

/-- The bytes that a call reports as written to file `i`. -/
def Call.accepts (i : ℕ) (s : Session) : Call → List UInt8
  | write fd buf =>
    match (fdWrite fd s buf).2 with
    | .ok n => if RefersTo i s.disk fd then buf.take n else []
    | .error _ => []
  | _ => []

def Call.run (m : Machine) (i : ℕ) (l : Log) (call : Call) : Log :=
  ⟨call.session m l.session, l.accepted ++ call.accepts i l.session⟩

/-- The file is not truncated, and is opened for writing with `append` only. -/
def Call.Appends (i : ℕ) (d : Disk Path) : Call → Prop
  | openFile o p => d.names p = some i → o.truncate = false ∧ (o.write = true → o.append = true)
  | setLen fd _ => ¬ RefersTo i d fd
  | _ => True

/-- Every call of a sequence is such a call. -/
def AllAppend (m : Machine) (i : ℕ) : Log → List Call → Prop
  | _, [] => True
  | l, call :: calls => call.Appends i l.session.disk ∧ AllAppend m i (call.run m i l) calls

/-- Who may write the file has opened it with `append`. -/
def OnlyAppends (i : ℕ) (d : Disk Path) : Prop :=
  ∀ (k : ℕ) (f : Description), d.opened[k]? = some f → f.ino = i → f.mode.writable = true →
    f.mode.append = true

/-- The file is there with these bytes, and is only appended to. -/
structure Holds (i : ℕ) (bytes : List UInt8) (d : Disk Path) : Prop where
  exists_ : i < d.inodes
  appends : OnlyAppends i d
  data : d.data i = bytes

/-! ### What the system calls keep -/

lemma OnlyAppends.seekTo (h : OnlyAppends i d) (k pos : ℕ) : OnlyAppends i (d.seekTo k pos) := by
  intro k' f hf
  simp only [Disk.seekTo, List.getElem?_modify] at hf
  obtain ⟨f', hf', rfl⟩ := Option.map_eq_some_iff.1 hf
  have hold := h k' f' hf'
  split_ifs <;> exact hold

lemma OnlyAppends.put (h : OnlyAppends i d) (k : ℕ) (f : Description) (bytes : List UInt8) :
    OnlyAppends i (d.put k f bytes) :=
  OnlyAppends.seekTo (d := d.setData f.ino (store (d.data f.ino) (d.writePos f) bytes)) h _ _

lemma OnlyAppends.openAt (h : OnlyAppends i d) {ino : ℕ} {mode : Mode}
    (hmode : ino = i → mode.writable = true → mode.append = true) :
    OnlyAppends i (d.openAt ino mode).1 := by
  intro k f hf
  have hf : (d.opened ++ [⟨ino, 0, mode⟩])[k]? = some f := hf
  by_cases hk : k < d.opened.length
  · rw [List.getElem?_append_left hk] at hf
    exact h k f hf
  · rw [List.getElem?_append_right (Nat.not_lt.1 hk)] at hf
    obtain rfl := List.mem_singleton.1 (List.mem_of_getElem? hf)
    exact hmode

/-- Who may write has asked for `write` or for `append`. -/
lemma append_of_writable {o : OpenOptions} (h : o.write = true → o.append = true)
    (hw : (o.mode m).writable = true) : (o.mode m).append = true := by
  obtain ⟨r, wr, ap, tr, cr⟩ := o
  cases r <;> cases wr <;> cases ap <;> simp_all [OpenOptions.mode]

variable {bytes : List UInt8} {fd : ℕ}

lemma Holds.seekTo (h : Holds i bytes d) (k pos : ℕ) : Holds i bytes (d.seekTo k pos) :=
  ⟨h.exists_, h.appends.seekTo k pos, h.data⟩

lemma Holds.read {n : ℕ} {got : List UInt8} (h : Holds i bytes d)
    (hread : d.read fd n = .ok (d', got)) : Holds i bytes d' := by
  obtain ⟨k, f, -, -, rfl⟩ := Disk.read_ok hread
  exact h.seekTo k _

lemma Holds.seek {whence : Whence} {off : ℤ} {pos : ℕ} (h : Holds i bytes d)
    (hseek : d.seek fd whence off = .ok (d', pos)) : Holds i bytes d' := by
  obtain ⟨k, pos', rfl⟩ := Disk.exists_seekTo_of_seek hseek
  exact h.seekTo k pos'

lemma Holds.truncate {len : ℤ} (h : Holds i bytes d) (hfd : ¬ RefersTo i d fd)
    (htruncate : d.truncate fd len = .ok d') : Holds i bytes d' := by
  obtain ⟨k, f, new, hdesc, rfl⟩ := Disk.exists_setData_of_truncate htruncate
  have hne : i ≠ f.ino := fun hf => hfd ⟨k, f, hdesc, hf.symm⟩
  exact ⟨h.exists_, h.appends, (Function.update_of_ne hne ..).trans h.data⟩

lemma Holds.dup {fd' : ℕ} (h : Holds i bytes d) (hdup : d.dup fd = .ok (d', fd')) :
    Holds i bytes d' := by
  obtain ⟨fds, rfl⟩ := Disk.exists_fds_of_dup hdup
  exact ⟨h.exists_, h.appends, h.data⟩

/-- Bytes that go to the file itself go to its end. -/
lemma Holds.put {k : ℕ} {f : Description} (h : Holds i bytes d) (hdesc : d.desc fd = some (k, f))
    (hw : f.mode.writable = true) (new : List UInt8) :
    Holds i (bytes ++ if f.ino = i then new else []) (d.put k f new) := by
  refine ⟨h.exists_, h.appends.put k f _, ?_⟩
  rw [Disk.data_put]
  by_cases hf : f.ino = i
  · have happend := h.appends k f (Disk.desc_eq_some.1 hdesc).2 hf hw
    rw [if_pos hf, hf, Function.update_self, Disk.writePos, if_pos happend, hf, store_length,
      h.data]
  · rw [if_neg hf, Function.update_of_ne (Ne.symm hf), h.data, List.append_nil]

lemma Holds.openFile (h : Holds i bytes d) {o : OpenOptions} {p : Path}
    (ho : d.names p = some i → o.truncate = false ∧ (o.write = true → o.append = true))
    (hopen : d.openFile p (o.mode m) = .ok (d', fd)) : Holds i bytes d' := by
  obtain ⟨j, d₀, hprep, rfl, -⟩ := prepared_of_openFile hopen
  have hlt := h.exists_
  have hold : j = i → d.names p = some i := by
    rintro rfl
    refine hprep.old.resolve_right fun hnew => ?_
    rw [hnew.2.1] at hlt
    exact absurd hlt (lt_irrefl _)
  have hopened : OnlyAppends i d₀ := by
    intro k f hf
    rw [hprep.opened] at hf
    exact h.appends k f hf
  refine ⟨Nat.lt_of_lt_of_le hlt hprep.inodes, ?_, ?_⟩
  · exact hopened.openAt fun hj => append_of_writable (ho (hold hj)).2
  · show d₀.data i = _
    by_cases hj : j = i
    · subst hj
      rw [hprep.kept (ho (hold rfl)).1 (hold rfl), h.data]
    · rw [hprep.others i (Ne.symm hj), h.data]

/-! ### What the calls keep -/

lemma fdDup_keeps {P : Disk Path → Prop} (hs : P s.disk)
    (hdup : ∀ d' fd', s.disk.dup fd = .ok (d', fd') → P d') : P (fdDup fd s).1.disk := by
  have hkeeps := call_keeps (fun d _ => d.dup fd) hs fun _ => hdup
  rw [fdDup]
  split <;> rename_i heq <;> rwa [heq] at hkeeps

/-- A write by a descriptor of the file goes to its end. -/
lemma Holds.fdWrite (h : Holds i bytes s.disk) (buf : List UInt8) :
    Holds i (bytes ++ (Call.write fd buf).accepts i s) (Fs.fdWrite fd s buf).1.disk := by
  cases hdesc : s.disk.desc fd with
  | none =>
    have hno : ¬ RefersTo i s.disk fd := by
      rintro ⟨k, f, h', -⟩
      rw [hdesc] at h'
      cases h'
    have hnil : (Call.write fd buf).accepts i s = [] := by
      simp only [Call.accepts, if_neg hno]
      split <;> rfl
    rw [hnil, List.append_nil]
    refine fdWrite_keeps h fun new d' n hwrite => ?_
    rw [Disk.write, hdesc] at hwrite
    cases hwrite
  | some kf =>
    obtain ⟨k, f⟩ := kf
    have hrefers : RefersTo i s.disk fd ↔ f.ino = i := by
      constructor
      · rintro ⟨k', f', h', hf'⟩
        rw [hdesc] at h'
        cases h'
        exact hf'
      · exact fun hf => ⟨k, f, hdesc, hf⟩
    have hspec := fdWrite_spec hdesc buf
    cases hr : (Fs.fdWrite fd s buf).2 with
    | error e =>
      rw [(hspec.error e hr).1]
      simpa only [Call.accepts, hr, List.append_nil] using h
    | ok n =>
      obtain ⟨-, -, hdisk⟩ := hspec.ok n hr
      have haccepts : (Call.write fd buf).accepts i s =
          if f.ino = i then buf.take n else [] := by
        simp only [Call.accepts, hr, hrefers]
      rw [hdisk, haccepts]
      by_cases hn : n = 0
      · simpa [hn] using h
      · rw [if_neg hn]
        exact h.put hdesc (hspec.writable n hr) _

/-- Each call keeps the file. -/
lemma Holds.call (h : Holds i bytes s.disk) (call : Call) (hcall : call.Appends i s.disk) :
    Holds i (bytes ++ call.accepts i s) (call.session m s).disk := by
  -- only a write accepts bytes
  have hquiet (hnil : call.accepts i s = []) (hkeeps : Holds i bytes (call.session m s).disk) :
      Holds i (bytes ++ call.accepts i s) (call.session m s).disk := by
    rwa [hnil, List.append_nil]
  cases call with
  | write fd buf => exact h.fdWrite buf
  | openFile o p => exact hquiet rfl (openFile_keeps h o fun _ _ => h.openFile hcall)
  | read fd buf => exact hquiet rfl (fdRead_keeps h fun _ _ _ => h.read)
  | seek fd pos => exact hquiet rfl (fdSeek_keeps h pos fun _ _ _ _ => h.seek)
  | setLen fd size => exact hquiet rfl (setLen_keeps h size fun _ _ => h.truncate hcall)
  | dup fd => exact hquiet rfl (fdDup_keeps h fun _ _ => h.dup)
  | drop fd => exact hquiet rfl ⟨h.exists_, h.appends, h.data⟩

/-- Whatever calls are made in whatever order, and whatever happens at them, a file that is only
appended to has what it had, and then the bytes that were accepted for it, in the order of the
calls. -/
theorem append_only (m : Machine) (i : ℕ) (s : Session) (calls : List Call)
    (hi : i < s.disk.inodes) (hs : OnlyAppends i s.disk)
    (hcalls : AllAppend m i ⟨s, []⟩ calls) :
    (calls.foldl (Call.run m i) ⟨s, []⟩).session.disk.data i =
      s.disk.data i ++ (calls.foldl (Call.run m i) ⟨s, []⟩).accepted := by
  have hrun : ∀ (l : Log) (calls : List Call),
      Holds i (s.disk.data i ++ l.accepted) l.session.disk → AllAppend m i l calls →
      Holds i (s.disk.data i ++ (calls.foldl (Call.run m i) l).accepted)
        (calls.foldl (Call.run m i) l).session.disk := by
    intro l calls
    induction calls generalizing l with
    | nil => exact fun h _ => h
    | cons call calls ih =>
      intro h hall
      refine ih _ ?_ hall.2
      rw [Call.run, ← List.append_assoc]
      exact h.call call hall.1
  exact (hrun ⟨s, []⟩ calls ⟨hi, hs, by simp⟩ hcalls).data

/-- An empty file with the name "f". -/
def oneFile : Disk Path where
  names p := if p = [102] then some 0 else none
  data _ := []
  inodes := 1
  opened := []
  fds := ⟨[]⟩

/-- Two who append, one of them with a duplicate and after a seek to the beginning.  The first
write is interrupted and then writes one byte only. -/
def appenders : List Call :=
  let o : OpenOptions := { OpenOptions.new with append := true }
  [.openFile o [102], .openFile o [102], .write 0 [1, 2], .dup 0, .seek 1 (.start 0),
    .write 1 [3], .write 2 [4, 5]]

/-- The calls to `open` are not disturbed. -/
def disturbed : Session := ⟨oneFile, [.full, .full, .fail 4, .short 0]⟩

theorem append_only_two :
    (appenders.foldl (Call.run .wide 0) ⟨disturbed, []⟩).session.disk.data 0 =
      [] ++ (appenders.foldl (Call.run .wide 0) ⟨disturbed, []⟩).accepted ∧
    (appenders.foldl (Call.run .wide 0) ⟨disturbed, []⟩).accepted = [1, 3, 4, 5] := by
  refine ⟨append_only .wide 0 disturbed appenders (by decide) nofun ?_, by decide⟩
  exact ⟨fun _ => ⟨rfl, nofun⟩, fun _ => ⟨rfl, nofun⟩, trivial, trivial, trivial, trivial, trivial,
    trivial⟩

end PureStd.Fs
