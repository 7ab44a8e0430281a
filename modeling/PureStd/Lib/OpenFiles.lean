/-
Open files.

A kernel has files, which names lead to, and descriptions of open files, which descriptors
refer to.  A description has a position and the mode in which the file was opened.  Two names
may lead to one file, and two descriptors may refer to one description, whose position they
then share.

A file is an array of bytes that is zero behind its end, so a write behind the end leaves a
gap of zeros.  A description may be written up to a limit.
-/
import Mathlib.Data.UInt
import PureStd.Lib.Descriptors
import PureStd.Lib.ZeroFilled

namespace PureStd

open ZeroFilled

/-- How a file is opened. -/
structure Mode where
  readable : Bool
  writable : Bool
  append : Bool
  create : Bool
  truncate : Bool
  /-- The largest size of the file. -/
  limit : ℕ
deriving DecidableEq, Repr

/-- A file that is open. -/
structure Description where
  ino : ℕ
  pos : ℕ
  mode : Mode
deriving DecidableEq, Repr

/-- Why a call fails. -/
inductive FileError where
  | notFound
  | overflow
  | badDescriptor
  | tooBig
  | invalid
deriving DecidableEq, Repr

/-- From where a position is counted. -/
inductive Whence where
  | start
  | current
  | end_
deriving DecidableEq, Repr

/-- Files, and those that are open. -/
structure Disk (N : Type*) where
  names : N → Option ℕ
  data : ℕ → List UInt8
  /-- The number of the next file. -/
  inodes : ℕ
  opened : List Description
  fds : FdTable ℕ

namespace Disk

variable {N : Type*} {d d' : Disk N} {fd k n : ℕ} {f : Description} {m : Mode}

/-- The description of a descriptor, and its number. -/
def desc (d : Disk N) (fd : ℕ) : Option (ℕ × Description) :=
  (d.fds.get fd).bind fun k => (d.opened[k]?).map fun f => (k, f)

def setData (d : Disk N) (ino : ℕ) (bytes : List UInt8) : Disk N :=
  { d with data := Function.update d.data ino bytes }

/-- Put a description at a position. -/
def seekTo (d : Disk N) (k pos : ℕ) : Disk N :=
  { d with opened := d.opened.modify k fun f => { f with pos } }

/-- A new file. -/
def create [DecidableEq N] (d : Disk N) (n : N) : Disk N :=
  { d with names := Function.update d.names n (some d.inodes),
           data := Function.update d.data d.inodes [], inodes := d.inodes + 1 }

/-- A new description, under the lowest free descriptor. -/
def openAt (d : Disk N) (ino : ℕ) (m : Mode) : Disk N × ℕ :=
  ({ d with opened := d.opened ++ [⟨ino, 0, m⟩], fds := (d.fds.install d.opened.length).1 },
    d.fds.lowestFree)

/-- Open a file.  A file that is larger than the limit is not opened. -/
def openFile [DecidableEq N] (d : Disk N) (n : N) (m : Mode) : Except FileError (Disk N × ℕ) :=
  match d.names n with
  | some i =>
    if m.limit < (d.data i).length then .error .overflow
    else .ok ((if m.truncate then d.setData i [] else d).openAt i m)
  | none => if m.create then .ok ((d.create n).openAt d.inodes m) else .error .notFound

/-- Read at most `n` bytes. -/
def read (d : Disk N) (fd n : ℕ) : Except FileError (Disk N × List UInt8) :=
  match d.desc fd with
  | some (k, f) =>
    if f.mode.readable then
      let bytes := ((d.data f.ino).drop f.pos).take n
      .ok (d.seekTo k (f.pos + bytes.length), bytes)
    else .error .badDescriptor
  | none => .error .badDescriptor

/-- Where a write begins. -/
def writePos (d : Disk N) (f : Description) : ℕ :=
  if f.mode.append then (d.data f.ino).length else f.pos

/-- The effect of a write of some bytes. -/
def put (d : Disk N) (k : ℕ) (f : Description) (bytes : List UInt8) : Disk N :=
  (d.setData f.ino (store (d.data f.ino) (d.writePos f) bytes)).seekTo k
    (d.writePos f + bytes.length)

/-- Write bytes, as many as the limit allows; the result has their number. -/
def write (d : Disk N) (fd : ℕ) (bytes : List UInt8) : Except FileError (Disk N × ℕ) :=
  match d.desc fd with
  | some (k, f) =>
    if f.mode.writable = false then .error .badDescriptor
    else if bytes = [] then .ok (d, 0)
    else if f.mode.limit ≤ d.writePos f then .error .tooBig
    else
      let n := min bytes.length (f.mode.limit - d.writePos f)
      .ok (d.put k f (bytes.take n), n)
  | none => .error .badDescriptor

/-- Move the position of a description. -/
def seek (d : Disk N) (fd : ℕ) (whence : Whence) (off : ℤ) : Except FileError (Disk N × ℕ) :=
  match d.desc fd with
  | some (k, f) =>
    let target : ℤ := off + match whence with
      | .start => 0
      | .current => f.pos
      | .end_ => (d.data f.ino).length
    if 0 ≤ target ∧ target < 2 ^ 63 then .ok (d.seekTo k target.toNat, target.toNat)
    else .error .invalid
  | none => .error .badDescriptor

/-- Cut a file, or extend it by zeros. -/
def truncate (d : Disk N) (fd : ℕ) (len : ℤ) : Except FileError (Disk N) :=
  match d.desc fd with
  | some (_, f) =>
    if f.mode.writable = false ∨ len < 0 then .error .invalid
    else .ok (d.setData f.ino ((pad (d.data f.ino) len.toNat).take len.toNat))
  | none => .error .badDescriptor

/-- Another descriptor for a description. -/
def dup (d : Disk N) (fd : ℕ) : Except FileError (Disk N × ℕ) :=
  match d.fds.get fd with
  | some k => .ok ({ d with fds := (d.fds.install k).1 }, d.fds.lowestFree)
  | none => .error .badDescriptor

def close (d : Disk N) (fd : ℕ) : Disk N := { d with fds := d.fds.close fd }

/-! ### What the operations do -/

lemma desc_eq_some : d.desc fd = some (k, f) ↔ d.fds.get fd = some k ∧ d.opened[k]? = some f := by
  simp [desc, Option.bind_eq_some_iff]

lemma desc_congr (hfds : d'.fds = d.fds) (hopened : d'.opened = d.opened) (fd : ℕ) :
    d'.desc fd = d.desc fd := by
  rw [desc, desc, hfds, hopened]

lemma desc_seekTo (h : d.desc fd = some (k, f)) (pos : ℕ) :
    (d.seekTo k pos).desc fd = some (k, { f with pos }) := by
  obtain ⟨hfd, hk⟩ := desc_eq_some.1 h
  refine desc_eq_some.2 ⟨hfd, ?_⟩
  simp [seekTo, hk]

/-- A description that is not at the number `k` stays as it is. -/
lemma getElem?_seekTo {k' : ℕ} (hk : k' ≠ k) (d : Disk N) (pos : ℕ) :
    (d.seekTo k pos).opened[k']? = d.opened[k']? := by
  simp [seekTo, hk.symm]

/-- A descriptor that is open stays as it is when a file is opened. -/
lemma desc_openAt_of_desc (h : d.desc fd = some (k, f)) (ino : ℕ) (m : Mode) :
    (d.openAt ino m).1.desc fd = some (k, f) := by
  obtain ⟨hfd, hk⟩ := desc_eq_some.1 h
  have hne : fd ≠ d.fds.lowestFree := by
    rintro rfl
    rw [FdTable.get_lowestFree] at hfd
    cases hfd
  refine desc_eq_some.2 ⟨?_, ?_⟩
  · simp [openAt, FdTable.get_install, hne, hfd]
  · exact (List.getElem?_append_left (List.getElem?_eq_some_iff.1 hk).1).trans hk

lemma desc_openAt (d : Disk N) (ino : ℕ) (m : Mode) :
    (d.openAt ino m).1.desc (d.openAt ino m).2 = some (d.opened.length, ⟨ino, 0, m⟩) := by
  refine desc_eq_some.2 ⟨?_, ?_⟩
  · simp [openAt, FdTable.get_install]
  · simp [openAt]

/-- A file that is closed again leaves the descriptors as they were. -/
lemma get_close_openAt (ino : ℕ) (m : Mode) (d' : Disk N)
    (hfds : ∀ j, d'.fds.get j = (d.openAt ino m).1.fds.get j) (j : ℕ) :
    (d'.close (d.openAt ino m).2).fds.get j = d.fds.get j := by
  show (d'.fds.close d.fds.lowestFree).get j = d.fds.get j
  rw [FdTable.get_close, hfds]
  show (if j = d.fds.lowestFree then none else (d.fds.install d.opened.length).1.get j) = _
  rw [FdTable.get_install]
  split_ifs with hj
  · rw [hj, FdTable.get_lowestFree]
  · rfl

/-- A read takes the next bytes, and moves the position behind them. -/
lemma read_ok {bytes : List UInt8} (h : d.read fd n = .ok (d', bytes)) :
    ∃ k f, d.desc fd = some (k, f) ∧ bytes = ((d.data f.ino).drop f.pos).take n ∧
      d' = d.seekTo k (f.pos + bytes.length) := by
  unfold read at h
  split at h
  · split_ifs at h
    cases h
    exact ⟨_, _, ‹_›, rfl, rfl⟩
  · cases h

/-- Only the position changes. -/
lemma exists_seekTo_of_seek {whence : Whence} {off : ℤ} (h : d.seek fd whence off = .ok (d', n)) :
    ∃ k pos, d' = d.seekTo k pos := by
  unfold seek at h
  split at h
  · dsimp only at h
    split_ifs at h
    cases h
    exact ⟨_, _, rfl⟩
  · cases h

/-- Only the contents of the file change. -/
lemma exists_setData_of_truncate {len : ℤ} (h : d.truncate fd len = .ok d') :
    ∃ k f bytes, d.desc fd = some (k, f) ∧ d' = d.setData f.ino bytes := by
  unfold truncate at h
  split at h
  · split_ifs at h
    cases h
    exact ⟨_, _, _, ‹_›, rfl⟩
  · cases h

/-- Only the descriptors change. -/
lemma exists_fds_of_dup {fd' : ℕ} (h : d.dup fd = .ok (d', fd')) : ∃ fds, d' = { d with fds } := by
  unfold dup at h
  split at h
  · cases h
    exact ⟨_, rfl⟩
  · cases h

lemma read_of_readable (h : d.desc fd = some (k, f)) (hr : f.mode.readable = true) (n : ℕ) :
    d.read fd n = .ok (d.seekTo k (f.pos + (((d.data f.ino).drop f.pos).take n).length),
      ((d.data f.ino).drop f.pos).take n) := by
  simp only [read, h, hr, if_true]

/-- A write stores the first bytes where it begins. -/
lemma write_ok {bytes : List UInt8} (h : d.desc fd = some (k, f))
    (hwrite : d.write fd bytes = .ok (d', n)) :
    (bytes = [] ∧ n = 0 ∧ d' = d) ∨ (0 < n ∧ n ≤ bytes.length ∧
      d.writePos f + n ≤ f.mode.limit ∧ d' = d.put k f (bytes.take n)) := by
  simp only [write, h] at hwrite
  split_ifs at hwrite with hw hnil hlim
  · cases hwrite
    exact Or.inl ⟨hnil, rfl, rfl⟩
  · cases hwrite
    have hpos := List.length_pos_iff.2 hnil
    exact Or.inr ⟨by omega, by omega, by omega, rfl⟩

lemma writable_of_write {bytes : List UInt8} (h : d.desc fd = some (k, f))
    (hwrite : d.write fd bytes = .ok (d', n)) : f.mode.writable = true := by
  simp only [write, h] at hwrite
  split_ifs at hwrite with hw
  all_goals simpa using hw

/-- All bytes that do not come near the limit are written. -/
lemma write_all {bytes : List UInt8} (h : d.desc fd = some (k, f)) (hw : f.mode.writable = true)
    (hnil : bytes ≠ []) (hlim : d.writePos f + bytes.length ≤ f.mode.limit) :
    d.write fd bytes = .ok (d.put k f bytes, bytes.length) := by
  have hpos := List.length_pos_iff.2 hnil
  have hmin : min bytes.length (f.mode.limit - d.writePos f) = bytes.length := by omega
  simp only [write, h, hw, hnil, if_false, hmin, List.take_length, Bool.true_eq_false]
  rw [if_neg (by omega)]

lemma desc_put (h : d.desc fd = some (k, f)) (bytes : List UInt8) :
    (d.put k f bytes).desc fd = some (k, { f with pos := d.writePos f + bytes.length }) :=
  desc_seekTo (d := d.setData f.ino (store (d.data f.ino) (d.writePos f) bytes)) h _

lemma data_put (d : Disk N) (k : ℕ) (f : Description) (bytes : List UInt8) :
    (d.put k f bytes).data =
      Function.update d.data f.ino (store (d.data f.ino) (d.writePos f) bytes) := rfl

end Disk

end PureStd
