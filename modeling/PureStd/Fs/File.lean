/-
`File` and `OpenOptions` of `src/fs.rs`, over `Fd` of `src/io.rs`, and the functions `read`,
`read_to_string`, `write` and `copy`.

A system call on a file may transfer fewer bytes than it was asked for and may fail; what
happens at the next calls is a list of turns.  `Fd` calls `read` and `write` again when a
signal has interrupted them, and `open` is not called again.

The names of the disk are those of a tree of directories (`Fs/Volume`).

The offset of `lseek` and the length of `ftruncate` have 64 bits.  The 32-bit kernels take
them in two registers, and open a file without `O_LARGEFILE` for its first 2 GiB only.
-/
import PureStd.Fs.Kernel
import PureStd.Io.Cursor
import PureStd.Io.ReadAll
import PureStd.Lib.OpenFiles

namespace PureStd.Fs

open Io

/-! ### System calls -/

/-- A target, as far as the system calls on files depend on it. -/
inductive Machine where
  /-- x86_64, aarch64 and riscv64. -/
  | wide
  | x86
  | arm
deriving DecidableEq, Repr

/-- The number of a failure. -/
def errno : FileError → Errno
  | .notFound => 2
  | .overflow => 75
  | .badDescriptor => 9
  | .tooBig => 27
  | .invalid => 22

/-- What happens at a call. -/
inductive Transfer where
  | full
  /-- At most `n + 1` bytes are transferred. -/
  | short (n : ℕ)
  | fail (e : Errno)
deriving DecidableEq, Repr

/-- How many of `n` bytes are transferred. -/
def Transfer.cut : Transfer → ℕ → ℕ
  | full, n => n
  | short k, n => min n (k + 1)
  | fail _, _ => 0

/-- The files, and what happens at the next calls (nothing unusual, when there are no more
turns). -/
structure Session where
  disk : Disk Path
  turns : List Transfer

variable {α : Type*}

/-- The outcome of a call. -/
def Session.settle (d : Disk Path) (turns : List Transfer) :
    Except FileError (Disk Path × α) → Session × Except Errno α
  | .ok (d, a) => (⟨d, turns⟩, .ok a)
  | .error e => (⟨d, turns⟩, .error (errno e))

/-- One system call. -/
def Session.call (s : Session) (op : Disk Path → (ℕ → ℕ) → Except FileError (Disk Path × α)) :
    Session × Except Errno α :=
  match s.turns with
  | [] => Session.settle s.disk [] (op s.disk id)
  | .fail e :: turns => (⟨s.disk, turns⟩, .error e)
  | turn :: turns => Session.settle s.disk turns (op s.disk turn.cut)

/-- The loop of `Fd::read` and `Fd::write`: `Err(Errno(4)) => continue`. -/
def Session.retry (op : Disk Path → (ℕ → ℕ) → Except FileError (Disk Path × α)) (d : Disk Path) :
    List Transfer → Session × Except Errno α
  | [] => Session.settle d [] (op d id)
  | .fail e :: turns => if e = 4 then retry op d turns else (⟨d, turns⟩, .error e)
  | turn :: turns => Session.settle d turns (op d turn.cut)

/-- The registers in which `lseek` passes an offset: the low half and the high half on the 32-bit
targets. -/
def lseekArgs : Machine → Int64 → List (BitVec 64)
  | .wide, off => [off.toBitVec]
  | _, off => [((off.toBitVec.sshiftRight 32).truncate 32).zeroExtend 64,
      (off.toBitVec.truncate 32).zeroExtend 64]

/-- The offset that the kernel finds in the registers. -/
def kernelOffset : List (BitVec 64) → ℤ
  | [off] => off.toInt
  | [hi, lo] => ((hi <<< 32) ||| lo).toInt
  | _ => 0

/-- The registers in which `ftruncate` passes a length: after a padding register on arm. -/
def ftruncateArgs : Machine → UInt64 → List (BitVec 64)
  | .wide, len => [len.toBitVec]
  | .x86, len => [(len.toBitVec.truncate 32).zeroExtend 64, len.toBitVec >>> 32]
  | .arm, len => [0, (len.toBitVec.truncate 32).zeroExtend 64, len.toBitVec >>> 32]

/-- The length that the kernel finds in the registers. -/
def kernelLength : Machine → List (BitVec 64) → ℤ
  | .wide, [len] => len.toInt
  | .x86, [lo, hi] => ((hi <<< 32) ||| lo).toInt
  | .arm, [_, lo, hi] => ((hi <<< 32) ||| lo).toInt
  | _, _ => 0

/-- The largest file that a target opens. -/
def sizeLimit : Machine → ℕ
  | .wide => 2 ^ 63 - 1
  | _ => 2 ^ 31 - 1

/-! ### `Fd` -/

section Fd

variable (fd : ℕ)

/-- `Read for Fd`. -/
def fdRead (s : Session) (buf : List UInt8) : Session × List UInt8 × Result ℕ :=
  match Session.retry (fun d cut => d.read fd (cut buf.length)) s.disk s.turns with
  | (s, .ok bytes) => (s, bytes.take buf.length ++ buf.drop bytes.length,
      .ok (min bytes.length buf.length))
  | (s, .error e) => (s, buf, .error e.kind)

/-- `Write for Fd`. -/
def fdWrite (s : Session) (buf : List UInt8) : Session × Result ℕ :=
  match Session.retry (fun d cut => d.write fd (buf.take (cut buf.length))) s.disk s.turns with
  | (s, .ok n) => (s, .ok (min n buf.length))
  | (s, .error e) => (s, .error e.kind)

/-- `Seek for Fd`. -/
def fdSeek (m : Machine) (s : Session) (pos : SeekFrom) : Session × Result UInt64 :=
  let (off, whence) : Int64 × Whence := match pos with
    | .start n => (n.toInt64, .start)
    | .end_ n => (n, .end_)
    | .current n => (n, .current)
  match s.call fun d _ => d.seek fd whence (kernelOffset (lseekArgs m off)) with
  | (s, .ok n) => (s, .ok (UInt64.ofNat n))
  | (s, .error e) => (s, .error e.kind)

/-- The reader that is a descriptor. -/
def fdReader : Reader Session where
  read := fdRead fd
  read_length s buf := by
    rw [fdRead]
    split
    · simp
      omega
    · rfl
  read_le s buf n h := by
    rw [fdRead] at h
    split at h
    · cases h
      exact Nat.min_le_right _ _
    · cases h

/-- The writer that is a descriptor. -/
def fdWriter : Writer Session where
  write := fdWrite fd
  flush s := (s, .ok ())
  write_le s buf n h := by
    rw [fdWrite] at h
    split at h
    · cases h
      exact Nat.min_le_right _ _
    · cases h

end Fd

/-! ### `File` -/

structure OpenOptions where
  read : Bool
  write : Bool
  append : Bool
  truncate : Bool
  create : Bool
deriving DecidableEq, Repr

/-- `OpenOptions::new`. -/
def OpenOptions.new : OpenOptions := ⟨false, false, false, false, false⟩

/-- The flags of `OpenOptions::open`. -/
def OpenOptions.mode (o : OpenOptions) (m : Machine) : Mode :=
  let (readable, writable) := match o.read, o.write || o.append with
    | true, true => (true, true)
    | false, true => (false, true)
    | _, _ => (true, false)
  { readable, writable, append := o.append, create := o.create, truncate := o.truncate,
    limit := sizeLimit m }

/-- `OpenOptions::open`.  The file is its descriptor. -/
def OpenOptions.openFile (o : OpenOptions) (m : Machine) (s : Session) (p : Path) :
    Session × Result ℕ :=
  match Env.CString.new p with
  | none => (s, .error .invalidInput)
  | some c =>
    match s.call fun d _ => d.openFile c.bytes (o.mode m) with
    | (s, .ok fd) => (s, .ok fd)
    | (s, .error e) => (s, .error e.kind)

namespace File

/-- The options of `File::open`. -/
def reading : OpenOptions := { OpenOptions.new with read := true }

/-- `File::open`. -/
def open_ : Machine → Session → Path → Session × Result ℕ := reading.openFile

/-- The options of `File::create`. -/
def creating : OpenOptions :=
  { OpenOptions.new with write := true, create := true, truncate := true }

/-- `File::create`. -/
def create : Machine → Session → Path → Session × Result ℕ := creating.openFile

/-- `File::set_len`. -/
def setLen (m : Machine) (s : Session) (fd : ℕ) (size : UInt64) : Session × Result Unit :=
  match s.call fun d _ =>
    (d.truncate fd (kernelLength m (ftruncateArgs m size))).map fun d => (d, ()) with
  | (s, .ok ()) => (s, .ok ())
  | (s, .error e) => (s, .error e.kind)

/-- `Drop for File`. -/
def drop (s : Session) (fd : ℕ) : Session := { s with disk := s.disk.close fd }

end File

/-! ### Whole files -/

/-- `fs::read`. -/
def read (m : Machine) (fuel : ℕ) (s : Session) (p : Path) :
    Option (Session × Result (List UInt8)) :=
  match File.open_ m s p with
  | (s, .error e) => some (s, .error e)
  | (s, .ok fd) => (readToEnd (fdReader fd) fuel ⟨s, []⟩ []).map fun (i, buf, r) =>
    (File.drop i.state fd, r.map fun _ => buf)

/-- `fs::write`. -/
def write (m : Machine) (fuel : ℕ) (s : Session) (p : Path) (contents : List UInt8) :
    Option (Session × Result Unit) :=
  match File.create m s p with
  | (s, .error e) => some (s, .error e)
  | (s, .ok fd) =>
    (writeAll (fun s buf => some (fdWrite fd s buf)) fuel s contents).map fun (s, r) =>
      (File.drop s fd, r)

/-- The loop of `io::copy` between two files, which `Io.copy` does not cover: reading and writing
change the same files. -/
def copyLoop (src dst : ℕ) : ℕ → Session → List UInt8 → UInt64 →
    Option (Session × Result UInt64)
  | 0, _, _, _ => none
  | fuel + 1, s, buf, total =>
    match fdRead src s buf with
    | (s, _, .ok 0) => some (s, .ok total)
    | (s, buf, .ok n) =>
      (writeAll (fun s buf => some (fdWrite dst s buf)) fuel s (buf.take n)).bind fun
        | (s, .ok ()) => copyLoop src dst fuel s buf (total + UInt64.ofNat n)
        | (s, .error e) => some (s, .error e)
    | (s, buf, .error .interrupted) => copyLoop src dst fuel s buf total
    | (s, _, .error e) => some (s, .error e)

/-- `fs::copy`. -/
def copy (m : Machine) (fuel : ℕ) (s : Session) (src dst : Path) :
    Option (Session × Result UInt64) :=
  match File.open_ m s src with
  | (s, .error e) => some (s, .error e)
  | (s, .ok i) =>
    match File.create m s dst with
    | (s, .error e) => some (File.drop s i, .error e)
    | (s, .ok o) => (copyLoop i o fuel s (List.replicate 8192 0) 0).map fun (s, r) =>
      (File.drop (File.drop s o) i, r)

end PureStd.Fs
