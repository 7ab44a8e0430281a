/-
`create_dir_all`, `remove_dir_all` and the functions they call, `src/fs.rs`.

`create_dir_all` calls itself with the parent of its path, which is shorter.  How deep
`remove_dir_all` goes depends on the tree, so it takes fuel; `none` means that there was not
enough of it.
-/
import PureStd.Fs.Kernel

namespace PureStd.Fs

open FileTree Env

/-- A system call on a path: `cpath` and `map_err(Error::from)`. -/
def sys {α : Type} (p : Path) (op : Tree → Path → Except Errno (Tree × α)) (w : World) :
    World × Io.Result α :=
  match CString.new p with
  | none => (w, .error .invalidInput)
  | some c =>
    match w.call fun t => op t c.bytes with
    | (w, .ok a) => (w, .ok a)
    | (w, .error e) => (w, .error e.kind)

/-- `metadata(p)`, of which only the type of the file is used. -/
def metadata (p : Path) : World → World × Io.Result FileType :=
  sys p fun t c => (statat t c true).map (t, ·)

/-- `symlink_metadata(p)`. -/
def symlinkMetadata (p : Path) : World → World × Io.Result FileType :=
  sys p fun t c => (statat t c false).map (t, ·)

/-- `create_dir`. -/
def createDir (p : Path) : World → World × Io.Result Unit :=
  sys p fun t c => (mkdir t c).map (·, ())

/-- `remove_file`. -/
def removeFile (p : Path) : World → World × Io.Result Unit :=
  sys p fun t c => (unlink t c).map (·, ())

/-- `remove_dir`. -/
def removeDir (p : Path) : World → World × Io.Result Unit :=
  sys p fun t c => (rmdir t c).map (·, ())

/-! ### `create_dir_all` -/

/-- The end of `create_dir_all`, if the directories above are there. -/
def createLast (p : Path) : World × Io.Result Unit → World × Io.Result Unit
  | (w, .error e) => (w, .error e)
  | (w, .ok ()) =>
    match createDir p w with
    | (w, .ok ()) => (w, .ok ())
    | (w, .error e) => if e = .alreadyExists then (w, .ok ()) else (w, .error e)

/-- `create_dir_all`. -/
def createDirAll (p : Path) (w : World) : World × Io.Result Unit :=
  match metadata p w with
  | (w, .ok .dir) => (w, .ok ())
  | (w, _) =>
    createLast p <|
      match _h : Path.parent p with
      | some parent => if parent ≠ [] then createDirAll parent w else (w, .ok ())
      | none => (w, .ok ())
termination_by p.length
decreasing_by exact Path.length_parent_lt _h

/-! ### `remove_dir_all` -/

/-- `DirEntry`; the type is `none` if `d_type` does not tell it. -/
structure DirEntry where
  name : List UInt8
  dType : Option FileType
  parent : Path
deriving DecidableEq

/-- `DirEntry::path`. -/
def DirEntry.path (e : DirEntry) : Path := Path.join e.parent e.name

/-- `DirEntry::file_type`. -/
def DirEntry.fileType (e : DirEntry) (w : World) : World × Io.Result FileType :=
  match e.dType with
  | some t => (w, .ok t)
  | none => symlinkMetadata e.path w

/-- An entry as `ReadDir` gives it: the name is converted with `from_utf8_lossy`. -/
def dirEntry (typed : Loc FileName → Bool) (p : Path) (l : Loc FileName)
    (e : FileName × Node FileName (List UInt8)) : DirEntry where
  name := Utf8.lossy e.1.bytes
  dType := if typed (e.1 :: l) then some (nodeType e.2) else none
  parent := p

/-- `read_dir`, with the entries that are going to be returned, `.` and `..` left out.  That
`ReadDir` makes these of the records of the directory is shown in `Fs/DirListing`. -/
def readDir (p : Path) (w : World) : World × Io.Result (List DirEntry) :=
  sys p (fun t c => (opendir t c).map fun d => (t, d.2.map (dirEntry w.typed p d.1))) w

/-- A call of `ReadDir::next`, where `getdents64` may fail. -/
def nextEntry (w : World) : World × Io.Result Unit :=
  match w.call fun t => .ok (t, ()) with
  | (w, .ok ()) => (w, .ok ())
  | (w, .error e) => (w, .error e.kind)

/-- What a call that may be out of fuel returns. -/
abbrev Outcome := Option (Io.Result Unit)

/-- The body of the loop of `remove_dir_all`; `rec` is the call for a directory below. -/
def removeEntry (rec : Path → World → World × Outcome) (e : DirEntry) (w : World) :
    World × Outcome :=
  match e.fileType w with
  | (w, .error e) => (w, some (.error e))
  | (w, .ok t) =>
    if t = .dir then rec e.path w
    else
      match removeFile e.path w with
      | (w, r) => (w, some r)

/-- The loop of `remove_dir_all`. -/
def removeEntries (rec : Path → World → World × Outcome) : List DirEntry → World → World × Outcome
  | [], w =>
    match nextEntry w with
    | (w, r) => (w, some r)
  | e :: es, w =>
    match nextEntry w with
    | (w, .error err) => (w, some (.error err))
    | (w, .ok ()) =>
      match removeEntry rec e w with
      | (w, some (.ok ())) => removeEntries rec es w
      | r => r

/-- The part of `remove_dir_all` after `read_dir`. -/
def removeOpened (rec : Path → World → World × Outcome) (p : Path) (es : List DirEntry)
    (w : World) : World × Outcome :=
  match removeEntries rec es w with
  | (w, some (.ok ())) =>
    match removeDir p w with
    | (w, r) => (w, some r)
  | r => r

/-- `remove_dir_all`. -/
def removeDirAll : ℕ → Path → World → World × Outcome
  | 0, _, w => (w, none)
  | fuel + 1, p, w =>
    match readDir p w with
    | (w, .error e) => (w, some (.error e))
    | (w, .ok es) => removeOpened (removeDirAll fuel) p es w

end PureStd.Fs
