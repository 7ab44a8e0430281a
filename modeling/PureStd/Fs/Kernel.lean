/-
The system calls on paths that `src/fs.rs` uses.

The kernel cuts a path into components, walks them through the tree from the root or from the
working directory, and replaces at most 40 links.  A trailing slash asks for a directory, as a
last component `.` does.  Calls that make or remove an entry walk all components but the last
and then look at the last one itself.

`call` is one system call of a program among other processes: before it, others may have made
directories, and it may fail for a reason of its own.
-/
import PureStd.Env
import PureStd.Io.Traits
import PureStd.Lib.FileTree
import PureStd.Path

namespace PureStd.Fs

open FileTree Env

/-! ### Error numbers -/

abbrev Errno := ℕ

namespace Errno

def noent : Errno := 2
def busy : Errno := 16
def exist : Errno := 17
def notdir : Errno := 20
def isdir : Errno := 21
def inval : Errno := 22
def notempty : Errno := 39
def loop : Errno := 40

/-- `errno_kind`, where the numbers are those of Linux. -/
def kind (c : Errno) : Io.ErrorKind :=
  match c with
  | 1 => .permissionDenied
  | 2 => .notFound
  | 4 => .interrupted
  | 13 => .permissionDenied
  | 17 => .alreadyExists
  | 22 => .invalidInput
  | 32 => .brokenPipe
  | 11 => .wouldBlock
  | 111 => .connectionRefused
  | 104 => .connectionReset
  | 103 => .connectionAborted
  | 107 => .notConnected
  | 98 => .addrInUse
  | 99 => .addrNotAvailable
  | 110 => .timedOut
  | 38 => .unsupported
  | _ => .other

def ofWalk : WalkError → Errno
  | .noEntry => noent
  | .notDir => notdir
  | .loop => loop

end Errno

/-! ### Names and paths -/

def dot : List UInt8 := [46]
def dotdot : List UInt8 := [46, 46]

/-- The bytes may be the name of an entry. -/
def Proper (bs : List UInt8) : Prop :=
  bs ≠ [] ∧ Path.sep ∉ bs ∧ 0 ∉ bs ∧ bs ≠ dot ∧ bs ≠ dotdot

instance (bs : List UInt8) : Decidable (Proper bs) := inferInstanceAs (Decidable (_ ∧ _))

/-- The name of an entry of a directory. -/
@[ext] structure FileName where
  bytes : List UInt8
  proper : Proper bytes
deriving DecidableEq

abbrev Tree := FileTree FileName (List UInt8)

/-- What a piece of a path stands for.  A piece with a NUL stands for nothing, but paths do not
have one. -/
def comp (piece : List UInt8) : Option (Comp FileName) :=
  if piece = dot then some .self
  else if piece = dotdot then some .up
  else if h : Proper piece then some (.name ⟨piece, h⟩)
  else none

/-- The components of a path. -/
def comps (p : Path) : List (Comp FileName) := (Path.pieces p).filterMap comp

/-- Where the walk of a path starts. -/
def start (t : Tree) (p : Path) : Loc FileName := if p.head? = some Path.sep then [] else t.cwd

/-- What a trailing slash asks for. -/
def trailing (p : Path) : List (Comp FileName) :=
  if p.getLast? = some Path.sep then [.self] else []

def maxLinks : ℕ := 40

/-- The location that a path names. -/
def lookup (t : Tree) (follow : Bool) (p : Path) : Except Errno (Loc FileName) :=
  if p = [] then .error .noent else
    match t.walk follow maxLinks (start t p) (comps p ++ trailing p) with
    | .ok (l, _) => .ok l
    | .error e => .error (.ofWalk e)

/-- The last component of a path. -/
inductive Last where
  | root
  | self
  | up
  | entry (l : Loc FileName) (n : FileName)
deriving DecidableEq

/-- The walk of all components but the last. -/
def lookupParent (t : Tree) (p : Path) : Except Errno Last :=
  match (comps p).getLast? with
  | none => if p = [] then .error .noent else .ok .root
  | some c =>
    match t.walk true maxLinks (start t p) ((comps p).dropLast ++ [.self]) with
    | .error e => .error (.ofWalk e)
    | .ok (l, _) =>
      match c with
      | .self => .ok .self
      | .up => .ok .up
      | .name n => .ok (.entry l n)

/-! ### System calls -/

/-- What `stat` says about a file. -/
inductive FileType where
  | dir
  | file
  | symlink
deriving DecidableEq, Repr

def nodeType : Node FileName (List UInt8) → FileType
  | .dir => .dir
  | .file _ => .file
  | .link _ => .symlink

/-- What stands where a walk has arrived; a working directory that was removed is still a
directory. -/
def typeAt (t : Tree) (l : Loc FileName) : FileType := ((t.get l).map nodeType).getD .dir

def statat (t : Tree) (p : Path) (follow : Bool) : Except Errno FileType :=
  (lookup t follow p).map (typeAt t)

/-- `open` and `getdents64`: the location that was opened and its entries; a file can be opened,
but has no entries to read. -/
def opendir (t : Tree) (p : Path) :
    Except Errno (Loc FileName × List (FileName × Node FileName (List UInt8))) :=
  match lookup t true p with
  | .error e => .error e
  | .ok l => if t.Passable l then .ok (l, t.listing l) else .error .notdir

def mkdir (t : Tree) (p : Path) : Except Errno Tree :=
  match lookupParent t p with
  | .error e => .error e
  | .ok (.entry l n) =>
    if t.get (n :: l) ≠ none then .error .exist
    -- nothing is made in a directory that was removed
    else if t.get l = some .dir then .ok (t.makeDir n l)
    else .error .noent
  | .ok _ => .error .exist

def unlink (t : Tree) (p : Path) : Except Errno Tree :=
  match lookupParent t p with
  | .error e => .error e
  | .ok (.entry l n) =>
    match t.get (n :: l) with
    | none => .error .noent
    | some .dir => .error .isdir
    | some _ => if p.getLast? = some Path.sep then .error .notdir else .ok (t.remove (n :: l))
  | .ok _ => .error .isdir

def rmdir (t : Tree) (p : Path) : Except Errno Tree :=
  match lookupParent t p with
  | .error e => .error e
  | .ok (.entry l n) =>
    match t.get (n :: l) with
    | none => .error .noent
    | some .dir =>
      if t.listing (n :: l) = [] then .ok (t.remove (n :: l)) else .error .notempty
    | some _ => .error .notdir
  | .ok .root => .error .busy
  | .ok .self => .error .inval
  | .ok .up => .error .notempty

/-! ### Calls among other processes -/

/-- A reason for a call to fail that is not in the tree. -/
abbrev Fault := { e : Errno // e ≠ Errno.exist }

/-- What happens at a call: the directories that others make before it, each given by its
name and place, and whether it fails. -/
structure Turn where
  others : List (FileName × Loc FileName)
  fault : Option Fault

/-- The tree, what happens at the next calls (nothing, when there are no more turns), and the
entries whose type is told by the listing of their directory. -/
structure World where
  tree : Tree
  turns : List Turn
  typed : Loc FileName → Bool

def makeDirs (t : Tree) (ds : List (FileName × Loc FileName)) : Tree :=
  ds.foldl (fun t d => t.makeDir d.1 d.2) t

/-- The world after a turn, and the fault of it. -/
def World.pop (w : World) : World × Option Fault :=
  match w.turns with
  | [] => (w, none)
  | turn :: turns => ({ w with tree := makeDirs w.tree turn.others, turns }, turn.fault)

/-- A system call. -/
def World.call {α : Type} (w : World) (op : Tree → Except Errno (Tree × α)) :
    World × Except Errno α :=
  match w.pop with
  | (w, some e) => (w, .error e.1)
  | (w, none) =>
    match op w.tree with
    | .error e => (w, .error e)
    | .ok (tree, a) => ({ w with tree }, .ok a)

end PureStd.Fs
