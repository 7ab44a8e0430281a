/-
The descriptors of `Command::spawn`, `src/process.rs`.

`spawn` makes a pipe for each piped stream, forks, and then rearranges the descriptors twice:
the child puts its streams in place (`child_setup_fd`) and executes the program, the parent
closes the child's ends and keeps its own (`parent_keep`).  A fork copies the whole table, and
no descriptor is closed by the execution of a program.

A pipe is known by the spawn it was made for, which has a number of its own, and by its
stream.  The model starts where the first pipe is made: the program, the arguments and the
environment are prepared before, without a descriptor.
-/
import PureStd.Io.Traits
import PureStd.Lib.Descriptors
import PureStd.Process.Command

namespace PureStd.Process

/-- The standard streams. -/
inductive Stream where
  | stdin
  | stdout
  | stderr
deriving DecidableEq, Repr

instance : Fintype Stream where
  elems := {.stdin, .stdout, .stderr}
  complete s := by cases s <;> decide

/-- The ends of a pipe. -/
inductive Side where
  | read
  | write
deriving DecidableEq, Repr

namespace Stream

/-- The number of a stream. -/
def target : Stream → ℕ
  | stdin => 0
  | stdout => 1
  | stderr => 2

/-- The end of a stream's pipe that the child uses. -/
def childSide : Stream → Side
  | stdin => .read
  | stdout | stderr => .write

/-- The end of a stream's pipe that the parent keeps. -/
def parentSide : Stream → Side
  | stdin => .write
  | stdout | stderr => .read

end Stream

/-- What a descriptor refers to. -/
inductive File where
  /-- A file that the process had open. -/
  | other (id : ℕ)
  | devNull
  /-- An end of a pipe of the spawn `owner`. -/
  | pipe (owner : ℕ) (stream : Stream) (side : Side)
deriving DecidableEq, Repr

/-- What a command says about the three streams. -/
structure Stdio where
  stdin : StdioKind
  stdout : StdioKind
  stderr : StdioKind
deriving DecidableEq, Repr

def Stdio.kind (io : Stdio) : Stream → StdioKind
  | .stdin => io.stdin
  | .stdout => io.stdout
  | .stderr => io.stderr

def Command.stdio (c : Command) : Stdio := ⟨c.stdin, c.stdout, c.stderr⟩

/-- `PipePair`. -/
structure PipePair where
  parent : ℕ
  child : ℕ
deriving DecidableEq, Repr

/-- The pipes of a spawn. -/
structure Pipes where
  stdin : Option PipePair
  stdout : Option PipePair
  stderr : Option PipePair
deriving DecidableEq, Repr

/-- `Child`, by the descriptors of its handles. -/
structure Child where
  stdin : Option ℕ
  stdout : Option ℕ
  stderr : Option ℕ
deriving DecidableEq, Repr

def Child.handle (c : Child) : Stream → Option ℕ
  | .stdin => c.stdin
  | .stdout => c.stdout
  | .stderr => c.stderr

/-- The system calls of a spawn that fail. -/
structure Faults where
  stdin : Option Io.ErrorKind
  stdout : Option Io.ErrorKind
  stderr : Option Io.ErrorKind
  fork : Option Io.ErrorKind
  /-- The child cannot open `/dev/null` for the stream. -/
  devNull : Stream → Bool

/-- All system calls succeed. -/
def Faults.none : Faults := ⟨.none, .none, .none, .none, fun _ => false⟩

/-- `make_pipe`; the fault is that of `pipe`. -/
def makePipe (owner : ℕ) (s : Stream) (kind : StdioKind) (fault : Option Io.ErrorKind)
    (t : FdTable File) : FdTable File × Io.Result (Option PipePair) :=
  if kind ≠ .piped then (t, .ok none) else
    match fault with
    | some e => (t, .error e)
    | none =>
      let r := t.install (.pipe owner s .read)
      let w := r.1.install (.pipe owner s .write)
      (w.1, .ok (some (if s = .stdin then ⟨w.2, r.2⟩ else ⟨r.2, w.2⟩)))

/-- The three calls of `make_pipe`. -/
def openPipes (owner : ℕ) (io : Stdio) (f : Faults) (t : FdTable File) :
    FdTable File × Io.Result Pipes :=
  match makePipe owner .stdin io.stdin f.stdin t with
  | (t, .error e) => (t, .error e)
  | (t, .ok stdin) =>
    match makePipe owner .stdout io.stdout f.stdout t with
    | (t, .error e) => (t, .error e)
    | (t, .ok stdout) =>
      match makePipe owner .stderr io.stderr f.stderr t with
      | (t, .error e) => (t, .error e)
      | (t, .ok stderr) => (t, .ok ⟨stdin, stdout, stderr⟩)

/-- `child_setup_fd`. -/
def childSetupFd (s : Stream) (kind : StdioKind) (pipe : Option PipePair) (noDevNull : Bool)
    (t : FdTable File) : FdTable File :=
  match kind with
  | .inherit => t
  | .null =>
    if noDevNull then t else
      let d := t.install .devNull
      (d.1.dup2 d.2 s.target).close d.2
  | .piped =>
    match pipe with
    | none => t
    | some p => ((t.dup2 p.child s.target).close p.child).close p.parent

/-- The table of the child when it executes the program. -/
def childTable (io : Stdio) (pipes : Pipes) (noDevNull : Stream → Bool) (t : FdTable File) :
    FdTable File :=
  childSetupFd .stderr io.stderr pipes.stderr (noDevNull .stderr)
    (childSetupFd .stdout io.stdout pipes.stdout (noDevNull .stdout)
      (childSetupFd .stdin io.stdin pipes.stdin (noDevNull .stdin) t))

/-- `parent_keep`. -/
def parentKeep (kind : StdioKind) (pipe : Option PipePair) (t : FdTable File) :
    FdTable File × Option ℕ :=
  if kind = .piped then
    match pipe with
    | some p => (t.close p.child, some p.parent)
    | none => (t, none)
  else (t, none)

/-- The parent's side after the fork. -/
def parentTable (io : Stdio) (pipes : Pipes) (t : FdTable File) : FdTable File × Child :=
  let stdin := parentKeep io.stdin pipes.stdin t
  let stdout := parentKeep io.stdout pipes.stdout stdin.1
  let stderr := parentKeep io.stderr pipes.stderr stdout.1
  (stderr.1, ⟨stdin.2, stdout.2, stderr.2⟩)

/-- What a spawn leaves: the table of the parent, that of the child when it executes the
program, and what is returned. -/
structure Spawned where
  parent : FdTable File
  child : Option (FdTable File)
  result : Io.Result Child

/-- `Command::spawn`. -/
def spawn (owner : ℕ) (io : Stdio) (f : Faults) (t : FdTable File) : Spawned :=
  match openPipes owner io f t with
  | (t, .error e) => ⟨t, none, .error e⟩
  | (t, .ok pipes) =>
    match f.fork with
    | some e => ⟨t, none, .error e⟩
    | none =>
      ⟨(parentTable io pipes t).1, some (childTable io pipes f.devNull t),
        .ok (parentTable io pipes t).2⟩

/-- A table with 0, 1 and 2 open. -/
def openTable : FdTable File := ⟨[some (.other 0), some (.other 1), some (.other 2)]⟩

end PureStd.Process
