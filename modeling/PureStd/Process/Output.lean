/-
`Command::output` and `Child::wait_with_output`, `src/process.rs`, beside the child.

Both calls read the child's stdout to its end, then its stderr, then close the child's stdin
and wait; a stream that is not piped is skipped.  The child is any program that writes bytes to
stdout and stderr, reads its stdin and exits, where what it does may depend on what it has read.
A pipe is a bounded queue: a write blocks while it is full, a read while it is empty and its
other end is open.  A write of several bytes is as many writes of one, and a read may return
fewer bytes than are there.

A stream that is not piped is somebody else's: writes to it and reads from it do not wait for
the parent.
-/
import PureStd.Io.Traits
import PureStd.Lib.Transition
import PureStd.Process.Spawn

namespace PureStd.Process

/-- `Output`. -/
structure Output where
  status : ℕ
  stdout : List UInt8
  stderr : List UInt8
deriving DecidableEq, Repr

namespace Output

/-- The streams that a child writes to. -/
inductive Sink where
  | stdout
  | stderr
deriving DecidableEq, Repr

/-- What a child does. -/
inductive Program where
  | exit (status : ℕ)
  | write (sink : Sink) (byte : UInt8) (rest : Program)
  | read (n : ℕ) (rest : List UInt8 → Program)

/-- A program that first writes all of some bytes. -/
def Program.writeAll (sink : Sink) (bytes : List UInt8) (rest : Program) : Program :=
  bytes.foldr (.write sink) rest

/-- How the child was spawned, and the size of the pipes. -/
structure Config where
  io : Stdio
  capacity : ℕ
  capacity_pos : 0 < capacity

/-- The stream is a pipe to the parent. -/
def Config.Piped (c : Config) : Sink → Prop
  | .stdout => c.io.stdout = .piped
  | .stderr => c.io.stderr = .piped

instance (c : Config) : (o : Sink) → Decidable (c.Piped o)
  | .stdout => inferInstanceAs (Decidable (c.io.stdout = .piped))
  | .stderr => inferInstanceAs (Decidable (c.io.stderr = .piped))

/-- The child. -/
inductive Proc where
  | running (p : Program)
  | exited (status : ℕ)

/-- Where the parent is: in one of the two calls of `read_to_end`, in `wait4`, or done. -/
inductive Phase where
  | stdout
  | stderr
  | wait
  | returned (r : Io.Result Output)

/-- Both processes, and the pipes between them. -/
structure State where
  child : Proc
  phase : Phase
  /-- The parent has `Child::stdin` open. -/
  held : Bool
  /-- The bytes in the pipes. -/
  stdin : List UInt8
  stdout : List UInt8
  stderr : List UInt8
  /-- What the parent has read. -/
  out : List UInt8
  err : List UInt8

namespace State

/-- The bytes in the pipe of a stream. -/
def pipe (s : State) : Sink → List UInt8
  | .stdout => s.stdout
  | .stderr => s.stderr

/-- The child has written a byte into a pipe, and goes on with `p`. -/
def put (s : State) (o : Sink) (b : UInt8) (p : Program) : State :=
  match o with
  | .stdout => { s with child := .running p, stdout := s.stdout ++ [b] }
  | .stderr => { s with child := .running p, stderr := s.stderr ++ [b] }

/-- The parent returns, and drops what it still has of the child. -/
def leave (s : State) (r : Io.Result Output) : State :=
  { s with phase := .returned r, held := false }

end State

/-- The parent has its end of a stream's pipe still open. -/
def Phase.Open : Phase → Sink → Prop
  | .stdout, _ => True
  | .stderr, .stderr => True
  | _, _ => False

/-- A read of up to `n` bytes from a stdin with `buf` in its pipe returns `bs` and leaves
`rest`. -/
inductive Reads (kind : StdioKind) (held : Bool) :
    ℕ → List UInt8 → List UInt8 → List UInt8 → Prop where
  | nothing (buf : List UInt8) : Reads kind held 0 buf [] buf
  | elsewhere {n : ℕ} {bs : List UInt8} (buf : List UInt8) (hkind : kind = .inherit)
      (hlen : bs.length ≤ n) : Reads kind held n buf bs buf
  | null {n : ℕ} (buf : List UInt8) (hkind : kind = .null) : Reads kind held n buf [] buf
  | bytes {n : ℕ} {bs : List UInt8} (rest : List UInt8) (hkind : kind = .piped) (hne : bs ≠ [])
      (hlen : bs.length ≤ n) : Reads kind held n (bs ++ rest) bs rest
  | eof {n : ℕ} (hkind : kind = .piped) (hheld : held = false) : Reads kind held n [] [] []

/-- The size of the buffer of `read_to_end`. -/
def chunk : ℕ := 4096

/-- The parent is in a system call. -/
def InCall (c : Config) (s : State) : Prop :=
  s.phase = .stdout ∧ c.Piped .stdout ∨ s.phase = .stderr ∧ c.Piped .stderr ∨ s.phase = .wait

/-- One step of either process. -/
inductive Step (c : Config) (s : State) : State → Prop where
  /-- The child exits, which closes its ends of the pipes. -/
  | exit {status : ℕ} (h : s.child = .running (.exit status)) :
      Step c s { s with child := .exited status }
  | write {o : Sink} {b : UInt8} {p : Program} (h : s.child = .running (.write o b p))
      (hpiped : c.Piped o) (hopen : s.phase.Open o) (hroom : (s.pipe o).length < c.capacity) :
      Step c s (s.put o b p)
  | writeElsewhere {o : Sink} {b : UInt8} {p : Program} (h : s.child = .running (.write o b p))
      (hpiped : ¬ c.Piped o) : Step c s { s with child := .running p }
  /-- The pipe has no reader any more: the child goes on with an error. -/
  | writeBroken {o : Sink} {b : UInt8} {p : Program} (h : s.child = .running (.write o b p))
      (hpiped : c.Piped o) (hopen : ¬ s.phase.Open o) : Step c s { s with child := .running p }
  /-- The pipe has no reader any more: the child is killed. -/
  | writeKilled {o : Sink} {b : UInt8} {p : Program} (status : ℕ)
      (h : s.child = .running (.write o b p)) (hpiped : c.Piped o) (hopen : ¬ s.phase.Open o) :
      Step c s { s with child := .exited status }
  | read {n : ℕ} {k : List UInt8 → Program} {bs rest : List UInt8}
      (h : s.child = .running (.read n k)) (hreads : Reads c.io.stdin s.held n s.stdin bs rest) :
      Step c s { s with child := .running (k bs), stdin := rest }
  /-- `child.stdout` is `None`. -/
  | skipStdout (h : s.phase = .stdout) (hpiped : ¬ c.Piped .stdout) :
      Step c s { s with phase := .stderr }
  | readStdout {bs rest : List UInt8} (h : s.phase = .stdout) (hpiped : c.Piped .stdout)
      (hbuf : s.stdout = bs ++ rest) (hne : bs ≠ []) (hlen : bs.length ≤ chunk) :
      Step c s { s with stdout := rest, out := s.out ++ bs }
  | stdoutEof {status : ℕ} (h : s.phase = .stdout) (hpiped : c.Piped .stdout)
      (hbuf : s.stdout = []) (hchild : s.child = .exited status) :
      Step c s { s with phase := .stderr }
  /-- `child.stderr` is `None`; `wait` closes stdin first. -/
  | skipStderr (h : s.phase = .stderr) (hpiped : ¬ c.Piped .stderr) :
      Step c s { s with phase := .wait, held := false }
  | readStderr {bs rest : List UInt8} (h : s.phase = .stderr) (hpiped : c.Piped .stderr)
      (hbuf : s.stderr = bs ++ rest) (hne : bs ≠ []) (hlen : bs.length ≤ chunk) :
      Step c s { s with stderr := rest, err := s.err ++ bs }
  | stderrEof {status : ℕ} (h : s.phase = .stderr) (hpiped : c.Piped .stderr)
      (hbuf : s.stderr = []) (hchild : s.child = .exited status) :
      Step c s { s with phase := .wait, held := false }
  | reap {status : ℕ} (h : s.phase = .wait) (hchild : s.child = .exited status) :
      Step c s (s.leave (.ok ⟨status, s.out, s.err⟩))
  /-- A system call of the parent is interrupted and made again. -/
  | interrupted (h : InCall c s) : Step c s s
  /-- A system call of the parent fails. -/
  | fails {e : Io.ErrorKind} (h : InCall c s) (he : e ≠ .interrupted) :
      Step c s (s.leave (.error e))

/-- A call of `wait_with_output` starts with a child that may have run for a while: there may
be bytes in the pipes, and stdin may have been closed before. -/
structure Start (c : Config) (s : State) : Prop where
  phase : s.phase = .stdout
  room : ∀ o, c.Piped o → (s.pipe o).length ≤ c.capacity
  held : s.held = true → c.io.stdin = .piped

/-- `Command::output` sets the two streams up itself. -/
def outputConfig (cmd : Command) (capacity : ℕ) (h : 0 < capacity) : Config where
  io := { cmd.stdio with stdout := .piped, stderr := .piped }
  capacity := capacity
  capacity_pos := h

/-- `Command::output` reads as soon as the child has been spawned. -/
def outputStart (cmd : Command) (p : Program) : State where
  child := .running p
  phase := .stdout
  held := cmd.stdin = .piped
  stdin := []
  stdout := []
  stderr := []
  out := []
  err := []

/-! ### Deadlocks -/

/-- The parent waits for bytes or for the exit of the child. -/
def ParentBlocked (c : Config) (s : State) : Prop :=
  (∃ p, s.child = .running p) ∧
    (s.phase = .stdout ∧ c.Piped .stdout ∧ s.stdout = [] ∨
      s.phase = .stderr ∧ c.Piped .stderr ∧ s.stderr = [] ∨ s.phase = .wait)

/-- The child waits for room in a pipe that only the parent empties, or for bytes or the end of
a pipe that only the parent can write to. -/
def ChildBlocked (c : Config) (s : State) : Prop :=
  (∃ o b p, s.child = .running (.write o b p) ∧ c.Piped o ∧ c.capacity ≤ (s.pipe o).length) ∨
    ∃ n k, s.child = .running (.read n k) ∧ 0 < n ∧ c.io.stdin = .piped ∧ s.stdin = [] ∧
      s.held = true

def Deadlocked (c : Config) (s : State) : Prop := ParentBlocked c s ∧ ChildBlocked c s

/-- No run of the two processes gets into a deadlock. -/
def NeverDeadlocks (c : Config) (s : State) : Prop :=
  ∀ s', Reachable (· = s) (Step c) s' → ¬ Deadlocked c s'

/-- The child alone gets to a point where it stalls, if its stderr holds `n` bytes and its stdin
`buf`: it writes to a full stderr while the parent still reads stdout, or it reads from an
empty stdin that the parent will close only after it has read to the end of the child's
output. -/
inductive Stalls (c : Config) (held : Bool) : ℕ → List UInt8 → Program → Prop where
  | stderrFull {n : ℕ} {buf : List UInt8} {b : UInt8} {p : Program} (hout : c.Piped .stdout)
      (herr : c.Piped .stderr) (hfull : c.capacity ≤ n) : Stalls c held n buf (.write .stderr b p)
  | stdinHeld {n m : ℕ} {k : List UInt8 → Program} (hreads : c.Piped .stdout ∨ c.Piped .stderr)
      (hstdin : c.io.stdin = .piped) (hheld : held = true) (hm : 0 < m) :
      Stalls c held n [] (.read m k)
  | stdout {n : ℕ} {buf : List UInt8} {b : UInt8} {p : Program} (h : Stalls c held n buf p) :
      Stalls c held n buf (.write .stdout b p)
  | stderr {n : ℕ} {buf : List UInt8} {b : UInt8} {p : Program} (h : Stalls c held (n + 1) buf p) :
      Stalls c held n buf (.write .stderr b p)
  | read {n m : ℕ} {buf bs rest : List UInt8} {k : List UInt8 → Program}
      (hreads : Reads c.io.stdin held m buf bs rest) (h : Stalls c held n rest (k bs)) :
      Stalls c held n buf (.read m k)

/-- The child of a state stalls. -/
def ChildStalls (c : Config) (s : State) : Prop :=
  ∃ p, s.child = .running p ∧ Stalls c s.held s.stderr.length s.stdin p

end Output

end PureStd.Process
