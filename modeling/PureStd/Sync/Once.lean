/-
`Once`, `OnceLock` and `LazyLock` of `src/sync.rs`.

All three go through `Once::call_once`, with a closure that fills a cell.  The kind of the
cell says which functions there are.  A closure may run for any time and end with any
value; a panic in it aborts the process, so it has no step.  Code that a closure calls on
the same cell is the code of another thread here, which allows more.

The history is recorded next to the fields of the source: the calls and their answers, the
closures that `call_once` has run, and the calls that have filled the cell.
-/
import PureStd.Lib.Machine

namespace PureStd.Sync.Once

variable {Tid V : Type*}

/-- `INCOMPLETE`. -/
def incomplete : UInt8 := 0

/-- `RUNNING`. -/
def running : UInt8 := 1

/-- `COMPLETE`. -/
def complete : UInt8 := 2

/-- The type of the cell. -/
inductive Kind where
  | once
  | onceLock
  | lazyLock
deriving DecidableEq, Repr

/-- A function that calls `call_once`. -/
inductive Job (V : Type*) where
  /-- `Once::call_once` itself. -/
  | callOnce
  /-- `OnceLock::set`: the argument, and the local variable `value`. -/
  | set (arg : V) (value : Option V)
  /-- `OnceLock::get_or_init`. -/
  | getOrInit
  /-- `LazyLock::force`. -/
  | force
deriving DecidableEq, Repr

/-- The functions of a type. -/
def Kind.has : Kind → Job V → Bool
  | once, .callOnce => true
  | onceLock, .set _ _ => true
  | onceLock, .getOrInit => true
  | lazyLock, .force => true
  | _, _ => false

/-- What a call returns. -/
inductive Answer (V : Type*) where
  | callOnce
  | set (arg : V) (r : Except V Unit)
  | get (r : Option V)
  | getOrInit (v : V)
  | force (v : V)

/-- Where a thread is: in the call number `i` of `job`. -/
inductive Pc (V : Type*) where
  | idle
  /-- `call_once`: the first `state.load()`. -/
  | load (i : ℕ) (job : Job V)
  /-- `call_once`: `compare_exchange(INCOMPLETE, RUNNING)`. -/
  | cas (i : ℕ) (job : Job V)
  /-- `call_once`: `f()` begins. -/
  | body (i : ℕ) (job : Job V)
  /-- The closure of the program runs. -/
  | inside (i : ℕ) (job : Job V)
  /-- `*self.value.get() = Some(v)`. -/
  | write (i : ℕ) (job : Job V) (v : V)
  /-- `call_once`: `state.store(COMPLETE)`. -/
  | store (i : ℕ) (job : Job V)
  /-- `call_once`: `state.load()` in the loop. -/
  | spin (i : ℕ) (job : Job V)
  /-- `call_once` has returned. -/
  | after (i : ℕ) (job : Job V)
  /-- `get`: `is_completed`. -/
  | getLoad (i : ℕ)
  /-- `get`: `(*self.value.get()).as_ref()`. -/
  | getRead (i : ℕ)
  /-- The program has the answer. -/
  | returned (a : Answer V)
  /-- An `unwrap` has met a `None`. -/
  | panicked

/-- A cell and its history. -/
structure Cell (Tid V : Type*) where
  /-- `Once::state`. -/
  state : UInt8
  value : Option V
  /-- `LazyLock::init` is `Some`. -/
  init : Bool
  /-- The threads that made the calls. -/
  calls : List Tid
  /-- The number of closures that `call_once` has begun to run. -/
  runs : ℕ
  /-- The thread that has run one. -/
  runner : Option Tid
  /-- The closure has ended. -/
  done : Bool
  /-- The calls that have filled the cell. -/
  suppliers : List ℕ
  /-- The calls that have returned, with their answers. -/
  answers : List (ℕ × Answer V)

/-- `Once::new`, `OnceLock::new`, `LazyLock::new`. -/
def Cell.new (k : Kind) : Cell Tid V where
  state := incomplete
  value := none
  init := k = .lazyLock
  calls := []
  runs := 0
  runner := none
  done := false
  suppliers := []
  answers := []

/-- A call returns. -/
def Cell.ret (d : Cell Tid V) (i : ℕ) (a : Answer V) : Pc V × Cell Tid V :=
  (.returned a, { d with answers := d.answers ++ [(i, a)] })

/-- A call fills the cell; that is the end of its closure. -/
def Cell.fill (d : Cell Tid V) (i : ℕ) (value : Option V) : Cell Tid V :=
  { d with value := value, done := true, suppliers := d.suppliers ++ [i] }

/-- The closure that a call gives to `call_once` begins. -/
def Cell.enter (d : Cell Tid V) (i : ℕ) : Job V → Pc V × Cell Tid V
  | .callOnce => (.inside i .callOnce, d)
  -- `*self.value.get() = value.take()`
  | .set arg value => (.store i (.set arg none), d.fill i value)
  | .getOrInit => (.inside i .getOrInit, d)
  -- `(*this.init.get()).take().unwrap()`
  | .force => if d.init then (.inside i .force, { d with init := false }) else (.panicked, d)

/-- `(*self.value.get()).as_ref().unwrap()`. -/
def Cell.unwrap (d : Cell Tid V) (i : ℕ) (answer : V → Answer V) : Pc V × Cell Tid V :=
  match d.value with
  | some v => d.ret i (answer v)
  | none => (.panicked, d)

/-- What a call does after `call_once`. -/
def Cell.leave (d : Cell Tid V) (i : ℕ) : Job V → Pc V × Cell Tid V
  | .callOnce => d.ret i .callOnce
  | .set arg none => d.ret i (.set arg (.ok ()))
  | .set arg (some v) => d.ret i (.set arg (.error v))
  | .getOrInit => d.unwrap i .getOrInit
  | .force => d.unwrap i .force

/-- The operations on the cell. -/
def exec (t : Tid) : Pc V → Cell Tid V → Option (Pc V × Cell Tid V)
  | .load i job, d => some (if d.state = complete then .after i job else .cas i job, d)
  | .cas i job, d =>
    some (if d.state = incomplete then
      (.body i job, { d with state := running, runs := d.runs + 1, runner := some t })
    else (.spin i job, d))
  | .body i job, d => some (d.enter i job)
  | .write i job v, d => some (.store i job, d.fill i (some v))
  | .store i job, d => some (.after i job, { d with state := complete })
  | .spin i job, d => some (if d.state = complete then .after i job else .spin i job, d)
  | .after i job, d => some (d.leave i job)
  | .getLoad i, d => some (if d.state = complete then (.getRead i, d) else d.ret i (.get none))
  | .getRead i, d => some (d.ret i (.get d.value))
  | _, _ => none

/-- What a thread may do. -/
inductive Choice (V : Type*) where
  | callOnce
  | set (arg : V)
  | get
  | getOrInit
  | force
  /-- The closure of `call_once` returns. -/
  | finish
  /-- The closure of `get_or_init` or of `LazyLock` returns a value. -/
  | produce (v : V)
  /-- The program goes on after a call. -/
  | resume

/-- A call begins, if there is such a function. -/
def Cell.begin (d : Cell Tid V) (k : Kind) (t : Tid) (job : Job V) : Option (Pc V × Cell Tid V) :=
  if k.has job then some (.load d.calls.length job, { d with calls := d.calls ++ [t] }) else none

/-- The calls that a thread makes, and the ends of closures. -/
def choose (k : Kind) (t : Tid) : Choice V → Pc V → Cell Tid V → Option (Pc V × Cell Tid V)
  | .callOnce, .idle, d => d.begin k t .callOnce
  | .set arg, .idle, d => d.begin k t (.set arg (some arg))
  | .getOrInit, .idle, d => d.begin k t .getOrInit
  | .force, .idle, d => d.begin k t .force
  | .get, .idle, d =>
    if k = .onceLock then some (.getLoad d.calls.length, { d with calls := d.calls ++ [t] })
    else none
  | .finish, .inside i .callOnce, d => some (.store i .callOnce, { d with done := true })
  | .produce v, .inside i .getOrInit, d => some (.write i .getOrInit v, d)
  | .produce v, .inside i .force, d => some (.write i .force v, d)
  | .resume, .returned _, d => some (.idle, d)
  | _, _, _ => none

/-- Nobody sleeps: `call_once` spins. -/
instance : Sleeper (Pc V) Empty where
  asleepOn _ := none
  awaken pc := pc

/-- Threads that use one cell. -/
def machine (k : Kind) (Tid V : Type*) : Machine Tid (Pc V) Empty (Cell Tid V) (Choice V) where
  start _ := .idle
  init := .new k
  exec := exec
  choose := choose k
  waker _ := none

end PureStd.Sync.Once
