/-
`Mutex` and `Condvar` of `src/sync.rs`, with any program on top.

Every atomic operation of the source is one step.  A thread is either in the program
that uses the mutex (`Pc.run`) or inside one of the functions of `sync.rs`; then `Pc`
says which atomic operation comes next and where the function returns to.  The
operations are executable (`Pc.exec`); what is left to chance is the schedule, the
choices of the program, the thread that `futex_wake` picks, and spurious wake-ups.  Steps are
sequentially consistent: every thread sees an operation as soon as it is made.  The words are
changed by read-modify-write operations only, never by a plain store.

A program is a `Client`.  It has control states of type `κ`, and data of type `D`, on
which its own atomic steps act.  A guard is an asset of the thread that holds it: only
with a guard can a thread drop a guard or call `Condvar::wait`.  The guard type of the
source is `Send`, so a program may also hand a guard to another thread.
-/
import PureStd.Lib.Futex
import PureStd.Lib.Transition

namespace PureStd.Sync

/-- A word on whose address a thread can sleep: the state of the mutex, or the sequence
of a condition variable. -/
inductive Addr (ι : Type*) where
  | mutex
  | seq (cv : ι)
deriving DecidableEq, Repr

/-- The atomic words of a mutex and of condition variables indexed by `ι`. -/
@[ext] structure Words (ι : Type*) where
  /-- `Mutex::state`: 0 unlocked, 1 locked, 2 locked with waiters. -/
  mutex : UInt32
  /-- `Condvar::seq`. -/
  seq : ι → UInt32

/-- A call of the program. -/
inductive Call (ι : Type*) where
  /-- `Mutex::lock`. -/
  | lock
  /-- `Mutex::try_lock`. -/
  | tryLock
  /-- The drop of a `MutexGuard`. -/
  | unlock
  /-- `Condvar::wait`. -/
  | wait (cv : ι)
  /-- `Condvar::notify_one`, or `Condvar::notify_all`. -/
  | notify (all : Bool) (cv : ι)

/-- The call takes a guard. -/
def Call.takesGuard {ι : Type*} : Call ι → Bool
  | unlock => true
  | wait _ => true
  | _ => false

/-- What comes after `raw_unlock`. -/
inductive Cont (ι κ : Type*) where
  /-- The program, after the drop of a guard. -/
  | ret (k : κ)
  /-- `futex_wait(&self.seq, seq)` in `Condvar::wait`. -/
  | sleepOn (cv : ι) (seq : UInt32) (k : κ)

/-- Where a thread is.  The last argument is where the function returns to. -/
inductive Pc (ι κ : Type*) where
  /-- In the program. -/
  | run (k : κ)
  /-- `raw_lock`: `compare_exchange(0, 1)`. -/
  | lockCas (k : κ)
  /-- `raw_lock`: `swap(2)`. -/
  | lockSwap (k : κ)
  /-- `raw_lock`: `futex_wait(&self.state, 2)`. -/
  | lockWait (w : WaitPc) (k : κ)
  /-- `try_lock`: `compare_exchange(0, 1)`. -/
  | tryCas (k : Bool → κ)
  /-- `raw_unlock`: `swap(0)`. -/
  | unlockSwap (c : Cont ι κ)
  /-- `raw_unlock`: `futex_wake(&self.state)`. -/
  | unlockWake (c : Cont ι κ)
  /-- `Condvar::wait`: `self.seq.load()`. -/
  | cvLoad (cv : ι) (k : κ)
  /-- `Condvar::wait`: `futex_wait(&self.seq, seq)`. -/
  | cvWait (w : WaitPc) (cv : ι) (seq : UInt32) (k : κ)
  /-- `notify_one`, `notify_all`: `self.seq.fetch_add(1)`. -/
  | notifyAdd (all : Bool) (cv : ι) (k : κ)
  /-- `notify_one`, `notify_all`: `futex_wake(&self.seq)` or `futex_wake_all`. -/
  | notifyWake (all : Bool) (cv : ι) (k : κ)

section Exec

variable {ι κ : Type*}

/-- The first operation of a call; `k` is the program after it, given what `try_lock`
returned. -/
def Call.enter (k : Bool → κ) : Call ι → Pc ι κ
  | lock => .lockCas (k true)
  | tryLock => .tryCas k
  | unlock => .unlockSwap (.ret (k true))
  | wait cv => .cvLoad cv (k true)
  | notify all cv => .notifyAdd all cv (k true)

/-- Where a thread goes on after `raw_unlock`. -/
def Cont.resume : Cont ι κ → Pc ι κ
  | ret k => .run k
  | sleepOn cv seq k => .cvWait .load cv seq k

/-- The next operation of a thread inside a function of `sync.rs`: the words and the
position after it, and the number of guards the program gets.  A thread in the program,
in the kernel or about to call `futex_wake` has no such operation. -/
def Pc.exec [DecidableEq ι] (m : Words ι) : Pc ι κ → Option (Words ι × Pc ι κ × ℕ)
  | lockCas k =>
    if m.mutex = 0 then some ({ m with mutex := 1 }, run k, 1) else some (m, lockSwap k, 0)
  | lockSwap k =>
    if m.mutex = 0 then some ({ m with mutex := 2 }, run k, 1)
    else some ({ m with mutex := 2 }, lockWait .load k, 0)
  | lockWait w k => (w.exec m.mutex 2).map fun w =>
    (m, if w = .done then lockSwap k else lockWait w k, 0)
  | tryCas k =>
    if m.mutex = 0 then some ({ m with mutex := 1 }, run (k true), 1)
    else some (m, run (k false), 0)
  | unlockSwap c =>
    some ({ m with mutex := 0 }, if m.mutex = 2 then unlockWake c else c.resume, 0)
  | cvLoad cv k => some (m, unlockSwap (.sleepOn cv (m.seq cv) k), 0)
  | cvWait w cv seq k => (w.exec (m.seq cv) seq).map fun w =>
    (m, if w = .done then lockCas k else cvWait w cv seq k, 0)
  | notifyAdd all cv k =>
    some ({ m with seq := Function.update m.seq cv (m.seq cv + 1) }, notifyWake all cv k, 0)
  | _ => none

/-- The operations inside the functions of `sync.rs`, one for each outcome. -/
inductive Pc.Executes [DecidableEq ι] (m : Words ι) : Pc ι κ → Words ι → Pc ι κ → ℕ → Prop
  | lock (k : κ) (hzero : m.mutex = 0) :
      Executes m (.lockCas k) { m with mutex := 1 } (.run k) 1
  | lockTaken (k : κ) (hne : m.mutex ≠ 0) : Executes m (.lockCas k) m (.lockSwap k) 0
  | swap (k : κ) (hzero : m.mutex = 0) :
      Executes m (.lockSwap k) { m with mutex := 2 } (.run k) 1
  | swapTaken (k : κ) (hne : m.mutex ≠ 0) :
      Executes m (.lockSwap k) { m with mutex := 2 } (.lockWait .load k) 0
  | lockWait (w w' : WaitPc) (k : κ) (hw : w.exec m.mutex 2 = some w') (hwait : w' ≠ .done) :
      Executes m (.lockWait w k) m (.lockWait w' k) 0
  | lockWaited (w : WaitPc) (k : κ) (hw : w.exec m.mutex 2 = some .done) :
      Executes m (.lockWait w k) m (.lockSwap k) 0
  | tryLock (k : Bool → κ) (hzero : m.mutex = 0) :
      Executes m (.tryCas k) { m with mutex := 1 } (.run (k true)) 1
  | tryTaken (k : Bool → κ) (hne : m.mutex ≠ 0) : Executes m (.tryCas k) m (.run (k false)) 0
  | unlock (c : Cont ι κ) (hne : m.mutex ≠ 2) :
      Executes m (.unlockSwap c) { m with mutex := 0 } c.resume 0
  | unlockContended (c : Cont ι κ) (htwo : m.mutex = 2) :
      Executes m (.unlockSwap c) { m with mutex := 0 } (.unlockWake c) 0
  | cvLoad (cv : ι) (k : κ) :
      Executes m (.cvLoad cv k) m (.unlockSwap (.sleepOn cv (m.seq cv) k)) 0
  | cvWait (w w' : WaitPc) (cv : ι) (seq : UInt32) (k : κ)
      (hw : w.exec (m.seq cv) seq = some w') (hwait : w' ≠ .done) :
      Executes m (.cvWait w cv seq k) m (.cvWait w' cv seq k) 0
  | cvWaited (w : WaitPc) (cv : ι) (seq : UInt32) (k : κ)
      (hw : w.exec (m.seq cv) seq = some .done) :
      Executes m (.cvWait w cv seq k) m (.lockCas k) 0
  | notifyAdd (all : Bool) (cv : ι) (k : κ) :
      Executes m (.notifyAdd all cv k)
        { m with seq := Function.update m.seq cv (m.seq cv + 1) } (.notifyWake all cv k) 0

lemma Pc.exec_executes [DecidableEq ι] {m m' : Words ι} {pc pc' : Pc ι κ} {g : ℕ}
    (h : pc.exec m = some (m', pc', g)) : pc.Executes m m' pc' g := by
  cases pc with
  | lockCas k =>
    simp only [exec] at h
    split at h <;> obtain ⟨rfl, rfl, rfl⟩ := by simpa using h
    · exact .lock k ‹_›
    · exact .lockTaken k ‹_›
  | lockSwap k =>
    simp only [exec] at h
    split at h <;> obtain ⟨rfl, rfl, rfl⟩ := by simpa using h
    · exact .swap k ‹_›
    · exact .swapTaken k ‹_›
  | lockWait w k =>
    obtain ⟨w', hw, heq⟩ := Option.map_eq_some_iff.1 h
    obtain ⟨rfl, rfl, rfl⟩ := by simpa using heq
    split
    · exact .lockWaited w k (by rwa [‹w' = .done›] at hw)
    · exact .lockWait w w' k hw ‹_›
  | tryCas k =>
    simp only [exec] at h
    split at h <;> obtain ⟨rfl, rfl, rfl⟩ := by simpa using h
    · exact .tryLock k ‹_›
    · exact .tryTaken k ‹_›
  | unlockSwap c =>
    obtain ⟨rfl, rfl, rfl⟩ := by simpa [exec] using h
    split
    · exact .unlockContended c ‹_›
    · exact .unlock c ‹_›
  | cvLoad cv k =>
    obtain ⟨rfl, rfl, rfl⟩ := by simpa [exec] using h
    exact .cvLoad cv k
  | cvWait w cv seq k =>
    obtain ⟨w', hw, heq⟩ := Option.map_eq_some_iff.1 h
    obtain ⟨rfl, rfl, rfl⟩ := by simpa using heq
    split
    · exact .cvWaited w cv seq k (by rwa [‹w' = .done›] at hw)
    · exact .cvWait w w' cv seq k hw ‹_›
  | notifyAdd all cv k =>
    obtain ⟨rfl, rfl, rfl⟩ := by simpa [exec] using h
    exact .notifyAdd all cv k
  | run | unlockWake | notifyWake => cases h

/-- The `futex_wake` that a thread is about to call: all sleepers or one, the address,
and where the thread goes on. -/
def Pc.waker : Pc ι κ → Option (Bool × Addr ι × Pc ι κ)
  | unlockWake c => some (false, .mutex, c.resume)
  | notifyWake all cv k => some (all, .seq cv, run k)
  | _ => none

instance : Sleeper (Pc ι κ) (Addr ι) where
  asleepOn
    | .lockWait .asleep _ => some .mutex
    | .cvWait .asleep cv _ _ => some (.seq cv)
    | _ => none
  awaken
    | .lockWait _ k => .lockWait .load k
    | .cvWait _ cv seq k => .cvWait .load cv seq k
    | pc => pc

end Exec

/-- A program that uses a mutex and condition variables. -/
structure Client (ι κ D : Type*) where
  /-- How a thread of the program begins. -/
  start : κ → Prop
  /-- The data at the beginning. -/
  init : D → Prop
  /-- An atomic step of the program. -/
  act : κ → D → κ → D → Prop
  /-- The calls that the program makes, and how it goes on. -/
  call : κ → Call ι → (Bool → κ) → Prop
  /-- A thread hands a guard to another one. -/
  give : κ → κ → Prop

/-- The state of all threads, of any number. -/
structure State (Tid ι κ D : Type*) where
  words : Words ι
  data : D
  pc : Tid → Pc ι κ
  /-- The guards that a thread has. -/
  guards : Tid → ℕ

section Step

variable {Tid ι κ D : Type*} [DecidableEq Tid] [DecidableEq ι]

/-- `Mutex::new` and `Condvar::new`. -/
def Words.new : Words ι := ⟨0, fun _ => 0⟩

/-- The beginning. -/
def Client.Starts (C : Client ι κ D) (s : State Tid ι κ D) : Prop :=
  s.words = Words.new ∧ C.init s.data ∧ (∀ t, ∃ k, C.start k ∧ s.pc t = .run k) ∧
    ∀ t, s.guards t = 0

/-- One atomic step of some thread. -/
inductive Client.Step (C : Client ι κ D) : State Tid ι κ D → State Tid ι κ D → Prop
  /-- An operation of a function of `sync.rs`. -/
  | exec {s : State Tid ι κ D} (t : Tid) {m : Words ι} {pc : Pc ι κ} {g : ℕ}
      (h : (s.pc t).exec s.words = some (m, pc, g)) :
      Step C s { s with
        words := m
        pc := Function.update s.pc t pc
        guards := Function.update s.guards t (s.guards t + g) }
  /-- Sleepers wake up. -/
  | rouse {s : State Tid ι κ D} {pc : Tid → Pc ι κ}
      (h : Futex.Rouses (fun _ => Pc.waker) s.pc pc) : Step C s { s with pc := pc }
  /-- A step of the program. -/
  | act {s : State Tid ι κ D} (t : Tid) {k k' : κ} {d : D} (h : s.pc t = .run k)
      (hact : C.act k s.data k' d) :
      Step C s { s with data := d, pc := Function.update s.pc t (.run k') }
  /-- The program calls a function of `sync.rs`. -/
  | call {s : State Tid ι κ D} (t : Tid) {k : κ} {c : Call ι} {k' : Bool → κ}
      (h : s.pc t = .run k) (hcall : C.call k c k')
      (hguard : c.takesGuard = true → 0 < s.guards t) :
      Step C s { s with
        pc := Function.update s.pc t (c.enter k')
        guards := Function.update s.guards t (s.guards t - c.takesGuard.toNat) }
  /-- A thread hands a guard to another one. -/
  | give {s : State Tid ι κ D} (t u : Tid) {k k' : κ} (htu : t ≠ u) (h : s.pc t = .run k)
      (h' : s.pc u = .run k') (hgive : C.give k k') (hguard : 0 < s.guards t) :
      Step C s { s with
        guards := Function.update (Function.update s.guards t (s.guards t - 1)) u
          (s.guards u + 1) }

/-- The states that the runs of a program reach. -/
def Client.Reaches (C : Client ι κ D) (s : State Tid ι κ D) : Prop :=
  Reachable C.Starts C.Step s

/-- Thread `t` does its next operation inside `sync.rs`, if it has one. -/
def State.advance (s : State Tid ι κ D) (t : Tid) : State Tid ι κ D :=
  match (s.pc t).exec s.words with
  | some (m, pc, g) =>
    { s with
      words := m
      pc := Function.update s.pc t pc
      guards := Function.update s.guards t (s.guards t + g) }
  | none => s

/-- Thread `t` makes a call. -/
def State.enter (s : State Tid ι κ D) (t : Tid) (c : Call ι) (k : Bool → κ) : State Tid ι κ D :=
  { s with
    pc := Function.update s.pc t (c.enter k)
    guards := Function.update s.guards t (s.guards t - c.takesGuard.toNat) }

variable {C : Client ι κ D} {s : State Tid ι κ D}

lemma Client.Reaches.advance (h : C.Reaches s) (t : Tid) : C.Reaches (s.advance t) := by
  rw [State.advance]
  split
  · rename_i m pc g hexec
    exact Reachable.next h (.exec t hexec)
  · exact h

lemma Client.Reaches.enter (h : C.Reaches s) (t : Tid) (c : Call ι) (k' : Bool → κ) {k : κ}
    (ht : s.pc t = .run k) (hcall : C.call k c k')
    (hguard : c.takesGuard = true → 0 < s.guards t) : C.Reaches (s.enter t c k') :=
  Reachable.next h (.call t ht hcall hguard)

end Step

/-! ### The program that does anything -/

/-- A program without data whose threads make any call at any time and hand guards to
each other. -/
def anyClient : Client Unit Unit Unit where
  start _ := True
  init _ := True
  act _ _ _ _ := True
  call _ _ _ := True
  give _ _ := True

/-- Its threads at the beginning. -/
def anyStart : State ℕ Unit Unit Unit := ⟨Words.new, (), fun _ => .run (), fun _ => 0⟩

lemma anyStart_reached : anyClient.Reaches anyStart :=
  .start ⟨rfl, trivial, fun _ => ⟨(), trivial, rfl⟩, fun _ => rfl⟩

end PureStd.Sync
