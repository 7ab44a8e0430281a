/-
`thread::scope` of `src/thread.rs`.

One call of `scope` and all threads that are spawned in it, by the thread that called
`scope` or by scoped threads.  Every access to `ScopeData`, which is on the stack of the
caller, is a step of its own, and a step says whether it makes such an access; so is
every access to a result slot or to the packet of a join handle.  The closures are not
known: they spawn, join handles that nobody has joined yet, and end with a value, in any
order.  A panic aborts the process, so it has no step.

Threads are `none`, the caller of `scope`, and `some u`, the thread that runs the closure
`u`.

A store is seen by the other threads some time after it was made, and the thread that made it
may load another word in between.  The caller does so: `wake.store(0, Relaxed)` comes before
`running.load(Acquire)`.  Its stores wait in a buffer, in order, until they reach the memory
(`Step.commit`); the caller itself reads its last store.  The stores of a scoped thread are
followed by stores, which come after them, and then by a read-modify-write operation or a system
call, which are barriers; those of `join` go to memory that nobody else accesses any more.  So
the step of any other store is the one in which it reaches the memory.
-/
import PureStd.Lib.Futex
import PureStd.Lib.Transition

namespace PureStd.Thread.Scope

/-- A thread in a closure: `f(&scope)` or the closure of a scoped thread. -/
inductive Task (Tid V : Type*) where
  | body
  /-- `Scope::spawn`: `Builder::spawn`, after `running.fetch_add(1)`. -/
  | spawning (u : Tid)
  /-- `JoinHandle::join`: `futex_wait(&packet.state, 0)`. -/
  | joinWait (w : WaitPc) (u : Tid)
  /-- `JoinHandle::join`: `(*packet.result).take()`. -/
  | joinResult (u : Tid)
  /-- `ScopedJoinHandle::join`: `(*slot).take()`. -/
  | joinTake (u : Tid)
  /-- `join` has returned. -/
  | joined (u : Tid) (v : V)

/-- The caller after `f(&scope)`, whose result it keeps. -/
inductive Caller (V : Type*) where
  /-- `running.load()`. -/
  | loadRunning (r : V)
  /-- `futex_wait(&wake, 0)`. -/
  | waitWake (w : WaitPc) (r : V)
  /-- `wake.store(0)`. -/
  | clearWake (r : V)
  /-- `scope` has returned. -/
  | returned (r : V)

/-- A scoped thread before and after its closure. -/
inductive Wrapper (V : Type*) where
  | unborn
  /-- Counted, but not created yet. -/
  | starting
  /-- `*slot = Some(r)`. -/
  | writeSlot (v : V)
  /-- `running.fetch_sub(1)`. -/
  | subRunning
  /-- `wake.store(1)`. -/
  | storeWake
  /-- `futex_wake(&wake)`. -/
  | futexWake
  /-- `thread_start`: `*packet.result = Some(value)`; the closure that it runs is the wrapper,
  whose value is `()`. -/
  | writeResult
  /-- `thread_start`: `packet.state.store(1)`. -/
  | storeState
  /-- `thread_start`: `futex_wake(&packet.state)`. -/
  | wakeJoiner
  | exited

/-- Where a thread is. -/
inductive Pc (Tid V : Type*) where
  | run (k : Task Tid V)
  | caller (p : Caller V)
  | wrapper (c : Wrapper V)

/-- A word on whose address a thread can sleep. -/
inductive Addr (Tid : Type*) where
  | wake
  | state (u : Tid)
deriving DecidableEq, Repr

structure State (Tid V : Type*) where
  /-- `ScopeData::running`. -/
  running : ℕ
  /-- `ScopeData::wake`. -/
  wake : UInt32
  /-- The stores of the caller to `wake` that have not reached the memory, oldest first. -/
  stored : List UInt32
  pc : Option Tid → Pc Tid V
  /-- The result slots. -/
  slot : Tid → Option V
  /-- `Packet::result`. -/
  result : Tid → Option Unit
  /-- `Packet::state`. -/
  state : Tid → UInt32
  /-- The handles that nobody has joined yet. -/
  handle : Tid → Bool
  /-- The history of the closures: the value that each of them has returned. -/
  produced : Tid → Option V

/-- What a closure may do. -/
inductive Choice (Tid V : Type*) where
  | spawn (u : Tid)
  | join (u : Tid)
  /-- The closure returns. -/
  | finish (v : V)
  /-- It goes on after `join`. -/
  | resume

variable {Tid V : Type*}

/-- `scope` has called `f(&scope)`. -/
def State.start : State Tid V where
  running := 0
  wake := 0
  stored := []
  pc
    | none => .run .body
    | some _ => .wrapper .unborn
  slot _ := none
  result _ := none
  state _ := 0
  handle _ := false
  produced _ := none

instance : Sleeper (Pc Tid V) (Addr Tid) where
  asleepOn
    | .run (.joinWait .asleep u) => some (.state u)
    | .caller (.waitWake .asleep _) => some .wake
    | _ => none
  awaken
    | .run (.joinWait _ u) => .run (.joinWait .load u)
    | .caller (.waitWake _ r) => .caller (.waitWake .load r)
    | pc => pc

variable [DecidableEq Tid]

/-- Thread `t` goes on at `pc`. -/
def State.goto (s : State Tid V) (t : Option Tid) (pc : Pc Tid V) : State Tid V :=
  { s with pc := Function.update s.pc t pc }

/-- What the caller reads from `wake`. -/
def State.ownWake (s : State Tid V) : UInt32 := s.stored.getLast?.getD s.wake

/-- The next operation of a thread that is not in its closure, and whether it accesses
`ScopeData`.  `futex_wait` accesses the word in the loop and in the kernel. -/
def State.exec (s : State Tid V) (t : Option Tid) : Option (Bool × State Tid V) :=
  match t, s.pc t with
  | _, .run (.spawning u) =>
    some (false, { (s.goto (some u) (.run .body)).goto t (.run .body) with
      handle := Function.update s.handle u true })
  | _, .run (.joinWait w u) => (w.exec (s.state u) 0).map fun w =>
    (false, s.goto t (.run (if w = .done then .joinResult u else .joinWait w u)))
  | _, .run (.joinResult u) => (s.result u).map fun _ =>
    (false, { s.goto t (.run (.joinTake u)) with result := Function.update s.result u none })
  | _, .run (.joinTake u) => (s.slot u).map fun v =>
    (false, { s.goto t (.run (.joined u v)) with slot := Function.update s.slot u none })
  | none, .caller (.loadRunning r) =>
    some (true, s.goto t (.caller (if s.running = 0 then .returned r else .waitWake .load r)))
  | none, .caller (.waitWake w r) =>
    -- the system call waits for the stores
    if w = .enter ∧ s.stored ≠ [] then none
    else (w.exec s.ownWake 0).map fun w =>
      (true, s.goto t (.caller (if w = .done then .clearWake r else .waitWake w r)))
  | none, .caller (.clearWake r) =>
    some (true, { s.goto t (.caller (.loadRunning r)) with stored := s.stored ++ [0] })
  | some u, .wrapper (.writeSlot v) =>
    some (false, { s.goto t (.wrapper .subRunning) with
      slot := Function.update s.slot u (some v) })
  | some _, .wrapper .subRunning =>
    some (true, { s.goto t (.wrapper (if s.running = 1 then .storeWake else .writeResult)) with
      running := s.running - 1 })
  | some _, .wrapper .storeWake =>
    some (true, { s.goto t (.wrapper .futexWake) with wake := 1 })
  | some u, .wrapper .writeResult =>
    some (false, { s.goto t (.wrapper .storeState) with
      result := Function.update s.result u (some ()) })
  | some u, .wrapper .storeState =>
    some (false, { s.goto t (.wrapper .wakeJoiner) with state := Function.update s.state u 1 })
  | _, _ => none

/-- A decision of a closure, and whether it accesses `ScopeData`. -/
def State.choose (s : State Tid V) (t : Option Tid) :
    Choice Tid V → Option (Bool × State Tid V)
  | .spawn u =>
    match s.pc t, s.pc (some u) with
    | .run .body, .wrapper .unborn =>
      some (true, { (s.goto (some u) (.wrapper .starting)).goto t (.run (.spawning u)) with
        running := s.running + 1 })
    | _, _ => none
  | .join u =>
    match s.pc t, s.handle u with
    | .run .body, true =>
      some (false, { s.goto t (.run (.joinWait .load u)) with
        handle := Function.update s.handle u false })
    | _, _ => none
  | .finish v =>
    match t, s.pc t with
    | none, .run .body => some (false, s.goto t (.caller (.loadRunning v)))
    | some u, .run .body => some (false, { s.goto t (.wrapper (.writeSlot v)) with
        produced := Function.update s.produced u (some v) })
    | _, _ => none
  | .resume =>
    match s.pc t with
    | .run (.joined _ _) => some (false, s.goto t (.run .body))
    | _ => none

/-- The `futex_wake` that a thread is about to call, for one sleeper: the address, and where it
goes on. -/
def waker (t : Option Tid) (pc : Pc Tid V) : Option (Bool × Addr Tid × Pc Tid V) :=
  match t, pc with
  | some _, .wrapper .futexWake => some (false, .wake, .wrapper .writeResult)
  | some u, .wrapper .wakeJoiner => some (false, .state u, .wrapper .exited)
  | _, _ => none

/-- A step of some thread; `true` if it reads or writes `ScopeData`.  The `futex_wake` on
the address of `wake` does not access the word, and a store of the caller is an access when it
is made. -/
inductive Step : Bool → State Tid V → State Tid V → Prop
  | exec {s s' : State Tid V} {a : Bool} (t : Option Tid) (h : s.exec t = some (a, s')) :
      Step a s s'
  | choose {s s' : State Tid V} {a : Bool} (t : Option Tid) (x : Choice Tid V)
      (h : s.choose t x = some (a, s')) : Step a s s'
  | rouse {s : State Tid V} {pc : Option Tid → Pc Tid V} (h : Futex.Rouses waker s.pc pc) :
      Step false s { s with pc := pc }
  /-- A store of the caller reaches the memory. -/
  | commit {s : State Tid V} {x : UInt32} {xs : List UInt32} (h : s.stored = x :: xs) :
      Step false s { s with wake := x, stored := xs }

/-! ### The steps, position by position -/

/-- What a step does: one case for each position of the thread that makes it. -/
inductive Moves (s : State Tid V) : Bool → State Tid V → Prop
  | create (t : Option Tid) (u : Tid) (ht : s.pc t = .run (.spawning u)) :
      Moves s false { (s.goto (some u) (.run .body)).goto t (.run .body) with
        handle := Function.update s.handle u true }
  | joinWait (t : Option Tid) (u : Tid) (w w' : WaitPc) (ht : s.pc t = .run (.joinWait w u))
      (hw : w.exec (s.state u) 0 = some w') :
      Moves s false (s.goto t (.run (if w' = .done then .joinResult u else .joinWait w' u)))
  | joinResult (t : Option Tid) (u : Tid) (ht : s.pc t = .run (.joinResult u))
      (hresult : s.result u = some ()) :
      Moves s false { s.goto t (.run (.joinTake u)) with
        result := Function.update s.result u none }
  | joinTake (t : Option Tid) (u : Tid) (v : V) (ht : s.pc t = .run (.joinTake u))
      (hslot : s.slot u = some v) :
      Moves s false { s.goto t (.run (.joined u v)) with slot := Function.update s.slot u none }
  | loadRunning (r : V) (ht : s.pc none = .caller (.loadRunning r)) :
      Moves s true (s.goto none
        (.caller (if s.running = 0 then .returned r else .waitWake .load r)))
  | waitWake (w w' : WaitPc) (r : V) (ht : s.pc none = .caller (.waitWake w r))
      (hbarrier : w = .enter → s.stored = []) (hw : w.exec s.ownWake 0 = some w') :
      Moves s true (s.goto none (.caller (if w' = .done then .clearWake r else .waitWake w' r)))
  | clearWake (r : V) (ht : s.pc none = .caller (.clearWake r)) :
      Moves s true { s.goto none (.caller (.loadRunning r)) with stored := s.stored ++ [0] }
  | writeSlot (u : Tid) (v : V) (ht : s.pc (some u) = .wrapper (.writeSlot v)) :
      Moves s false { s.goto (some u) (.wrapper .subRunning) with
        slot := Function.update s.slot u (some v) }
  | subRunning (u : Tid) (ht : s.pc (some u) = .wrapper .subRunning) :
      Moves s true { s.goto (some u)
          (.wrapper (if s.running = 1 then .storeWake else .writeResult)) with
        running := s.running - 1 }
  | storeWake (u : Tid) (ht : s.pc (some u) = .wrapper .storeWake) :
      Moves s true { s.goto (some u) (.wrapper .futexWake) with wake := 1 }
  | writeResult (u : Tid) (ht : s.pc (some u) = .wrapper .writeResult) :
      Moves s false { s.goto (some u) (.wrapper .storeState) with
        result := Function.update s.result u (some ()) }
  | storeState (u : Tid) (ht : s.pc (some u) = .wrapper .storeState) :
      Moves s false { s.goto (some u) (.wrapper .wakeJoiner) with
        state := Function.update s.state u 1 }
  | spawn (t : Option Tid) (u : Tid) (ht : s.pc t = .run .body)
      (hu : s.pc (some u) = .wrapper .unborn) :
      Moves s true { (s.goto (some u) (.wrapper .starting)).goto t (.run (.spawning u)) with
        running := s.running + 1 }
  | join (t : Option Tid) (u : Tid) (ht : s.pc t = .run .body) (hu : s.handle u = true) :
      Moves s false { s.goto t (.run (.joinWait .load u)) with
        handle := Function.update s.handle u false }
  | leave (v : V) (ht : s.pc none = .run .body) :
      Moves s false (s.goto none (.caller (.loadRunning v)))
  | finish (u : Tid) (v : V) (ht : s.pc (some u) = .run .body) :
      Moves s false { s.goto (some u) (.wrapper (.writeSlot v)) with
        produced := Function.update s.produced u (some v) }
  | resume (t : Option Tid) (u : Tid) (v : V) (ht : s.pc t = .run (.joined u v)) :
      Moves s false (s.goto t (.run .body))
  | rouse {pc : Option Tid → Pc Tid V} (h : Futex.Rouses waker s.pc pc) :
      Moves s false { s with pc := pc }
  | commit {x : UInt32} {xs : List UInt32} (h : s.stored = x :: xs) :
      Moves s false { s with wake := x, stored := xs }

section Moves

variable {s s' : State Tid V} {a : Bool} {t : Option Tid}

lemma exec_moves (h : s.exec t = some (a, s')) : Moves s a s' := by
  rw [State.exec.eq_def] at h
  split at h
  case h_1 t _ _ u ht =>
      obtain ⟨rfl, rfl⟩ := by simpa using h
      exact .create t u ht
  case h_2 t _ _ w u ht =>
      obtain ⟨w', hw, hs⟩ := Option.map_eq_some_iff.1 h
      obtain ⟨rfl, rfl⟩ := by simpa using hs
      exact .joinWait t u w w' ht hw
  case h_3 t _ _ u ht =>
      obtain ⟨⟨⟩, hresult, hs⟩ := Option.map_eq_some_iff.1 h
      obtain ⟨rfl, rfl⟩ := by simpa using hs
      exact .joinResult t u ht hresult
  case h_4 t _ _ u ht =>
      obtain ⟨v, hslot, hs⟩ := Option.map_eq_some_iff.1 h
      obtain ⟨rfl, rfl⟩ := by simpa using hs
      exact .joinTake t u v ht hslot
  case h_5 r ht =>
      obtain ⟨rfl, rfl⟩ := by simpa using h
      exact .loadRunning r ht
  case h_6 w r ht =>
      split at h
      · cases h
      · rename_i hbarrier
        obtain ⟨w', hw, hs⟩ := Option.map_eq_some_iff.1 h
        obtain ⟨rfl, rfl⟩ := by simpa using hs
        refine .waitWake w w' r ht (fun henter => ?_) hw
        by_contra hstored
        exact hbarrier ⟨henter, hstored⟩
  case h_7 r ht =>
      obtain ⟨rfl, rfl⟩ := by simpa using h
      exact .clearWake r ht
  case h_8 u v ht =>
      obtain ⟨rfl, rfl⟩ := by simpa using h
      exact .writeSlot u v ht
  case h_9 u ht =>
      obtain ⟨rfl, rfl⟩ := by simpa using h
      exact .subRunning u ht
  case h_10 u ht =>
      obtain ⟨rfl, rfl⟩ := by simpa using h
      exact .storeWake u ht
  case h_11 u ht =>
      obtain ⟨rfl, rfl⟩ := by simpa using h
      exact .writeResult u ht
  case h_12 u ht =>
      obtain ⟨rfl, rfl⟩ := by simpa using h
      exact .storeState u ht
  case h_13 => exact absurd h (by simp)

lemma choose_moves {x : Choice Tid V} (h : s.choose t x = some (a, s')) : Moves s a s' := by
  cases x with
  | spawn u =>
    simp only [State.choose] at h
    split at h
    · obtain ⟨rfl, rfl⟩ := by simpa using h
      exact .spawn t u ‹_› ‹_›
    · exact absurd h (by simp)
  | join u =>
    simp only [State.choose] at h
    split at h
    · obtain ⟨rfl, rfl⟩ := by simpa using h
      exact .join t u ‹_› ‹_›
    · exact absurd h (by simp)
  | finish v =>
    simp only [State.choose] at h
    split at h
    · obtain ⟨rfl, rfl⟩ := by simpa using h
      exact .leave v ‹_›
    · obtain ⟨rfl, rfl⟩ := by simpa using h
      exact .finish _ v ‹_›
    · exact absurd h (by simp)
  | resume =>
    simp only [State.choose] at h
    split at h
    · obtain ⟨rfl, rfl⟩ := by simpa using h
      exact .resume t _ _ ‹_›
    · exact absurd h (by simp)

lemma step_moves (h : Step a s s') : Moves s a s' := by
  cases h with
  | exec t h => exact exec_moves h
  | choose t x h => exact choose_moves h
  | rouse h => exact .rouse h
  | commit h => exact .commit h

omit [DecidableEq Tid] in
/-- The two calls of `futex_wake`. -/
lemma waker_cases {t : Option Tid} {pc next : Pc Tid V} {all : Bool} {b : Addr Tid}
    (h : waker t pc = some (all, b, next)) : all = false ∧
      ((∃ u, t = some u ∧ pc = .wrapper .futexWake ∧ b = .wake ∧ next = .wrapper .writeResult) ∨
        ∃ u, t = some u ∧ pc = .wrapper .wakeJoiner ∧ b = .state u ∧
          next = .wrapper .exited) := by
  rw [waker.eq_def] at h
  split at h
  · obtain ⟨rfl, rfl, rfl⟩ := by simpa using h
    exact ⟨rfl, Or.inl ⟨_, rfl, rfl, rfl, rfl⟩⟩
  · obtain ⟨rfl, rfl, rfl⟩ := by simpa using h
    exact ⟨rfl, Or.inr ⟨_, rfl, rfl, rfl, rfl⟩⟩
  · exact absurd h (by simp)

/-- A `futex_wake` wakes one sleeper or nobody. -/
lemma rouses_cases {f pc : Option Tid → Pc Tid V} (h : Futex.Rouses waker f pc) :
    (∃ t b next, waker t (f t) = some (false, b, next) ∧
      Futex.WakeOne b (Function.update f t next) pc) ∨
      ∃ t b, Sleeper.asleepOn (f t) = some b ∧
        pc = Function.update f t (Sleeper.awaken (f t)) := by
  cases h with
  | @wake t all b next _ h hwake =>
    obtain ⟨rfl, -⟩ := waker_cases h
    exact Or.inl ⟨t, b, next, h, hwake⟩
  | @spurious t b h => exact Or.inr ⟨t, b, h, rfl⟩

end Moves

/-! ### Runs -/

/-- The states that the runs of a scope reach. -/
def Reaches (s : State Tid V) : Prop :=
  Reachable (fun s => s = State.start) (fun s s' => ∃ a, Step a s s') s

/-- `scope` has returned. -/
def State.Returned (s : State Tid V) : Prop := ∃ r, s.pc none = .caller (.returned r)

/-- One turn of a schedule: a thread, with its choice if it makes one. -/
def State.turn (s : State Tid V) : Option Tid × Option (Choice Tid V) → State Tid V
  | (t, none) => ((s.exec t).map Prod.snd).getD s
  | (t, some x) => ((s.choose t x).map Prod.snd).getD s

lemma turn_step (s : State Tid V) (a : Option Tid × Option (Choice Tid V)) :
    (∃ b, Step b s (s.turn a)) ∨ s.turn a = s := by
  obtain ⟨t, _ | x⟩ := a
  · cases h : s.exec t with
    | none => exact Or.inr (by simp [State.turn, h])
    | some p => exact Or.inl ⟨p.1, .exec t (by simp [State.turn, h])⟩
  · cases h : s.choose t x with
    | none => exact Or.inr (by simp [State.turn, h])
    | some p => exact Or.inl ⟨p.1, .choose t x (by simp [State.turn, h])⟩

end PureStd.Thread.Scope
