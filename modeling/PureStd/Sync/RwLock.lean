/-
`RwLock` of `src/sync.rs`.

The word `state` counts the readers in its low 31 bits, and its high bit says that there
is a writer.  A reader adds one to the word, so the reader number `2 ^ 31` sets the high
bit itself; from then on readers and writers both wait, and the word is still the number
of read guards (`rwLock_excludes`).

A thread goes to sleep only on a word other than 0, and whoever takes the word to 0 has
still to call `futex_wake_all` (`rwLock_wakes`).

The guards are `Send`, so a guard may be dropped by any thread; the model keeps them in a
pool.  A guard may also be leaked with `mem::forget`.  The drop of a guard begins with the
operation that releases the lock.
-/
import PureStd.Lib.Machine
import Mathlib.Data.Nat.Bitwise

namespace PureStd.Sync.RwLock

open Sleeper

/-- `RW_WRITER`. -/
def rwWriter : UInt32 := (1 : UInt32) <<< 31

/-- Where a thread is. -/
inductive Pc where
  | idle
  /-- `read`: `state.load()`. -/
  | readLoad
  /-- `read`: `compare_exchange_weak(s, s + 1)`. -/
  | readCas (s : UInt32)
  /-- `read`: `futex_wait(&self.state, s)`. -/
  | readWait (w : WaitPc) (s : UInt32)
  /-- `try_read`: `state.load()`. -/
  | tryReadLoad
  /-- `try_read`: `compare_exchange(s, s + 1)`. -/
  | tryReadCas (s : UInt32)
  /-- `write`: `compare_exchange(0, RW_WRITER)`. -/
  | writeCas
  /-- `write`: `state.load()`. -/
  | writeLoad
  /-- `write`: `futex_wait(&self.state, s)`. -/
  | writeWait (w : WaitPc) (s : UInt32)
  /-- `try_write`: `compare_exchange(0, RW_WRITER)`. -/
  | tryWriteCas
  /-- `try_read` or `try_write` has returned a guard, or `None`. -/
  | tried (some : Bool)
  /-- The drop of a guard: `futex_wake_all(&self.lock.state)`. -/
  | wakeAll
deriving DecidableEq, Repr

/-- The lock and its guards. -/
structure Lock where
  state : UInt32
  /-- The live `RwLockReadGuard`s. -/
  readers : ℕ
  /-- The live `RwLockWriteGuard`s. -/
  writers : ℕ
  /-- The `RwLockReadGuard`s that were leaked. -/
  leakedReaders : ℕ
  /-- The `RwLockWriteGuard`s that were leaked. -/
  leakedWriters : ℕ
deriving DecidableEq, Repr

/-- `RwLock::new`. -/
def Lock.new : Lock := ⟨0, 0, 0, 0, 0⟩

/-- A read guard is made. -/
def Lock.addReader (d : Lock) (s : UInt32) : Lock :=
  { d with state := s + 1, readers := d.readers + 1 }

/-- A write guard is made. -/
def Lock.addWriter (d : Lock) : Lock :=
  { d with state := rwWriter, writers := d.writers + 1 }

/-- The operations on the word. -/
def exec : Pc → Lock → Option (Pc × Lock)
  | .readLoad, d =>
    some (if d.state &&& rwWriter = 0 then .readCas d.state else .readWait .load d.state, d)
  | .readCas s, d => some (if d.state = s then (.idle, d.addReader s) else (.readLoad, d))
  | .readWait w s, d => (w.exec d.state s).map fun w =>
    (if w = .done then .readLoad else .readWait w s, d)
  | .tryReadLoad, d =>
    some (if d.state &&& rwWriter = 0 then .tryReadCas d.state else .tried false, d)
  | .tryReadCas s, d =>
    some (if d.state = s then (.tried true, d.addReader s) else (.tried false, d))
  | .writeCas, d => some (if d.state = 0 then (.idle, d.addWriter) else (.writeLoad, d))
  | .writeLoad, d => some (if d.state = 0 then .writeCas else .writeWait .load d.state, d)
  | .writeWait w s, d => (w.exec d.state s).map fun w =>
    (if w = .done then .writeCas else .writeWait w s, d)
  | .tryWriteCas, d => some (if d.state = 0 then (.tried true, d.addWriter) else (.tried false, d))
  | _, _ => none

/-- What a thread may do. -/
inductive Choice where
  | read
  | tryRead
  | write
  | tryWrite
  | dropRead
  | dropWrite
  | forgetRead
  | forgetWrite
  /-- `compare_exchange_weak` fails though the word is the expected one. -/
  | failWeak
  /-- The program goes on after `try_read` or `try_write`. -/
  | resume
deriving DecidableEq, Repr

/-- The calls that a thread makes, and the drops and leaks of guards. -/
def choose : Choice → Pc → Lock → Option (Pc × Lock)
  | .read, .idle, d => some (.readLoad, d)
  | .tryRead, .idle, d => some (.tryReadLoad, d)
  | .write, .idle, d => some (.writeCas, d)
  | .tryWrite, .idle, d => some (.tryWriteCas, d)
  -- `state.fetch_sub(1)`
  | .dropRead, .idle, d =>
    if 0 < d.readers then
      some (if d.state = 1 then .wakeAll else .idle,
        { d with state := d.state - 1, readers := d.readers - 1 })
    else none
  -- `state.store(0)`
  | .dropWrite, .idle, d =>
    if 0 < d.writers then some (.wakeAll, { d with state := 0, writers := d.writers - 1 })
    else none
  | .forgetRead, .idle, d =>
    if 0 < d.readers then
      some (.idle, { d with readers := d.readers - 1, leakedReaders := d.leakedReaders + 1 })
    else none
  | .forgetWrite, .idle, d =>
    if 0 < d.writers then
      some (.idle, { d with writers := d.writers - 1, leakedWriters := d.leakedWriters + 1 })
    else none
  | .failWeak, .readCas _, d => some (.readLoad, d)
  | .resume, .tried _, d => some (.idle, d)
  | _, _, _ => none

instance : Sleeper Pc Unit where
  asleepOn
    | .readWait .asleep _ => some ()
    | .writeWait .asleep _ => some ()
    | _ => none
  awaken
    | .readWait _ s => .readWait .load s
    | .writeWait _ s => .writeWait .load s
    | pc => pc

/-- Threads that use one lock. -/
def machine (Tid : Type*) : Machine Tid Pc Unit Lock Choice where
  start _ := .idle
  init := .new
  exec _ := exec
  choose _ := choose
  waker
    | .wakeAll => some (true, (), .idle)
    | _ => none

/-! ### The word and the guards -/

lemma and_rwWriter {s : UInt32} : s &&& rwWriter = 0 ↔ s.toNat < 2 ^ 31 := by
  have hlt := s.toNat_lt
  rw [← UInt32.toNat_inj, UInt32.toNat_and, show rwWriter.toNat = 2 ^ 31 by decide,
    Nat.and_two_pow, Nat.testBit_eq_decide_div_mod_eq, show (0 : UInt32).toNat = 0 from rfl]
  by_cases h : s.toNat < 2 ^ 31
  · have hbit : s.toNat / 2 ^ 31 % 2 = 0 := by omega
    rw [hbit]
    exact iff_of_true rfl h
  · have hbit : s.toNat / 2 ^ 31 % 2 = 1 := by omega
    rw [hbit]
    exact iff_of_false (by decide) h

/-- The read guards, live or leaked. -/
def Lock.reads (d : Lock) : ℕ := d.readers + d.leakedReaders

/-- The write guards, live or leaked. -/
def Lock.writes (d : Lock) : ℕ := d.writers + d.leakedWriters

/-- The word is the number of read guards, and a write guard counts `2 ^ 31`; it is alone. -/
structure Lock.Ok (d : Lock) : Prop where
  word : d.state.toNat = d.reads + 2 ^ 31 * d.writes
  alone : 0 < d.writes → d.writes = 1 ∧ d.reads = 0

/-- A thread that is about to add a reader has read a word without the high bit, and a
thread that waits has read a word other than 0. -/
def Pc.Ok : Pc → Prop
  | readCas s => s.toNat < 2 ^ 31
  | tryReadCas s => s.toNat < 2 ^ 31
  | readWait _ s => s ≠ 0
  | writeWait _ s => s ≠ 0
  | _ => True

namespace Lock.Ok

variable {d : Lock}

lemma addReader (h : d.Ok) (hs : d.state.toNat < 2 ^ 31) : (d.addReader d.state).Ok := by
  obtain ⟨hword, halone⟩ := h
  have hno : d.writes = 0 := by omega
  refine ⟨?_, fun hpos => absurd hpos ?_⟩
  · show (d.state + 1).toNat = d.readers + 1 + d.leakedReaders + 2 ^ 31 * d.writes
    rw [UInt32.toNat_add, show (1 : UInt32).toNat = 1 from rfl, Nat.mod_eq_of_lt (by omega), hword,
      Lock.reads]
    omega
  · show ¬ 0 < d.writes
    omega

lemma addWriter (h : d.Ok) (hs : d.state = 0) : d.addWriter.Ok := by
  obtain ⟨hword, halone⟩ := h
  rw [hs, show (0 : UInt32).toNat = 0 from rfl] at hword
  have hzero : d.reads = 0 ∧ d.writes = 0 := by omega
  simp only [Lock.reads, Lock.writes] at hzero
  refine ⟨?_, fun _ => ?_⟩
  · simp only [Lock.addWriter, Lock.reads, Lock.writes, show rwWriter.toNat = 2 ^ 31 by decide]
    omega
  · simp only [Lock.addWriter, Lock.reads, Lock.writes]
    omega

lemma dropRead (h : d.Ok) (hr : 0 < d.readers) :
    Lock.Ok { d with state := d.state - 1, readers := d.readers - 1 } := by
  obtain ⟨hword, halone⟩ := h
  simp only [Lock.reads, Lock.writes] at hword halone
  have hle : (1 : UInt32) ≤ d.state := by
    rw [UInt32.le_iff_toNat_le, show (1 : UInt32).toNat = 1 from rfl]
    omega
  refine ⟨?_, fun hpos => ?_⟩
  · simp only [Lock.reads, Lock.writes]
    rw [UInt32.toNat_sub_of_le _ _ hle, show (1 : UInt32).toNat = 1 from rfl]
    omega
  · have := halone hpos
    omega

lemma dropWrite (h : d.Ok) (hw : 0 < d.writers) :
    Lock.Ok { d with state := 0, writers := d.writers - 1 } := by
  obtain ⟨hword, halone⟩ := h
  simp only [Lock.reads, Lock.writes] at hword halone
  have := halone (by omega)
  refine ⟨?_, fun hpos => absurd hpos ?_⟩
  · simp only [Lock.reads, Lock.writes, show (0 : UInt32).toNat = 0 from rfl]
    omega
  · simp only [Lock.writes]
    omega

/-- A leaked guard still locks. -/
lemma congr {d' : Lock} (h : d.Ok) (hstate : d'.state = d.state) (hreads : d'.reads = d.reads)
    (hwrites : d'.writes = d.writes) : d'.Ok :=
  ⟨by rw [hstate, hreads, hwrites]; exact h.word, by rw [hreads, hwrites]; exact h.alone⟩

end Lock.Ok

variable {Tid : Type*}

/-- What a thread does to the lock. -/
inductive Effect (p : Pc) (d : Lock) : Pc → Lock → Prop
  /-- It reads the word, if anything; it falls asleep only on a word other than 0. -/
  | look {p' : Pc} (hp : p ≠ .wakeAll) (hok : p.Ok → p'.Ok)
      (hasleep : p.Ok → asleepOn p' = some () → d.state ≠ 0) : Effect p d p' d
  | addReader {p' : Pc} (hok : p'.Ok) (hawake : asleepOn p' = none)
      (hword : p.Ok → d.state.toNat < 2 ^ 31) : Effect p d p' (d.addReader d.state)
  | addWriter {p' : Pc} (hok : p'.Ok) (hawake : asleepOn p' = none) (hword : d.state = 0) :
      Effect p d p' d.addWriter
  | dropRead (hr : 0 < d.readers) : Effect p d (if d.state = 1 then .wakeAll else .idle)
      { d with state := d.state - 1, readers := d.readers - 1 }
  | dropWrite (hw : 0 < d.writers) :
      Effect p d .wakeAll { d with state := 0, writers := d.writers - 1 }
  | forgetRead (hp : p = .idle) (hr : 0 < d.readers) : Effect p d .idle
      { d with readers := d.readers - 1, leakedReaders := d.leakedReaders + 1 }
  | forgetWrite (hp : p = .idle) (hw : 0 < d.writers) : Effect p d .idle
      { d with writers := d.writers - 1, leakedWriters := d.leakedWriters + 1 }

/-- A thread that goes on awake and has not written anything. -/
lemma Effect.of_awake {p p' : Pc} {d : Lock} (hp : p ≠ .wakeAll) (hok : p.Ok → p'.Ok)
    (hawake : asleepOn p' = none) : Effect p d p' d :=
  .look hp hok fun _ ha => absurd (hawake.symm.trans ha) (by simp)

lemma exec_effect {p p' : Pc} {d d' : Lock} (h : exec p d = some (p', d')) : Effect p d p' d' := by
  cases p <;> unfold exec at h <;> simp only [Option.some.injEq, reduceCtorEq] at h
  case readLoad =>
    obtain ⟨rfl, rfl⟩ := Prod.mk.inj h
    by_cases hword : d.state &&& rwWriter = 0
    · rw [if_pos hword]
      exact .of_awake (by simp) (fun _ => and_rwWriter.1 hword) rfl
    · rw [if_neg hword]
      refine .of_awake (by simp) (fun _ hzero => hword ?_) rfl
      rw [hzero]
      decide
  case tryReadLoad =>
    obtain ⟨rfl, rfl⟩ := Prod.mk.inj h
    by_cases hword : d.state &&& rwWriter = 0
    · rw [if_pos hword]
      exact .of_awake (by simp) (fun _ => and_rwWriter.1 hword) rfl
    · rw [if_neg hword]
      exact .of_awake (by simp) (fun _ => trivial) rfl
  case readCas s =>
    split at h <;> obtain ⟨rfl, rfl⟩ := Prod.mk.inj h
    · subst s
      exact .addReader trivial rfl id
    · exact .of_awake (by simp) (fun _ => trivial) rfl
  case tryReadCas s =>
    split at h <;> obtain ⟨rfl, rfl⟩ := Prod.mk.inj h
    · subst s
      exact .addReader trivial rfl id
    · exact .of_awake (by simp) (fun _ => trivial) rfl
  case writeCas =>
    split at h <;> obtain ⟨rfl, rfl⟩ := Prod.mk.inj h
    · exact .addWriter trivial rfl ‹_›
    · exact .of_awake (by simp) (fun _ => trivial) rfl
  case tryWriteCas =>
    split at h <;> obtain ⟨rfl, rfl⟩ := Prod.mk.inj h
    · exact .addWriter trivial rfl ‹_›
    · exact .of_awake (by simp) (fun _ => trivial) rfl
  case writeLoad =>
    obtain ⟨rfl, rfl⟩ := Prod.mk.inj h
    split
    · exact .of_awake (by simp) (fun _ => trivial) rfl
    · exact .of_awake (by simp) (fun _ => ‹_›) rfl
  case readWait w s =>
    obtain ⟨w', hw', hw⟩ := Option.map_eq_some_iff.1 h
    obtain ⟨rfl, rfl⟩ := Prod.mk.inj hw
    split
    · exact .of_awake (by simp) (fun _ => trivial) rfl
    · -- the kernel has compared the word with the one that was read before
      refine .look (by simp) id fun hs ha => ?_
      obtain rfl : w' = .asleep := by
        cases w' <;> first | rfl | exact absurd ha (by simp [asleepOn])
      rwa [WaitPc.eq_of_exec_asleep hw']
  case writeWait w s =>
    obtain ⟨w', hw', hw⟩ := Option.map_eq_some_iff.1 h
    obtain ⟨rfl, rfl⟩ := Prod.mk.inj hw
    split
    · exact .of_awake (by simp) (fun _ => trivial) rfl
    · refine .look (by simp) id fun hs ha => ?_
      obtain rfl : w' = .asleep := by
        cases w' <;> first | rfl | exact absurd ha (by simp [asleepOn])
      rwa [WaitPc.eq_of_exec_asleep hw']

lemma choose_effect {x : Choice} {p p' : Pc} {d d' : Lock} (h : choose x p d = some (p', d')) :
    Effect p d p' d' := by
  cases x <;> cases p <;>
    simp only [choose, Option.ite_none_right_eq_some, Option.some.injEq, Prod.mk.injEq,
      reduceCtorEq] at h
  case dropRead.idle =>
    obtain ⟨hr, rfl, rfl⟩ := h
    exact .dropRead hr
  case dropWrite.idle =>
    obtain ⟨hw, rfl, rfl⟩ := h
    exact .dropWrite hw
  case forgetRead.idle =>
    obtain ⟨hr, rfl, rfl⟩ := h
    exact .forgetRead rfl hr
  case forgetWrite.idle =>
    obtain ⟨hw, rfl, rfl⟩ := h
    exact .forgetWrite rfl hw
  all_goals
    obtain ⟨rfl, rfl⟩ := h
    exact .of_awake (by simp) (fun _ => trivial) rfl

lemma moves_effect {t : Tid} {p p' : Pc} {d d' : Lock} (h : (machine Tid).Moves t p d p' d') :
    Effect p d p' d' := by
  cases h with
  | exec h => exact exec_effect h
  | choose x h => exact choose_effect h

namespace Effect

variable {p p' : Pc} {d d' : Lock}

lemma ok (h : Effect p d p' d') (hd : d.Ok) (hp : p.Ok) : d'.Ok ∧ p'.Ok := by
  cases h with
  | look _ hok _ => exact ⟨hd, hok hp⟩
  | addReader hok _ hword => exact ⟨hd.addReader (hword hp), hok⟩
  | addWriter hok _ hword => exact ⟨hd.addWriter hword, hok⟩
  | dropRead hr =>
    refine ⟨hd.dropRead hr, ?_⟩
    split <;> trivial
  | dropWrite hw => exact ⟨hd.dropWrite hw, trivial⟩
  | forgetRead _ hr => exact ⟨hd.congr rfl (by simp only [Lock.reads]; omega) rfl, trivial⟩
  | forgetWrite _ hw => exact ⟨hd.congr rfl rfl (by simp only [Lock.writes]; omega), trivial⟩

/-- A thread falls asleep only on a word other than 0. -/
lemma asleep (h : Effect p d p' d') (hp : p.Ok) (ha : asleepOn p' = some ()) : d'.state ≠ 0 := by
  cases h with
  | look _ _ hasleep => exact hasleep hp ha
  | addReader _ hawake | addWriter _ hawake => exact absurd (hawake.symm.trans ha) (by simp)
  | dropRead _ => split at ha <;> exact absurd ha (by simp [asleepOn])
  | dropWrite _ | forgetRead _ _ | forgetWrite _ _ => exact absurd ha (by simp [asleepOn])

/-- Who takes the word to 0 has still to wake all. -/
lemma release (h : Effect p d p' d') (hp : p.Ok) (hd : d.state ≠ 0 ∨ p = .wakeAll) :
    d'.state ≠ 0 ∨ p' = .wakeAll := by
  cases h with
  | look hne _ _ => exact Or.inl (hd.resolve_right hne)
  | addReader _ _ hword =>
    refine Or.inl fun heq => ?_
    have hs := hword hp
    have hzero : (d.state + 1).toNat = 0 := congrArg UInt32.toNat heq
    rw [UInt32.toNat_add, show (1 : UInt32).toNat = 1 from rfl,
      Nat.mod_eq_of_lt (by omega)] at hzero
    exact absurd hzero (Nat.succ_ne_zero _)
  | addWriter _ _ _ => exact Or.inl (show rwWriter ≠ 0 by decide)
  | dropRead _ =>
    by_cases hone : d.state = 1
    · exact Or.inr (if_pos hone)
    · exact Or.inl fun hzero => hone ((UInt32.sub_eq_iff_eq_add.1 hzero).trans (by decide))
  | dropWrite _ => exact Or.inr rfl
  | forgetRead hidle | forgetWrite hidle => exact Or.inl (hd.resolve_right (by simp [hidle]))

end Effect

/-- The lock is in order in every run, and so are the threads. -/
lemma machine_local : (machine Tid).Local Lock.Ok fun _ p _ => p.Ok where
  init := ⟨rfl, fun h => absurd h (Nat.lt_irrefl 0)⟩
  start _ := trivial
  moves t p d p' d' h hd hp :=
    ⟨((moves_effect h).ok hd hp).1, ((moves_effect h).ok hd hp).2, fun _ _ _ hq => hq⟩
  waker t p d all a next h _ := by
    cases p <;> simp only [machine, Option.some.injEq, Prod.mk.injEq, reduceCtorEq] at h
    obtain ⟨-, -, rfl⟩ := h
    trivial
  awaken t p d a _ hp := by cases p <;> exact hp

variable [DecidableEq Tid]

/-- A live write guard is the only live guard.  The word is the number of read guards, live
or leaked, and a write guard that is live, or leaked, adds `2 ^ 31`. -/
theorem rwLock_excludes {s : Machine.State Tid Pc Lock} (h : (machine Tid).Reaches s) :
    (0 < s.shared.writers → s.shared.writers = 1 ∧ s.shared.readers = 0) ∧
      (0 < s.shared.writes → s.shared.writes = 1 ∧ s.shared.reads = 0) ∧
      s.shared.state.toNat = s.shared.reads + if 0 < s.shared.writes then 2 ^ 31 else 0 := by
  obtain ⟨hword, halone⟩ := (machine_local.reaches h).1
  refine ⟨fun hw => ?_, halone, ?_⟩
  · have := halone (by rw [Lock.writes]; omega)
    simp only [Lock.writes, Lock.reads] at this
    omega
  · split
    · rw [hword, (halone ‹_›).1, Nat.mul_one]
    · rw [hword]
      omega

/-- A thread has the write guard. -/
theorem rwLock_excludes_writer : ∃ s : Machine.State ℕ Pc Lock, (machine ℕ).Reaches s ∧
    s.shared.writers = 1 ∧ s.shared.readers = 0 ∧ s.shared.state.toNat = 2 ^ 31 := by
  have hreach := (Machine.reaches_begin (M := machine ℕ)).play [(0, some .write), (0, none)]
  exact ⟨_, hreach, rfl, ((rwLock_excludes hreach).1 (by decide)).2,
    (rwLock_excludes hreach).2.2⟩

/-- A write guard that was leaked still counts in the word, though no write guard is live. -/
theorem rwLock_word_leaked : ∃ s : Machine.State ℕ Pc Lock, (machine ℕ).Reaches s ∧
    s.shared.writers = 0 ∧
    s.shared.state.toNat ≠ s.shared.reads + if 0 < s.shared.writers then 2 ^ 31 else 0 := by
  have hreach := (Machine.reaches_begin (M := machine ℕ)).play
    [(0, some .write), (0, none), (0, some .forgetWrite)]
  exact ⟨_, hreach, rfl, by decide⟩

/-! ### Sleepers -/

lemma asleepOn_awaken (p : Pc) : asleepOn (awaken p) = none := by cases p <;> rfl

omit [DecidableEq Tid] in
lemma machine_handoff : (machine Tid).Handoff (fun _ p _ => p.Ok) () (fun d => d.state ≠ 0)
    (fun p => p = .wakeAll) where
  start _ := by simp [machine, asleepOn]
  sleeps t p d p' d' h := (moves_effect h).asleep
  keeps t p d p' d' h := (moves_effect h).release
  wakes p all b next h := by
    cases p <;> simp only [machine, Option.some.injEq, Prod.mk.injEq, reduceCtorEq] at h
    obtain ⟨-, -, rfl⟩ := h
    exact ⟨rfl, fun _ => rfl⟩
  awake p h := by rw [h]; rfl
  awaken := asleepOn_awaken

/-- If a thread sleeps on the word, the word is not 0 and there is a guard, or a thread that
released the lock has still to call `futex_wake_all`. -/
theorem rwLock_wakes {s : Machine.State Tid Pc Lock} (h : (machine Tid).Reaches s) {t : Tid}
    (ht : asleepOn (s.pc t) = some ()) :
    (s.shared.state ≠ 0 ∧ 0 < s.shared.reads + s.shared.writes) ∨ ∃ u, s.pc u = .wakeAll := by
  have hattended := machine_handoff.reaches (fun s hs => (machine_local.reaches hs).2)
    (Or.inl fun p all b next hp hw => ?_) h ⟨t, ht⟩
  · refine hattended.imp_left fun hstate => ⟨hstate, ?_⟩
    have hword := (machine_local.reaches h).1.word
    have hpos : s.shared.state.toNat ≠ 0 := fun hzero => hstate (UInt32.toNat_inj.1 hzero)
    omega
  · rw [hp] at hw
    exact (congrArg Prod.fst (Option.some.inj hw)).symm

/-- A writer sleeps while another thread has the write guard. -/
theorem rwLock_wakes_writer : ∃ s : Machine.State ℕ Pc Lock, (machine ℕ).Reaches s ∧
    asleepOn (s.pc 1) = some () ∧
    ((s.shared.state ≠ 0 ∧ 0 < s.shared.reads + s.shared.writes) ∨ ∃ u, s.pc u = .wakeAll) := by
  have hreach := (Machine.reaches_begin (M := machine ℕ)).play
    ([(0, some .write), (0, none), (1, some .write)] ++ List.replicate 4 (1, none))
  exact ⟨_, hreach, rfl, rwLock_wakes hreach (t := 1) rfl⟩

end PureStd.Sync.RwLock
