/-
The channel `mpsc` of `src/sync.rs`, as a program over its mutex and condition variable.

Every access to a field of `Shared` is one operation of a thread (`Mpsc.exec`); `lock`,
the drop of the guard, `wait` and the notifications are calls of the functions of
`sync.rs` (`Mpsc.call`).  The program that uses the channel may send, clone, drop and
receive at any time, as far as Rust allows it: `send` and `clone` borrow a `Sender`,
and a `Sender` is dropped once and only while nobody borrows it (`Mpsc.choose`).  Both
ends can be shared between threads, so several calls may borrow the same end.

The history is recorded next to the data of the source: the messages pushed, the messages
taken from the queue with the calls that took them, the calls of `send` that returned `Ok`,
and what the receiving calls returned.
-/
import PureStd.Sync.Program

namespace PureStd.Sync.Mpsc

variable {V : Type*}

/-- A value on its way through the channel. -/
structure Msg (V : Type*) where
  value : V
  /-- The `Sender` on which `send` was called. -/
  sender : ℕ
  /-- The number of the call. -/
  id : ℕ
  /-- The calls of `send` that had returned `Ok` when this one was made. -/
  after : List ℕ
deriving DecidableEq, Repr

/-- An end of the channel, as Rust sees it. -/
inductive Handle where
  /-- In use, borrowed by these calls. -/
  | live (borrows : List ℕ)
  /-- Being dropped by this call. -/
  | closing (id : ℕ)
  /-- Dropped: it does not count as a sender any more, or is recorded as gone. -/
  | closed
deriving DecidableEq, Repr

/-- A call borrows the handle. -/
def Handle.borrow (id : ℕ) : Handle → Handle
  | live bs => live (id :: bs)
  | x => x

/-- A call that borrowed the handle returns. -/
def Handle.release (id : ℕ) : Handle → Handle
  | live bs => live (bs.erase id)
  | x => x

/-- `TryRecvError`.  The `RecvError` of `recv`, and the `None` that `Iter::next` makes of
it, are `disconnected`. -/
inductive RecvError where
  | empty
  | disconnected
deriving DecidableEq, Repr

/-- A call of `recv`, `try_recv` or `Iter::next` that has returned. -/
structure Answer (V : Type*) where
  /-- The number of the call. -/
  id : ℕ
  result : Except RecvError (Msg V)
  /-- The number of the next call when this one returned. -/
  before : ℕ

/-- The fields of `Shared`. -/
structure Shared (V : Type*) where
  queue : List (Msg V)
  senders : ℕ
  receiverGone : Bool

/-- The channel, its ends and its history. -/
structure Chan (V : Type*) extends Shared V where
  /-- The values of type `Sender`. -/
  handles : List Handle
  /-- The value of type `Receiver`. -/
  receiver : Handle
  /-- The number of the next call. -/
  nextId : ℕ
  /-- What was pushed into the queue. -/
  pushed : List (Msg V)
  /-- What was popped from the queue, and by which call. -/
  received : List (ℕ × Msg V)
  /-- The receiving calls that have returned. -/
  returned : List (Answer V)
  /-- The calls of `send` that returned `Ok`. -/
  acked : List ℕ

/-- `channel`. -/
def channel : Chan V where
  queue := []
  senders := 1
  receiverGone := false
  handles := [.live []]
  receiver := .live []
  nextId := 0
  pushed := []
  received := []
  returned := []
  acked := []

/-- The functions that receive: `Receiver::recv`, `Receiver::try_recv`, `Iter::next`. -/
inductive Op where
  | recv
  | tryRecv
  | next
deriving DecidableEq, Repr

/-- Program points. -/
inductive Ctl (V : Type*) where
  | idle
  /-- `send`: `receiver_gone.load()`. -/
  | sendCheck (m : Msg V)
  /-- `send`: `queue.lock()`. -/
  | sendLock (m : Msg V)
  /-- `send`: `push_back(t)`. -/
  | sendPush (m : Msg V)
  /-- `send`: the guard is dropped. -/
  | sendUnlock (m : Msg V)
  /-- `send`: `cv.notify_one()`. -/
  | sendNotify (m : Msg V)
  /-- `send` returns. -/
  | sendRet (m : Msg V) (r : Except V Unit)
  /-- The program has the answer of `send`. -/
  | sent (m : Msg V) (r : Except V Unit)
  /-- `Sender::clone`: `senders.fetch_add(1)`. -/
  | cloneAdd (h id : ℕ)
  /-- `Sender::drop`: `senders.fetch_sub(1)`. -/
  | dropSub (h id : ℕ)
  /-- `Sender::drop`: `cv.notify_all()`. -/
  | dropNotify
  /-- `recv`: `queue.lock()`. -/
  | recvLock (op : Op) (id : ℕ)
  /-- `recv`: `q.pop_front()`. -/
  | recvPop (op : Op) (id : ℕ)
  /-- `recv`: `senders.load()`. -/
  | recvCheck (op : Op) (id : ℕ)
  /-- `recv`: `cv.wait(q)`. -/
  | recvWait (op : Op) (id : ℕ)
  /-- `recv`: the guard is dropped. -/
  | recvUnlock (op : Op) (id : ℕ) (r : Except RecvError (Msg V))
  /-- `recv` returns. -/
  | recvRet (op : Op) (id : ℕ) (r : Except RecvError (Msg V))
  /-- The program has the answer of `recv`. -/
  | got (op : Op) (id : ℕ) (r : Except RecvError (Msg V))
  /-- `Receiver::drop`: `receiver_gone.store(true)`. -/
  | receiverDrop
deriving DecidableEq

/-- The operations on the fields of `Shared`, and the returns. -/
def exec : Ctl V → Chan V → Option (Ctl V × Chan V)
  | .sendCheck m, d =>
    some (if d.receiverGone then .sendRet m (.error m.value) else .sendLock m, d)
  | .sendPush m, d =>
    some (.sendUnlock m, { d with queue := d.queue ++ [m], pushed := d.pushed ++ [m] })
  | .sendRet m r, d =>
    some (.sent m r, { d with
      handles := d.handles.modify m.sender (Handle.release m.id)
      acked := if r.isOk then m.id :: d.acked else d.acked })
  -- the new handle is there as soon as it is counted
  | .cloneAdd h id, d =>
    some (.idle, { d with
      senders := d.senders + 1
      handles := d.handles.modify h (Handle.release id) ++ [.live []] })
  | .dropSub h _, d =>
    some (if d.senders = 1 then .dropNotify else .idle, { d with
      senders := d.senders - 1
      handles := d.handles.modify h fun _ => .closed })
  | .recvPop op id, d =>
    match d.queue with
    | m :: q =>
      some (.recvUnlock op id (.ok m), { d with
        queue := q
        received := d.received ++ [(id, m)] })
    | [] => some (.recvCheck op id, d)
  | .recvCheck op id, d =>
    some (if d.senders = 0 then .recvUnlock op id (.error .disconnected)
      else if op = .tryRecv then .recvUnlock op id (.error .empty)
      else .recvWait op id, d)
  | .recvRet op id r, d =>
    some (.got op id r, { d with
      receiver := d.receiver.release id
      returned := d.returned ++ [⟨id, r, d.nextId⟩] })
  | .receiverDrop, d => some (.idle, { d with receiverGone := true, receiver := .closed })
  | _, _ => none

/-- What the program may decide to do. -/
inductive Choice (V : Type*) where
  | send (h : ℕ) (value : V)
  | clone (h : ℕ)
  | drop (h : ℕ)
  | receive (op : Op)
  | dropReceiver
  /-- It goes on after a call. -/
  | resume

/-- The decisions of the program: a thread that is idle makes a call. -/
def choose : Choice V → Ctl V → Chan V → Option (Ctl V × Chan V)
  | .send h value, .idle, d =>
    match d.handles[h]? with
    | some (.live _) =>
      some (.sendCheck ⟨value, h, d.nextId, d.acked⟩, { d with
        handles := d.handles.modify h (Handle.borrow d.nextId)
        nextId := d.nextId + 1 })
    | _ => none
  | .clone h, .idle, d =>
    match d.handles[h]? with
    | some (.live _) =>
      some (.cloneAdd h d.nextId, { d with
        handles := d.handles.modify h (Handle.borrow d.nextId)
        nextId := d.nextId + 1 })
    | _ => none
  | .drop h, .idle, d =>
    match d.handles[h]? with
    | some (.live []) =>
      some (.dropSub h d.nextId, { d with
        handles := d.handles.modify h fun _ => .closing d.nextId
        nextId := d.nextId + 1 })
    | _ => none
  | .receive op, .idle, d =>
    match d.receiver with
    | .live _ =>
      some (.recvLock op d.nextId, { d with
        receiver := d.receiver.borrow d.nextId
        nextId := d.nextId + 1 })
    | _ => none
  | .dropReceiver, .idle, d =>
    match d.receiver with
    | .live [] =>
      some (.receiverDrop, { d with
        receiver := .closing d.nextId
        nextId := d.nextId + 1 })
    | _ => none
  | .resume, .sent _ _, d => some (.idle, d)
  | .resume, .got _ _ _, d => some (.idle, d)
  | _, _, _ => none

/-- The calls of the functions of `sync.rs`. -/
def call : Ctl V → Option (Call Unit × Ctl V)
  | .sendLock m => some (.lock, .sendPush m)
  | .sendUnlock m => some (.unlock, .sendNotify m)
  | .sendNotify m => some (.notify false (), .sendRet m (.ok ()))
  | .dropNotify => some (.notify true (), .idle)
  | .recvLock op id => some (.lock, .recvPop op id)
  | .recvWait op id => some (.wait (), .recvPop op id)
  | .recvUnlock op id r => some (.unlock, .recvRet op id r)
  | _ => none

/-- A program that uses one channel. -/
def program (V : Type*) : Program Unit (Ctl V) (Chan V) (Choice V) where
  start := .idle
  init := channel
  exec := exec
  choose := choose
  call := call

/-! ### The guard of the queue -/

/-- The thread has the guard of the queue. -/
def Ctl.locked : Ctl V → Bool
  | sendPush _ => true
  | sendUnlock _ => true
  | recvPop _ _ => true
  | recvCheck _ _ => true
  | recvWait _ _ => true
  | recvUnlock _ _ _ => true
  | _ => false

/-- Where `lock` and `wait` return. -/
def Ctl.landing : Ctl V → Bool
  | sendPush _ => true
  | recvPop _ _ => true
  | _ => false

/-- A choice leads from a point without a guard to another one. -/
lemma choose_unlocked {x : Choice V} {k k' : Ctl V} {d d' : Chan V}
    (h : choose x k d = some (k', d')) : k.locked = false ∧ k'.locked = false := by
  cases x <;> cases k <;> simp only [choose, reduceCtorEq] at h
  all_goals first | split at h | skip
  all_goals simp only [Option.some.injEq, Prod.mk.injEq, reduceCtorEq] at h
  all_goals obtain ⟨rfl, -⟩ := h
  all_goals exact ⟨rfl, rfl⟩

/-- The guard of the queue is where the source has it. -/
def discipline (V : Type*) : Discipline (program V) where
  locked := Ctl.locked
  landing := Ctl.landing
  landing_locked k h := by cases k <;> first | rfl | exact absurd h (by simp [Ctl.landing])
  start := rfl
  exec k d k' d' h := by
    change exec k d = some (k', d') at h
    cases k <;> simp only [exec, Option.some.injEq, Prod.mk.injEq, reduceCtorEq] at h
    case recvPop op id =>
      split at h <;> simp only [Option.some.injEq, Prod.mk.injEq] at h <;> rw [← h.1] <;> rfl
    all_goals
      rw [← h.1]
      repeat' split
      all_goals rfl
  choose x k d k' d' h := by
    obtain ⟨hk, hk'⟩ := choose_unlocked h
    rw [hk, hk']
  call k c k' h := by
    change call k = some (c, k') at h
    cases k <;> simp only [call, Option.some.injEq, Prod.mk.injEq, reduceCtorEq] at h
    all_goals
      obtain ⟨rfl, rfl⟩ := h
      first | exact ⟨rfl, rfl⟩ | exact ⟨rfl, by simp [Ctl.locked]⟩

end PureStd.Sync.Mpsc
