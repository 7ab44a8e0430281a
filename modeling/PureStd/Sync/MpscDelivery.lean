/-
The channel delivers what was sent, once and in order.

All invariants are those of the system without the mutex (`Discipline.ViewStep`), in
which a thread with the guard of the queue moves alone.  A call is identified by its
number, so an operation of one call keeps what the others rely on (`Chan.Evolves`): a
`Sender` borrowed by another call stays borrowed, and other calls have pushed what they
had pushed.  A call of `send` under way borrows a `Sender` that counts; this is why a
receiver that reads 0 from `senders` has nothing more to expect.

The queue fixes the order of the messages.  A receiving call takes at most one message from it,
and returns it (`Receipts`); between the two the message is in the hands of the thread
(`Ctl.holds`).
-/
import PureStd.Sync.Mpsc

namespace PureStd.Sync.Mpsc

variable {Tid V : Type*} {i h j n : ℕ} {hs : List Handle} {f : Handle → Handle}
  {r : Except RecvError (Msg V)} {m : Msg V}

/-! ### Ends of the channel -/

/-- The handle counts in `senders`. -/
def Handle.counted : Handle → Bool
  | closed => false
  | _ => true

/-- The handle is borrowed by call `j`. -/
def Handle.BorrowedBy (j : ℕ) : Handle → Prop
  | live bs => j ∈ bs
  | _ => False

/-- Call `i` may have changed the handle, as far as the other calls can tell. -/
structure Handle.Keeps (i : ℕ) (x y : Handle) : Prop where
  borrowed : ∀ j, j ≠ i → x.BorrowedBy j → y.BorrowedBy j
  closing : ∀ j, j ≠ i → x = .closing j → y = .closing j
  closed : x = .closed → y = .closed

lemma Handle.Keeps.refl (i : ℕ) (x : Handle) : x.Keeps i x :=
  ⟨fun _ _ h => h, fun _ _ h => h, fun h => h⟩

lemma Handle.keeps_borrow (i : ℕ) (x : Handle) : x.Keeps i (x.borrow i) := by
  cases x with
  | live bs => exact ⟨fun j _ h => List.mem_cons_of_mem i h, by simp, by simp⟩
  | _ => exact Keeps.refl i _

lemma Handle.keeps_release (i : ℕ) (x : Handle) : x.Keeps i (x.release i) := by
  cases x with
  | live bs => exact ⟨fun j hj h => (List.mem_erase_of_ne hj).2 h, by simp, by simp⟩
  | _ => exact Keeps.refl i _

lemma Handle.keeps_closing (i : ℕ) : (live []).Keeps i (closing i) :=
  ⟨fun _ _ h => absurd h List.not_mem_nil, by simp, by simp⟩

lemma Handle.keeps_closed (i : ℕ) : (closing i).Keeps i closed :=
  ⟨fun _ _ h => h, fun _ hj h => absurd (Handle.closing.inj h).symm hj, by simp⟩

@[simp] lemma Handle.counted_borrow (i : ℕ) (x : Handle) : (x.borrow i).counted = x.counted := by
  cases x <;> rfl

@[simp] lemma Handle.counted_release (i : ℕ) (x : Handle) :
    (x.release i).counted = x.counted := by
  cases x <;> rfl

/-- Call `i` may have changed the handles; it may also have made new ones. -/
def KeepsAll (i : ℕ) (hs hs' : List Handle) : Prop :=
  ∀ (h : ℕ) (x : Handle), hs[h]? = some x → ∃ y, hs'[h]? = some y ∧ x.Keeps i y

lemma KeepsAll.refl (i : ℕ) (hs : List Handle) : KeepsAll i hs hs :=
  fun _ x hx => ⟨x, hx, .refl i x⟩

lemma keepsAll_modify (hf : ∀ x, hs[h]? = some x → x.Keeps i (f x)) :
    KeepsAll i hs (hs.modify h f) := by
  intro h' x hx
  by_cases heq : h = h'
  · subst heq
    exact ⟨f x, by simp [hx], hf x hx⟩
  · exact ⟨x, by simp [heq, hx], .refl i x⟩

lemma KeepsAll.append {hs' : List Handle} (h : KeepsAll i hs hs') (l : List Handle) :
    KeepsAll i hs (hs' ++ l) := by
  intro j x hx
  obtain ⟨y, hy, hkeeps⟩ := h j x hx
  exact ⟨y, List.getElem?_append_left (List.getElem?_eq_some_iff.1 hy).1 ▸ hy, hkeeps⟩

/-- How a change of one handle changes the number of those that count. -/
lemma countP_modify {x : Handle} (hx : hs[h]? = some x) :
    (hs.modify h f).countP Handle.counted + x.counted.toNat =
      hs.countP Handle.counted + (f x).counted.toNat := by
  induction hs generalizing h with
  | nil => exact absurd hx (by simp)
  | cons y hs ih =>
    cases h with
    | zero =>
      obtain rfl : y = x := by simpa using hx
      simp only [List.modify_zero_cons, List.countP_cons]
      cases y.counted <;> cases (f y).counted <;> simp
    | succ h =>
      have := ih (by simpa using hx)
      simp only [List.modify_succ_cons, List.countP_cons]
      omega

lemma countP_modify_same (hf : ∀ x, hs[h]? = some x → (f x).counted = x.counted) :
    (hs.modify h f).countP Handle.counted = hs.countP Handle.counted := by
  cases hx : hs[h]? with
  | none => rw [List.modify_eq_self (by simpa using hx)]
  | some x =>
    have := countP_modify (f := f) hx
    rw [hf x hx] at this
    omega

/-- All senders have been dropped. -/
def AllClosed (hs : List Handle) : Prop := ∀ x ∈ hs, x = .closed

lemma AllClosed.of_keepsAll {hs' : List Handle} (h : AllClosed hs) (hkeeps : KeepsAll i hs hs')
    (hlen : hs'.length = hs.length) : AllClosed hs' := by
  intro y hy
  obtain ⟨n, hn, rfl⟩ := List.mem_iff_getElem.1 hy
  obtain ⟨z, hz, hxz⟩ := hkeeps n hs[n] (List.getElem?_eq_getElem (by omega))
  rw [List.getElem?_eq_getElem hn, Option.some.injEq] at hz
  rw [hz]
  exact hxz.closed (h _ (List.getElem_mem _))

lemma allClosed_of_countP (h : hs.countP Handle.counted = 0) : AllClosed hs := by
  intro x hx
  have := List.countP_eq_zero.1 h x hx
  cases x <;> simp [Handle.counted] at this ⊢

/-! ### Receipts -/

/-- What the receiving calls have taken and returned; `next` is the number of the next call. -/
structure Receipts (received : List (ℕ × Msg V)) (returned : List (Answer V)) (next : ℕ) :
    Prop where
  /-- A call takes one message at most. -/
  once : (received.map Prod.fst).Nodup
  /-- A call returns once. -/
  answered : (returned.map Answer.id).Nodup
  /-- It returns no other message than the one it has taken. -/
  gave : ∀ a ∈ returned, ∀ m, a.result = .ok m → (a.id, m) ∈ received
  /-- A call that was made after another one had returned has not taken its message before it. -/
  order : received.Pairwise fun p p' => ∀ a ∈ returned, a.id = p'.1 → p.1 < a.before
  taken_lt : ∀ p ∈ received, p.1 < next
  answered_lt : ∀ a ∈ returned, a.id < next

namespace Receipts

variable {received : List (ℕ × Msg V)} {returned : List (Answer V)} {next : ℕ}

lemma mono (h : Receipts received returned next) {next' : ℕ} (hle : next ≤ next') :
    Receipts received returned next' :=
  ⟨h.once, h.answered, h.gave, h.order, fun p hp => (h.taken_lt p hp).trans_le hle,
    fun a ha => (h.answered_lt a ha).trans_le hle⟩

/-- A call takes a message. -/
lemma take (h : Receipts received returned next) (hi : i ∉ received.map Prod.fst)
    (hret : i ∉ returned.map Answer.id) (hlt : i < next) :
    Receipts (received ++ [(i, m)]) returned next := by
  refine ⟨?_, h.answered, fun a ha m' hm' => List.mem_append_left _ (h.gave a ha m' hm'), ?_,
    List.forall_mem_append.2 ⟨h.taken_lt, List.forall_mem_singleton.2 hlt⟩, h.answered_lt⟩
  · simpa using h.once.concat hi
  · -- the call has not returned
    refine List.pairwise_append.2 ⟨h.order, List.pairwise_singleton _ _,
      fun p _ => List.forall_mem_singleton.2 fun a ha hid => ?_⟩
    exact absurd (List.mem_map.2 ⟨a, ha, hid⟩) hret

/-- A call returns. -/
lemma answer (h : Receipts received returned next) (hret : i ∉ returned.map Answer.id)
    (hlt : i < next) (hgave : ∀ m, r = .ok m → (i, m) ∈ received) :
    Receipts received (returned ++ [⟨i, r, next⟩]) next := by
  refine ⟨h.once, ?_, List.forall_mem_append.2 ⟨h.gave, List.forall_mem_singleton.2 hgave⟩, ?_,
    h.taken_lt, List.forall_mem_append.2 ⟨h.answered_lt, List.forall_mem_singleton.2 hlt⟩⟩
  · simpa using h.answered.concat hret
  · -- all calls that have taken a message were made before
    refine h.order.imp_of_mem fun {p p'} hp _ hold => List.forall_mem_append.2 ⟨hold, ?_⟩
    exact List.forall_mem_singleton.2 fun _ => h.taken_lt p hp

end Receipts

/-! ### The invariant -/

/-- Call `i` has pushed its message. -/
def Chan.HasPushed (d : Chan V) (i : ℕ) : Prop := i ∈ d.pushed.map Msg.id

/-- Call `i` borrows the sender with number `h`. -/
def Chan.Borrowed (d : Chan V) (h i : ℕ) : Prop :=
  ∃ x, d.handles[h]? = some x ∧ x.BorrowedBy i

/-- All senders have been dropped, and all messages have been received. -/
def Chan.Disconnected (d : Chan V) : Prop := AllClosed d.handles ∧ d.queue = []

/-- The message has still to be pushed. -/
def Chan.Unsent (d : Chan V) (m : Msg V) : Prop :=
  ¬ d.HasPushed m.id ∧ m.id < d.nextId ∧ m.after ⊆ d.acked

/-- What the answer of `send` says. -/
def Chan.Answered (d : Chan V) (m : Msg V) : Except V Unit → Prop
  | .ok _ => d.HasPushed m.id
  | .error v => d.receiver = .closed ∧ v = m.value ∧ ¬ d.HasPushed m.id

/-- The receiving call `i` has returned. -/
def Chan.HasReturned (d : Chan V) (i : ℕ) : Prop := i ∈ d.returned.map Answer.id

/-- The receiving call `i` has returned this. -/
def Chan.Logged (d : Chan V) (i : ℕ) (r : Except RecvError (Msg V)) : Prop :=
  ∃ a ∈ d.returned, a.id = i ∧ a.result = r

/-- The receiving call `i` has not taken a message yet. -/
def Chan.Waiting (d : Chan V) (i : ℕ) : Prop :=
  i ∉ d.received.map Prod.fst ∧ ¬ d.HasReturned i ∧ i < d.nextId

/-- What the answer of the receiving call `i` says. -/
def Chan.Gave (d : Chan V) (i : ℕ) : Except RecvError (Msg V) → Prop
  | .ok m => (i, m) ∈ d.received
  | .error .disconnected => d.Disconnected
  | .error .empty => True

/-- The message that a call has taken and not returned yet. -/
def Ctl.holds : Ctl V → Option (ℕ × Msg V)
  | recvUnlock _ id (.ok m) => some (id, m)
  | recvRet _ id (.ok m) => some (id, m)
  | _ => none

/-- The number of the call that a thread is in. -/
def Ctl.token : Ctl V → Option ℕ
  | sendCheck m => some m.id
  | sendLock m => some m.id
  | sendPush m => some m.id
  | sendUnlock m => some m.id
  | sendNotify m => some m.id
  | sendRet m _ => some m.id
  | sent m _ => some m.id
  | cloneAdd _ id => some id
  | dropSub _ id => some id
  | recvLock _ id => some id
  | recvPop _ id => some id
  | recvCheck _ id => some id
  | recvWait _ id => some id
  | recvUnlock _ id _ => some id
  | recvRet _ id _ => some id
  | _ => none

/-- What a thread at a program point relies on. -/
def Ctl.Ok (d : Chan V) : Ctl V → Prop
  | sendCheck m => d.Borrowed m.sender m.id ∧ d.Unsent m
  | sendLock m => d.Borrowed m.sender m.id ∧ d.Unsent m
  | sendPush m => d.Borrowed m.sender m.id ∧ d.Unsent m
  | sendUnlock m => d.Borrowed m.sender m.id ∧ d.HasPushed m.id
  | sendNotify m => d.Borrowed m.sender m.id ∧ d.HasPushed m.id
  | sendRet m r => d.Borrowed m.sender m.id ∧ d.Answered m r
  | sent m r => d.Answered m r
  | cloneAdd h id => d.Borrowed h id
  | dropSub h id => d.handles[h]? = some (.closing id)
  | recvLock _ id => d.Waiting id
  | recvPop _ id => d.Waiting id
  | recvCheck _ id => d.Waiting id ∧ d.queue = []
  | recvWait _ id => d.Waiting id
  | recvUnlock _ id r => d.Gave id r ∧ ¬ d.HasReturned id
  | recvRet _ id r => d.Gave id r ∧ ¬ d.HasReturned id
  | got _ id r => d.Gave id r ∧ d.Logged id r
  | _ => True

/-- The invariant of the channel. -/
structure Chan.Inv (d : Chan V) : Prop where
  split : d.pushed = d.received.map Prod.snd ++ d.queue
  count : d.senders = d.handles.countP Handle.counted
  nodup : (d.pushed.map Msg.id).Nodup
  order : d.pushed.Pairwise fun m m' => m'.id ∉ m.after
  after : ∀ m ∈ d.pushed, m.after ⊆ d.acked
  acked : ∀ i ∈ d.acked, d.HasPushed i
  fresh : ∀ i, d.HasPushed i → i < d.nextId
  gone : d.receiverGone = true → d.receiver = .closed
  receipts : Receipts d.received d.returned d.nextId

section Extends

variable {α : Type*} {key : α → ℕ} {l l' : List α}

/-- A list in which call `i` may have made an entry. -/
def Extends (key : α → ℕ) (i : ℕ) (l l' : List α) : Prop :=
  l' = l ∨ ∃ x, key x = i ∧ l' = l ++ [x]

lemma Extends.subset (h : Extends key i l l') : l ⊆ l' := by
  rcases h with rfl | ⟨x, -, rfl⟩
  · exact fun _ hx => hx
  · exact List.subset_append_left _ _

lemma Extends.not_mem (h : Extends key i l l') (hji : j ≠ i) (hj : j ∉ l.map key) :
    j ∉ l'.map key := by
  rcases h with rfl | ⟨x, rfl, rfl⟩
  · exact hj
  · rw [List.map_append, List.mem_append]
    exact not_or.2 ⟨hj, by simpa using hji⟩

end Extends

/-- What a move of call `i` may do, as far as the other calls can tell. -/
structure Chan.Evolves (i : ℕ) (d d' : Chan V) : Prop where
  handles : KeepsAll i d.handles d'.handles
  pushed : Extends Msg.id i d.pushed d'.pushed
  received : Extends Prod.fst i d.received d'.received
  returned : Extends Answer.id i d.returned d'.returned
  acked : d.acked ⊆ d'.acked
  nextId : d.nextId ≤ d'.nextId
  closed : d.receiver = .closed → d'.receiver = .closed
  quiet : d.Disconnected → d'.Disconnected

lemma Chan.Borrowed.not_disconnected {d : Chan V} (hb : d.Borrowed h i) : ¬ d.Disconnected := by
  rintro ⟨hclosed, -⟩
  obtain ⟨x, hx, hbx⟩ := hb
  rw [hclosed x (List.mem_of_getElem? hx)] at hbx
  exact hbx

namespace Chan.Evolves

variable {d d' : Chan V}

lemma refl (i : ℕ) (d : Chan V) : d.Evolves i d :=
  ⟨.refl i _, Or.inl rfl, Or.inl rfl, Or.inl rfl, fun _ h => h, le_rfl, fun h => h, fun h => h⟩

lemma hasPushed (h : d.Evolves i d') (hj : d.HasPushed j) : d'.HasPushed j :=
  List.map_subset Msg.id h.pushed.subset hj

lemma borrowed (h : d.Evolves i d') (hji : j ≠ i) (hj : d.Borrowed n j) : d'.Borrowed n j := by
  obtain ⟨x, hx, hbx⟩ := hj
  obtain ⟨y, hy, hkeeps⟩ := h.handles n x hx
  exact ⟨y, hy, hkeeps.borrowed j hji hbx⟩

lemma unsent (h : d.Evolves i d') (hm : m.id ≠ i) (hu : d.Unsent m) : d'.Unsent m :=
  ⟨h.pushed.not_mem hm hu.1, hu.2.1.trans_le h.nextId, fun _ hj => h.acked (hu.2.2 hj)⟩

lemma answered (h : d.Evolves i d') (hm : m.id ≠ i) {r : Except V Unit} (ha : d.Answered m r) :
    d'.Answered m r := by
  cases r with
  | ok _ => exact h.hasPushed ha
  | error v => exact ⟨h.closed ha.1, ha.2.1, h.pushed.not_mem hm ha.2.2⟩

lemma waiting (h : d.Evolves i d') (hji : j ≠ i) (hw : d.Waiting j) : d'.Waiting j :=
  ⟨h.received.not_mem hji hw.1, h.returned.not_mem hji hw.2.1, hw.2.2.trans_le h.nextId⟩

lemma logged (h : d.Evolves i d') (hl : d.Logged j r) : d'.Logged j r := by
  obtain ⟨a, ha, hid⟩ := hl
  exact ⟨a, h.returned.subset ha, hid⟩

lemma gave (h : d.Evolves i d') (hg : d.Gave j r) : d'.Gave j r := by
  cases r with
  | ok m => exact h.received.subset hg
  | error e =>
    cases e with
    | empty => trivial
    | disconnected => exact h.quiet hg

/-- The other calls can go on as before. -/
lemma ok (h : d.Evolves i d') {k : Ctl V} (htoken : k.token ≠ some i)
    (hqueue : k.locked = true → k.landing = false → d'.queue = d.queue) (hk : k.Ok d) :
    k.Ok d' := by
  have hne : ∀ j, k.token = some j → j ≠ i := by
    rintro j hj rfl
    exact htoken hj
  cases k with
  | sendCheck | sendLock | sendPush =>
    exact ⟨h.borrowed (hne _ rfl) hk.1, h.unsent (hne _ rfl) hk.2⟩
  | sendUnlock | sendNotify => exact ⟨h.borrowed (hne _ rfl) hk.1, h.hasPushed hk.2⟩
  | sendRet m r => exact ⟨h.borrowed (hne _ rfl) hk.1, h.answered (hne _ rfl) hk.2⟩
  | sent m r => exact h.answered (hne _ rfl) hk
  | cloneAdd n j => exact h.borrowed (hne _ rfl) hk
  | dropSub n j =>
    obtain ⟨y, hy, hkeeps⟩ := h.handles n _ hk
    rw [hkeeps.closing j (hne _ rfl) rfl] at hy
    exact hy
  | recvLock | recvPop | recvWait => exact h.waiting (hne _ rfl) hk
  | recvCheck op j => exact ⟨h.waiting (hne _ rfl) hk.1, (hqueue rfl rfl).trans hk.2⟩
  | recvUnlock | recvRet => exact ⟨h.gave hk.1, h.returned.not_mem (hne _ rfl) hk.2⟩
  | got op j r => exact ⟨h.gave hk.1, h.logged hk.2⟩
  | _ => trivial

end Chan.Evolves

/-! ### Moves -/

/-- What a move does: it keeps the invariant, the thread may rely on what it relies on at
its new point, and the other threads go on as before. -/
structure Moved (k : Ctl V) (d : Chan V) (k' : Ctl V) (d' : Chan V) : Prop where
  inv : d'.Inv
  ok : k'.Ok d'
  evolves : d.Evolves (k.token.getD d.nextId) d'
  token : ∀ j, k'.token = some j → j = k.token.getD d.nextId ∧ j < d'.nextId
  queue : k.locked = false → d'.queue = d.queue

section Moves

variable {k k' : Ctl V} {d d' : Chan V}

/-- The thread stays in its call. -/
lemma token_same (hk : k.token = some j) (hk' : k'.token = some j) (hlt : j < n) :
    ∀ i, k'.token = some i → i = k.token.getD d.nextId ∧ i < n := by
  intro i hi
  obtain rfl := Option.some.inj (hk'.symm.trans hi)
  exact ⟨by rw [hk]; rfl, hlt⟩

/-- The channel stays as it is. -/
lemma moved_stay (hinv : d.Inv) (hok : k'.Ok d) (hlt : ∀ j, k.token = some j → j < d.nextId)
    (htoken : ∀ j, k'.token = some j → k.token = some j) : Moved k d k' d where
  inv := hinv
  ok := hok
  evolves := .refl _ d
  token j hj := by
    have := htoken j hj
    exact ⟨by simp [this], hlt j this⟩
  queue _ := rfl

/-- `push_back`. -/
lemma moved_push (hinv : d.Inv) (hok : (Ctl.sendPush m).Ok d) :
    Moved (.sendPush m) d (.sendUnlock m)
      { d with queue := d.queue ++ [m], pushed := d.pushed ++ [m] } := by
  obtain ⟨hborrowed, hnew, hlt, hafter⟩ := hok
  have hpushed : ∀ j, Chan.HasPushed { d with
      queue := d.queue ++ [m], pushed := d.pushed ++ [m] } j ↔ d.HasPushed j ∨ j = m.id := by
    intro j
    simp [Chan.HasPushed]
  refine ⟨{ hinv with
      split := ?_
      nodup := by simpa using hinv.nodup.concat hnew
      order := ?_
      after := List.forall_mem_append.2 ⟨hinv.after, List.forall_mem_singleton.2 hafter⟩
      acked := fun j hj => (hpushed j).2 (Or.inl (hinv.acked j hj))
      fresh := fun j hj => ?_ },
    ⟨hborrowed, (hpushed _).2 (Or.inr rfl)⟩,
    { Chan.Evolves.refl m.id d with
      pushed := Or.inr ⟨m, rfl, rfl⟩
      quiet := fun hd => absurd hd hborrowed.not_disconnected },
    token_same rfl rfl hlt, fun h => absurd h (by simp [Ctl.locked])⟩
  · change d.pushed ++ [m] = d.received.map Prod.snd ++ (d.queue ++ [m])
    rw [hinv.split, List.append_assoc]
  · -- an earlier message does not come after this one, which has not been acknowledged
    refine List.pairwise_append.2 ⟨hinv.order, List.pairwise_singleton _ _,
      fun m₀ hm₀ => List.forall_mem_singleton.2 fun hafter₀ => ?_⟩
    exact hnew (hinv.acked _ (hinv.after m₀ hm₀ hafter₀))
  · rcases (hpushed j).1 hj with hold | rfl
    · exact hinv.fresh j hold
    · exact hlt

/-- `send` returns. -/
lemma moved_sendRet {r : Except V Unit} (hinv : d.Inv) (hlt : m.id < d.nextId)
    (hok : (Ctl.sendRet m r).Ok d) :
    Moved (.sendRet m r) d (.sent m r) { d with
      handles := d.handles.modify m.sender (Handle.release m.id)
      acked := if r.isOk then m.id :: d.acked else d.acked } := by
  obtain ⟨-, hanswered⟩ := hok
  have hacked : d.acked ⊆ if r.isOk then m.id :: d.acked else d.acked := by
    split
    · exact List.subset_cons_self _ _
    · exact fun _ h => h
  have hkeeps := keepsAll_modify (h := m.sender) fun x (_ : d.handles[m.sender]? = some x) =>
    x.keeps_release m.id
  refine ⟨{ hinv with
      count := hinv.count.trans (countP_modify_same fun x _ => x.counted_release m.id).symm
      after := fun m₀ hm₀ j hj => hacked (hinv.after m₀ hm₀ hj)
      acked := ?_ }, ?_,
    { Chan.Evolves.refl m.id d with
      handles := hkeeps
      acked := hacked
      quiet := fun hd => ⟨hd.1.of_keepsAll hkeeps (List.length_modify ..), hd.2⟩ },
    token_same rfl rfl hlt, fun _ => rfl⟩
  · cases r with
    | ok _ =>
      rintro j (_ | ⟨_, hj⟩)
      · exact hanswered
      · exact hinv.acked j hj
    | error v => exact hinv.acked
  · cases r <;> exact hanswered

/-- `Sender::clone`. -/
lemma moved_clone (hinv : d.Inv) (hok : (Ctl.cloneAdd h i).Ok d) :
    Moved (.cloneAdd h i) d .idle { d with
      senders := d.senders + 1
      handles := d.handles.modify h (Handle.release i) ++ [.live []] } := by
  have hkeeps := keepsAll_modify (h := h) fun x (_ : d.handles[h]? = some x) => x.keeps_release i
  refine ⟨{ hinv with count := ?_ }, trivial,
    { Chan.Evolves.refl i d with
      handles := hkeeps.append _
      quiet := fun hd => absurd hd (Chan.Borrowed.not_disconnected hok) },
    fun j hj => absurd hj (by simp [Ctl.token]), fun _ => rfl⟩
  change d.senders + 1 = List.countP Handle.counted (_ ++ [_])
  rw [List.countP_append, countP_modify_same fun x _ => x.counted_release i, hinv.count]
  rfl

/-- The `fetch_sub` of `Sender::drop`. -/
lemma moved_drop (hinv : d.Inv) (hok : (Ctl.dropSub h i).Ok d) (htoken : k'.token = none)
    (hk' : ∀ d : Chan V, k'.Ok d) :
    Moved (.dropSub h i) d k' { d with
      senders := d.senders - 1
      handles := d.handles.modify h fun _ => .closed } := by
  have hkeeps : KeepsAll i d.handles (d.handles.modify h fun _ => .closed) := by
    refine keepsAll_modify fun x hx => ?_
    obtain rfl := Option.some.inj ((show d.handles[h]? = _ from hok).symm.trans hx)
    exact Handle.keeps_closed i
  refine ⟨{ hinv with count := ?_ }, hk' _,
    { Chan.Evolves.refl i d with
      handles := hkeeps
      quiet := fun hd => ⟨hd.1.of_keepsAll hkeeps (List.length_modify ..), hd.2⟩ },
    fun j hj => absurd (htoken.symm.trans hj) (by simp), fun _ => rfl⟩
  have hcount := countP_modify (f := fun _ => Handle.closed) hok
  change d.senders - 1 = List.countP Handle.counted (d.handles.modify h fun _ => .closed)
  rw [hinv.count]
  simp only [Handle.counted, Bool.toNat_true, Bool.toNat_false] at hcount
  omega

/-- `pop_front` on a queue that is not empty. -/
lemma moved_pop {op : Op} {id : ℕ} {q : List (Msg V)} (hinv : d.Inv)
    (hok : (Ctl.recvPop op id).Ok d) (hqueue : d.queue = m :: q) :
    Moved (.recvPop op id) d (.recvUnlock op id (.ok m))
      { d with queue := q, received := d.received ++ [(id, m)] } := by
  obtain ⟨htaken, hret, hlt⟩ := hok
  refine ⟨{ hinv with split := ?_, receipts := hinv.receipts.take htaken hret hlt },
    ⟨List.mem_append_right _ (List.mem_singleton_self _), hret⟩,
    { Chan.Evolves.refl id d with
      received := Or.inr ⟨(id, m), rfl, rfl⟩
      quiet := fun hd => absurd (hqueue.symm.trans hd.2) (by simp) },
    token_same rfl rfl hlt, fun h => absurd h (by simp [Ctl.locked])⟩
  change d.pushed = (d.received ++ [(id, m)]).map Prod.snd ++ q
  rw [hinv.split, hqueue, List.map_append, List.append_assoc]
  rfl

/-- `recv` returns. -/
lemma moved_recvRet {op : Op} {id : ℕ} (hinv : d.Inv) (hlt : id < d.nextId)
    (hok : (Ctl.recvRet op id r).Ok d) :
    Moved (.recvRet op id r) d (.got op id r) { d with
      receiver := d.receiver.release id
      returned := d.returned ++ [⟨id, r, d.nextId⟩] } := by
  obtain ⟨hgave, hret⟩ := hok
  have hclosed : d.receiver = .closed → d.receiver.release id = .closed := by
    intro hr
    rw [hr]
    rfl
  have hevolves : d.Evolves id { d with
      receiver := d.receiver.release id
      returned := d.returned ++ [⟨id, r, d.nextId⟩] } :=
    { Chan.Evolves.refl id d with returned := Or.inr ⟨_, rfl, rfl⟩, closed := hclosed }
  refine ⟨{ hinv with
      gone := fun hg => hclosed (hinv.gone hg), receipts := hinv.receipts.answer hret hlt ?_ },
    ⟨hevolves.gave hgave, ⟨id, r, d.nextId⟩, List.mem_append_right _ (List.mem_singleton_self _),
      rfl, rfl⟩, hevolves, fun j hj => absurd hj (by simp [Ctl.token]), fun _ => rfl⟩
  rintro m rfl
  exact hgave

/-- A change of the receiver. -/
lemma moved_receiver {x : Handle} {gone : Bool} (hinv : d.Inv)
    (hok : k'.Ok { d with receiver := x, nextId := n, receiverGone := gone })
    (hgone : gone = true → x = .closed) (hx : d.receiver = .closed → x = .closed)
    (hn : d.nextId ≤ n) (htoken : ∀ j, k'.token = some j → j = k.token.getD d.nextId ∧ j < n) :
    Moved k d k' { d with receiver := x, nextId := n, receiverGone := gone } :=
  ⟨{ hinv with
      fresh := fun j hj => (hinv.fresh j hj).trans_le hn
      gone := hgone
      receipts := hinv.receipts.mono hn }, hok,
    { Chan.Evolves.refl _ d with nextId := hn, closed := hx }, htoken, fun _ => rfl⟩

/-- A new call borrows or consumes a sender. -/
lemma moved_begin (hinv : d.Inv) (hk : k.token = none)
    (hok : k'.Ok { d with handles := d.handles.modify h f, nextId := d.nextId + 1 })
    (hf : ∀ x, d.handles[h]? = some x → x.Keeps d.nextId (f x) ∧ (f x).counted = x.counted)
    (htoken : k'.token = some d.nextId) :
    Moved k d k' { d with handles := d.handles.modify h f, nextId := d.nextId + 1 } where
  inv := { hinv with
    count := hinv.count.trans (countP_modify_same fun x hx => (hf x hx).2).symm
    fresh := fun j hj => (hinv.fresh j hj).trans (Nat.lt_succ_self _)
    receipts := hinv.receipts.mono (Nat.le_succ _) }
  ok := hok
  evolves := by
    rw [hk]
    have hkeeps := keepsAll_modify fun x hx => (hf x hx).1
    exact { Chan.Evolves.refl _ d with
      handles := hkeeps
      nextId := Nat.le_succ _
      quiet := fun hd => ⟨hd.1.of_keepsAll hkeeps (List.length_modify ..), hd.2⟩ }
  token j hj := by
    obtain rfl := Option.some.inj (htoken.symm.trans hj)
    exact ⟨by rw [hk]; rfl, Nat.lt_succ_self _⟩
  queue _ := rfl

/-- An operation on the channel. -/
lemma exec_moved (h : exec k d = some (k', d')) (hinv : d.Inv) (hok : k.Ok d)
    (hlt : ∀ j, k.token = some j → j < d.nextId) : Moved k d k' d' := by
  cases k with
  | sendCheck m =>
    obtain ⟨rfl, rfl⟩ := by simpa [exec] using h
    split
    · exact moved_stay hinv ⟨hok.1, hinv.gone ‹_›, rfl, hok.2.1⟩ hlt fun _ hj => hj
    · exact moved_stay hinv hok hlt fun _ hj => hj
  | sendPush m =>
    obtain ⟨rfl, rfl⟩ := by simpa [exec] using h
    exact moved_push hinv hok
  | sendRet m r =>
    obtain ⟨rfl, rfl⟩ := by simpa [exec] using h
    exact moved_sendRet hinv (hlt _ rfl) hok
  | cloneAdd n id =>
    obtain ⟨rfl, rfl⟩ := by simpa [exec] using h
    exact moved_clone hinv hok
  | dropSub n id =>
    obtain ⟨rfl, rfl⟩ := by simpa [exec] using h
    split <;> exact moved_drop hinv hok rfl fun _ => trivial
  | recvPop op id =>
    simp only [exec] at h
    split at h <;> obtain ⟨rfl, rfl⟩ := by simpa using h
    · exact moved_pop hinv hok ‹_›
    · exact moved_stay hinv ⟨hok, ‹_›⟩ hlt fun _ hj => hj
  | recvCheck op id =>
    obtain ⟨rfl, rfl⟩ := by simpa [exec] using h
    refine moved_stay hinv ?_ hlt ?_
    · split
      · rename_i hzero
        exact ⟨⟨allClosed_of_countP (hinv.count.symm.trans hzero), hok.2⟩, hok.1.2.1⟩
      · split
        · exact ⟨trivial, hok.1.2.1⟩
        · exact hok.1
    · split
      · exact fun _ hj => hj
      · split <;> exact fun _ hj => hj
  | recvRet op id r =>
    obtain ⟨rfl, rfl⟩ := by simpa [exec] using h
    exact moved_recvRet hinv (hlt _ rfl) hok
  | receiverDrop =>
    obtain ⟨rfl, rfl⟩ := by simpa [exec] using h
    exact moved_receiver hinv trivial (fun _ => rfl) (fun _ => rfl) le_rfl
      fun j hj => absurd hj (by simp [Ctl.token])
  | _ => exact absurd h (by simp [exec])

/-- A decision of the program. -/
lemma choose_moved {x : Choice V} (h : choose x k d = some (k', d')) (hinv : d.Inv)
    (hlt : ∀ j, k.token = some j → j < d.nextId) : Moved k d k' d' := by
  cases x with
  | send n v =>
    cases k <;> simp only [choose, reduceCtorEq] at h
    split at h <;> simp only [Option.some.injEq, Prod.mk.injEq, reduceCtorEq] at h
    rename_i bs hn
    obtain ⟨rfl, rfl⟩ := h
    refine moved_begin hinv rfl ⟨⟨.live (d.nextId :: bs), by simp [hn, Handle.borrow],
      List.mem_cons_self⟩, fun hp => ?_, Nat.lt_succ_self _, fun _ hj => hj⟩
      (fun x _ => ⟨x.keeps_borrow _, x.counted_borrow _⟩) rfl
    exact absurd (hinv.fresh _ hp) (lt_irrefl _)
  | clone n =>
    cases k <;> simp only [choose, reduceCtorEq] at h
    split at h <;> simp only [Option.some.injEq, Prod.mk.injEq, reduceCtorEq] at h
    rename_i bs hn
    obtain ⟨rfl, rfl⟩ := h
    exact moved_begin hinv rfl ⟨.live (d.nextId :: bs), by simp [hn, Handle.borrow],
      List.mem_cons_self⟩ (fun x _ => ⟨x.keeps_borrow _, x.counted_borrow _⟩) rfl
  | drop n =>
    cases k <;> simp only [choose, reduceCtorEq] at h
    split at h <;> simp only [Option.some.injEq, Prod.mk.injEq, reduceCtorEq] at h
    rename_i hn
    obtain ⟨rfl, rfl⟩ := h
    refine moved_begin hinv rfl (by simp [Ctl.Ok, hn]) (fun x hx => ?_) rfl
    obtain rfl := Option.some.inj (hn.symm.trans hx)
    exact ⟨Handle.keeps_closing _, rfl⟩
  | receive op =>
    cases k <;> simp only [choose, reduceCtorEq] at h
    split at h <;> simp only [Option.some.injEq, Prod.mk.injEq, reduceCtorEq] at h
    rename_i bs hr
    obtain ⟨rfl, rfl⟩ := h
    have hopen : ¬ d.receiver = .closed := by simp [hr]
    have hnew : d.nextId ∉ d.received.map Prod.fst ∧ ¬ d.HasReturned d.nextId := by
      refine ⟨fun hp => ?_, fun ha => ?_⟩
      · obtain ⟨p, hp, heq⟩ := List.mem_map.1 hp
        exact absurd (hinv.receipts.taken_lt p hp) (by omega)
      · obtain ⟨a, ha, heq⟩ := List.mem_map.1 ha
        exact absurd (hinv.receipts.answered_lt a ha) (by omega)
    refine moved_receiver hinv ⟨hnew.1, hnew.2, Nat.lt_succ_self _⟩
      (fun hg => absurd (hinv.gone hg) hopen) (fun hc => absurd hc hopen) (Nat.le_succ _) ?_
    rintro j hj
    obtain rfl : d.nextId = j := by simpa [Ctl.token] using hj
    exact ⟨rfl, Nat.lt_succ_self _⟩
  | dropReceiver =>
    cases k <;> simp only [choose, reduceCtorEq] at h
    split at h <;> simp only [Option.some.injEq, Prod.mk.injEq, reduceCtorEq] at h
    rename_i hr
    obtain ⟨rfl, rfl⟩ := h
    have hopen : ¬ d.receiver = .closed := by simp [hr]
    exact moved_receiver hinv trivial (fun hg => absurd (hinv.gone hg) hopen)
      (fun hc => absurd hc hopen) (Nat.le_succ _) fun j hj => absurd hj (by simp [Ctl.token])
  | resume =>
    cases k <;> simp only [choose, Option.some.injEq, Prod.mk.injEq, reduceCtorEq] at h
    all_goals
      obtain ⟨rfl, rfl⟩ := h
      exact moved_stay hinv trivial hlt fun _ hj => absurd hj (by simp [Ctl.token])

/-- A call of a function of `sync.rs`. -/
lemma call_moved {c : Call Unit} (h : call k = some (c, k')) (hinv : d.Inv) (hok : k.Ok d)
    (hlt : ∀ j, k.token = some j → j < d.nextId) : Moved k d k' d := by
  cases k <;> simp only [call, Option.some.injEq, Prod.mk.injEq, reduceCtorEq] at h
  all_goals
    obtain ⟨rfl, rfl⟩ := h
    exact moved_stay hinv hok hlt fun _ hj => hj

/-- A call that takes a message has it in its hands until it returns it. -/
lemma exec_holds (h : exec k d = some (k', d')) :
    (∀ p ∈ d'.received, p ∈ d.received ∨ k'.holds = some p) ∧
      ∀ p, k.holds = some p → k'.holds = some p ∨ d'.Logged p.1 (.ok p.2) := by
  cases k with
  | recvPop op id =>
    simp only [exec] at h
    split at h <;> obtain ⟨rfl, rfl⟩ := by simpa using h
    · refine ⟨fun p hp => ?_, fun p hp => absurd hp (by simp [Ctl.holds])⟩
      refine (List.mem_append.1 hp).imp_right fun hnew => ?_
      rw [List.mem_singleton.1 hnew]
      rfl
    · exact ⟨fun p hp => Or.inl hp, fun p hp => absurd hp (by simp [Ctl.holds])⟩
  | recvRet op id r =>
    obtain ⟨rfl, rfl⟩ := by simpa [exec] using h
    refine ⟨fun p hp => Or.inl hp, fun p hp => Or.inr ?_⟩
    cases r with
    | ok m =>
      obtain rfl : (id, m) = p := by simpa [Ctl.holds] using hp
      exact ⟨⟨id, .ok m, d.nextId⟩, List.mem_append_right _ (List.mem_singleton_self _), rfl,
        rfl⟩
    | error e => exact absurd hp (by simp [Ctl.holds])
  | sendCheck | sendPush | sendRet | cloneAdd | dropSub | recvCheck | receiverDrop =>
    obtain ⟨-, rfl⟩ := by simpa [exec] using h
    exact ⟨fun p hp => Or.inl hp, fun p hp => absurd hp (by simp [Ctl.holds])⟩
  | _ => exact absurd h (by simp [exec])

/-- A choice does not concern the messages that were taken. -/
lemma choose_holds {x : Choice V} (h : choose x k d = some (k', d')) :
    d'.received = d.received ∧ k.holds = none := by
  cases x <;> cases k <;> simp only [choose, reduceCtorEq] at h
  all_goals first | split at h | skip
  all_goals simp only [Option.some.injEq, Prod.mk.injEq, reduceCtorEq] at h
  all_goals
    obtain ⟨-, rfl⟩ := h
    exact ⟨rfl, rfl⟩

/-- A call of a function of `sync.rs` leaves the messages in the hands of the thread. -/
lemma call_holds {c : Call Unit} (h : call k = some (c, k')) : k'.holds = k.holds := by
  cases k <;> simp only [call, Option.some.injEq, Prod.mk.injEq, reduceCtorEq] at h
  all_goals
    obtain ⟨-, rfl⟩ := h
    first | rfl | (rename_i r; cases r <;> rfl)

lemma moves_holds (h : (program V).Moves k d k' d') :
    (∀ p ∈ d'.received, p ∈ d.received ∨ k'.holds = some p) ∧
      ∀ p, k.holds = some p → k'.holds = some p ∨ d'.Logged p.1 (.ok p.2) := by
  cases h with
  | exec h => exact exec_holds h
  | choose x h =>
    obtain ⟨hreceived, hholds⟩ := choose_holds h
    exact ⟨fun p hp => Or.inl (hreceived ▸ hp),
      fun p hp => absurd (hholds.symm.trans hp) (by simp)⟩
  | call h => exact ⟨fun p hp => Or.inl hp, fun p hp => Or.inl ((call_holds h).trans hp)⟩

end Moves

/-! ### Runs -/

/-- The invariant of the channel and of all threads. -/
structure Inv (v : View Tid (Ctl V) (Chan V)) : Prop where
  chan : v.data.Inv
  ok : ∀ t, (v.ctl t).Ok v.data
  /-- What a call has taken it has returned, or it has it in its hands. -/
  returns : ∀ p ∈ v.data.received,
    v.data.Logged p.1 (.ok p.2) ∨ ∃ t, (v.ctl t).holds = some p
  lt : ∀ t j, (v.ctl t).token = some j → j < v.data.nextId
  distinct : Distinct fun t => (v.ctl t).token

lemma moves_moved {k k' : Ctl V} {d d' : Chan V} (h : (program V).Moves k d k' d') (hinv : d.Inv)
    (hok : k.Ok d) (hlt : ∀ j, k.token = some j → j < d.nextId) : Moved k d k' d' := by
  cases h with
  | exec h => exact exec_moved h hinv hok hlt
  | choose x h => exact choose_moved h hinv hlt
  | call h => exact call_moved h hinv hok hlt

variable [DecidableEq Tid]

lemma viewStep_inv {v v' : View Tid (Ctl V) (Chan V)} (h : (discipline V).ViewStep v v')
    (hv : Inv v) : Inv v' := by
  cases h with
  | @move t k d h halone =>
    have hmoved := moves_moved h hv.chan (hv.ok t) (hv.lt t)
    -- the number of the call that moves is not that of another one
    have hother : ∀ u, u ≠ t →
        (v.ctl u).token ≠ some ((v.ctl t).token.getD v.data.nextId) := by
      intro u hut hu
      cases ht : (v.ctl t).token with
      | none =>
        rw [ht] at hu
        exact absurd (hv.lt u _ hu) (lt_irrefl _)
      | some j =>
        rw [ht] at hu
        exact hut (hv.distinct u t j hu ht)
    have hreturns : ∀ p ∈ d.received,
        d.Logged p.1 (.ok p.2) ∨ ∃ u, (Function.update v.ctl t k u).holds = some p := by
      intro p hp
      obtain ⟨htakes, hkeeps⟩ := moves_holds h
      have hself : k.holds = some p → ∃ u, (Function.update v.ctl t k u).holds = some p :=
        fun hk => ⟨t, by rwa [Function.update_self]⟩
      rcases htakes p hp with hold | hnew
      · rcases hv.returns p hold with hlogged | ⟨u, hu⟩
        · exact Or.inl (hmoved.evolves.logged hlogged)
        · by_cases hut : u = t
          · exact (hkeeps p (hut ▸ hu)).symm.imp_right hself
          · exact Or.inr ⟨u, by rwa [Function.update_of_ne hut]⟩
      · exact Or.inr (hself hnew)
    refine ⟨hmoved.inv, ?_, hreturns, ?_, hv.distinct.update_comp fun j hj => ?_⟩
    · refine (Function.forall_update_iff v.ctl fun _ k => k.Ok d).2 ⟨hmoved.ok, fun u hut => ?_⟩
      refine hmoved.evolves.ok (hother u hut) (fun hlocked hland => ?_) (hv.ok u)
      refine hmoved.queue (eq_false_of_ne_true fun ht => ?_)
      exact absurd ((halone ht u hut hlocked).symm.trans hland) (by simp)
    · exact (Function.forall_update_iff v.ctl fun _ k => ∀ j, k.token = some j → j < d.nextId).2
        ⟨fun j hj => (hmoved.token j hj).2,
          fun u _ j hj => (hv.lt u j hj).trans_le hmoved.evolves.nextId⟩
    · by_cases ht : (v.ctl t).token = some j
      · exact Or.inl ht
      · refine Or.inr fun u hu => ?_
        by_cases hut : u = t
        · exact ht (hut ▸ hu)
        · exact hother u hut ((hmoved.token j hj).1 ▸ hu)

lemma channel_inv : (channel : Chan V).Inv where
  split := rfl
  count := rfl
  nodup := List.nodup_nil
  order := .nil
  after _ h := absurd h List.not_mem_nil
  acked _ h := absurd h List.not_mem_nil
  fresh _ h := absurd h List.not_mem_nil
  gone h := absurd h (by simp [channel])
  receipts := ⟨List.nodup_nil, List.nodup_nil, fun _ h => absurd h List.not_mem_nil, .nil,
    fun _ h => absurd h List.not_mem_nil, fun _ h => absurd h List.not_mem_nil⟩

lemma reaches_inv {s : State Tid Unit (Ctl V) (Chan V)} (h : (program V).client.Reaches s) :
    Inv s.view := by
  refine Reachable.induct (P := Inv) ((discipline V).reaches_view h).2 ?_
    fun _ _ _ hv hstep => viewStep_inv hstep hv
  rintro v rfl
  exact ⟨channel_inv, fun _ => trivial, fun _ h => absurd h List.not_mem_nil,
    fun _ _ hj => absurd hj (by simp [program, Ctl.token]),
    fun _ _ _ hj => absurd hj (by simp [program, Ctl.token])⟩

/-- What the channel does with the messages, in the terms of the program that uses it. -/
structure Delivers (s : State Tid Unit (Ctl V) (Chan V)) : Prop where
  /-- What was taken from the queue is, in this order, a beginning of what was pushed. -/
  split : s.data.pushed = s.data.received.map Prod.snd ++ s.data.queue
  /-- A message whose `send` returned `Ok` was pushed, -/
  acked : ∀ i ∈ s.data.acked, i ∈ s.data.pushed.map Msg.id
  /-- none was pushed twice, -/
  pushed_once : (s.data.pushed.map Msg.id).Nodup
  /-- and none before one whose `send` had returned `Ok` when it was sent. -/
  pushed_order : s.data.pushed.Pairwise fun m m' => m'.id ∉ m.after
  /-- A receiving call takes one message at most, -/
  taken_once : (s.data.received.map Prod.fst).Nodup
  /-- and has returned it, or has it in its hands and is about to return. -/
  returns : ∀ p ∈ s.data.received,
    (∃ a ∈ s.data.returned, a.id = p.1 ∧ a.result = .ok p.2) ∨ ∃ t, (s.pc t).ctl.holds = some p
  /-- It returns once, -/
  returned_once : (s.data.returned.map Answer.id).Nodup
  /-- and no other message than the one that it has taken. -/
  returned_taken : ∀ a ∈ s.data.returned, ∀ m, a.result = .ok m → (a.id, m) ∈ s.data.received
  /-- A call that was made after another one had returned comes after it in the order of the
  messages. -/
  returned_order : s.data.received.Pairwise fun p p' =>
    ∀ a ∈ s.data.returned, a.id = p'.1 → p.1 < a.before
  /-- What the program has from a receiving call is what the call returned. -/
  got : ∀ t op i r, s.pc t = .run (.got op i r) → ∃ a ∈ s.data.returned, a.id = i ∧ a.result = r
  /-- If `send` gave the value back, it was not pushed, and the receiver has been dropped. -/
  refused : ∀ t m v, s.pc t = .run (.sent m (.error v)) →
    s.data.receiver = .closed ∧ v = m.value ∧ m.id ∉ s.data.pushed.map Msg.id
  /-- If `recv`, `try_recv` or `Iter::next` said that the channel is disconnected, all senders
  have been dropped, and all messages whose `send` returned `Ok` have been taken. -/
  disconnected : ∀ t op i, s.pc t = .run (.got op i (.error .disconnected)) →
    (∀ x ∈ s.data.handles, x = .closed) ∧
      ∀ j ∈ s.data.acked, j ∈ s.data.received.map fun p => p.2.id

/-- In every state of every run, whatever the threads do: the messages leave the queue in the
order in which they were pushed, each is returned by the one call that took it, and the answers
of all calls are right. -/
theorem channel_delivers {s : State Tid Unit (Ctl V) (Chan V)}
    (h : (program V).client.Reaches s) : Delivers s := by
  have hinv := reaches_inv h
  have hok : ∀ {t k}, s.pc t = .run k → k.Ok s.data := by
    intro t k ht
    have := hinv.ok t
    change (s.pc t).ctl.Ok s.data at this
    rwa [ht] at this
  have hreceipts : Receipts s.data.received s.data.returned s.data.nextId := hinv.chan.receipts
  refine ⟨hinv.chan.split, hinv.chan.acked, hinv.chan.nodup, hinv.chan.order, hreceipts.once,
    hinv.returns, hreceipts.answered, hreceipts.gave, hreceipts.order,
    fun t op i r ht => (hok ht).2, fun t m v ht => hok ht, fun t op i ht => ?_⟩
  obtain ⟨hclosed, hqueue⟩ : s.data.Disconnected := (hok ht).1
  refine ⟨hclosed, fun j hj => ?_⟩
  have hsplit : s.data.pushed = s.data.received.map Prod.snd ++ s.data.queue := hinv.chan.split
  have hpushed : s.data.HasPushed j := hinv.chan.acked j hj
  rw [Chan.HasPushed, hsplit, hqueue, List.append_nil, List.map_map] at hpushed
  exact hpushed

/-- Thread 1 sends 7 and drops the sender; thread 0 receives 7 and then learns that the
channel is disconnected. -/
theorem channel_delivers_seven : ∃ s : State ℕ Unit (Ctl ℕ) (Chan ℕ),
    (program ℕ).client.Reaches s ∧ s.data.received.map (fun p => p.2.value) = [7] ∧
      s.data.returned.map Answer.id = s.data.received.map Prod.fst ++ [3] ∧
      s.pc 0 = .run (.got .recv 3 (.error .disconnected)) ∧ Delivers s := by
  have hbegin : (program ℕ).client.Reaches ((program ℕ).begin : State ℕ _ _ _) := reaches_begin
  have hsend := reaches_play hbegin ((1, some (.send 0 7)) :: List.replicate 8 (1, none))
  -- nobody sleeps when `send` calls `futex_wake`
  have hnotified : (program ℕ).client.Reaches _ := .next hsend
    (.rouse (.wake 1 (show _ = some (false, .seq (), _) from rfl) (Or.inr ⟨by
      rintro (_ | _ | u) <;> exact (Option.some_ne_none _).symm, rfl⟩)))
  have hreach := reaches_play hnotified ((1, none) :: (1, some .resume) :: (1, some (.drop 0)) ::
    List.replicate 4 (1, none) ++ (0, some (.receive .tryRecv)) :: List.replicate 6 (0, none) ++
    (0, some .resume) :: (0, some (.receive .recv)) :: List.replicate 7 (0, none))
  exact ⟨_, hreach, rfl, rfl, rfl, channel_delivers hreach⟩

end PureStd.Sync.Mpsc
