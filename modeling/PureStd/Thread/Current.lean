/-
`Thread`, `ThreadId` and `current` of `src/thread.rs`.

`spawn` makes a handle for the new thread, which stores it under `CURRENT` before it runs its
closure.  A thread that `spawn` did not make, such as the main thread, gets a handle when it
first calls `current`.  The value of `CURRENT` belongs to a kernel id, and is still there when
the kernel gives the id of an exited thread to a new one.

An access to `CURRENT` is one step: the live threads have different ids, so no other thread
comes between the lookup in the registry and the use of the value.  `TlsSlots` has the steps of
`LocalKey::with` one by one, and shows that its closures see and change such slots.
-/
import Mathlib.Data.Nat.Notation
import Mathlib.Logic.Function.Basic
import Mathlib.Tactic
import PureStd.Lib.Transition

namespace PureStd.Thread.Current

/-- What a thread does next. -/
inductive Op where
  /-- Its own code. -/
  | run
  /-- `thread_start`: `CURRENT.with(|c| *c.borrow_mut() = Some(thread))`. -/
  | install (h : ℕ)
  /-- `current`: `CURRENT.with(|c| c.borrow().clone())`. -/
  | read
  /-- `current`: `Thread::new(None)`. -/
  | mint
  /-- `current`: `CURRENT.with(|c| *c.borrow_mut() = Some(t.clone()))`. -/
  | store (h : ℕ)
deriving DecidableEq, Repr

/-- A thread, with its kernel id. -/
inductive Life where
  | unborn
  /-- `spawn` has made its handle. -/
  | boxed (h : ℕ)
  | live (tid : UInt64) (op : Op)
  | exited
deriving DecidableEq, Repr

/-- A process.  A handle is known by the number of calls of `Thread::new` before its own. -/
structure State (Tid : Type*) where
  /-- `CURRENT`, by kernel id. -/
  slot : UInt64 → Option ℕ
  /-- The calls of `Thread::new`. -/
  handles : ℕ
  threads : Tid → Life
  /-- The handle in the `JoinHandle` of a thread. -/
  made : Tid → Option ℕ
  /-- The handles that `current` has returned. -/
  got : List (Tid × ℕ)

/-- `ThreadId::next`: the counter starts at 1. -/
def threadId (h : ℕ) : UInt64 := UInt64.ofNat (1 + h)

variable {Tid : Type*} {s s' : State Tid} {t u : Tid} {tid : UInt64} {h a : ℕ}

/-- No thread has started. -/
def State.start : State Tid where
  slot _ := none
  handles := 0
  threads _ := .unborn
  made _ := none
  got := []

/-- What the code and the kernel may do. -/
inductive Choice where
  /-- Some thread calls `spawn` for this one. -/
  | spawn
  /-- The kernel starts the thread. -/
  | start (tid : UInt64)
  /-- The kernel starts a thread that `spawn` did not make. -/
  | foreign (tid : UInt64)
  /-- `current()`. -/
  | current
  | exit
deriving DecidableEq, Repr

section Steps

variable [DecidableEq Tid]

/-- Thread `t` goes on as `th`. -/
def State.goto (s : State Tid) (t : Tid) (th : Life) : State Tid :=
  { s with threads := Function.update s.threads t th }

/-- The operations of a thread. -/
def State.exec (s : State Tid) (t : Tid) : Option (State Tid) :=
  match s.threads t with
  | .live tid (.install h) =>
    some { s.goto t (.live tid .run) with slot := Function.update s.slot tid (some h) }
  | .live tid .read =>
    match s.slot tid with
    | some h => some { s.goto t (.live tid .run) with got := s.got ++ [(t, h)] }
    | none => some (s.goto t (.live tid .mint))
  | .live tid .mint =>
    some { s.goto t (.live tid (.store s.handles)) with handles := s.handles + 1 }
  | .live tid (.store h) =>
    some { s.goto t (.live tid .run) with
      slot := Function.update s.slot tid (some h), got := s.got ++ [(t, h)] }
  | _ => none

/-- The choices of the code and of the kernel. -/
def State.choose (s : State Tid) (t : Tid) (x : Choice) : Option (State Tid) :=
  match x, s.threads t with
  | .spawn, .unborn => some { s.goto t (.boxed s.handles) with
      handles := s.handles + 1, made := Function.update s.made t (some s.handles) }
  | .start tid, .boxed h => some (s.goto t (.live tid (.install h)))
  | .foreign tid, .unborn => some (s.goto t (.live tid .run))
  | .current, .live tid .run => some (s.goto t (.live tid .read))
  | .exit, .live _ .run => some (s.goto t .exited)
  | _, _ => none

/-- No live thread has the id that the kernel gives to a thread. -/
def State.Free (s : State Tid) : Choice → Prop
  | .start tid | .foreign tid => ∀ u op, s.threads u ≠ .live tid op
  | _ => True

/-- One step of the process. -/
inductive Step : State Tid → State Tid → Prop
  | exec {s s' : State Tid} (t : Tid) (h : s.exec t = some s') : Step s s'
  | choose {s s' : State Tid} (t : Tid) (x : Choice) (hfree : s.Free x)
      (h : s.choose t x = some s') : Step s s'

/-- The states that the runs of a process reach. -/
def Reaches (s : State Tid) : Prop := Reachable (fun s => s = State.start) Step s

/-! ### What a step can do -/

/-- The steps of thread `t`, one by one. -/
inductive Move (s : State Tid) (t : Tid) : State Tid → Prop
  | install (tid : UInt64) (h : ℕ) (ht : s.threads t = .live tid (.install h)) :
      Move s t { s.goto t (.live tid .run) with slot := Function.update s.slot tid (some h) }
  | hit (tid : UInt64) (h : ℕ) (ht : s.threads t = .live tid .read) (hh : s.slot tid = some h) :
      Move s t { s.goto t (.live tid .run) with got := s.got ++ [(t, h)] }
  | miss (tid : UInt64) (ht : s.threads t = .live tid .read) (hh : s.slot tid = none) :
      Move s t (s.goto t (.live tid .mint))
  | mint (tid : UInt64) (ht : s.threads t = .live tid .mint) :
      Move s t { s.goto t (.live tid (.store s.handles)) with handles := s.handles + 1 }
  | store (tid : UInt64) (h : ℕ) (ht : s.threads t = .live tid (.store h)) :
      Move s t { s.goto t (.live tid .run) with
        slot := Function.update s.slot tid (some h), got := s.got ++ [(t, h)] }
  | spawn (ht : s.threads t = .unborn) :
      Move s t { s.goto t (.boxed s.handles) with
        handles := s.handles + 1, made := Function.update s.made t (some s.handles) }
  | start (tid : UInt64) (h : ℕ) (ht : s.threads t = .boxed h)
      (hfree : ∀ u op, s.threads u ≠ .live tid op) :
      Move s t (s.goto t (.live tid (.install h)))
  | foreign (tid : UInt64) (ht : s.threads t = .unborn)
      (hfree : ∀ u op, s.threads u ≠ .live tid op) : Move s t (s.goto t (.live tid .run))
  | current (tid : UInt64) (ht : s.threads t = .live tid .run) :
      Move s t (s.goto t (.live tid .read))
  | exit (tid : UInt64) (ht : s.threads t = .live tid .run) : Move s t (s.goto t .exited)

lemma Step.move (h : Step s s') : ∃ t, Move s t s' := by
  cases h with
  | exec t h =>
    unfold State.exec at h
    split at h
    · cases h
      exact ⟨t, .install _ _ ‹_›⟩
    · split at h
      · cases h
        exact ⟨t, .hit _ _ ‹_› ‹_›⟩
      · cases h
        exact ⟨t, .miss _ ‹_› ‹_›⟩
    · cases h
      exact ⟨t, .mint _ ‹_›⟩
    · cases h
      exact ⟨t, .store _ _ ‹_›⟩
    · cases h
  | choose t x hfree h =>
    unfold State.choose at h
    split at h
    · cases h
      exact ⟨t, .spawn ‹_›⟩
    · cases h
      exact ⟨t, .start _ _ ‹_› hfree⟩
    · cases h
      exact ⟨t, .foreign _ ‹_› hfree⟩
    · cases h
      exact ⟨t, .current _ ‹_›⟩
    · cases h
      exact ⟨t, .exit _ ‹_›⟩
    · cases h

end Steps

/-! ### The invariant -/

/-- The handle that a thread has still to store. -/
def Life.pending : Life → Option ℕ
  | boxed h => some h
  | live _ (.install h) => some h
  | live _ (.store h) => some h
  | _ => none

/-- The kernel id of a live thread. -/
def Life.id : Life → Option UInt64
  | live tid _ => some tid
  | _ => none

/-- Every handle is in one place: with a thread that has still to store it, or under one id. -/
structure Places (slot : UInt64 → Option ℕ) (handles : ℕ) (threads : Tid → Life) : Prop where
  ids : Distinct fun t => (threads t).id
  slot_lt : ∀ tid h, slot tid = some h → h < handles
  slot_inj : Distinct slot
  pending_lt : ∀ t h, (threads t).pending = some h → h < handles
  pending_slot : ∀ t h tid, (threads t).pending = some h → slot tid ≠ some h
  pending_inj : Distinct fun t => (threads t).pending

/-- The kernel id of a thread that has no handle to store. -/
def Life.settled : Life → Option UInt64
  | live tid .run => some tid
  | live tid .read => some tid
  | _ => none

/-- The value that a thread finds under `CURRENT` is this handle. -/
def State.Finds (s : State Tid) (t : Tid) (h : ℕ) : Prop :=
  ∃ tid, (s.threads t).settled = some tid ∧ s.slot tid = some h

/-- A thread that `spawn` made has its handle to store, or has stored it.  What `current` has
returned to a thread is what it finds. -/
structure State.Known (s : State Tid) (t : Tid) : Prop where
  made : ∀ a, s.made t = some a →
    (s.threads t).pending = some a ∨ s.Finds t a ∨ s.threads t = .exited
  got : ∀ h, (t, h) ∈ s.got → s.Finds t h ∨ s.threads t = .exited
  got_made : ∀ h a, (t, h) ∈ s.got → s.made t = some a → h = a
  got_same : ∀ h h', (t, h) ∈ s.got → (t, h') ∈ s.got → h = h'

/-! ### What a thread finds -/

lemma Life.of_settled {th : Life} (h : th.settled = some tid) :
    th.id = some tid ∧ th.pending = none ∧ th ≠ .exited := by
  rcases th with _ | _ | ⟨tid', _ | _ | _ | _ | _⟩ | _ <;>
    simp only [Life.settled, Option.some.injEq, reduceCtorEq] at h
  all_goals exact ⟨congrArg some h, rfl, by simp⟩

/-- The step of another thread. -/
lemma State.Known.frame (hk : s.Known u) (hth : s'.threads u = s.threads u)
    (hslot : ∀ tid, (s.threads u).id = some tid → s'.slot tid = s.slot tid)
    (hmade : s'.made u = s.made u) (hgot : ∀ h, (u, h) ∈ s'.got → (u, h) ∈ s.got) :
    s'.Known u := by
  have hfinds : ∀ h, s.Finds u h → s'.Finds u h := by
    rintro h ⟨tid, hset, hh⟩
    exact ⟨tid, by rwa [hth], (hslot tid (Life.of_settled hset).1).trans hh⟩
  refine ⟨fun a ha => ?_, fun h hh => ?_, fun h a hh ha => ?_, fun h h' hh hh' => ?_⟩
  · rw [hth]
    exact (hk.made a (hmade ▸ ha)).imp_right (Or.imp_left (hfinds a))
  · rw [hth]
    exact (hk.got h (hgot h hh)).imp_left (hfinds h)
  · exact hk.got_made h a (hgot h hh) (hmade ▸ ha)
  · exact hk.got_same h h' (hgot h hh) (hgot h' hh')

/-- A thread with a handle to store, or without any. -/
lemma State.Known.of_not_got (hmade : ∀ a, s.made t = some a → (s.threads t).pending = some a)
    (hgot : ∀ h, (t, h) ∉ s.got) : s.Known t :=
  ⟨fun a ha => Or.inl (hmade a ha), fun h hh => absurd hh (hgot h),
    fun h _ hh => absurd hh (hgot h), fun h _ hh => absurd hh (hgot h)⟩

/-- A thread that finds all that it knows of knows of one handle. -/
lemma State.Known.of_finds (tid : UInt64) (hset : (s.threads t).settled = some tid)
    (hmade : ∀ a, s.made t = some a → s.slot tid = some a)
    (hgot : ∀ h, (t, h) ∈ s.got → s.slot tid = some h) : s.Known t :=
  ⟨fun a ha => Or.inr (Or.inl ⟨tid, hset, hmade a ha⟩), fun h hh => Or.inl ⟨tid, hset, hgot h hh⟩,
    fun h a hh ha => Option.some.inj ((hgot h hh).symm.trans (hmade a ha)),
    fun h h' hh hh' => Option.some.inj ((hgot h hh).symm.trans (hgot h' hh'))⟩

lemma State.Known.not_got (hk : s.Known t) (hset : (s.threads t).settled = none)
    (hex : s.threads t ≠ .exited) (h : ℕ) : (t, h) ∉ s.got := by
  intro hh
  obtain ⟨tid, hset', -⟩ := (hk.got h hh).resolve_right hex
  rw [hset] at hset'
  cases hset'

lemma State.Known.pending (hk : s.Known t) (hset : (s.threads t).settled = none)
    (hex : s.threads t ≠ .exited) (ha : s.made t = some a) : (s.threads t).pending = some a := by
  refine (hk.made a ha).resolve_right ?_
  rintro (⟨tid, hset', -⟩ | hex')
  · rw [hset] at hset'
    cases hset'
  · exact hex hex'

/-- A thread with a handle to store, or without any, goes on so. -/
lemma State.Known.pass (hk : s.Known t) (hset : (s.threads t).settled = none)
    (hex : s.threads t ≠ .exited) (hmade : s'.made t = s.made t) (hgot : s'.got = s.got)
    (hp : ∀ a, (s.threads t).pending = some a → (s'.threads t).pending = some a) : s'.Known t :=
  .of_not_got (fun a ha => hp a (hk.pending hset hex (hmade ▸ ha)))
    (hgot ▸ hk.not_got hset hex)

lemma State.Known.slot (hk : s.Known t) (tid : UInt64) (hset : (s.threads t).settled = some tid) :
    (∀ a, s.made t = some a → s.slot tid = some a) ∧ ∀ h, (t, h) ∈ s.got → s.slot tid = some h := by
  have hfinds : ∀ h, s.Finds t h → s.slot tid = some h := by
    rintro h ⟨tid', hset', hh⟩
    obtain rfl : tid = tid' := Option.some.inj (hset.symm.trans hset')
    exact hh
  obtain ⟨-, hp, hex⟩ := Life.of_settled hset
  refine ⟨fun a ha => ?_, fun h hh => hfinds h ((hk.got h hh).resolve_right hex)⟩
  rcases hk.made a ha with hp' | hf | hex'
  · rw [hp] at hp'
    cases hp'
  · exact hfinds a hf
  · exact absurd hex' hex

lemma mem_got_append {got : List (Tid × ℕ)} {h' : ℕ} (hh : (u, h') ∈ got ++ [(t, h)]) :
    (u, h') ∈ got ∨ (u = t ∧ h' = h) := by
  simpa using hh

/-! ### Handles stay in their places -/

variable [DecidableEq Tid]

section Places

variable {slot : UInt64 → Option ℕ} {handles : ℕ} {threads : Tid → Life} {th : Life}

/-- A property of the threads that thread `t` leaves. -/
lemma pending_update (hp : (Function.update threads t th u).pending = some h) :
    (u = t ∧ th.pending = some h) ∨ (u ≠ t ∧ (threads u).pending = some h) := by
  by_cases hut : u = t
  · subst hut
    rw [Function.update_self] at hp
    exact Or.inl ⟨rfl, hp⟩
  · rw [Function.update_of_ne hut] at hp
    exact Or.inr ⟨hut, hp⟩

/-- A thread goes on with the handle that it had to store, or without. -/
lemma Places.pass (hs : Places slot handles threads)
    (hid : ∀ tid, th.id = some tid →
      (threads t).id = some tid ∨ ∀ u, (threads u).id ≠ some tid)
    (hp : ∀ h, th.pending = some h → (threads t).pending = some h) :
    Places slot handles (Function.update threads t th) := by
  have hold : ∀ u h, (Function.update threads t th u).pending = some h →
      (threads u).pending = some h := by
    intro u h hu
    rcases pending_update hu with ⟨rfl, hth⟩ | ⟨-, hold⟩
    · exact hp h hth
    · exact hold
  exact ⟨hs.ids.update_comp hid, hs.slot_lt, hs.slot_inj,
    fun u h hu => hs.pending_lt u h (hold u h hu),
    fun u h tid hu => hs.pending_slot u h tid (hold u h hu),
    hs.pending_inj.update_comp fun h hh => Or.inl (hp h hh)⟩

/-- A thread stores its handle. -/
lemma Places.put (hs : Places slot handles threads) (hid : (threads t).id = some tid)
    (hp : (threads t).pending = some h) :
    Places (Function.update slot tid (some h)) handles
      (Function.update threads t (.live tid .run)) := by
  have hslot : ∀ tid' a, Function.update slot tid (some h) tid' = some a →
      a = h ∨ slot tid' = some a := by
    intro tid' a ha
    by_cases htid : tid' = tid
    · rw [htid, Function.update_self] at ha
      exact Or.inl (Option.some.inj ha).symm
    · rw [Function.update_of_ne htid] at ha
      exact Or.inr ha
  have hold : ∀ u a, (Function.update threads t (.live tid .run) u).pending = some a →
      u ≠ t ∧ (threads u).pending = some a := by
    intro u a hu
    rcases pending_update hu with ⟨-, hu⟩ | hu
    · cases hu
    · exact hu
  refine ⟨hs.ids.update_comp fun tid' htid => Or.inl (hid.trans htid), fun tid' a ha => ?_,
    hs.slot_inj.update fun a ha => Or.inr fun tid' => ha ▸ hs.pending_slot t h tid' hp,
    fun u a hu => hs.pending_lt u a (hold u a hu).2, fun u a tid' hu ha => ?_,
    hs.pending_inj.update_comp fun a ha => absurd ha (by simp [Life.pending])⟩
  · rcases hslot tid' a ha with rfl | ha
    · exact hs.pending_lt t a hp
    · exact hs.slot_lt tid' a ha
  · obtain ⟨hut, hu⟩ := hold u a hu
    rcases hslot tid' a ha with rfl | ha
    · exact hut (hs.pending_inj u t a hu hp)
    · exact hs.pending_slot u a tid' hu ha

/-- `Thread::new`. -/
lemma Places.new (hs : Places slot handles threads)
    (hid : ∀ tid, th.id = some tid → (threads t).id = some tid)
    (hp : th.pending = some handles) :
    Places slot (handles + 1) (Function.update threads t th) := by
  have hcases : ∀ u a, (Function.update threads t th u).pending = some a →
      a = handles ∨ (threads u).pending = some a := by
    intro u a hu
    rcases pending_update hu with ⟨-, hu⟩ | ⟨-, hu⟩
    · exact Or.inl (Option.some.inj (hu.symm.trans hp))
    · exact Or.inr hu
  refine ⟨hs.ids.update_comp fun tid htid => Or.inl (hid tid htid),
    fun tid a ha => Nat.lt_succ_of_lt (hs.slot_lt tid a ha), hs.slot_inj, fun u a hu => ?_,
    fun u a tid hu ha => ?_, hs.pending_inj.update_comp fun a ha => Or.inr fun u hu => ?_⟩
  · rcases hcases u a hu with rfl | hu
    · exact Nat.lt_succ_self _
    · exact Nat.lt_succ_of_lt (hs.pending_lt u a hu)
  · rcases hcases u a hu with rfl | hu
    · exact lt_irrefl _ (hs.slot_lt tid _ ha)
    · exact hs.pending_slot u a tid hu ha
  · obtain rfl : a = handles := Option.some.inj (ha.symm.trans hp)
    exact lt_irrefl _ (hs.pending_lt u a hu)

end Places

lemma Move.places (hm : Move s t s') (hs : Places s.slot s.handles s.threads) :
    Places s'.slot s'.handles s'.threads := by
  have hfree : ∀ {tid : UInt64}, (∀ u op, s.threads u ≠ .live tid op) →
      ∀ u, (s.threads u).id ≠ some tid := by
    intro tid hfree u hu
    cases hth : s.threads u with
    | live tid' op =>
      rw [hth] at hu
      obtain rfl : tid' = tid := Option.some.inj hu
      exact hfree u op hth
    | _ =>
      rw [hth] at hu
      cases hu
  cases hm with
  | install _ _ ht | store _ _ ht => exact hs.put (by rw [ht]; rfl) (by rw [ht]; rfl)
  | hit _ _ ht | miss _ ht | current _ ht =>
    exact hs.pass (fun _ h => Or.inl (by rw [ht]; exact h)) nofun
  | exit tid ht => exact hs.pass nofun nofun
  | mint tid ht => exact hs.new (fun _ h => by rw [ht]; exact h) rfl
  | spawn ht => exact hs.new nofun rfl
  | start tid h ht hf =>
    refine hs.pass (fun tid' htid => Or.inr ?_) fun _ h => by rw [ht]; exact h
    obtain rfl : tid = tid' := Option.some.inj htid
    exact hfree hf
  | foreign tid ht hf =>
    refine hs.pass (fun tid' htid => Or.inr ?_) nofun
    obtain rfl : tid = tid' := Option.some.inj htid
    exact hfree hf

/-! ### Every step -/

lemma Move.known (hm : Move s t s') (hk : s.Known t) : s'.Known t := by
  cases hm with
  | install tid h ht =>
    have hset : (s.threads t).settled = none := by rw [ht]; rfl
    refine .of_finds tid (by simp [State.goto, Life.settled])
      (fun a ha => ?_) fun a ha => ?_
    · have hp := hk.pending hset (by rw [ht]; nofun) ha
      rw [ht] at hp
      exact (Function.update_self ..).trans hp
    · exact absurd ha (hk.not_got hset (by rw [ht]; nofun) a)
  | hit tid h ht hh =>
    obtain ⟨hmade, hgot⟩ := hk.slot tid (by rw [ht]; rfl)
    refine .of_finds tid (by simp [State.goto, Life.settled]) hmade fun a ha => ?_
    rcases mem_got_append ha with ha | ⟨-, rfl⟩
    · exact hgot a ha
    · exact hh
  | miss tid ht hh =>
    obtain ⟨hmade, hgot⟩ := hk.slot tid (by rw [ht]; rfl)
    refine .of_not_got (fun a ha => ?_) fun a ha => ?_
    · exact absurd (hh.symm.trans (hmade a ha)) nofun
    · exact absurd (hh.symm.trans (hgot a ha)) nofun
  | mint _ ht | foreign _ ht =>
    exact hk.pass (by rw [ht]; rfl) (by rw [ht]; nofun) rfl rfl (by simp [ht, Life.pending])
  | store tid h ht =>
    have hset : (s.threads t).settled = none := by rw [ht]; rfl
    refine .of_finds tid (by simp [State.goto, Life.settled])
      (fun a ha => ?_) fun a ha => ?_
    · have hp := hk.pending hset (by rw [ht]; nofun) ha
      rw [ht] at hp
      exact (Function.update_self ..).trans hp
    · rcases mem_got_append ha with ha | ⟨-, rfl⟩
      · exact absurd ha (hk.not_got hset (by rw [ht]; nofun) a)
      · exact Function.update_self ..
  | spawn ht =>
    refine .of_not_got (fun a ha => ?_) (hk.not_got (by rw [ht]; rfl) (by rw [ht]; nofun))
    have ha : Function.update s.made t (some s.handles) t = some a := ha
    rw [Function.update_self] at ha
    simp [State.goto, Life.pending, ← ha]
  | start tid h ht hfree =>
    exact hk.pass (by rw [ht]; rfl) (by rw [ht]; nofun) rfl rfl
      (by simp [ht, State.goto, Life.pending])
  | current tid ht =>
    obtain ⟨hmade, hgot⟩ := hk.slot tid (by rw [ht]; rfl)
    exact .of_finds tid (by simp [State.goto, Life.settled]) hmade hgot
  | exit tid ht =>
    have hex : (s.goto t .exited).threads t = .exited := Function.update_self ..
    exact ⟨fun _ _ => Or.inr (Or.inr hex), fun _ _ => Or.inr hex, hk.got_made, hk.got_same⟩

/-- What another thread knows of stays. -/
lemma Move.known_other (hm : Move s t s') (hs : Places s.slot s.handles s.threads) (hut : u ≠ t)
    (hk : s.Known u) : s'.Known u := by
  have hgoto : ∀ th, (s.goto t th).threads u = s.threads u := fun th =>
    Function.update_of_ne hut ..
  have hput : ∀ tid h, (s.threads t).id = some tid → ∀ tid', (s.threads u).id = some tid' →
      Function.update s.slot tid (some h) tid' = s.slot tid' := by
    intro tid h ht tid' hu
    refine Function.update_of_ne ?_ ..
    rintro rfl
    exact hut (hs.ids u t _ hu ht)
  have hgot : ∀ h h', (u, h') ∈ s.got ++ [(t, h)] → (u, h') ∈ s.got := fun h h' hh =>
    (mem_got_append hh).resolve_right fun heq => hut heq.1
  cases hm with
  | install tid h ht =>
    exact hk.frame (hgoto _) (hput tid h (by rw [ht]; rfl)) rfl fun _ => id
  | store tid h ht =>
    exact hk.frame (hgoto _) (hput tid h (by rw [ht]; rfl)) rfl (hgot h)
  | hit tid h ht _ => exact hk.frame (hgoto _) (fun _ _ => rfl) rfl (hgot h)
  | spawn ht =>
    exact hk.frame (hgoto _) (fun _ _ => rfl) (Function.update_of_ne hut ..) fun _ => id
  | _ => exact hk.frame (hgoto _) (fun _ _ => rfl) rfl fun _ => id

/-- `current` returns handles that `Thread::new` has made. -/
lemma Move.got_lt (hm : Move s t s') (hs : Places s.slot s.handles s.threads)
    (hlt : ∀ u h, (u, h) ∈ s.got → h < s.handles) : ∀ u h, (u, h) ∈ s'.got → h < s'.handles := by
  have hnew : ∀ h, h < s.handles → ∀ u a, (u, a) ∈ s.got ++ [(t, h)] → a < s.handles := by
    intro h hh u a ha
    rcases mem_got_append ha with ha | ⟨-, rfl⟩
    · exact hlt u a ha
    · exact hh
  cases hm with
  | hit tid h ht hh => exact hnew h (hs.slot_lt tid h hh)
  | store tid h ht => exact hnew h (hs.pending_lt t h (by rw [ht]; rfl))
  | mint | spawn => exact fun u a ha => Nat.lt_succ_of_lt (hlt u a ha)
  | _ => exact hlt

/-- The invariant of every run. -/
lemma reaches_inv (hs : Reaches s) : Places s.slot s.handles s.threads ∧ (∀ t, s.Known t) ∧
    ∀ t h, (t, h) ∈ s.got → h < s.handles := by
  refine Reachable.induct (P := fun s => Places s.slot s.handles s.threads ∧ (∀ t, s.Known t) ∧
    ∀ t h, (t, h) ∈ s.got → h < s.handles) hs ?_ fun s s' _ ih hstep => ?_
  · rintro s rfl
    exact ⟨⟨nofun, nofun, nofun, nofun, nofun, nofun⟩, fun t => .of_not_got nofun nofun, nofun⟩
  · obtain ⟨hplaces, hknown, hlt⟩ := ih
    obtain ⟨t, hm⟩ := hstep.move
    refine ⟨hm.places hplaces, fun u => ?_, hm.got_lt hplaces hlt⟩
    by_cases hut : u = t
    · subst hut
      exact hm.known (hknown u)
    · exact hm.known_other hplaces hut (hknown u)

/-- The counter does not come back to a value in the first `2 ^ 64` calls. -/
lemma threadId_inj (hh : h < 2 ^ 64) (ha : a < 2 ^ 64) (heq : threadId h = threadId a) : h = a := by
  have hnat := congrArg UInt64.toNat heq
  simp only [threadId, UInt64.toNat_ofNat'] at hnat
  omega

/-- In a thread that `spawn` made, `current` returns the handle in its `JoinHandle`, whatever the
kernel id of the thread was used for before.  In every thread it returns one handle for ever, in
live threads it returns different ones, and the ids of the first `2 ^ 64` handles differ. -/
theorem current_identifies (hs : Reaches s) :
    (∀ t h a, (t, h) ∈ s.got → s.made t = some a → h = a) ∧
      (∀ t h h', (t, h) ∈ s.got → (t, h') ∈ s.got → h = h') ∧
      (∀ t u h, (t, h) ∈ s.got → (u, h) ∈ s.got → s.threads t ≠ .exited →
        s.threads u ≠ .exited → t = u) ∧
      (∀ t u h a, (t, h) ∈ s.got → (u, a) ∈ s.got → s.handles ≤ 2 ^ 64 →
        threadId h = threadId a → h = a) := by
  obtain ⟨hplaces, hknown, hlt⟩ := reaches_inv hs
  refine ⟨fun t => (hknown t).got_made, fun t => (hknown t).got_same, fun t u h ht hu htl hul => ?_,
    fun t u h a hh ha hsize => ?_⟩
  · obtain ⟨tid, hset, hslot⟩ := ((hknown t).got h ht).resolve_right htl
    obtain ⟨tid', hset', hslot'⟩ := ((hknown u).got h hu).resolve_right hul
    obtain rfl := hplaces.slot_inj tid tid' h hslot hslot'
    exact hplaces.ids t u tid (Life.of_settled hset).1 (Life.of_settled hset').1
  · exact threadId_inj (lt_of_lt_of_le (hlt t h hh) hsize) (lt_of_lt_of_le (hlt u a ha) hsize)

/-- Thread 0 calls `current` and exits, and its kernel id goes to thread 1, which `spawn` made:
that one overwrites the stale handle.  Then the id goes to a foreign thread, which is given the
handle of thread 1. -/
theorem current_identifies_reused : ∃ s : State (Fin 3), Reaches s ∧ s.made 1 = some 1 ∧
    s.got = [(0, 0), (1, 1), (2, 1)] ∧ s.threads 1 = .exited ∧ ∀ h, (1, h) ∈ s.got → h = 1 := by
  have h0 : Reaches (State.start : State (Fin 3)) := .start rfl
  have h1 := ((h0.next (.choose 0 (.foreign 7) nofun rfl)).next
    (.choose 0 .current trivial rfl)).next (.exec 0 rfl)
  have h2 := ((h1.next (.exec 0 rfl)).next (.exec 0 rfl)).next (.choose 0 .exit trivial rfl)
  have h3 := (h2.next (.choose 1 .spawn trivial rfl)).next
    (.choose 1 (.start 7) (fun u op => by fin_cases u <;> nofun) rfl)
  have h4 := ((h3.next (.exec 1 rfl)).next (.choose 1 .current trivial rfl)).next (.exec 1 rfl)
  have h5 := (h4.next (.choose 1 .exit trivial rfl)).next
    (.choose 2 (.foreign 7) (fun u op => by fin_cases u <;> nofun) rfl)
  have h6 := (h5.next (.choose 2 .current trivial rfl)).next (.exec 2 rfl)
  exact ⟨_, h6, rfl, rfl, rfl, fun h hh => (current_identifies h6).1 1 h 1 hh rfl⟩

end PureStd.Thread.Current
