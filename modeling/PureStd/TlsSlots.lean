/-
The values of a key, by kernel id.

`LocalKey::with` looks a value up in the registry, and the first time makes it and inserts it.
The steps of other threads come between these.  Seen from the closures, a key is a slot for each
kernel id: a closure runs on the slot of the id of its thread (`slot_inside`), and a slot changes
only when a closure of a live thread with that id writes (`slot_tls`, `slot_write`).  A slot whose
box is not made yet has what `init` is going to return, and a thread with the id of an exited one
has its slot.

`Thread/Current` has `CURRENT` as such slots: a run in which the closures work on boxes is one of
its runs (`reaches_slots`).
-/
import PureStd.Thread.Current
import PureStd.TlsPrivacy

namespace PureStd.Tls

variable {Tid Key V : Type*}

/-- A process, with what is in the boxes of a key. -/
structure Values (Tid Key V : Type*) where
  tls : State Tid Key
  cell : ℕ → V

namespace Values

/-- No thread has started.  A box that `init` has still to make has what it is going to return. -/
def start (v₀ : V) : Values Tid Key V := ⟨.start, fun _ => v₀⟩

/-- The slot of an id. -/
def slot (k : Key) (v₀ : V) (s : Values Tid Key V) (tid : UInt64) : V :=
  ((s.tls.registry (tid, k)).map s.cell).getD v₀

variable [DecidableEq Tid] [DecidableEq Key]

/-- One step of the process. -/
inductive Step (k : Key) : Values Tid Key V → Values Tid Key V → Prop
  | tls {s : Values Tid Key V} {tls : State Tid Key} (h : Tls.Step s.tls tls) :
      Step k s { s with tls }
  /-- The closure that a thread runs is for `k`, and writes. -/
  | write {s : Values Tid Key V} (t : Tid) (tid : UInt64) (p : ℕ) (stack : List (Frame Key)) (v : V)
      (ht : s.tls.threads t = .live tid .run (.inside k p :: stack)) :
      Step k s { s with cell := Function.update s.cell p v }

/-- The states that the runs of a process reach. -/
def Reaches (k : Key) (v₀ : V) (s : Values Tid Key V) : Prop :=
  Reachable (fun s => s = start v₀) (Step k) s

variable {s s' : Values Tid Key V} {t : Tid} {tid : UInt64} {k : Key} {v₀ : V} {p : ℕ}
  {op : Op Key} {stack : List (Frame Key)}

lemma Reaches.tls (h : Reaches k v₀ s) : Tls.Reaches s.tls := by
  refine Reachable.induct (P := fun s => Tls.Reaches s.tls) h ?_ fun s s' _ ih hstep => ?_
  · rintro s rfl
    exact .start rfl
  · cases hstep with
    | tls hstep => exact ih.next hstep
    | write => exact ih

/-- A box that a thread is going to insert is new to the registry, and so is its id. -/
lemma Reaches.insert (h : Reaches k v₀ s) (hre : (t, k) ∉ s.tls.reentered)
    (ht : s.tls.threads t = .live tid (.insert k p) stack) :
    s.tls.registry (tid, k) = none ∧ ∀ tid', s.tls.registry (tid', k) ≠ some p := by
  have hnone := (reaches_enters h.tls hre _ _ _ ht).insert p rfl
  refine ⟨hnone, fun tid' hp => ?_⟩
  have hinv := reaches_inv h.tls
  obtain ⟨u, hbox, hid, -⟩ := hinv.owner tid' k p hp
  cases hbox.symm.trans (hinv.insert t tid k p stack ht).1
  rw [ht] at hid
  cases hid
  rw [hnone] at hp
  cases hp

/-- What a step of `with` does to the registry, for the key. -/
lemma Reaches.registry {tls : State Tid Key} (h : Reaches k v₀ s) (hstep : Tls.Step s.tls tls)
    (hre : ∀ t, (t, k) ∉ tls.reentered) :
    (∀ tid, tls.registry (tid, k) = s.tls.registry (tid, k)) ∨
      ∃ tid p, s.tls.registry (tid, k) = none ∧ (∀ tid', s.tls.registry (tid', k) ≠ some p) ∧
        ∀ tid', tls.registry (tid', k) =
          if tid' = tid then some p else s.tls.registry (tid', k) := by
  obtain ⟨t, hmove⟩ := hstep.move
  have hbefore : (t, k) ∉ s.tls.reentered := fun hmem => hre t (hmove.later.reentered.subset hmem)
  cases hmove with
  | insert tid k' p stack ht =>
    by_cases hk : k' = k
    · subst hk
      obtain ⟨hnone, hnew⟩ := h.insert hbefore ht
      exact Or.inr ⟨tid, p, hnone, hnew, fun tid' => by simp [Function.update_apply]⟩
    · exact Or.inl fun tid' => Function.update_of_ne (by simpa using fun _ => Ne.symm hk) ..
  | _ => exact Or.inl fun _ => rfl

/-- Nothing is written into a box before it is in the registry. -/
lemma Reaches.unwritten (h : Reaches k v₀ s) (hre : ∀ t, (t, k) ∉ s.tls.reentered)
    (hp : ∀ tid, s.tls.registry (tid, k) ≠ some p) : s.cell p = v₀ := by
  revert hre hp
  refine Reachable.induct (P := fun s => (∀ t, (t, k) ∉ s.tls.reentered) →
    (∀ tid, s.tls.registry (tid, k) ≠ some p) → s.cell p = v₀) h ?_
    fun s s' hs ih hstep hre hp => ?_
  · rintro s rfl - -
    rfl
  · cases hstep with
    | tls hstep =>
      obtain ⟨t, hmove⟩ := hstep.move
      refine ih (fun u hmem => hre u (hmove.later.reentered.subset hmem)) fun tid htid => ?_
      rcases Reaches.registry hs hstep hre with heq | ⟨tid', q, hnone, -, heq⟩
      · exact hp tid ((heq tid).trans htid)
      · refine hp tid ((heq tid).trans ((if_neg ?_).trans htid))
        rintro rfl
        rw [hnone] at htid
        cases htid
    | write t tid q stack v ht =>
      have hq := (reaches_enters (Reaches.tls hs) (hre t) _ _ _ ht).inside q List.mem_cons_self
      refine (Function.update_of_ne ?_ ..).trans (ih hre hp)
      rintro rfl
      exact hp tid hq

/-- A closure runs on the slot of the id of its thread. -/
lemma Reaches.slot_inside (h : Reaches k v₀ s) (hre : (t, k) ∉ s.tls.reentered)
    (ht : s.tls.threads t = .live tid op stack) (hp : .inside k p ∈ stack) :
    s.slot k v₀ tid = s.cell p := by
  rw [slot, (reaches_enters h.tls hre _ _ _ ht).inside p hp]
  rfl

/-- If `init` for the key does not call `with` on it, the steps of `with` leave the slots. -/
lemma Reaches.slot_tls {tls : State Tid Key} (h : Reaches k v₀ s) (hstep : Tls.Step s.tls tls)
    (hre : ∀ t, (t, k) ∉ tls.reentered) : slot k v₀ { s with tls } = s.slot k v₀ := by
  funext tid
  rcases h.registry hstep hre with heq | ⟨tid', p, hnone, hnew, heq⟩
  · simp only [slot, heq]
  · -- the slot had nothing, and the new box has what `init` returned
    obtain ⟨t, hmove⟩ := hstep.move
    have hcell := h.unwritten (fun u hmem => hre u (hmove.later.reentered.subset hmem)) hnew
    by_cases htid : tid = tid'
    · simp [slot, heq, htid, hnone, hcell]
    · simp only [slot, heq, if_neg htid]

/-- A closure changes the slot of the id of its thread. -/
lemma Reaches.slot_write (h : Reaches k v₀ s) (hre : (t, k) ∉ s.tls.reentered)
    (ht : s.tls.threads t = .live tid op stack) (hp : .inside k p ∈ stack) (v : V) :
    slot k v₀ { s with cell := Function.update s.cell p v } =
      Function.update (s.slot k v₀) tid v := by
  have hp := (reaches_enters h.tls hre _ _ _ ht).inside p hp
  funext tid'
  by_cases htid : tid' = tid
  · simp [slot, htid, hp]
  · -- a box is in one entry
    have hinv := reaches_inv h.tls
    rw [Function.update_of_ne htid, slot, slot]
    cases hq : s.tls.registry (tid', k) with
    | none => rfl
    | some q =>
      refine Function.update_of_ne (fun hqp => htid ?_) ..
      obtain ⟨u, hbox, hid, -⟩ := hinv.owner tid k p hp
      obtain ⟨u', hbox', hid', -⟩ := hinv.owner tid' k q hq
      rw [hqp, hbox] at hbox'
      cases hbox'
      exact Option.some.inj (hid'.symm.trans hid)

end Values

end PureStd.Tls

namespace PureStd.Thread.Current

/-- A process with the boxes of `CURRENT`; the slots of `rest` are not used. -/
structure Boxed (Tid Key : Type*) where
  values : Tls.Values Tid Key (Option ℕ)
  rest : State Tid

namespace Boxed

variable {Tid Key : Type*}

/-- The process with slots, where `k` is the key of `CURRENT`. -/
def slots (k : Key) (s : Boxed Tid Key) : State Tid :=
  { s.rest with slot := s.values.slot k none }

variable [DecidableEq Tid] [DecidableEq Key]

/-- One step of the process. -/
inductive Step (k : Key) : Boxed Tid Key → Boxed Tid Key → Prop
  | tls {s : Boxed Tid Key} {tls : Tls.State Tid Key} (h : Tls.Step s.values.tls tls) :
      Step k s { s with values := { s.values with tls } }
  | choose {s : Boxed Tid Key} {rest : State Tid} (t : Tid) (x : Choice) (hfree : s.rest.Free x)
      (h : s.rest.choose t x = some rest) : Step k s { s with rest }
  /-- `Thread::new(None)`. -/
  | mint {s : Boxed Tid Key} {rest : State Tid} (t : Tid) (tid : UInt64)
      (ht : s.rest.threads t = .live tid .mint) (h : s.rest.exec t = some rest) :
      Step k s { s with rest }
  /-- The closure of a thread, on the value in its box. -/
  | access {s : Boxed Tid Key} {rest : State Tid} (t : Tid) (tid : UInt64) (p : ℕ)
      (stack : List (Tls.Frame Key))
      (ht : s.values.tls.threads t = .live tid .run (.inside k p :: stack))
      (hid : (s.rest.threads t).id = some tid)
      (h : State.exec { s.rest with slot := fun _ => s.values.cell p } t = some rest) :
      Step k s ⟨{ s.values with cell := Function.update s.values.cell p (rest.slot tid) }, rest⟩

/-- The states that the runs of a process reach. -/
def Reaches (k : Key) (s : Boxed Tid Key) : Prop :=
  Reachable (fun s => s = ⟨.start none, .start⟩) (Step k) s

variable {k : Key} {s : Boxed Tid Key}

lemma Reaches.values (h : Reaches k s) : s.values.Reaches k none := by
  refine Reachable.induct (P := fun s => s.values.Reaches k none) h ?_ fun s s' _ ih hstep => ?_
  · rintro s rfl
    exact .start rfl
  · cases hstep with
    | tls h => exact ih.next (.tls h)
    | choose | mint => exact ih
    | access t tid p stack ht => exact ih.next (.write t tid p stack _ ht)

end Boxed

variable {Tid Key : Type*} [DecidableEq Tid] {s s' : State Tid} {t : Tid} {tid : UInt64}

/-- The operations of a thread use the slot of its id only. -/
lemma exec_slot (h : s.exec t = some s') (hid : (s.threads t).id = some tid)
    {slot : UInt64 → Option ℕ} (hslot : slot tid = s.slot tid) :
    State.exec { s with slot } t =
      some { s' with slot := Function.update slot tid (s'.slot tid) } := by
  unfold State.exec at h ⊢
  generalize s.threads t = th at h hid ⊢
  cases th with
  | live tid' op =>
    obtain rfl : tid' = tid := Option.some.inj hid
    cases op with
    | run => cases h
    | install | store =>
      cases h
      simp [State.goto]
    | mint =>
      cases h
      simp [State.goto, ← hslot]
    | read =>
      dsimp only at h ⊢
      rw [hslot]
      split at h
      all_goals
        cases h
        simp [State.goto, ← hslot]
  | _ => cases hid

lemma choose_slot {x : Choice} (h : s.choose t x = some s') (slot : UInt64 → Option ℕ) :
    State.choose { s with slot } t x = some { s' with slot } := by
  unfold State.choose at h ⊢
  dsimp only
  split at h <;> cases h
  all_goals rfl

/-- The steps of `CURRENT.with` one by one, on boxes, make a run with slots, if its `init` does not
call `with` on `CURRENT`. -/
theorem reaches_slots [DecidableEq Key] {k : Key} {s : Boxed Tid Key} (h : s.Reaches k)
    (hre : ∀ t, (t, k) ∉ s.values.tls.reentered) : Reaches (s.slots k) := by
  revert hre
  refine Reachable.induct (P := fun s => (∀ t, (t, k) ∉ s.values.tls.reentered) →
    Reaches (s.slots k)) h ?_ fun s s' hs ih hstep hre => ?_
  · rintro s rfl -
    exact .start rfl
  · have hvalues := Boxed.Reaches.values hs
    cases hstep with
    | tls hstep =>
      obtain ⟨t, hmove⟩ := hstep.move
      have hold := ih fun u hmem => hre u (hmove.later.reentered.subset hmem)
      rw [Boxed.slots, hvalues.slot_tls hstep hre]
      exact hold
    | choose t x hfree h => exact (ih hre).next (.choose t x hfree (choose_slot h _))
    | mint t tid ht h =>
      refine (ih hre).next (.exec t ?_)
      unfold State.exec at h ⊢
      rw [ht] at h
      cases h
      simp [Boxed.slots, ht, State.goto]
    | access t tid p stack ht hid h =>
      have hinside := hvalues.slot_inside (hre t) ht List.mem_cons_self
      refine (ih hre).next (.exec t ?_)
      rw [Boxed.slots, Boxed.slots, hvalues.slot_write (hre t) ht List.mem_cons_self]
      exact exec_slot h hid hinside

end PureStd.Thread.Current
