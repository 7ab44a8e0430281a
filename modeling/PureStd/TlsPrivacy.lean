/-
Thread-local values and the ids of threads.

The registry is looked up by the id of a thread, and its entries outlive the thread.  A thread
that gets the id of an exited one finds the values of that thread (`with_reused`).

While this does not happen, values are private: the entry of a thread was made by the thread
itself, for the key (`Inv.own`), so its first lookup for a key misses (`FirstMisses`), and the
value stays the same unless the `init` of the key comes back to the key (`State.Keeps`).
-/
import PureStd.Tls

namespace PureStd.Tls

variable {Tid Key : Type*} {s s' : State Tid Key} {t u : Tid}
  {k : Key}

/-! ### What is recorded -/

/-- A thread has looked up a key. -/
def State.Looked (s : State Tid Key) (t : Tid) (k : Key) : Prop := ∃ r, (t, k, r) ∈ s.looked

/-- What a step leaves as it is. -/
structure Later (s s' : State Tid Key) : Prop where
  tid : ∀ t tid, (s.threads t).tid? = some tid → (s'.threads t).tid? = some tid
  boxes : s.boxes <+: s'.boxes
  looked : s.looked <+: s'.looked
  reentered : s.reentered <+: s'.reentered

lemma Move.later [DecidableEq Tid] [DecidableEq Key] (h : Move s t s') : Later s s' := by
  -- the thread that moves keeps its id
  have hgoto : ∀ t th, (∀ tid, (s.threads t).tid? = some tid → th.tid? = some tid) →
      ∀ u tid, (s.threads u).tid? = some tid → ((s.goto t th).threads u).tid? = some tid := by
    intro t th hth u tid hu
    show (Function.update s.threads t th u).tid? = some tid
    by_cases hut : u = t
    · subst hut
      rw [Function.update_self]
      exact hth tid hu
    · rwa [Function.update_of_ne hut]
  cases h with
  | start _ ht | exit _ ht | insert _ _ _ _ ht | leave _ _ _ _ ht =>
    exact ⟨hgoto t _ (by simp [ht, Thread.tid?]), List.prefix_rfl, List.prefix_rfl,
      List.prefix_rfl⟩
  | call tid k stack ht =>
    refine ⟨hgoto t _ (by simp [ht, Thread.tid?]), List.prefix_rfl, List.prefix_rfl, ?_⟩
    dsimp only
    split
    · exact List.prefix_append _ _
    · exact List.prefix_rfl
  | hit _ _ _ _ ht | miss _ _ _ ht =>
    exact ⟨hgoto t _ (by simp [ht, Thread.tid?]), List.prefix_rfl, List.prefix_append _ _,
      List.prefix_rfl⟩
  | create tid k stack ht =>
    exact ⟨hgoto t _ (by simp [ht, Thread.tid?]), List.prefix_append _ _, List.prefix_rfl,
      List.prefix_rfl⟩

lemma State.Looked.later (h : Later s s') (hk : s.Looked t k) : s'.Looked t k :=
  hk.imp fun _ hr => h.looked.subset hr

lemma Later.box (h : Later s s') {p : ℕ} {x : Tid × Key} (hp : s.boxes[p]? = some x) :
    s'.boxes[p]? = some x := by
  obtain ⟨rest, hrest⟩ := h.boxes
  rw [← hrest, List.getElem?_append_left (List.getElem?_eq_some_iff.1 hp).1, hp]

/-! ### Whose the boxes are -/

/-- The key of a call. -/
def Frame.key : Frame Key → Key
  | init k => k
  | inside k _ => k

/-- A registry entry belongs to a thread with that id that has looked up the key, and so does
a box that is about to be entered.  Calls that have got so far have looked up their keys. -/
structure Inv (s : State Tid Key) : Prop where
  owner : ∀ tid k p, s.registry (tid, k) = some p →
    ∃ t, s.boxes[p]? = some (t, k) ∧ (s.threads t).tid? = some tid ∧ s.Looked t k
  insert : ∀ t tid k p stack, s.threads t = .live tid (.insert k p) stack →
    s.boxes[p]? = some (t, k) ∧ s.Looked t k
  stack : ∀ t tid op stack, s.threads t = .live tid op stack → ∀ f ∈ stack, s.Looked t f.key
  ran : ∀ t k p, (t, k, p) ∈ s.ran → s.Looked t k
  born : ∀ t k, s.Looked t k → s.threads t ≠ .unborn

/-- The invariant is kept if the new entries, and the thread that moves, are as it says. -/
lemma Inv.goto [DecidableEq Tid] (h : Inv s) (hl : Later s s') {th : Thread Key}
    (hs' : s'.threads = Function.update s.threads t th)
    (howner : ∀ tid k p, s'.registry (tid, k) = some p → s.registry (tid, k) = some p ∨
      s'.boxes[p]? = some (t, k) ∧ (s'.threads t).tid? = some tid ∧ s'.Looked t k)
    (hinsert : ∀ tid k p stack, th = .live tid (.insert k p) stack →
      s'.boxes[p]? = some (t, k) ∧ s'.Looked t k)
    (hstack : ∀ tid op stack, th = .live tid op stack → ∀ f ∈ stack, s'.Looked t f.key)
    (hran : ∀ u k p, (u, k, p) ∈ s'.ran → (u, k, p) ∈ s.ran ∨ s'.Looked u k)
    (hth : th ≠ .unborn) (hlooked : ∀ u k, s'.Looked u k → s.Looked u k ∨ u = t) : Inv s' where
  owner tid k p hp := by
    rcases howner tid k p hp with hold | hnew
    · obtain ⟨u, hu, hid, hk⟩ := h.owner tid k p hold
      exact ⟨u, hl.box hu, hl.tid u tid hid, hk.later hl⟩
    · exact ⟨t, hnew⟩
  insert u tid k p stack hu := by
    rw [hs'] at hu
    by_cases hut : u = t
    · subst hut
      rw [Function.update_self] at hu
      exact hinsert tid k p stack hu
    · rw [Function.update_of_ne hut] at hu
      obtain ⟨hp, hk⟩ := h.insert u tid k p stack hu
      exact ⟨hl.box hp, hk.later hl⟩
  stack u tid op stack hu f hf := by
    rw [hs'] at hu
    by_cases hut : u = t
    · subst hut
      rw [Function.update_self] at hu
      exact hstack tid op stack hu f hf
    · rw [Function.update_of_ne hut] at hu
      exact (h.stack u tid op stack hu f hf).later hl
  ran u k p hp := by
    rcases hran u k p hp with hold | hnew
    · exact (h.ran u k p hold).later hl
    · exact hnew
  born u k hu := by
    rw [hs']
    by_cases hut : u = t
    · rwa [hut, Function.update_self]
    · rw [Function.update_of_ne hut]
      exact h.born u k ((hlooked u k hu).resolve_right hut)

/-- A step that does not access the registry. -/
lemma Inv.goto_quiet [DecidableEq Tid] (h : Inv s) (hl : Later s s') {th : Thread Key}
    (hs' : s'.threads = Function.update s.threads t th) (hregistry : s'.registry = s.registry)
    (hlooked : s'.looked = s.looked) (hran : s'.ran = s.ran)
    (hinsert : ∀ tid k p stack, th = .live tid (.insert k p) stack →
      s'.boxes[p]? = some (t, k) ∧ s'.Looked t k)
    (hstack : ∀ tid op stack, th = .live tid op stack → ∀ f ∈ stack, s'.Looked t f.key)
    (hth : th ≠ .unborn) : Inv s' :=
  h.goto hl hs' (fun _ _ _ hp => Or.inl (hregistry ▸ hp)) hinsert hstack
    (fun _ _ _ hp => Or.inl (hran ▸ hp)) hth fun _ _ ⟨r, hr⟩ => Or.inl ⟨r, hlooked ▸ hr⟩

lemma inv_start : Inv (State.start : State Tid Key) where
  owner _ _ _ h := by cases h
  insert _ _ _ _ _ h := by cases h
  stack _ _ _ _ h := by cases h
  ran _ _ _ h := by cases h
  born _ _ h := by obtain ⟨r, hr⟩ := h; cases hr

lemma State.Looked.of_concat {r : Option ℕ} (hs' : s'.looked = s.looked ++ [(t, k, r)]) {k' : Key}
    (h : s'.Looked u k') : s.Looked u k' ∨ u = t := by
  obtain ⟨r', hr'⟩ := h
  rw [hs'] at hr'
  rcases List.mem_append.1 hr' with hold | hnew
  · exact Or.inl ⟨r', hold⟩
  · cases List.mem_singleton.1 hnew
    exact Or.inr rfl

lemma looked_of_ran {p : ℕ} (hs' : s'.ran = s.ran ++ [(t, k, p)]) (hk : s'.Looked t k) :
    ∀ u k' q, (u, k', q) ∈ s'.ran → (u, k', q) ∈ s.ran ∨ s'.Looked u k' := by
  intro u k' q hq
  rw [hs'] at hq
  rcases List.mem_append.1 hq with hold | hnew
  · exact Or.inl hold
  · cases List.mem_singleton.1 hnew
    exact Or.inr hk

lemma Move.inv [DecidableEq Tid] [DecidableEq Key] (hm : Move s t s') (h : Inv s) : Inv s' := by
  have hl := hm.later
  cases hm with
  | start tid ht _ =>
    refine h.goto_quiet hl rfl rfl rfl rfl (by simp) ?_ (by simp)
    intro _ _ _ heq
    cases heq
    simp
  | exit tid ht =>
    exact h.goto_quiet hl rfl rfl rfl rfl (by simp) (by simp) (by simp)
  | call tid k stack ht =>
    refine h.goto_quiet hl rfl rfl rfl rfl (by simp) ?_ (by simp)
    intro _ _ _ heq
    cases heq
    exact fun f hf => (h.stack t _ _ _ ht f hf).later hl
  | hit tid k p stack ht hp =>
    have hk : State.Looked { s.goto t (.live tid .run (.inside k p :: stack)) with
        looked := s.looked ++ [(t, k, some p)], ran := s.ran ++ [(t, k, p)] } t k :=
      ⟨some p, List.mem_concat_self⟩
    refine h.goto hl rfl (fun _ _ _ hp => Or.inl hp) (by simp) ?_ (looked_of_ran rfl hk) (by simp)
      fun _ _ hu => hu.of_concat rfl
    intro _ _ _ heq
    cases heq
    exact List.forall_mem_cons.2 ⟨hk, fun f hf => (h.stack t _ _ _ ht f hf).later hl⟩
  | miss tid k stack ht hp =>
    refine h.goto hl rfl (fun _ _ _ hp => Or.inl hp) (by simp) ?_ (fun _ _ _ hr => Or.inl hr)
      (by simp) fun _ _ hu => hu.of_concat rfl
    intro _ _ _ heq
    cases heq
    exact List.forall_mem_cons.2
      ⟨⟨none, List.mem_concat_self⟩, fun f hf => (h.stack t _ _ _ ht f hf).later hl⟩
  | create tid k stack ht =>
    obtain ⟨hk, hstack⟩ := List.forall_mem_cons.1 (h.stack t _ _ _ ht)
    refine h.goto_quiet hl rfl rfl rfl rfl ?_ ?_ (by simp)
    · intro _ _ _ _ heq
      cases heq
      exact ⟨List.getElem?_concat_length, hk.later hl⟩
    · intro _ _ _ heq
      cases heq
      exact fun f hf => (hstack f hf).later hl
  | insert tid k p stack ht =>
    obtain ⟨hp, hk⟩ := h.insert t _ _ _ _ ht
    refine h.goto hl rfl ?_ ?_ ?_ (looked_of_ran rfl (hk.later hl)) (by simp)
      fun _ _ hu => Or.inl hu
    · intro tid' k' q hq
      change Function.update s.registry (tid, k) (some p) (tid', k') = some q at hq
      by_cases heq : (tid', k') = (tid, k)
      · rw [heq, Function.update_self] at hq
        cases heq
        cases hq
        exact Or.inr ⟨hl.box hp, hl.tid t tid (by rw [ht, Thread.tid?]), hk.later hl⟩
      · rw [Function.update_of_ne heq] at hq
        exact Or.inl hq
    · intro _ _ _ _ heq
      cases heq
    · intro _ _ _ heq
      cases heq
      exact List.forall_mem_cons.2 ⟨hk.later hl, fun f hf => (h.stack t _ _ _ ht f hf).later hl⟩
  | leave tid k p stack ht =>
    refine h.goto_quiet hl rfl rfl rfl rfl (by simp) ?_ (by simp)
    intro _ _ _ heq
    cases heq
    exact fun f hf => (h.stack t _ _ _ ht f (List.mem_cons_of_mem _ hf)).later hl

lemma reaches_inv [DecidableEq Tid] [DecidableEq Key] (h : Reaches s) : Inv s := by
  refine Reachable.induct (P := Inv) h ?_ fun s s' _ ih hstep => by
    obtain ⟨t, hmove⟩ := hstep.move
    exact hmove.inv ih
  rintro s rfl
  exact inv_start

/-! ### Threads apart -/

/-- No two threads with the same id, one after the other, have looked up the same key. -/
def State.Apart (s : State Tid Key) : Prop :=
  ∀ t u k tid, s.Looked t k → s.Looked u k → (s.threads t).tid? = some tid →
    (s.threads u).tid? = some tid → t = u

lemma State.Apart.earlier (hl : Later s s') (h : s'.Apart) : s.Apart :=
  fun t u k tid ht hu htid hutid => h t u k tid (ht.later hl) (hu.later hl) (hl.tid t tid htid)
    (hl.tid u tid hutid)

/-- An entry that a thread finds is its own, and the thread has looked up the key before. -/
lemma Inv.own (h : Inv s) (hl : Later s s') (ha : s'.Apart) {tid : UInt64} {p : ℕ}
    (ht : (s.threads t).tid? = some tid) (hk : s'.Looked t k)
    (hp : s.registry (tid, k) = some p) : s.boxes[p]? = some (t, k) ∧ s.Looked t k := by
  obtain ⟨u, hbox, hu, huk⟩ := h.owner tid k p hp
  obtain rfl := ha t u k tid hk (huk.later hl) (hl.tid t tid ht) (hl.tid u tid hu)
  exact ⟨hbox, huk⟩

/-- The first lookup of a thread for a key finds nothing. -/
def FirstMisses (looked : List (Tid × Key × Option ℕ)) : Prop :=
  ∀ l₁ l₂ t k r, looked = l₁ ++ (t, k, r) :: l₂ → (∀ r', (t, k, r') ∉ l₁) → r = none

lemma FirstMisses.concat {l : List (Tid × Key × Option ℕ)} (h : FirstMisses l) {r : Option ℕ}
    (hr : (∃ r', (t, k, r') ∈ l) ∨ r = none) : FirstMisses (l ++ [(t, k, r)]) := by
  intro l₁ l₂ u k' r' heq hfirst
  rcases List.eq_nil_or_concat l₂ with rfl | ⟨l₃, x, rfl⟩
  · -- it is the lookup at the end
    obtain ⟨rfl, hlast⟩ := List.append_inj' heq rfl
    cases List.singleton_inj.1 hlast
    rcases hr with ⟨r', hmem⟩ | rfl
    · exact absurd hmem (hfirst r')
    · rfl
  · rw [List.concat_eq_append, ← List.cons_append, ← List.append_assoc] at heq
    exact h l₁ l₃ u k' r' (List.append_inj' heq rfl).1 hfirst

/-- A closure runs on a value that its own thread has made for its key. -/
structure Private (s : State Tid Key) : Prop where
  made : ∀ t k p, (t, k, p) ∈ s.ran → s.boxes[p]? = some (t, k)
  first : FirstMisses s.looked

lemma Private.same (h : Private s) (hl : Later s s') (hran : s'.ran = s.ran)
    (hlooked : s'.looked = s.looked) : Private s' where
  made u k p hp := hl.box (h.made u k p (hran ▸ hp))
  first := hlooked ▸ h.first

/-- One more closure runs. -/
lemma Private.run (h : Private s) (hl : Later s s') {p : ℕ} (hbox : s'.boxes[p]? = some (t, k)) :
    ∀ u k' q, (u, k', q) ∈ s.ran ++ [(t, k, p)] → s'.boxes[q]? = some (u, k') := by
  intro u k' q hq
  rcases List.mem_append.1 hq with hold | hnew
  · exact hl.box (h.made u k' q hold)
  · cases List.mem_singleton.1 hnew
    exact hbox

variable [DecidableEq Tid] [DecidableEq Key]

lemma Move.private (hm : Move s t s') (h : Private s) (hinv : Inv s) (ha : s'.Apart) :
    Private s' := by
  have hl := hm.later
  cases hm with
  | hit tid k p stack ht hp =>
    obtain ⟨hbox, hk⟩ := hinv.own hl ha (by rw [ht, Thread.tid?]) ⟨some p, by simp⟩ hp
    exact ⟨h.run hl (hl.box hbox), h.first.concat (Or.inl hk)⟩
  | miss tid k stack ht hp =>
    exact ⟨fun u k' q hq => hl.box (h.made u k' q hq), h.first.concat (Or.inr rfl)⟩
  | insert tid k p stack ht =>
    exact ⟨h.run hl (hl.box (hinv.insert t _ _ _ _ ht).1), h.first⟩
  | _ => exact h.same hl rfl rfl

lemma reaches_private (h : Reaches s) (ha : s.Apart) : Private s := by
  revert ha
  refine Reachable.induct (P := fun s => s.Apart → Private s) h ?_ fun s s' hs ih hstep ha => ?_
  · rintro s rfl -
    refine ⟨fun _ _ _ hr => absurd hr List.not_mem_nil, fun l₁ l₂ t k r heq => ?_⟩
    exact absurd heq (List.append_ne_nil_of_right_ne_nil l₁ (List.cons_ne_nil _ l₂)).symm
  · obtain ⟨t, hmove⟩ := hstep.move
    exact hmove.private (ih (ha.earlier hmove.later)) (reaches_inv hs) ha

/-! ### The same value -/

/-- The id of a live thread. -/
def Thread.id : Thread Key → Option UInt64
  | live tid _ _ => some tid
  | _ => none

lemma Move.ids (hm : Move s t s') (h : Distinct fun u => (s.threads u).id) :
    Distinct fun u => (s'.threads u).id := by
  have hgoto : ∀ th, (∀ tid, th.id = some tid → (s.threads t).id = some tid ∨
      ∀ u, (s.threads u).id ≠ some tid) → Distinct fun u => ((s.goto t th).threads u).id :=
    fun th hth => h.update_comp hth
  cases hm with
  | start tid ht hfree =>
    refine hgoto _ fun tid' htid => Or.inr fun u hu => ?_
    cases htid
    cases hth : s.threads u with
    | live tid' op stack =>
      rw [hth] at hu
      cases hu
      exact hfree u op stack hth
    | _ =>
      rw [hth] at hu
      cases hu
  | exit tid ht => exact hgoto _ (by simp [Thread.id])
  | call _ _ _ ht | hit _ _ _ _ ht | miss _ _ _ ht | create _ _ _ ht | insert _ _ _ _ ht
  | leave _ _ _ _ ht => exact hgoto _ fun _ h => Or.inl (by rw [ht]; exact h)

/-- 1 if the operation is on the way to an entry for the key. -/
def Op.count (k : Key) : Op Key → ℕ
  | run => 0
  | lookup k' => if k' = k then 1 else 0
  | insert k' _ => if k' = k then 1 else 0

/-- One call of a thread at a time makes the value for `k`, and the closures of the thread run on
the value that the registry then has. -/
structure Entered (k : Key) (entry : Option ℕ) (op : Op Key) (stack : List (Frame Key)) :
    Prop where
  one : op.count k + stack.count (.init k) ≤ 1
  init : .init k ∈ stack → entry = none
  insert : ∀ p, op = .insert k p → entry = none
  inside : ∀ p, .inside k p ∈ stack → entry = some p

/-- A thread is so while it is live. -/
def State.Enters (s : State Tid Key) (t : Tid) (k : Key) : Prop :=
  ∀ tid op stack, s.threads t = .live tid op stack → Entered k (s.registry (tid, k)) op stack

omit [DecidableEq Tid] in
lemma Entered.enters {tid : UInt64} {op : Op Key} {stack : List (Frame Key)}
    (h : Entered k (s.registry (tid, k)) op stack) (ht : s.threads t = .live tid op stack) :
    s.Enters t k := by
  intro tid' op' stack' hth
  cases ht.symm.trans hth
  exact h

/-- A step of the thread itself. -/
lemma Move.enters_self (hm : Move s t s') (h : s.Enters t k) (hre : (t, k) ∉ s'.reentered) :
    s'.Enters t k := by
  cases hm with
  | start tid ht _ =>
    exact Entered.enters ⟨by simp [Op.count], by simp, by simp, by simp⟩
      (Function.update_self ..)
  | exit tid ht =>
    intro tid' op stack hth
    simp [State.goto] at hth
  | call tid k' stack ht =>
    have hold := h _ _ _ ht
    refine Entered.enters ⟨?_, hold.init, by simp, hold.inside⟩ (Function.update_self ..)
    by_cases hk : k' = k
    · subst hk
      have hno : .init k' ∉ stack := by
        intro hmem
        simp [hmem] at hre
      simp [Op.count, List.count_eq_zero_of_not_mem hno]
    · simpa [Op.count, hk] using hold.one
  | hit tid k' p stack ht hp =>
    have hold := h _ _ _ ht
    refine Entered.enters ⟨?_, fun hmem => hold.init (by simpa using hmem), by simp,
      fun q hq => ?_⟩ (Function.update_self ..)
    · have hone := hold.one
      have hcount : (Frame.inside k' p :: stack).count (.init k) = stack.count (.init k) :=
        List.count_cons_of_ne (by simp)
      show 0 + _ ≤ 1
      omega
    · rcases List.mem_cons.1 hq with heq | hq
      · cases heq
        exact hp
      · exact hold.inside q hq
  | miss tid k' stack ht hp =>
    have hold := h _ _ _ ht
    refine Entered.enters ⟨?_, fun hmem => ?_, by simp,
      fun q hq => hold.inside q (by simpa using hq)⟩ (Function.update_self ..)
    · simpa [Op.count, List.count_cons, Nat.add_comm] using hold.one
    · rcases List.mem_cons.1 hmem with heq | hmem
      · cases heq
        exact hp
      · exact hold.init hmem
  | create tid k' stack ht =>
    have hold := h _ _ _ ht
    refine Entered.enters ⟨?_, fun hmem => hold.init (List.mem_cons_of_mem _ hmem),
      fun p hop => ?_, fun q hq => hold.inside q (List.mem_cons_of_mem _ hq)⟩
      (Function.update_self ..)
    · simpa [Op.count, List.count_cons, Nat.add_comm] using hold.one
    · cases hop
      exact hold.init List.mem_cons_self
  | insert tid k' p stack ht =>
    have hold := h _ _ _ ht
    by_cases hk : k' = k
    · subst hk
      -- no other call of the thread makes this value
      have hno : .init k' ∉ stack := by
        have hone := hold.one
        rw [Op.count, if_pos rfl] at hone
        rw [← List.count_eq_zero]
        omega
      refine Entered.enters ⟨?_, by simp [hno], by simp, fun q hq => ?_⟩
        (Function.update_self ..)
      · simp [Op.count, List.count_eq_zero_of_not_mem hno]
      · rcases List.mem_cons.1 hq with heq | hq
        · cases heq
          exact Function.update_self ..
        · cases (hold.insert p rfl).symm.trans (hold.inside q hq)
    · have hreg : Function.update s.registry (tid, k') (some p) (tid, k) = s.registry (tid, k) :=
        Function.update_of_ne (by simpa using Ne.symm hk) _ _
      refine Entered.enters ⟨?_, ?_, by simp, fun q hq => ?_⟩ (Function.update_self ..)
      · simpa [Op.count, hk] using hold.one
      · exact fun hmem => hreg.trans (hold.init (by simpa using hmem))
      · refine hreg.trans (hold.inside q ((List.mem_cons.1 hq).resolve_left fun heq => ?_))
        cases heq
        exact hk rfl
  | leave tid k' p stack ht =>
    have hold := h _ _ _ ht
    refine Entered.enters ⟨?_, fun hmem => hold.init (List.mem_cons_of_mem _ hmem), by simp,
      fun q hq => hold.inside q (List.mem_cons_of_mem _ hq)⟩ (Function.update_self ..)
    simpa [Op.count, List.count_cons] using hold.one

/-- Threads that live at the same time have entries of their own. -/
lemma Move.enters (hm : Move s t s') (hids : Distinct fun u => (s.threads u).id)
    (h : s.Enters u k) (hre : (u, k) ∉ s'.reentered) : s'.Enters u k := by
  by_cases hut : u = t
  · subst hut
    exact hm.enters_self h hre
  have hgoto : ∀ th, (s.goto t th).threads u = s.threads u := fun th => Function.update_of_ne hut ..
  intro tid op stack hth
  cases hm with
  | insert tid' k' p stack' ht =>
    have hu := (hgoto _).symm.trans hth
    have hne : (tid, k) ≠ (tid', k') := by
      rintro heq
      cases heq
      exact hut (hids u t tid (by simp [hu, Thread.id]) (by simp [ht, Thread.id]))
    show Entered k (Function.update s.registry (tid', k') (some p) (tid, k)) op stack
    rw [Function.update_of_ne hne]
    exact h tid op stack hu
  | _ => exact h tid op stack ((hgoto _).symm.trans hth)

lemma reaches_ids (h : Reaches s) : Distinct fun t => (s.threads t).id := by
  refine Reachable.induct (P := fun s => Distinct fun t => (s.threads t).id) h ?_ ?_
  · rintro s rfl t u tid ht
    cases ht
  · intro s s' _ ih hstep
    obtain ⟨t, hmove⟩ := hstep.move
    exact hmove.ids ih

lemma reaches_enters (h : Reaches s) (hre : (t, k) ∉ s.reentered) : s.Enters t k := by
  revert hre
  refine Reachable.induct (P := fun s => (t, k) ∉ s.reentered → s.Enters t k) h ?_ ?_
  · rintro s rfl - tid op stack hth
    cases hth
  · intro s s' hs ih hstep hre
    obtain ⟨u, hmove⟩ := hstep.move
    exact hmove.enters (reaches_ids hs) (ih fun hmem => hre (hmove.later.reentered.subset hmem)) hre

/-- The registry has the value that the closures of a thread have run on. -/
def State.Keeps (s : State Tid Key) (t : Tid) (k : Key) : Prop :=
  ∀ p tid, (t, k, p) ∈ s.ran → (s.threads t).tid? = some tid → s.registry (tid, k) = some p

/-- While threads are apart, a value that closures have run on stays. -/
lemma Move.keeps (hm : Move s t s') (h : s.Keeps u k) (hinv : Inv s) (henters : s.Enters u k)
    (ha : s'.Apart) : s'.Keeps u k := by
  have hl := hm.later
  have hold : ∀ p tid, (u, k, p) ∈ s.ran → (s'.threads u).tid? = some tid →
      (s.threads u).tid? = some tid := by
    intro p tid hp hid
    cases hth : s.threads u with
    | unborn => exact absurd hth (hinv.born u k (hinv.ran u k p hp))
    | live tid' _ _ | exited tid' => exact (hl.tid u tid' (by rw [hth]; rfl)).symm.trans hid
  intro p tid hp hid
  cases hm with
  | hit tid' k' p' stack ht hreg =>
    rcases List.mem_append.1 hp with hran | hnew
    · exact h p tid hran (hold p tid hran hid)
    · cases List.mem_singleton.1 hnew
      cases (hl.tid t tid' (by rw [ht]; rfl)).symm.trans hid
      exact hreg
  | insert tid' k' p' stack ht =>
    have hlooked := (hinv.insert t _ _ _ _ ht).2
    rcases List.mem_append.1 hp with hran | hnew
    · have hreg := h p tid hran (hold p tid hran hid)
      refine (Function.update_of_ne (fun heq => ?_) ..).trans hreg
      -- the thread with the same id would be the same, and the entry would be its second
      cases heq
      obtain rfl := ha u t k tid ((hinv.ran u k p hran).later hl) (hlooked.later hl) hid
        (hl.tid t tid (by rw [ht]; rfl))
      cases ((henters _ _ _ ht).insert p' rfl).symm.trans hreg
    · cases List.mem_singleton.1 hnew
      cases (hl.tid t tid' (by rw [ht]; rfl)).symm.trans hid
      exact Function.update_self ..
  | _ => exact h p tid hp (hold p tid hp hid)

lemma reaches_keeps (h : Reaches s) (ha : s.Apart) (hre : (t, k) ∉ s.reentered) : s.Keeps t k := by
  revert ha hre
  refine Reachable.induct (P := fun s => s.Apart → (t, k) ∉ s.reentered → s.Keeps t k) h ?_ ?_
  · rintro s rfl - - p tid hp
    cases hp
  · intro s s' hs ih hstep ha hre
    obtain ⟨u, hmove⟩ := hstep.move
    have hl := hmove.later
    have hre : (t, k) ∉ s.reentered := fun hmem => hre (hl.reentered.subset hmem)
    exact hmove.keeps (ih (ha.earlier hl) hre) (reaches_inv hs) (reaches_enters hs hre) ha

/-! ### Results -/

/-- If no two threads that had the same id, one after the other, have called `with` on the same
key, then every closure runs on a value that `init` has made in its own thread for its own
key, and the first lookup of a thread for a key finds nothing, so that it runs `init`.  All
closures of a thread for a key run on the same value, unless `init` for that key has called
`with` on it in that thread. -/
theorem with_private (h : Reaches s) (ha : s.Apart) :
    (∀ t k p, (t, k, p) ∈ s.ran → s.boxes[p]? = some (t, k)) ∧
    FirstMisses s.looked ∧
    ∀ t k, (t, k) ∉ s.reentered → ∀ p q, (t, k, p) ∈ s.ran → (t, k, q) ∈ s.ran → p = q := by
  have hpriv := reaches_private h ha
  refine ⟨hpriv.made, hpriv.first, fun t k hre p q hp hq => ?_⟩
  have hkeeps := reaches_keeps h ha hre
  have hinv := reaches_inv h
  obtain ⟨tid, hid⟩ : ∃ tid, (s.threads t).tid? = some tid := by
    cases hth : s.threads t with
    | unborn => exact absurd hth (hinv.born t k (hinv.ran t k p hp))
    | live tid | exited tid => exact ⟨tid, rfl⟩
  exact Option.some.inj ((hkeeps p tid hp hid).symm.trans (hkeeps q tid hq hid))

/-- A thread uses a key for the first time. -/
def firstUse (t : ℕ) : List (ℕ × Option (Choice ℕ)) :=
  [(t, some (.call 0)), (t, none), (t, some .ret), (t, none), (t, some .ret)]

/-- Two threads with ids of their own use the same key. -/
theorem with_private_two : ∃ s : State ℕ ℕ, Reaches s ∧ s.Apart ∧ s.boxes[1]? = some (1, 0) ∧
    s.ran = [(0, 0, 0), (1, 0, 1)] := by
  have h₁ : Reaches (State.start : State ℕ ℕ) := .start rfl
  have h₂ := h₁.next (.start 0 5 rfl fun _ _ _ h => by cases h)
  have h₃ := h₂.next (.start 1 6 rfl fun u op stack h => by cases u <;> cases h)
  have h₄ := h₃.foldl turn_step (firstUse 0 ++ firstUse 1)
  have hapart : State.Apart ((firstUse 0 ++ firstUse 1).foldl State.turn
      (((State.start : State ℕ ℕ).goto 0 (.live 5 .run [])).goto 1 (.live 6 .run []))) := by
    rintro t u k tid ⟨r, hr⟩ ⟨r', hr'⟩ ht hu
    change (t, k, r) ∈ [(0, 0, none), (1, 0, none)] at hr
    change (u, k, r') ∈ [(0, 0, none), (1, 0, none)] at hr'
    simp only [List.mem_cons, Prod.mk.injEq, List.not_mem_nil, or_false] at hr hr'
    rcases hr with ⟨rfl, -, -⟩ | ⟨rfl, -, -⟩ <;> rcases hr' with ⟨rfl, -, -⟩ | ⟨rfl, -, -⟩
    · rfl
    · exact absurd (ht.trans hu.symm) (by decide)
    · exact absurd (ht.trans hu.symm) (by decide)
    · rfl
  exact ⟨_, h₄, hapart, (with_private h₄ hapart).1 1 0 1 (.tail _ (.head _)), rfl⟩

/-- A thread uses a key and exits; another thread gets its id, and its first closure for the key
runs on the value of the first thread. -/
theorem with_reused : ∃ s : State ℕ ℕ, Reaches s ∧ s.reentered = [] ∧
    s.looked = [(0, 0, none), (1, 0, some 0)] ∧ (1, 0, 0) ∈ s.ran ∧ s.boxes = [(0, 0)] := by
  have h₁ : Reaches (State.start : State ℕ ℕ) := .start rfl
  have h₂ := h₁.next (.start 0 5 rfl fun _ _ _ h => by cases h)
  have h₃ := h₂.foldl turn_step (firstUse 0 ++ [(0, some .exit)])
  have h₄ := h₃.next (.start 1 5 rfl fun u op stack h => by cases u <;> cases h)
  have h₅ := h₄.foldl turn_step [(1, some (.call 0)), (1, none)]
  exact ⟨_, h₅, rfl, rfl, .tail _ (.head _), rfl⟩

end PureStd.Tls
