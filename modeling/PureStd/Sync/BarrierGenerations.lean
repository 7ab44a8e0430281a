/-
The calls of `Barrier::wait` come in generations.

Call `i` belongs to generation `i / n`.  In the system without the mutex
(`Discipline.ViewStep`) the thread with the guard moves alone, so the fields of
`BarrierState` fit the history whenever nobody is between `count += 1` and the increment of
`generation` (`Data.Settled`); what a call that waits or leaves knows stays true while other
calls arrive and generations are completed (`Data.Grows`).
-/
import PureStd.Sync.Barrier

namespace PureStd.Sync.Barrier

variable {Tid : Type*} {n : ℕ} {w : PtrWidth} {d d' : Data} {k k' : Ctl}

/-! ### What a thread knows -/

/-- The number of calls that have added to `count`. -/
def Data.arrived (d : Data) : ℕ := d.arrivals.length

/-- The fields fit the history. -/
structure Data.Settled (n : ℕ) (w : PtrWidth) (d : Data) : Prop where
  arrived : d.arrived = d.completed * n + d.count
  count : d.count < n
  generation : d.generation = w.wrap d.completed

/-- Call `i`, which has read `g`, waits. -/
structure Data.Waits (n : ℕ) (w : PtrWidth) (d : Data) (i g : ℕ) : Prop where
  arrived : i < d.arrived
  generation : g = w.wrap (i / n)
  le : i / n ≤ d.completed
  notLast : i % n + 1 < n

/-- The generation of call `i` is complete, and `leader` says whether it was the last call. -/
structure Data.Leaves (n : ℕ) (d : Data) (i : ℕ) (leader : Bool) : Prop where
  arrived : i < d.arrived
  lt : i / n < d.completed
  leader : leader = true ↔ i % n + 1 = n

/-- Call `i` is the last one of the generation that is being completed. -/
structure Data.Full (n : ℕ) (w : PtrWidth) (d : Data) (i : ℕ) : Prop where
  last : i + 1 = d.arrived
  arrived : d.arrived = (d.completed + 1) * n
  generation : d.generation = w.wrap d.completed

/-- What a thread at a program point knows. -/
def Ctl.Ok (n : ℕ) (w : PtrWidth) (d : Data) : Ctl → Prop
  | add g => g = d.generation
  | test i g => i + 1 = d.arrived ∧ d.arrived = d.completed * n + d.count ∧ 0 < d.count ∧
      d.count ≤ n ∧ d.generation = w.wrap d.completed ∧ g = d.generation
  | check i g => d.Waits n w i g
  | wait i g => d.Waits n w i g ∧ g = d.generation
  | reset i => d.Full n w i
  | bump i => d.Full n w i ∧ d.count = 0
  | notify i => i + 1 = d.completed * n ∧ i < d.arrived
  | unlock i leader => d.Leaves n i leader
  | ret i leader => d.Leaves n i leader
  | _ => True

/-- The fields do not fit the history here. -/
def Ctl.Open : Ctl → Bool
  | test _ _ => true
  | reset _ => true
  | bump _ => true
  | _ => false

/-- The number of the call that a thread is in, after its arrival. -/
def Ctl.number : Ctl → Option ℕ
  | test i _ => some i
  | check i _ => some i
  | wait i _ => some i
  | reset i => some i
  | bump i => some i
  | notify i => some i
  | unlock i _ => some i
  | ret i _ => some i
  | _ => none

/-- Calls arrive, and generations are completed. -/
structure Data.Grows (d d' : Data) : Prop where
  arrived : d.arrived ≤ d'.arrived
  completed : d.completed ≤ d'.completed

lemma Data.Grows.refl (d : Data) : d.Grows d := ⟨le_rfl, le_rfl⟩

lemma Data.Leaves.grow {i : ℕ} {leader : Bool} (h : d.Leaves n i leader) (hd : d.Grows d') :
    d'.Leaves n i leader :=
  ⟨h.arrived.trans_le hd.arrived, h.lt.trans_le hd.completed, h.leader⟩

/-- What a thread without the guard knows stays true. -/
lemma Ctl.Ok.grow (h : k.Ok n w d) (hk : k.locked = true → k.landing = true)
    (hd : d.Grows d') : k.Ok n w d' := by
  cases k with
  | check i g =>
    exact ⟨h.arrived.trans_le hd.arrived, h.generation, h.le.trans hd.completed, h.notLast⟩
  | unlock | ret => exact Data.Leaves.grow h hd
  | add | test | wait | reset | bump | notify => exact absurd (hk rfl) Bool.false_ne_true
  | _ => trivial

/-- What a thread knows is not about the answers. -/
lemma Ctl.Ok.answers (h : k.Ok n w d) (answers : List (ℕ × Bool)) :
    k.Ok n w { d with answers := answers } := by
  cases k with
  | check i g => exact { h with }
  | wait i g => exact ⟨{ h.1 with }, h.2⟩
  | reset i => exact { h with }
  | bump i => exact ⟨{ h.1 with }, h.2⟩
  | unlock _ leader | ret _ leader => exact { h with }
  | _ => exact h

/-- The place of a call in its generation. -/
lemma div_mod_of_succ {i c k : ℕ} (h : i + 1 = c * n + k) (hk : 0 < k) (hkn : k ≤ n) :
    i / n = c ∧ i % n + 1 = k := by
  have hmod : k - 1 < n := by omega
  obtain ⟨hdiv, hrem⟩ := (Nat.div_mod_unique (by omega : 0 < n)).2
    ⟨show k - 1 + n * c = i by rw [mul_comm n c]; omega, hmod⟩
  exact ⟨hdiv, by omega⟩

/-! ### The moves -/

/-- A thread that makes a choice has no guard. -/
lemma choose_cases {x : Choice} (h : choose x k d = some (k', d')) :
    d' = d ∧ (k = .idle ∧ k' = .lock ∨ ∃ leader, k = .returned leader ∧ k' = .idle) := by
  cases x <;> cases k <;> simp only [choose, Option.some.injEq, Prod.mk.injEq, reduceCtorEq] at h
  · exact ⟨h.2.symm, Or.inl ⟨rfl, h.1.symm⟩⟩
  · exact ⟨h.2.symm, Or.inr ⟨_, rfl, h.1.symm⟩⟩

/-- A move of the thread with the guard, while nobody else is inside. -/
lemma moves_ok (h : (program n w).Moves k d k' d') (hlocked : k.locked = true)
    (hk : k.Ok n w d) (hs : k.Open = false → d.Settled n w) :
    k'.Ok n w d' ∧ (k'.Open = false → d'.Settled n w) ∧ d.Grows d' := by
  have hsame : ∀ {k' : Ctl}, k.Open = false → k'.Ok n w d →
      k'.Ok n w d ∧ (k'.Open = false → d.Settled n w) ∧ d.Grows d :=
    fun hopen hok => ⟨hok, fun _ => hs hopen, .refl d⟩
  cases h with
  | exec h =>
    change exec n w k d = some (k', d') at h
    cases k with
    | read =>
      cases h
      exact hsame rfl rfl
    | add g =>
      cases h
      obtain ⟨harrived, hcount, hgen⟩ := hs rfl
      have hnew : (d.arrivals ++ [g]).length = d.arrived + 1 := by
        rw [List.length_append]
        rfl
      refine ⟨⟨hnew.symm, ?_, Nat.succ_pos _, hcount, hgen, hk⟩, by simp [Ctl.Open],
        ⟨?_, le_rfl⟩⟩
      · show (d.arrivals ++ [g]).length = d.completed * n + (d.count + 1)
        omega
      · show d.arrived ≤ (d.arrivals ++ [g]).length
        omega
    | test i g =>
      cases h
      obtain ⟨hlast, harrived, hpos, hle, hgen, hg⟩ := hk
      split
      · rename_i hlt
        obtain ⟨hdiv, hmod⟩ := div_mod_of_succ (hlast.trans harrived) hpos hle
        refine ⟨⟨by omega, ?_, hdiv.le, by omega⟩, fun _ => ⟨harrived, hlt, hgen⟩, .refl d⟩
        rw [hg, hgen, hdiv]
      · refine ⟨⟨hlast, ?_, hgen⟩, by simp [Ctl.Open], .refl d⟩
        rw [harrived, add_mul, one_mul]
        omega
    | check i g =>
      cases h
      have hsettled := hs rfl
      split
      · exact hsame rfl ⟨hk, ‹_›⟩
      · rename_i hne
        have hdiv : i / n ≠ d.completed := by
          intro heq
          exact hne (by rw [hk.generation, hsettled.generation, heq])
        have hle := hk.le
        have hlast := hk.notLast
        exact hsame rfl ⟨hk.arrived, by omega, by simp; omega⟩
    | reset i =>
      cases h
      exact ⟨⟨⟨hk.last, hk.arrived, hk.generation⟩, rfl⟩, by simp [Ctl.Open], ⟨le_rfl, le_rfl⟩⟩
    | bump i =>
      cases h
      obtain ⟨⟨hlast, harrived, hgen⟩, hcount⟩ := hk
      refine ⟨⟨hlast.trans harrived, hlast ▸ Nat.lt_succ_self i⟩, fun _ => ⟨?_, ?_, ?_⟩,
        ⟨le_rfl, Nat.le_succ _⟩⟩
      · show d.arrived = (d.completed + 1) * n + d.count
        rw [hcount, harrived, add_zero]
      · show d.count < n
        rw [hcount]
        exact Nat.pos_of_mul_pos_left (by omega : 0 < (d.completed + 1) * n)
      · show w.wrap (d.generation + 1) = w.wrap (d.completed + 1)
        rw [hgen, PtrWidth.wrap, PtrWidth.wrap, Nat.mod_add_mod, PtrWidth.wrap]
    | ret i leader => cases hlocked
    | _ => cases h
  | choose x h =>
    obtain ⟨-, ⟨rfl, -⟩ | ⟨b, rfl, -⟩⟩ := choose_cases h <;> cases hlocked
  | call h =>
    change call k = some (_, k') at h
    cases k with
    | wait i g =>
      cases h
      exact hsame rfl hk.1
    | notify i =>
      cases h
      obtain ⟨hlast, hi⟩ := hk
      have hn : 0 < n := Nat.zero_lt_of_lt (hs rfl).count
      obtain ⟨c, hc⟩ : ∃ c, d.completed = c + 1 := by
        refine Nat.exists_eq_succ_of_ne_zero fun hzero => ?_
        rw [hzero, zero_mul] at hlast
        exact absurd hlast (Nat.succ_ne_zero i)
      rw [hc, add_mul, one_mul] at hlast
      obtain ⟨hdiv, hmod⟩ := div_mod_of_succ hlast hn le_rfl
      exact hsame rfl ⟨hi, by omega, by simp [hmod]⟩
    | unlock i leader =>
      cases h
      exact hsame rfl hk
    | lock => cases hlocked
    | _ => cases h

/-- A move of a thread without the guard: it begins a call, or returns from one. -/
lemma moves_unlocked (h : (program n w).Moves k d k' d') (hlocked : k.locked = false) :
    (d' = d ∧ k.number = none ∧ k'.number = none ∧ (k' = .lock ∨ k' = .idle ∨ k' = .read)) ∨
    ∃ i leader, k = .ret i leader ∧ k' = .returned leader ∧
      d' = { d with answers := d.answers ++ [(i, leader)] } := by
  cases h with
  | exec h =>
    change exec n w k d = some (k', d') at h
    cases k with
    | ret i leader =>
      cases h
      exact Or.inr ⟨i, leader, rfl, rfl, rfl⟩
    | _ => first | cases hlocked; done | cases h
  | choose x h =>
    obtain ⟨rfl, ⟨rfl, rfl⟩ | ⟨leader, rfl, rfl⟩⟩ := choose_cases h
    · exact Or.inl ⟨rfl, rfl, rfl, Or.inl rfl⟩
    · exact Or.inl ⟨rfl, rfl, rfl, Or.inr (Or.inl rfl)⟩
  | call h =>
    change call k = some (_, k') at h
    cases k with
    | lock =>
      cases h
      exact Or.inl ⟨rfl, rfl, rfl, Or.inr (Or.inr rfl)⟩
    | _ => first | cases hlocked; done | cases h

/-- A move with the guard is an arrival, or it changes neither the arrivals nor the number of
the call. -/
lemma moves_number (h : (program n w).Moves k d k' d') (hlocked : k.locked = true) :
    d'.answers = d.answers ∧
    ((∃ g, k = .add g ∧ k' = .test d.arrived g ∧ d'.arrivals = d.arrivals ++ [g]) ∨
      k'.number = k.number ∧ d'.arrivals = d.arrivals) := by
  cases h with
  | exec h =>
    change exec n w k d = some (k', d') at h
    cases k with
    | add g =>
      cases h
      exact ⟨rfl, Or.inl ⟨g, rfl, rfl, rfl⟩⟩
    | ret i leader => cases hlocked
    | test | check =>
      cases h
      refine ⟨rfl, Or.inr ⟨?_, rfl⟩⟩
      split <;> rfl
    | _ =>
      cases h
      try exact ⟨rfl, Or.inr ⟨rfl, rfl⟩⟩
  | choose x h => obtain ⟨-, ⟨rfl, -⟩ | ⟨b, rfl, -⟩⟩ := choose_cases h <;> cases hlocked
  | call h =>
    change call k = some (_, k') at h
    cases k with
    | lock => cases hlocked
    | _ =>
      cases h
      try exact ⟨rfl, Or.inr ⟨rfl, rfl⟩⟩

/-! ### The invariant -/

/-- Call `i` has arrived, and has not returned. -/
def Data.Pending (d : Data) (i : ℕ) : Prop := i < d.arrived ∧ i ∉ d.answers.map Prod.fst

/-- The invariant of the system without the mutex. -/
structure Inv (n : ℕ) (w : PtrWidth) (v : View Tid Ctl Data) : Prop where
  ok : ∀ t, (v.ctl t).Ok n w v.data
  settled : (∀ t, (v.ctl t).Open = false) → v.data.Settled n w
  arrivals : ∀ i g, v.data.arrivals[i]? = some g → g = w.wrap (i / n)
  answers : ∀ x ∈ v.data.answers, v.data.Leaves n x.1 x.2
  nodup : (v.data.answers.map Prod.fst).Nodup
  pending : ∀ t i, (v.ctl t).number = some i → v.data.Pending i
  distinct : ∀ t u i, (v.ctl t).number = some i → (v.ctl u).number = some i → t = u

lemma inv_begin (hn : 0 < n) : Inv n w (⟨.new, fun _ => .idle⟩ : View Tid Ctl Data) where
  ok _ := trivial
  settled _ := ⟨by simp [Data.arrived, Data.new], hn, by cases w <;> rfl⟩
  arrivals _ _ h := by cases h
  answers _ h := absurd h List.not_mem_nil
  nodup := List.nodup_nil
  pending _ _ h := by cases h
  distinct _ _ _ h := by cases h

/-- An open point is one with the guard. -/
lemma Ctl.locked_of_open (h : k.Open = true) : k.locked = true ∧ k.landing = false := by
  cases k <;> first | exact ⟨rfl, rfl⟩ | cases h

variable [DecidableEq Tid] {v v' : View Tid Ctl Data} {t : Tid}

/-- The numbers stay distinct if the number of the thread that moves is its own. -/
lemma Inv.distinct_update (h : Inv n w v)
    (hk : ∀ i, k.number = some i → (v.ctl t).number = some i ∨ v.data.arrived ≤ i) :
    ∀ u u' i, (Function.update v.ctl t k u).number = some i →
      (Function.update v.ctl t k u').number = some i → u = u' := by
  have hnew : ∀ u i, u ≠ t → k.number = some i → (v.ctl u).number ≠ some i := by
    intro u i hut hki hui
    rcases hk i hki with hold | hle
    · exact hut (h.distinct u t i hui hold)
    · exact absurd (h.pending u i hui).1 (by omega)
  intro u u' i hu hu'
  by_cases hut : u = t <;> by_cases hut' : u' = t
  · rw [hut, hut']
  · rw [hut, Function.update_self] at hu
    rw [Function.update_of_ne hut'] at hu'
    exact absurd hu' (hnew u' i hut' hu)
  · rw [hut', Function.update_self] at hu'
    rw [Function.update_of_ne hut] at hu
    exact absurd hu (hnew u i hut hu')
  · rw [Function.update_of_ne hut] at hu
    rw [Function.update_of_ne hut'] at hu'
    exact h.distinct u u' i hu hu'

/-- What was open is still so, if the thread that moves was not. -/
lemma not_open_of_update (hopen : (v.ctl t).Open = false)
    (h : ∀ u, (Function.update v.ctl t k u).Open = false) (u : Tid) : (v.ctl u).Open = false := by
  by_cases hut : u = t
  · rw [hut, hopen]
  · have hu := h u
    rwa [Function.update_of_ne hut] at hu

/-- A thread without the guard moves. -/
lemma Inv.unlocked (h : Inv n w v) (hm : (program n w).Moves (v.ctl t) v.data k d)
    (hlocked : (v.ctl t).locked = false) : Inv n w ⟨d, Function.update v.ctl t k⟩ := by
  have hopen : (v.ctl t).Open = false := by
    by_contra hne
    rw [(Ctl.locked_of_open (eq_true_of_ne_false hne)).1] at hlocked
    cases hlocked
  rcases moves_unlocked hm hlocked with ⟨rfl, -, hnum, hk⟩ | ⟨i, leader, ht, rfl, rfl⟩
  · have hok : k.Ok n w v.data := by rcases hk with rfl | rfl | rfl <;> trivial
    exact {
      ok := (Function.forall_update_iff v.ctl fun _ k => k.Ok n w v.data).2
        ⟨hok, fun u _ => h.ok u⟩
      settled := fun hall => h.settled (not_open_of_update hopen hall)
      arrivals := h.arrivals
      answers := h.answers
      nodup := h.nodup
      pending := (Function.forall_update_iff v.ctl fun _ k =>
        ∀ i, k.number = some i → v.data.Pending i).2
          ⟨fun i hi => absurd (hnum.symm.trans hi) (by simp), fun u _ => h.pending u⟩
      distinct := h.distinct_update fun i hi => absurd (hnum.symm.trans hi) (by simp) }
  · -- the call returns
    have hleaves := h.ok t
    rw [ht] at hleaves
    have hfresh := h.pending t i (by rw [ht]; rfl)
    set d : Data := { v.data with answers := v.data.answers ++ [(i, leader)] } with hd
    have hgrows : v.data.Grows d := ⟨le_rfl, le_rfl⟩
    refine {
      ok := (Function.forall_update_iff v.ctl fun _ k => k.Ok n w d).2 ⟨trivial, fun u _ => ?_⟩
      settled := fun hall => ?_
      arrivals := h.arrivals
      answers := fun x hx => ?_
      nodup := ?_
      pending := (Function.forall_update_iff v.ctl fun _ k =>
        ∀ i, k.number = some i → d.Pending i).2
          ⟨fun i hi => absurd hi (by simp [Ctl.number]), fun u hut j hj => ?_⟩
      distinct := h.distinct_update fun i hi => absurd hi (by simp [Ctl.number]) }
    · exact (h.ok u).answers _
    · have hs := h.settled (not_open_of_update hopen hall)
      exact ⟨hs.arrived, hs.count, hs.generation⟩
    · rcases List.mem_append.1 hx with hold | hnew
      · exact (h.answers x hold).grow hgrows
      · obtain rfl := List.mem_singleton.1 hnew
        exact Data.Leaves.grow hleaves hgrows
    · show (List.map Prod.fst (v.data.answers ++ [(i, leader)])).Nodup
      rw [List.map_append]
      exact List.Nodup.append h.nodup (List.nodup_singleton _) (by simpa using hfresh.2)
    · obtain ⟨hlt, hno⟩ := h.pending u j hj
      refine ⟨hlt, fun hmem => ?_⟩
      rw [hd, List.map_append] at hmem
      rcases List.mem_append.1 hmem with hold | hnew
      · exact hno hold
      · obtain rfl : j = i := by simpa using hnew
        exact hut (h.distinct u t j hj (by rw [ht]; rfl))

/-- The thread with the guard moves. -/
lemma Inv.locked (h : Inv n w v) (hm : (program n w).Moves (v.ctl t) v.data k d)
    (hlocked : (v.ctl t).locked = true) (halone : (discipline n w).Alone v t) :
    Inv n w ⟨d, Function.update v.ctl t k⟩ := by
  -- nobody else is open
  have hclosed : ∀ u, u ≠ t → (v.ctl u).Open = false := by
    intro u hut
    by_contra hne
    obtain ⟨hl, hland⟩ := Ctl.locked_of_open (eq_true_of_ne_false hne)
    exact absurd ((halone u hut hl).symm.trans hland) (by simp)
  have hsettled : (v.ctl t).Open = false → v.data.Settled n w := by
    intro hopen
    refine h.settled fun u => ?_
    by_cases hut : u = t
    · rw [hut, hopen]
    · exact hclosed u hut
  obtain ⟨hk, hs, hgrows⟩ := moves_ok hm hlocked (h.ok t) hsettled
  obtain ⟨hans, hnum⟩ := moves_number hm hlocked
  have hpending : ∀ u i, (v.ctl u).number = some i → d.Pending i := by
    intro u i hi
    obtain ⟨hlt, hno⟩ := h.pending u i hi
    exact ⟨hlt.trans_le hgrows.arrived, by rwa [hans]⟩
  have hown : ∀ i, k.number = some i → (v.ctl t).number = some i ∨
      i = v.data.arrived ∧ d.arrived = v.data.arrived + 1 := by
    intro i hi
    rcases hnum with ⟨g, -, rfl, harr⟩ | ⟨hsame, -⟩
    · refine Or.inr ⟨(Option.some.inj hi).symm, ?_⟩
      rw [Data.arrived, harr, List.length_append]
      rfl
    · exact Or.inl (hsame.symm.trans hi)
  have hmine : ∀ i, k.number = some i → d.Pending i := by
    intro i hi
    rcases hown i hi with hold | ⟨rfl, harr⟩
    · exact hpending t i hold
    · refine ⟨by omega, fun hmem => ?_⟩
      obtain ⟨x, hx, hfst⟩ := List.mem_map.1 hmem
      have hlt := (h.answers x (hans ▸ hx)).arrived
      omega
  have harrivals : ∀ i g, d.arrivals[i]? = some g → g = w.wrap (i / n) := by
    intro i g hi
    rcases hnum with ⟨g', ht, -, harr⟩ | ⟨-, harr⟩
    · rw [harr] at hi
      rcases Nat.lt_trichotomy i v.data.arrived with hlt | rfl | hlt
      · rw [List.getElem?_append_left hlt] at hi
        exact h.arrivals i g hi
      · -- the arrival belongs to the generation that is not complete
        have hs := hsettled (by rw [ht]; rfl)
        have hg := h.ok t
        rw [ht] at hg
        obtain rfl : g' = g := by
          rw [Data.arrived, List.getElem?_concat_length] at hi
          exact Option.some.inj hi
        obtain ⟨hdiv, -⟩ := div_mod_of_succ (k := v.data.count + 1)
          (show v.data.arrived + 1 = v.data.completed * n + (v.data.count + 1) by
            rw [hs.arrived, Nat.add_assoc]) (Nat.succ_pos _) hs.count
        rw [hdiv, ← hs.generation]
        exact hg
      · rw [List.getElem?_eq_none (by rw [List.length_append]; exact hlt)] at hi
        cases hi
    · rw [harr] at hi
      exact h.arrivals i g hi
  exact {
    ok := (Function.forall_update_iff v.ctl fun _ k => k.Ok n w d).2
      ⟨hk, fun u hut => (h.ok u).grow (halone u hut) hgrows⟩
    settled := fun hall =>
      hs ((congrArg Ctl.Open (Function.update_self t k v.ctl)).symm.trans (hall t))
    arrivals := harrivals
    answers := fun x hx => (h.answers x (hans ▸ hx)).grow hgrows
    nodup := by
      show (d.answers.map Prod.fst).Nodup
      rw [hans]
      exact h.nodup
    pending := (Function.forall_update_iff v.ctl fun _ k =>
      ∀ i, k.number = some i → d.Pending i).2 ⟨hmine, fun u _ => hpending u⟩
    distinct := h.distinct_update fun i hi => (hown i hi).imp_right fun hi => hi.1.ge }

/-- The invariant holds in every run. -/
lemma reaches_inv {s : State Tid Unit Ctl Data} (hn : 0 < n)
    (h : (program n w).client.Reaches s) : Inv n w s.view := by
  refine Reachable.induct (P := Inv n w) ((discipline n w).reaches_view h).2 ?_ ?_
  · rintro v rfl
    exact inv_begin hn
  · intro v v' _ hinv hstep
    cases hstep with
    | @move t k d hm halone =>
      cases hlocked : (v.ctl t).locked with
      | false => exact hinv.unlocked hm hlocked
      | true => exact hinv.locked hm hlocked (halone hlocked)

end PureStd.Sync.Barrier
