/-
A cell is initialized once.

`Pc.Ok` says what a thread knows about the cell at each point of its call: before
`call_once` has decided, nothing is known; the thread that runs the closure owns the cell;
after `call_once`, the cell is complete and never changes again.  No other thread breaks
this (`Later`): a thread changes the cell only while it runs the closure, and the number of
a call belongs to one thread.

The answers of all calls follow from what the calls know when they return
(`once_initializes`).
-/
import PureStd.Sync.Once

namespace PureStd.Sync.Once

variable {Tid V : Type*} {k : Kind} {t u : Tid} {d d' : Cell Tid V} {i : ℕ} {job : Job V} {p : Pc V}
  {a : Answer V} {r : Pc V × Cell Tid V}

/-! ### What a thread knows -/

/-- Call `i` is one of `t`, and has not returned. -/
def Cell.Calls (d : Cell Tid V) (t : Tid) (i : ℕ) : Prop :=
  d.calls[i]? = some t ∧ i ∉ d.answers.map Prod.fst

/-- The thread runs the closure. -/
def Cell.Runs (d : Cell Tid V) (t : Tid) : Prop := d.state = running ∧ d.runner = some t

/-- Nobody has filled the cell. -/
def Cell.Unfilled (d : Cell Tid V) : Prop := d.done = false ∧ d.value = none ∧ d.suppliers = []

/-- Call `i` has filled the cell, with `v`. -/
def Cell.FilledBy (d : Cell Tid V) (i : ℕ) (v : V) : Prop := d.value = some v ∧ d.suppliers = [i]

/-- The closure of the job has not begun. -/
def Job.Fresh : Job V → Prop
  | set arg value => value = some arg
  | _ => True

/-- The closure of the job has ended. -/
def Cell.Supplied (d : Cell Tid V) (i : ℕ) : Job V → Prop
  | .callOnce => True
  | .set arg value => value = none ∧ d.FilledBy i arg
  | _ => ∃ v, d.FilledBy i v

/-- The closure of the job has filled the cell, or it has not begun. -/
def Cell.Settled (d : Cell Tid V) (i : ℕ) : Job V → Prop
  | .set arg value => (value = none ∧ d.FilledBy i arg) ∨ (value = some arg ∧ i ∉ d.suppliers)
  | _ => True

lemma Cell.supplied_congr (hv : d'.value = d.value) (hs : d'.suppliers = d.suppliers) :
    d'.Supplied i job ↔ d.Supplied i job := by
  cases job <;> simp only [Cell.Supplied, Cell.FilledBy, hv, hs]

lemma Cell.settled_congr (hv : d'.value = d.value) (hs : d'.suppliers = d.suppliers) :
    d'.Settled i job ↔ d.Settled i job := by
  cases job <;> simp only [Cell.Settled, Cell.FilledBy, hv, hs]

/-- What a thread knows at a point of its call. -/
def Pc.Ok (k : Kind) (t : Tid) (d : Cell Tid V) : Pc V → Prop
  | idle => True
  | load i job => k.has job = true ∧ d.Calls t i ∧ job.Fresh ∧ i ∉ d.suppliers
  | cas i job => k.has job = true ∧ d.Calls t i ∧ job.Fresh ∧ i ∉ d.suppliers
  | spin i job => k.has job = true ∧ d.Calls t i ∧ job.Fresh ∧ i ∉ d.suppliers
  | body i job => k.has job = true ∧ d.Calls t i ∧ job.Fresh ∧ d.Runs t ∧ d.Unfilled ∧
      (k = .lazyLock → d.init = true)
  | inside i job => k.has job = true ∧ d.Calls t i ∧ d.Runs t ∧ d.Unfilled
  | write i job _ => k.has job = true ∧ d.Calls t i ∧ d.Runs t ∧ d.Unfilled ∧
      (job = .getOrInit ∨ job = .force)
  | store i job => k.has job = true ∧ d.Calls t i ∧ d.Runs t ∧ d.done = true ∧ d.Supplied i job
  | after i job => k.has job = true ∧ d.Calls t i ∧ d.state = complete ∧ d.Settled i job
  | getLoad i => k = .onceLock ∧ d.Calls t i
  | getRead i => k = .onceLock ∧ d.Calls t i ∧ d.state = complete
  | returned _ => True
  | panicked => False

/-- What the answer of call `i` says about the cell. -/
def Answer.Ok (d : Cell Tid V) (i : ℕ) : Answer V → Prop
  | callOnce => d.state = complete
  | set arg (.ok _) => d.state = complete ∧ d.FilledBy i arg
  | set arg (.error v) => d.state = complete ∧ v = arg ∧ i ∉ d.suppliers
  | get none => True
  | get (some v) => d.state = complete ∧ d.value = some v
  | getOrInit v => d.state = complete ∧ d.value = some v
  | force v => d.state = complete ∧ d.value = some v

/-- The cell and its history fit together. -/
structure Cell.Ok (k : Kind) (d : Cell Tid V) : Prop where
  states : d.state = incomplete ∨ d.state = running ∨ d.state = complete
  new : d.state = incomplete → d.runs = 0 ∧ d.Unfilled ∧ (k = .lazyLock → d.init = true)
  once : d.runs ≤ 1
  ended : d.state = complete → d.done = true
  filled : d.done = true → k ≠ .once → ∃ i v, d.FilledBy i v
  known : ∀ i ∈ d.suppliers, i < d.calls.length
  answered : ∀ x ∈ d.answers, x.1 < d.calls.length ∧ x.2.Ok d x.1
  nodup : (d.answers.map Prod.fst).Nodup

/-! ### What the other threads may rely on -/

/-- A step of `t` takes `d` to `d'`. -/
structure Later (t : Tid) (d d' : Cell Tid V) : Prop where
  calls : ∀ (i : ℕ) (u : Tid), d.calls[i]? = some u → d'.calls[i]? = some u
  answers : ∀ i : ℕ, i ∈ d'.answers.map Prod.fst → i ∈ d.answers.map Prod.fst ∨ d.calls[i]? = some t
  suppliers : ∀ i : ℕ, i ∈ d'.suppliers → i ∈ d.suppliers ∨ d.calls[i]? = some t
  /-- A complete cell does not change. -/
  frozen : d.state = complete →
    d'.state = complete ∧ d'.value = d.value ∧ d'.suppliers = d.suppliers
  /-- Nor does a cell that belongs to another thread. -/
  owned : ∀ u, u ≠ t → d.Runs u → d'.Runs u ∧ d'.value = d.value ∧ d'.done = d.done ∧
    d'.suppliers = d.suppliers ∧ d'.init = d.init

lemma Cell.Calls.later (h : Later t d d') (hut : u ≠ t) (hi : d.Calls u i) : d'.Calls u i := by
  refine ⟨h.calls i u hi.1, fun hmem => ?_⟩
  rcases h.answers i hmem with hold | hmine
  · exact hi.2 hold
  · exact hut (Option.some.inj (hi.1.symm.trans hmine))

lemma Later.not_supplier (h : Later t d d') (hut : u ≠ t) (hi : d.Calls u i)
    (hno : i ∉ d.suppliers) : i ∉ d'.suppliers := by
  intro hmem
  rcases h.suppliers i hmem with hold | hmine
  · exact hno hold
  · exact hut (Option.some.inj (hi.1.symm.trans hmine))

/-- What a thread knows stays true when another thread goes on. -/
lemma Pc.Ok.later (h : Later t d d') (hut : u ≠ t) (hp : p.Ok k u d) : p.Ok k u d' := by
  cases p with
  | idle | returned => trivial
  | load | cas | spin =>
    obtain ⟨hk, hi, hfresh, hno⟩ := hp
    exact ⟨hk, hi.later h hut, hfresh, h.not_supplier hut hi hno⟩
  | body i job =>
    obtain ⟨hk, hi, hfresh, hruns, ⟨hdone, hvalue, hsup⟩, hinit⟩ := hp
    obtain ⟨hruns', hv, hd, hs, hin⟩ := h.owned u hut hruns
    exact ⟨hk, hi.later h hut, hfresh, hruns', ⟨hd.trans hdone, hv.trans hvalue, hs.trans hsup⟩,
      fun hlazy => hin.trans (hinit hlazy)⟩
  | inside i job =>
    obtain ⟨hk, hi, hruns, ⟨hdone, hvalue, hsup⟩⟩ := hp
    obtain ⟨hruns', hv, hd, hs, -⟩ := h.owned u hut hruns
    exact ⟨hk, hi.later h hut, hruns', hd.trans hdone, hv.trans hvalue, hs.trans hsup⟩
  | write i job v =>
    obtain ⟨hk, hi, hruns, ⟨hdone, hvalue, hsup⟩, hjob⟩ := hp
    obtain ⟨hruns', hv, hd, hs, -⟩ := h.owned u hut hruns
    exact ⟨hk, hi.later h hut, hruns', ⟨hd.trans hdone, hv.trans hvalue, hs.trans hsup⟩, hjob⟩
  | store i job =>
    obtain ⟨hk, hi, hruns, hdone, hsup⟩ := hp
    obtain ⟨hruns', hv, hd, hs, -⟩ := h.owned u hut hruns
    refine ⟨hk, hi.later h hut, hruns', hd.trans hdone, ?_⟩
    rwa [Cell.supplied_congr hv hs]
  | after i job =>
    obtain ⟨hk, hi, hstate, hset⟩ := hp
    obtain ⟨hstate', hv, hs⟩ := h.frozen hstate
    refine ⟨hk, hi.later h hut, hstate', ?_⟩
    rwa [Cell.settled_congr hv hs]
  | getLoad i => exact ⟨hp.1, hp.2.later h hut⟩
  | getRead i => exact ⟨hp.1, hp.2.1.later h hut, (h.frozen hp.2.2).1⟩
  | panicked => exact hp

/-- So does what the answers say. -/
lemma Answer.Ok.later (h : Later t d d') (ha : a.Ok d i) : a.Ok d' i := by
  have hfrozen := h.frozen
  cases a with
  | callOnce => exact (hfrozen ha).1
  | set arg r =>
    cases r with
    | ok _ =>
      obtain ⟨hstate, hv, hs⟩ := hfrozen ha.1
      exact ⟨hstate, hv.trans ha.2.1, hs.trans ha.2.2⟩
    | error v =>
      obtain ⟨hstate, -, hs⟩ := hfrozen ha.1
      exact ⟨hstate, ha.2.1, by rw [hs]; exact ha.2.2⟩
  | get r =>
    cases r with
    | none => trivial
    | some v =>
      obtain ⟨hstate, hv, -⟩ := hfrozen ha.1
      exact ⟨hstate, hv.trans ha.2⟩
  | getOrInit | force =>
    obtain ⟨hstate, hv, -⟩ := hfrozen ha.1
    exact ⟨hstate, hv.trans ha.2⟩

lemma Later.same (hstate : d'.state = d.state) (hvalue : d'.value = d.value)
    (hdone : d'.done = d.done) (hsup : d'.suppliers = d.suppliers) (hinit : d'.init = d.init)
    (hrunner : d'.runner = d.runner)
    (hcalls : ∀ (i : ℕ) (u : Tid), d.calls[i]? = some u → d'.calls[i]? = some u)
    (hanswers : ∀ i, i ∈ d'.answers.map Prod.fst →
      i ∈ d.answers.map Prod.fst ∨ d.calls[i]? = some t) : Later t d d' where
  calls := hcalls
  answers := hanswers
  suppliers _ hi := Or.inl (hsup ▸ hi)
  frozen h := ⟨hstate.trans h, hvalue, hsup⟩
  owned _ _ h := ⟨⟨hstate.trans h.1, hrunner.trans h.2⟩, hvalue, hdone, hsup, hinit⟩

lemma Later.refl (t : Tid) (d : Cell Tid V) : Later t d d :=
  .same rfl rfl rfl rfl rfl rfl (fun _ _ h => h) fun _ h => Or.inl h

/-- A call begins. -/
lemma Later.call (t : Tid) (d : Cell Tid V) : Later t d { d with calls := d.calls ++ [t] } :=
  .same rfl rfl rfl rfl rfl rfl
    (fun i u h => by
      rw [List.getElem?_append_left (List.getElem?_eq_some_iff.1 h).1]
      exact h)
    fun _ h => Or.inl h

/-- A call returns. -/
lemma Later.ret (hi : d.Calls t i) (a : Answer V) : Later t d (d.ret i a).2 :=
  .same rfl rfl rfl rfl rfl rfl (fun _ _ h => h) fun j hj => by
    rcases List.mem_append.1 (List.map_append ▸ hj) with hold | hnew
    · exact Or.inl hold
    · obtain rfl : j = i := by simpa using hnew
      exact Or.inr hi.1

/-- The thread that runs the closure, or is about to, goes on. -/
lemma Later.own (hown : d.state = incomplete ∨ d.Runs t) (hcalls : d'.calls = d.calls)
    (hanswers : d'.answers = d.answers)
    (hsup : ∀ i, i ∈ d'.suppliers → i ∈ d.suppliers ∨ d.calls[i]? = some t) : Later t d d' where
  calls i u h := hcalls ▸ h
  answers i h := Or.inl (hanswers ▸ h)
  suppliers := hsup
  frozen h := by
    rcases hown with hnew | hruns
    · exact absurd (h.symm.trans hnew) (by decide)
    · exact absurd (h.symm.trans hruns.1) (by decide)
  owned u hu h := by
    rcases hown with hnew | hruns
    · exact absurd (h.1.symm.trans hnew) (by decide)
    · exact absurd (Option.some.inj (h.2.symm.trans hruns.2)) hu

/-! ### The cell -/

lemma ok_new (k : Kind) : (Cell.new k : Cell Tid V).Ok k where
  states := Or.inl rfl
  new _ := ⟨rfl, ⟨rfl, rfl, rfl⟩, by rintro rfl; rfl⟩
  once := Nat.zero_le _
  ended h := absurd (show incomplete = complete from h) (by decide)
  filled h := absurd (show false = true from h) (by decide)
  known _ h := absurd h List.not_mem_nil
  answered _ h := absurd h List.not_mem_nil
  nodup := List.nodup_nil

/-- A call begins. -/
lemma Cell.Ok.call (h : d.Ok k) (t : Tid) : Cell.Ok k { d with calls := d.calls ++ [t] } where
  __ := h
  known i hi := by
    have hlt := h.known i hi
    rw [List.length_append]
    omega
  answered x hx := by
    obtain ⟨hlt, ha⟩ := h.answered x hx
    exact ⟨by rw [List.length_append]; omega, ha.later (.call t d)⟩

/-- A call returns. -/
lemma Cell.Ok.ret (h : d.Ok k) (hi : d.Calls t i) (ha : a.Ok d i) : Cell.Ok k (d.ret i a).2 where
  __ := h
  answered x hx := by
    rcases List.mem_append.1 hx with hold | hnew
    · obtain ⟨hlt, hx⟩ := h.answered x hold
      exact ⟨hlt, hx.later (.ret hi a)⟩
    · obtain rfl : x = (i, a) := by simpa using hnew
      exact ⟨(List.getElem?_eq_some_iff.1 hi.1).1, ha.later (.ret hi a)⟩
  nodup := by
    show (List.map Prod.fst (d.answers ++ [(i, a)])).Nodup
    rw [List.map_append]
    exact List.Nodup.append h.nodup (List.nodup_singleton _) (by simpa using hi.2)

/-- The closure begins, goes on or ends. -/
lemma Cell.Ok.run (h : d.Ok k) (hl : Later t d d') (hcalls : d'.calls = d.calls)
    (hanswers : d'.answers = d.answers) (hruns : d'.runs ≤ 1)
    (hstate : d'.state = running ∨ d'.state = complete ∧ d'.done = true)
    (hfilled : d'.done = true → k ≠ .once → ∃ i v, d'.FilledBy i v) : d'.Ok k where
  states := Or.inr (hstate.imp_right And.left)
  new hnew := by
    rcases hstate with hr | ⟨hc, -⟩
    · exact absurd (hnew.symm.trans hr) (by decide)
    · exact absurd (hnew.symm.trans hc) (by decide)
  once := hruns
  ended hc := by
    rcases hstate with hr | ⟨-, hd⟩
    · exact absurd (hc.symm.trans hr) (by decide)
    · exact hd
  filled := hfilled
  known i hi := by
    rw [hcalls]
    rcases hl.suppliers i hi with hold | hmine
    · exact h.known i hold
    · exact (List.getElem?_eq_some_iff.1 hmine).1
  answered x hx := by
    rw [hanswers] at hx
    rw [hcalls]
    exact (h.answered x hx).imp_right fun ha => ha.later hl
  nodup := hanswers ▸ h.nodup

/-! ### The steps -/

/-- What a step of `t` from `d` guarantees. -/
structure Kept (k : Kind) (t : Tid) (d : Cell Tid V) (r : Pc V × Cell Tid V) : Prop where
  cell : r.2.Ok k
  pc : r.1.Ok k t r.2
  later : Later t d r.2

lemma Kept.stay (h : d.Ok k) (hp : p.Ok k t d) : Kept k t d (p, d) := ⟨h, hp, .refl t d⟩

lemma Kept.ret (h : d.Ok k) (hi : d.Calls t i) (ha : a.Ok d i) :
    Kept k t d (d.ret i a) := ⟨h.ret hi ha, trivial, .ret hi a⟩

/-- The closure has filled the cell with `v`. -/
lemma Kept.fill (h : d.Ok k) {v : V} (hk : k.has job = true) (hi : d.Calls t i) (hruns : d.Runs t)
    (hempty : d.Unfilled)
    (hjob : (d.fill i (some v)).FilledBy i v → (d.fill i (some v)).Supplied i job) :
    Kept k t d (.store i job, d.fill i (some v)) := by
  have hfilled : (d.fill i (some v)).FilledBy i v :=
    ⟨rfl, by rw [Cell.fill, hempty.2.2, List.nil_append]⟩
  have hlater : Later t d (d.fill i (some v)) := .own (Or.inr hruns) rfl rfl fun j hj => by
    rcases List.mem_append.1 hj with hold | hnew
    · exact Or.inl hold
    · exact Or.inr (List.mem_singleton.1 hnew ▸ hi.1)
  refine ⟨h.run hlater rfl rfl h.once (Or.inl hruns.1) fun _ _ => ⟨i, v, hfilled⟩, ?_, hlater⟩
  exact ⟨hk, hi, hruns, rfl, hjob hfilled⟩

lemma Job.Fresh.settled (hfresh : job.Fresh) (hi : i ∉ d.suppliers) : d.Settled i job := by
  cases job with
  | set arg value => exact Or.inr ⟨hfresh, hi⟩
  | callOnce | getOrInit | force => trivial

lemma Cell.Supplied.settled (h : d.Supplied i job) : d.Settled i job := by
  cases job with
  | set arg value => exact Or.inl h
  | callOnce | getOrInit | force => trivial

/-- The closure begins. -/
lemma Cell.Ok.enter (h : d.Ok k) (hp : (Pc.body i job).Ok k t d) : Kept k t d (d.enter i job) := by
  obtain ⟨hk, hi, hfresh, hruns, hempty, hinit⟩ := hp
  cases job with
  | callOnce | getOrInit => exact .stay h ⟨hk, hi, hruns, hempty⟩
  | set arg value =>
    obtain rfl : value = some arg := hfresh
    exact .fill h (by cases k <;> exact hk) hi hruns hempty fun hf => ⟨rfl, hf⟩
  | force =>
    have hlazy : k = .lazyLock := by
      cases k with
      | lazyLock => rfl
      | once | onceLock => exact absurd hk Bool.false_ne_true
    have hlater : Later t d { d with init := false } :=
      .own (Or.inr hruns) rfl rfl fun j hj => Or.inl hj
    rw [Cell.enter, if_pos (hinit hlazy)]
    exact ⟨h.run hlater rfl rfl h.once (Or.inl hruns.1) h.filled, ⟨hk, hi, hruns, hempty⟩, hlater⟩

/-- A complete cell that is not a `Once` has a value. -/
lemma Cell.Ok.unwrap (h : d.Ok k) (hk : k ≠ .once) (hi : d.Calls t i) (hc : d.state = complete)
    {answer : V → Answer V} (hanswer : ∀ v, d.value = some v → (answer v).Ok d i) :
    Kept k t d (d.unwrap i answer) := by
  obtain ⟨j, v, hv, -⟩ := h.filled (h.ended hc) hk
  rw [Cell.unwrap, hv]
  exact .ret h hi (hanswer v hv)

/-- After `call_once`. -/
lemma Cell.Ok.leave (h : d.Ok k) (hp : (Pc.after i job).Ok k t d) : Kept k t d (d.leave i job) := by
  obtain ⟨hk, hi, hc, hset⟩ := hp
  have hkind : job ≠ .callOnce → k ≠ .once := by
    rintro hjob rfl
    cases job with
    | callOnce => exact hjob rfl
    | set | getOrInit | force => exact absurd hk Bool.false_ne_true
  cases job with
  | callOnce => exact .ret h hi hc
  | set arg value =>
    rcases hset with ⟨rfl, hf⟩ | ⟨rfl, hno⟩
    · exact .ret h hi ⟨hc, hf⟩
    · exact .ret h hi ⟨hc, rfl, hno⟩
  | getOrInit | force => exact h.unwrap (hkind (by simp)) hi hc fun v hv => ⟨hc, hv⟩

/-- An operation keeps everything. -/
lemma exec_kept (he : exec t p d = some r) (h : d.Ok k) (hp : p.Ok k t d) : Kept k t d r := by
  cases p with
  | load | spin =>
    obtain ⟨hk, hi, hfresh, hno⟩ := hp
    cases he
    refine .stay h ?_
    split
    · exact ⟨hk, hi, ‹_›, hfresh.settled hno⟩
    · exact ⟨hk, hi, hfresh, hno⟩
  | cas i job =>
    obtain ⟨hk, hi, hfresh, hno⟩ := hp
    cases he
    split
    · rename_i hnew
      obtain ⟨hruns, hempty, hinit⟩ := h.new hnew
      have hlater : Later t d { d with state := running, runs := d.runs + 1, runner := some t } :=
        .own (Or.inl hnew) rfl rfl fun j hj => Or.inl hj
      refine ⟨h.run hlater rfl rfl ?_ (Or.inl rfl) h.filled, ?_, hlater⟩
      · show d.runs + 1 ≤ 1
        rw [hruns]
      · exact ⟨hk, hi, hfresh, ⟨rfl, rfl⟩, hempty, hinit⟩
    · exact .stay h ⟨hk, hi, hfresh, hno⟩
  | body i job =>
    cases he
    exact h.enter hp
  | write i job v =>
    obtain ⟨hk, hi, hruns, hempty, hjob⟩ := hp
    cases he
    refine .fill h hk hi hruns hempty fun hf => ?_
    rcases hjob with rfl | rfl <;> exact ⟨v, hf⟩
  | store i job =>
    obtain ⟨hk, hi, hruns, hdone, hsup⟩ := hp
    cases he
    have hlater : Later t d { d with state := complete } :=
      .own (Or.inr hruns) rfl rfl fun j hj => Or.inl hj
    refine ⟨h.run hlater rfl rfl h.once (Or.inr ⟨rfl, hdone⟩) h.filled, ?_, hlater⟩
    exact ⟨hk, hi, rfl, (Cell.settled_congr rfl rfl).1 hsup.settled⟩
  | after i job =>
    cases he
    exact h.leave hp
  | getLoad i =>
    cases he
    split
    · exact .stay h ⟨hp.1, hp.2, ‹_›⟩
    · exact .ret h hp.2 trivial
  | getRead i =>
    obtain ⟨hk, hi, hc⟩ := hp
    cases he
    obtain ⟨j, v, hv, -⟩ := h.filled (h.ended hc) (by rw [hk]; decide)
    rw [hv]
    exact .ret h hi ⟨hc, hv⟩
  | idle | inside | returned | panicked => cases he

/-- The next call of `t`. -/
lemma Cell.Ok.calls_call (h : d.Ok k) (t : Tid) :
    Cell.Calls { d with calls := d.calls ++ [t] } t d.calls.length := by
  refine ⟨List.getElem?_concat_length, fun hmem => ?_⟩
  obtain ⟨x, hx, hfst⟩ := List.mem_map.1 hmem
  have hlt := (h.answered x hx).1
  omega

lemma Cell.Ok.begin (h : d.Ok k) (job : Job V) (hfresh : job.Fresh)
    (he : d.begin k t job = some r) : Kept k t d r := by
  rw [Cell.begin] at he
  split at he
  · rename_i hk
    cases he
    refine ⟨h.call t, ⟨hk, h.calls_call t, hfresh, fun hmem => ?_⟩, .call t d⟩
    exact lt_irrefl _ (h.known _ hmem)
  · cases he

/-- A choice keeps everything. -/
lemma choose_kept {x : Choice V} (he : choose k t x p d = some r) (h : d.Ok k) (hp : p.Ok k t d) :
    Kept k t d r := by
  cases p with
  | idle =>
    cases x with
    | callOnce => exact h.begin .callOnce trivial he
    | set arg => exact h.begin (.set arg (some arg)) rfl he
    | getOrInit => exact h.begin .getOrInit trivial he
    | force => exact h.begin .force trivial he
    | get =>
      rw [choose] at he
      split at he
      · cases he
        exact ⟨h.call t, ⟨‹_›, h.calls_call t⟩, .call t d⟩
      · cases he
    | finish | produce | resume => cases he
  | inside i job =>
    obtain ⟨hk, hi, hruns, hempty⟩ := hp
    cases x with
    | finish =>
      cases job with
      | callOnce =>
        cases he
        have honce : k = .once := by
          cases k with
          | once => rfl
          | onceLock | lazyLock => exact absurd hk Bool.false_ne_true
        have hlater : Later t d { d with done := true } :=
          .own (Or.inr hruns) rfl rfl fun j hj => Or.inl hj
        refine ⟨h.run hlater rfl rfl h.once (Or.inl hruns.1) ?_, ?_, hlater⟩
        · exact fun _ hne => absurd honce hne
        · exact ⟨hk, hi, hruns, rfl, trivial⟩
      | set | getOrInit | force => cases he
    | produce v =>
      cases job with
      | getOrInit =>
        cases he
        exact .stay h ⟨hk, hi, hruns, hempty, Or.inl rfl⟩
      | force =>
        cases he
        exact .stay h ⟨hk, hi, hruns, hempty, Or.inr rfl⟩
      | callOnce | set => cases he
    | callOnce | set | get | getOrInit | force | resume => cases he
  | returned a =>
    cases x with
    | resume =>
      cases he
      exact .stay h trivial
    | callOnce | set | get | getOrInit | force | finish | produce => cases he
  | load | cas | body | write | store | spin | after | getLoad | getRead | panicked =>
    cases x <;> cases he

/-! ### Runs -/

/-- What the threads know is kept. -/
lemma local_machine (k : Kind) (Tid V : Type*) :
    (machine k Tid V).Local (Cell.Ok k) (fun t p d => p.Ok k t d) where
  init := ok_new k
  start _ := trivial
  moves t p d p' d' hmove h hp := by
    have hkept : Kept k t d (p', d') := by
      cases hmove with
      | exec he => exact exec_kept he h hp
      | choose x he => exact choose_kept he h hp
    exact ⟨hkept.cell, hkept.pc, fun u q hut hq => hq.later hkept.later hut⟩
  waker t p d all a next hw := by cases hw
  awaken t p d a := a.elim

/-- The value that an answer carries. -/
def Answer.value? : Answer V → Option V
  | get r => r
  | getOrInit v => some v
  | force v => some v
  | _ => none

/-- An answer that says that the cell is initialized. -/
def Answer.Initialized : Answer V → Prop
  | get none => False
  | _ => True

variable [DecidableEq Tid]

/-- In all runs of any number of threads, `call_once` runs at most one closure for a cell.
No call of `call_once`, and no function that calls it, goes on before that closure has
ended; that is also true of a `get` that has a value.  All values that `get`, `get_or_init`
and `force` return are the value that the one call that filled the cell has stored; `set`
is that call if it returns `Ok`, and otherwise it returns its own argument.  Every call
returns at most once, and no `unwrap` panics. -/
theorem once_initializes (k : Kind) (s : Machine.State Tid (Pc V) (Cell Tid V))
    (h : (machine k Tid V).Reaches s) :
    s.shared.runs ≤ 1 ∧
    (∀ t i job, s.pc t = .after i job → s.shared.done = true) ∧
    (∀ x ∈ s.shared.answers, x.2.Initialized → s.shared.done = true) ∧
    (∀ x ∈ s.shared.answers, ∀ v, x.2.value? = some v → s.shared.value = some v) ∧
    (s.shared.done = true → k ≠ .once → ∃ i, s.shared.suppliers = [i]) ∧
    (∀ i arg, (i, Answer.set arg (.ok ())) ∈ s.shared.answers →
      s.shared.value = some arg ∧ s.shared.suppliers = [i]) ∧
    (∀ i arg v, (i, Answer.set arg (.error v)) ∈ s.shared.answers →
      v = arg ∧ i ∉ s.shared.suppliers ∧ s.shared.done = true) ∧
    (s.shared.answers.map Prod.fst).Nodup ∧
    ∀ t, s.pc t ≠ .panicked := by
  obtain ⟨hcell, hpc⟩ := (local_machine k Tid V).reaches h
  have hcomplete : ∀ x ∈ s.shared.answers, x.2.Initialized → s.shared.state = complete := by
    rintro ⟨i, a⟩ hx hinit
    have ha := (hcell.answered _ hx).2
    cases a with
    | callOnce => exact ha
    | set arg r => cases r <;> exact ha.1
    | get r =>
      cases r with
      | none => exact hinit.elim
      | some v => exact ha.1
    | getOrInit v => exact ha.1
    | force v => exact ha.1
  refine ⟨hcell.once, fun t i job ht => ?_, fun x hx hinit => hcell.ended (hcomplete x hx hinit),
    ?_, fun hdone hk => ?_, fun i arg hx => (hcell.answered _ hx).2.2, fun i arg v hx => ?_,
    hcell.nodup, fun t ht => ?_⟩
  · have hp := hpc t
    rw [ht] at hp
    exact hcell.ended hp.2.2.1
  · rintro ⟨i, a⟩ hx v hv
    have ha := (hcell.answered _ hx).2
    cases a with
    | callOnce | set => cases hv
    | get r =>
      obtain rfl : r = some v := hv
      exact ha.2
    | getOrInit w | force w =>
      obtain rfl : w = v := Option.some.inj hv
      exact ha.2
  · obtain ⟨i, v, hfilled⟩ := hcell.filled hdone hk
    exact ⟨i, hfilled.2⟩
  · obtain ⟨hc, hva, hno⟩ := (hcell.answered _ hx).2
    exact ⟨hva, hno, hcell.ended hc⟩
  · have hp := hpc t
    rw [ht] at hp
    exact hp

/-- Two `set`s and a `get_or_init` race: the first `set` fills the cell. -/
theorem once_initializes_race : ∃ s : Machine.State ℕ (Pc ℕ) (Cell ℕ ℕ),
    (machine .onceLock ℕ ℕ).Reaches s ∧ s.shared.answers.length = 3 ∧ s.shared.runs ≤ 1 ∧
    s.shared.value = some 7 ∧ s.shared.suppliers = [0] ∧ s.shared.done = true := by
  have hreach := (Machine.reaches_begin (M := machine .onceLock ℕ ℕ)).play
    [(0, some (.set 7)), (0, none), (0, none), (1, some .getOrInit), (1, none), (1, none),
      (0, none), (0, none), (0, none), (1, none), (1, none), (2, some (.set 9)), (2, none),
      (2, none)]
  obtain ⟨hruns, -, -, -, -, hset, hother, -, -⟩ := once_initializes .onceLock _ hreach
  have hfirst := hset 0 7 (.head _)
  have hsecond := hother 2 9 9 (.tail _ (.tail _ (.head _)))
  exact ⟨_, hreach, rfl, hruns, hfirst.1, hfirst.2, hsecond.2.2⟩

end PureStd.Sync.Once
