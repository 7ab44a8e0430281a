/-
What is written to standard output stands together, call by call.

A call of `print!`, or one on a `StdoutLock`, has the guard from its first byte to its last, so
nobody writes in between.  A call on a `Stdout` has it for one `write` only: its bytes stand
together if it makes no second one.

The moves of a thread are sorted once (`Change`).  The bytes, the history and the state of a call
are touched by the moves of its own thread only (`Frame`), and a call that is under the guard has
its bytes at the end of the output (`Ctl.Ok`).
-/
import PureStd.Lib.Blocks
import PureStd.Io.Stdout

namespace PureStd.Io.Stdout

open Sync Blocks

variable {Tid : Type*} {k : Ctl} {j : Job} {back : Job → Ctl} {i : ℕ} {v : View Tid Ctl Data}

/-- The number of fragments that are not empty. -/
def filled (frags : List (List UInt8)) : ℕ := frags.countP (· ≠ [])

lemma filled_cons (f : List UInt8) (fs : List (List UInt8)) :
    filled (f :: fs) = filled fs + if f = [] then 0 else 1 := by
  simp [filled, List.countP_cons]

/-! ### The call a thread is in -/

/-- The call that a thread is in. -/
def Ctl.job : Ctl → Option (Route × Job)
  | printLock id frags => some (.print, .new id frags)
  | body r j => some (r, j)
  | printUnlock j => some (.print, j)
  | printRet j => some (.print, j)
  | writeLock j => some (.handle, j)
  | writeFd j => some (.handle, j)
  | writeUnlock j => some (.handle, j)
  | _ => none

/-- `_print` has nothing left to write when it drops the guard. -/
def Ctl.Ended : Ctl → Prop
  | printUnlock j => j.rest = [] ∧ j.frags = []
  | printRet j => j.rest = [] ∧ j.frags = []
  | _ => True

/-- A call that has the guard until it ends, and has written. -/
def Ctl.Opened (k : Ctl) (j : Job) : Prop :=
  ∃ r, k.job = some (r, j) ∧ r ≠ .handle ∧ k.locked = true ∧ j.written ≠ []

/-- Such a thread is not on its way into the guard. -/
lemma Ctl.Opened.landing (h : k.Opened j) : k.landing = false := by
  obtain ⟨r, hjob, hr, hlocked, hwritten⟩ := h
  cases k with
  | body r' j' =>
    obtain ⟨rfl, rfl⟩ := by simpa [Ctl.job] using hjob
    cases r' <;> simp_all [Ctl.landing]
  | writeFd j' =>
    obtain ⟨rfl, -⟩ := by simpa [Ctl.job] using hjob
    exact absurd rfl hr
  | holding => exact absurd hjob (by simp [Ctl.job])
  | _ => rfl

/-- A thread that writes is in a call, before and after. -/
lemma writing_job (h : k.writing = some (j, back)) :
    ∃ r, k.job = some (r, j) ∧ (∀ j', (back j').job = some (r, j')) ∧
      ∀ j', (back j').Ended := by
  rcases writing_cases h with ⟨rfl, rfl⟩ | ⟨rfl, rfl⟩ | ⟨rfl, rfl⟩ <;>
    exact ⟨_, rfl, fun _ => rfl, fun _ => trivial⟩

/-! ### What a move can do -/

/-- The moves of a thread. -/
inductive Change : Ctl → Data → Ctl → Data → Prop
  /-- Nothing is seen of it. -/
  | quiet {k k' : Ctl} {d : Data} (hjob : k'.job = k.job)
      (hopen : ∀ j, k'.Opened j → k.Opened j) : Change k d k' d
  /-- The next fragment. -/
  | next {r : Route} {j : Job} {f : List UInt8} {fs : List (List UInt8)} {d : Data}
      (hrest : j.rest = []) (hfrags : j.frags = f :: fs) :
      Change (.body r j) d (.body r { j with rest := f, frags := fs }) d
  /-- A call begins. -/
  | begin {k k' : Ctl} {d : Data} {r : Route} {frags : List (List UInt8)} (hk : k.job = none)
      (hk' : k'.job = some (r, .new d.calls.length frags)) : Change k d k' (d.begin r frags)
  /-- The kernel takes `n` bytes. -/
  | put {k : Ctl} {d : Data} {j : Job} {back : Job → Ctl} {n : ℕ}
      (hw : k.writing = some (j, back)) (hpos : 1 ≤ n) (hle : n ≤ j.rest.length) :
      Change k d (back (j.take n)) (d.put j n)
  /-- A call ends. -/
  | finish {k k' : Ctl} {d : Data} {r : Route} {j : Job} (hk : k.job = some (r, j))
      (hend : j.rest = [] ∧ j.frags = []) (hk' : k'.job = none) : Change k d k' (d.finish j)

section Moves

variable {k' : Ctl} {d d' : Data}

/-- A move that keeps the call and does not take the guard. -/
lemma Change.stay (hjob : k'.job = k.job) (hlocked : k'.locked = true → k.locked = true) :
    Change k d k' d := by
  refine .quiet hjob ?_
  rintro j ⟨r, hj, hr, hl, hw⟩
  exact ⟨r, hjob.symm.trans hj, hr, hlocked hl, hw⟩

lemma exec_change (h : exec k d = some (k', d')) (hend : k.Ended) :
    Change k d k' d' ∧ k'.Ended := by
  cases k with
  | body r j =>
    simp only [exec] at h
    split at h
    · rename_i hrest
      split at h
      · rename_i f fs hfrags
        obtain ⟨rfl, rfl⟩ := by simpa using h
        exact ⟨.next hrest hfrags, trivial⟩
      · rename_i hfrags
        cases r with
        | print =>
          obtain ⟨rfl, rfl⟩ := by simpa using h
          exact ⟨.stay rfl fun _ => rfl, hrest, hfrags⟩
        | handle | locked =>
          obtain ⟨rfl, rfl⟩ := by simpa using h
          exact ⟨.finish rfl ⟨hrest, hfrags⟩ rfl, trivial⟩
    · split at h
      · rename_i hr
        obtain ⟨rfl, rfl⟩ := by simpa using h
        refine ⟨.stay (by rw [hr]; rfl) fun hl => absurd hl (by simp [Ctl.locked]), trivial⟩
      · exact absurd h (by simp)
  | printRet j =>
    obtain ⟨rfl, rfl⟩ := by simpa [exec] using h
    exact ⟨.finish rfl hend rfl, trivial⟩
  | _ => exact absurd h (by simp [exec])

lemma choose_change {x : Choice} (h : choose x k d = some (k', d')) (hend : k.Ended) :
    Change k d k' d' ∧ k'.Ended := by
  cases x with
  | call r frags =>
    cases r <;> cases k <;>
      simp only [choose, Option.some.injEq, Prod.mk.injEq, reduceCtorEq] at h
    all_goals
      obtain ⟨rfl, rfl⟩ := h
      exact ⟨.begin rfl rfl, trivial⟩
  | lock | drop =>
    cases k <;> simp only [choose, Option.some.injEq, Prod.mk.injEq, reduceCtorEq] at h
    obtain ⟨rfl, rfl⟩ := h
    exact ⟨.stay rfl fun hl => hl, trivial⟩
  | wrote n =>
    simp only [choose] at h
    split at h
    · rename_i j back hw
      obtain ⟨r, -, -, hended⟩ := writing_job hw
      split at h
      · rename_i hn
        obtain ⟨rfl, rfl⟩ := by simpa using h
        exact ⟨.put hw hn.1 hn.2, hended _⟩
      · exact absurd h (by simp)
    · exact absurd h (by simp)
  | interrupted =>
    simp only [choose] at h
    split at h
    · split at h
      · obtain ⟨rfl, rfl⟩ := by simpa using h
        exact ⟨.stay rfl fun hl => hl, hend⟩
      · exact absurd h (by simp)
    · exact absurd h (by simp)

lemma call_change {c : Call Unit} (h : call k = some (c, k')) (hend : k.Ended) :
    Change k d k' d ∧ k'.Ended := by
  cases k <;> simp only [call, Option.some.injEq, Prod.mk.injEq, reduceCtorEq] at h
  all_goals obtain ⟨rfl, rfl⟩ := h
  case printLock id frags =>
    -- the guard is taken, but nothing is written yet
    refine ⟨.quiet rfl ?_, trivial⟩
    rintro j ⟨r, hj, -, -, hw⟩
    obtain ⟨-, rfl⟩ := by simpa [Ctl.job] using hj
    exact absurd rfl hw
  case writeLock j =>
    refine ⟨.quiet rfl ?_, trivial⟩
    rintro j ⟨r, hj, hr, -, -⟩
    obtain ⟨rfl, -⟩ := by simpa [Ctl.job] using hj
    exact absurd rfl hr
  case lock =>
    refine ⟨.quiet rfl ?_, trivial⟩
    rintro j ⟨r, hj, -⟩
    exact absurd hj (by simp [Ctl.job])
  case printUnlock j => exact ⟨.stay rfl fun _ => rfl, hend⟩
  all_goals exact ⟨.stay rfl fun _ => rfl, trivial⟩

lemma moves_change (h : program.Moves k d k' d') (hend : k.Ended) :
    Change k d k' d' ∧ k'.Ended := by
  cases h with
  | exec h => exact exec_change h hend
  | choose x h => exact choose_change h hend
  | call h => exact call_change h hend

end Moves

/-! ### The invariant -/

/-- The calls that make at most one `write` to the descriptor, if they do not have the guard from
beginning to end. -/
def Data.AtOnce (d : Data) (i : ℕ) (c : Printed) : Prop :=
  c.route = .handle → filled c.frags ≤ 1 ∧ i ∉ d.short

/-- The output and the history. -/
structure Data.Ok (d : Data) : Prop where
  known : ∀ e ∈ d.out, e.1 < d.calls.length
  part : ∀ i c, d.calls[i]? = some c → itemsOf i d.out <+: c.frags.flatten
  done : ∀ i ∈ d.done, ∃ c, d.calls[i]? = some c ∧ itemsOf i d.out = c.frags.flatten
  block : ∀ i c, d.calls[i]? = some c → d.AtOnce i c → Block i d.out

/-- What is known of a call in progress. -/
structure Job.Ok (d : Data) (r : Route) (j : Job) (c : Printed) : Prop where
  call : d.calls[j.id]? = some c
  route : c.route = r
  items : itemsOf j.id d.out = j.written
  text : c.frags.flatten = j.written ++ j.rest ++ j.frags.flatten
  pieces : j.id ∉ d.short → filled (j.written :: j.rest :: j.frags) ≤ filled c.frags
  unfinished : j.id ∉ d.done

/-- What is known of a thread. -/
structure Ctl.Ok (d : Data) (k : Ctl) : Prop where
  ended : k.Ended
  job : ∀ r j, k.job = some (r, j) → ∃ c, j.Ok d r c
  atEnd : ∀ j, k.Opened j → AtEnd j.id d.out

/-- The number of the call that a thread is in. -/
def Ctl.id (k : Ctl) : Option ℕ := k.job.map fun p => p.2.id

/-- The number of the call that a thread is in, or would make. -/
def Ctl.number (k : Ctl) (d : Data) : ℕ := k.id.getD d.calls.length

lemma number_of_job {r : Route} (h : k.job = some (r, j)) (d : Data) : k.number d = j.id := by
  rw [Ctl.number, Ctl.id, h]
  rfl

/-- A move of call `id` leaves the other calls alone. -/
structure Frame (id : ℕ) (d d' : Data) : Prop where
  calls : ∀ (i : ℕ) c, d.calls[i]? = some c → d'.calls[i]? = some c
  items : ∀ i, i ≠ id → itemsOf i d'.out = itemsOf i d.out
  done : ∀ i, i ≠ id → i ∈ d'.done → i ∈ d.done
  short : ∀ i ∈ d.short, i ∈ d'.short

section Step

variable {k' : Ctl} {d d' : Data} {r : Route} {c : Printed} {n : ℕ}

lemma Frame.refl (id : ℕ) (d : Data) : Frame id d d :=
  ⟨fun _ _ h => h, fun _ _ => rfl, fun _ _ h => h, fun _ h => h⟩

lemma Frame.job {id : ℕ} (hframe : Frame id d d') (hne : j.id ≠ id) (h : j.Ok d r c) :
    j.Ok d' r c where
  call := hframe.calls _ _ h.call
  route := h.route
  items := (hframe.items _ hne).trans h.items
  text := h.text
  pieces hs := h.pieces fun hmem => hs (hframe.short _ hmem)
  unfinished hmem := h.unfinished (hframe.done _ hne hmem)

/-- What a move keeps. -/
structure Moved (k : Ctl) (d : Data) (k' : Ctl) (d' : Data) : Prop where
  data : d'.Ok
  frame : Frame (k.number d) d d'
  job : ∀ r j, k'.job = some (r, j) → j.id = k.number d ∧ ∃ c, j.Ok d' r c
  atEnd : ∀ j, k'.Opened j → AtEnd j.id d'.out
  -- only a thread with the guard writes
  out : k.locked = false → d'.out = d.out

/-! #### A call begins -/

lemma getElem?_begin {frags : List (List UInt8)} (h : (d.begin r frags).calls[i]? = some c) :
    d.calls[i]? = some c ∨ i = d.calls.length ∧ c = ⟨r, frags⟩ := by
  rw [Data.begin, List.getElem?_append] at h
  split at h
  · exact Or.inl h
  · rename_i hi
    obtain ⟨hlt, rfl⟩ := List.getElem?_eq_some_iff.1 h
    have hi' : i = d.calls.length := by
      simp only [List.length_singleton] at hlt
      omega
    exact Or.inr ⟨hi', by simp [hi']⟩

/-- Nothing is written of a call that was not made. -/
lemma Data.Ok.itemsOf_new (h : d.Ok) : itemsOf d.calls.length d.out = [] :=
  itemsOf_eq_nil.2 fun e he => (h.known e he).ne

lemma moved_begin {frags : List (List UInt8)} (hd : d.Ok) (hk : k.job = none)
    (hk' : k'.job = some (r, .new d.calls.length frags)) : Moved k d k' (d.begin r frags) := by
  have hnumber : k.number d = d.calls.length := by
    rw [Ctl.number, Ctl.id, hk]
    rfl
  have hcalls : ∀ (i : ℕ) c, d.calls[i]? = some c → (d.begin r frags).calls[i]? = some c := by
    intro i c hc
    rw [Data.begin, List.getElem?_append_left (List.getElem?_eq_some_iff.1 hc).1]
    exact hc
  have hnew : (d.begin r frags).calls[d.calls.length]? = some ⟨r, frags⟩ := by
    simp [Data.begin]
  have hfresh : d.calls.length ∉ d.done := by
    intro hmem
    obtain ⟨c, hc, -⟩ := hd.done _ hmem
    exact absurd (List.getElem?_eq_some_iff.1 hc).1 (lt_irrefl _)
  refine ⟨⟨?_, ?_, ?_, ?_⟩, { Frame.refl _ d with calls := hcalls }, ?_, ?_, fun _ => rfl⟩
  · intro e he
    simpa [Data.begin] using (hd.known e he).trans (Nat.lt_succ_self _)
  · intro i c hc
    rcases getElem?_begin hc with hc | ⟨rfl, -⟩
    · exact hd.part i c hc
    · change itemsOf d.calls.length d.out <+: _
      rw [hd.itemsOf_new]
      exact List.nil_prefix
  · intro i hi
    obtain ⟨c, hc, hitems⟩ := hd.done i hi
    exact ⟨c, hcalls i c hc, hitems⟩
  · intro i c hc honce
    rcases getElem?_begin hc with hc | ⟨rfl, -⟩
    · exact hd.block i c hc honce
    · exact ⟨d.out, [], [], by simp [Data.begin], by simp,
        by simpa using itemsOf_eq_nil.1 hd.itemsOf_new⟩
  · intro r' j' hj
    obtain ⟨rfl, rfl⟩ := by simpa using hk'.symm.trans hj
    refine ⟨hnumber.symm, ⟨r, frags⟩, hnew, rfl, hd.itemsOf_new, by simp [Job.new],
      fun _ => ?_, hfresh⟩
    simp [Job.new, filled_cons]
  · rintro j' ⟨r', hj, -, -, hw⟩
    obtain ⟨-, rfl⟩ := by simpa using hk'.symm.trans hj
    exact absurd rfl hw

/-! #### The kernel takes bytes -/

lemma itemsOf_put_self (d : Data) (j : Job) (n : ℕ) :
    itemsOf j.id (d.put j n).out = itemsOf j.id d.out ++ j.rest.take n := by
  rw [Data.put, itemsOf_append, itemsOf_map_self]

lemma itemsOf_put_of_ne (d : Data) (j : Job) (n : ℕ) (h : i ≠ j.id) :
    itemsOf i (d.put j n).out = itemsOf i d.out := by
  rw [Data.put, itemsOf_append, itemsOf_map_of_ne h.symm, List.append_nil]

lemma frame_put (d : Data) (j : Job) (n : ℕ) : Frame j.id d (d.put j n) where
  calls _ _ h := h
  items _ hi := itemsOf_put_of_ne d j n hi
  done _ _ h := h
  short i hi := by
    rw [Data.put]
    dsimp only
    split
    · exact List.mem_cons_of_mem _ hi
    · exact hi

lemma mem_put {e : ℕ × UInt8} (h : e ∈ (j.rest.take n).map (j.id, ·)) : e.1 = j.id := by
  obtain ⟨b, -, rfl⟩ := List.mem_map.1 h
  rfl

/-- Bytes that stand at the end, or are the first, are at the end after the `write`. -/
lemma atEnd_put (hok : j.Ok d r c) (h : j.written ≠ [] → AtEnd j.id d.out) :
    AtEnd j.id (d.put j n).out := by
  by_cases hw : j.written = []
  · have hnone := itemsOf_eq_nil.1 (hok.items.trans hw)
    exact atEnd_append hnone fun e he => mem_put he
  · exact (h hw).append fun e he => mem_put he

/-- A call that does not make a second `write` has not made the first. -/
lemma Job.Ok.written_eq_nil (hok : j.Ok d r c) (hrest : j.rest ≠ []) (hone : filled c.frags ≤ 1)
    (hshort : j.id ∉ d.short) : j.written = [] := by
  have hpieces := hok.pieces hshort
  by_contra hw
  rw [filled_cons, filled_cons, if_neg hw, if_neg hrest] at hpieces
  omega

/-- The kernel takes bytes only where there are some. -/
lemma rest_ne_nil (hpos : 1 ≤ n) (hle : n ≤ j.rest.length) : j.rest ≠ [] :=
  List.length_pos_iff.1 (hpos.trans hle)

/-- A `write` that was not short has taken the whole fragment. -/
lemma not_short_put (hle : n ≤ j.rest.length) (h : j.id ∉ (d.put j n).short) :
    n = j.rest.length ∧ j.id ∉ d.short := by
  rw [Data.put] at h
  dsimp only at h
  split at h
  · exact absurd List.mem_cons_self h
  · exact ⟨by omega, h⟩

lemma jobOk_put (hok : j.Ok d r c) (hpos : 1 ≤ n) (hle : n ≤ j.rest.length) :
    (j.take n).Ok (d.put j n) r c where
  call := hok.call
  route := hok.route
  items := by
    change itemsOf j.id _ = j.written ++ j.rest.take n
    rw [itemsOf_put_self, hok.items]
  text := by
    change _ = j.written ++ j.rest.take n ++ j.rest.drop n ++ j.frags.flatten
    rw [List.append_assoc j.written, List.take_append_drop]
    exact hok.text
  pieces hs := by
    -- the fragment that was left is now among what is written
    have hrest := rest_ne_nil hpos hle
    obtain ⟨rfl, hshort⟩ := not_short_put hle hs
    have hpieces := hok.pieces hshort
    rw [filled_cons, filled_cons, if_neg hrest] at hpieces
    rw [filled_cons, filled_cons]
    simp only [Job.take, List.take_length, List.drop_length, List.append_eq_nil_iff, hrest,
      and_false, if_false, if_true]
    omega
  unfinished := hok.unfinished

/-- The bytes of a call that writes are at the end, if it has the guard or writes once. -/
lemma writing_atEnd (hw : k.writing = some (j, back)) (hk : k.job = some (r, j)) (hctl : k.Ok d)
    (hok : j.Ok d r c) (hpos : 1 ≤ n) (hle : n ≤ j.rest.length)
    (honce : (d.put j n).AtOnce j.id c) : AtEnd j.id (d.put j n).out := by
  refine atEnd_put hok fun hwritten => ?_
  by_cases hr : r = .handle
  · obtain ⟨hone, hs⟩ := honce (hok.route.trans hr)
    have hnil := hok.written_eq_nil (rest_ne_nil hpos hle) hone (not_short_put hle hs).2
    exact absurd hnil hwritten
  · exact hctl.atEnd j ⟨r, hk, hr, (writing_locked hw).1, hwritten⟩

lemma moved_put (hd : d.Ok) (hctl : k.Ok d) (hw : k.writing = some (j, back)) (hpos : 1 ≤ n)
    (hle : n ≤ j.rest.length) : Moved k d (back (j.take n)) (d.put j n) := by
  obtain ⟨r, hk, hback, -⟩ := writing_job hw
  obtain ⟨c, hok⟩ := hctl.job r j hk
  have hok' := jobOk_put hok hpos hle
  have hnumber := number_of_job hk d
  refine ⟨⟨?_, ?_, ?_, ?_⟩, hnumber ▸ frame_put d j n, ?_, ?_, ?_⟩
  · intro e he
    rcases List.mem_append.1 he with he | he
    · exact hd.known e he
    · rw [mem_put he]
      exact (List.getElem?_eq_some_iff.1 hok.call).1
  · intro i c' hc
    by_cases hi : i = j.id
    · subst hi
      obtain rfl := Option.some.inj (hok.call.symm.trans hc)
      change itemsOf (j.take n).id _ <+: _
      rw [hok'.items, hok'.text, List.append_assoc]
      exact List.prefix_append _ _
    · rw [itemsOf_put_of_ne d j n hi]
      exact hd.part i c' hc
  · intro i hi
    have hne : i ≠ j.id := by
      rintro rfl
      exact hok.unfinished hi
    obtain ⟨c', hc, hitems⟩ := hd.done i hi
    exact ⟨c', hc, (itemsOf_put_of_ne d j n hne).trans hitems⟩
  · intro i c' hc honce
    by_cases hi : i = j.id
    · subst hi
      obtain rfl := Option.some.inj (hok.call.symm.trans hc)
      exact (writing_atEnd hw hk hctl hok hpos hle honce).block
    · refine Block.append (hd.block i c' hc fun hr => ?_) fun e he => ?_
      · obtain ⟨hone, hs⟩ := honce hr
        exact ⟨hone, fun hmem => hs ((frame_put d j n).short i hmem)⟩
      · rw [mem_put he]
        exact Ne.symm hi
  · intro r' j' hj
    obtain ⟨rfl, rfl⟩ := by simpa using (hback _).symm.trans hj
    exact ⟨hnumber.symm, c, hok'⟩
  · rintro j' ⟨r', hj, hr, -, -⟩
    obtain ⟨rfl, rfl⟩ := by simpa using (hback _).symm.trans hj
    exact writing_atEnd hw hk hctl hok hpos hle fun hroute =>
      absurd (hok.route.symm.trans hroute) hr
  · intro hl
    exact absurd ((writing_locked hw).1.symm.trans hl) (by simp)

/-! #### A call ends -/

lemma moved_finish (hd : d.Ok) (hctl : k.Ok d) (hk : k.job = some (r, j))
    (hend : j.rest = [] ∧ j.frags = []) (hk' : k'.job = none) : Moved k d k' (d.finish j) := by
  obtain ⟨c, hok⟩ := hctl.job r j hk
  have hall : itemsOf j.id d.out = c.frags.flatten := by
    rw [hok.text, hok.items, hend.1, hend.2]
    simp
  have hnone (r' : Route) (j' : Job) : k'.job ≠ some (r', j') := by simp [hk']
  refine ⟨{ hd with done := List.forall_mem_cons.2 ⟨⟨c, hok.call, hall⟩, hd.done⟩ },
    { Frame.refl _ d with done := fun i hi hmem => ?_ }, fun r' j' hj => absurd hj (hnone r' j'),
    ?_, fun _ => rfl⟩
  · rw [number_of_job hk] at hi
    exact (List.mem_cons.1 hmem).resolve_left hi
  · rintro j' ⟨r', hj, -⟩
    exact absurd hj (hnone r' j')

/-! #### Every move -/

lemma change_moved (h : Change k d k' d') (hd : d.Ok) (hctl : k.Ok d) : Moved k d k' d' := by
  cases h with
  | quiet hjob hopen =>
    refine ⟨hd, .refl _ _, fun r j hj => ?_, fun j hj => hctl.atEnd j (hopen j hj), fun _ => rfl⟩
    have hj := hjob.symm.trans hj
    exact ⟨(number_of_job hj d).symm, hctl.job r j hj⟩
  | @next r j f fs d hrest hfrags =>
    obtain ⟨c, hok⟩ := hctl.job r j rfl
    refine ⟨hd, .refl _ _, ?_, ?_, fun _ => rfl⟩
    · intro r' j' hj
      obtain ⟨rfl, rfl⟩ := by simpa [Ctl.job] using hj
      refine ⟨rfl, c, { hok with text := ?_, pieces := fun hs => ?_ }⟩
      · simpa [hrest, hfrags] using hok.text
      · simpa [hrest, hfrags, filled_cons] using hok.pieces hs
    · rintro j' ⟨r', hj, hr, hl, hw⟩
      obtain ⟨rfl, rfl⟩ := by simpa [Ctl.job] using hj
      refine hctl.atEnd j ⟨r, rfl, hr, ?_, hw⟩
      cases r <;> exact hl
  | begin hk hk' => exact moved_begin hd hk hk'
  | put hw hpos hle => exact moved_put hd hctl hw hpos hle
  | finish hk hend hk' => exact moved_finish hd hctl hk hend hk'

end Step

/-! ### Runs -/

/-- The invariant of the output and of all threads. -/
structure Inv (v : View Tid Ctl Data) : Prop where
  data : v.data.Ok
  ctl : ∀ t, (v.ctl t).Ok v.data
  apart : Distinct fun t => (v.ctl t).id

/-- The calls that are made have numbers below that of the next one. -/
lemma Inv.id_lt (hv : Inv v) {t : Tid} (h : (v.ctl t).id = some i) : i < v.data.calls.length := by
  obtain ⟨⟨r, j⟩, hj, rfl⟩ := Option.map_eq_some_iff.1 h
  obtain ⟨c, hok⟩ := (hv.ctl t).job r j hj
  exact (List.getElem?_eq_some_iff.1 hok.call).1

/-- The number of the call that moves is its own, or that of no call. -/
lemma Inv.number (hv : Inv v) (t : Tid) :
    (v.ctl t).id = some ((v.ctl t).number v.data) ∨
      ∀ u, (v.ctl u).id ≠ some ((v.ctl t).number v.data) := by
  rw [Ctl.number]
  cases (v.ctl t).id with
  | none => exact Or.inr fun u hu => lt_irrefl _ (hv.id_lt hu)
  | some i => exact Or.inl rfl

lemma Inv.number_ne (hv : Inv v) {t u : Tid} (hut : u ≠ t) {r : Route}
    (hj : (v.ctl u).job = some (r, j)) : j.id ≠ (v.ctl t).number v.data := by
  intro heq
  have hu : (v.ctl u).id = some ((v.ctl t).number v.data) := by rw [Ctl.id, hj, ← heq]; rfl
  rcases hv.number t with ht | hfree
  · exact hut (hv.apart u t _ hu ht)
  · exact hfree u hu

variable [DecidableEq Tid]

lemma viewStep_inv {v' : View Tid Ctl Data} (h : discipline.ViewStep v v') (hv : Inv v) :
    Inv v' := by
  cases h with
  | @move t k d h halone =>
    obtain ⟨hchange, hended⟩ := moves_change h (hv.ctl t).ended
    have hmoved := change_moved hchange hv.data (hv.ctl t)
    -- a thread that has written under the guard is not passed by another one
    have hout : ∀ u, u ≠ t → ∀ j, (v.ctl u).Opened j → d.out = v.data.out := by
      intro u hut j hopen
      refine hmoved.out (eq_false_of_ne_true fun ht => ?_)
      obtain ⟨r, -, -, hlocked, -⟩ := id hopen
      exact absurd ((halone ht u hut hlocked).symm.trans hopen.landing) (by simp)
    refine ⟨hmoved.data, ?_, hv.apart.update_comp fun i hi => ?_⟩
    · refine (Function.forall_update_iff v.ctl fun _ k => k.Ok d).2
        ⟨⟨hended, fun r j hj => (hmoved.job r j hj).2, hmoved.atEnd⟩, fun u hut => ?_⟩
      refine ⟨(hv.ctl u).ended, fun r j hj => ?_, fun j hj => ?_⟩
      · obtain ⟨c, hok⟩ := (hv.ctl u).job r j hj
        exact ⟨c, hmoved.frame.job (hv.number_ne hut hj) hok⟩
      · rw [hout u hut j hj]
        exact (hv.ctl u).atEnd j hj
    · obtain ⟨⟨r, j⟩, hj, rfl⟩ := Option.map_eq_some_iff.1 hi
      rw [(hmoved.job r j hj).1]
      exact hv.number t

lemma reaches_inv {s : State Tid Unit Ctl Data} (h : program.client.Reaches s) :
    Inv s.view := by
  refine Reachable.induct (P := Inv) (discipline.reaches_view h).2 ?_
    fun _ _ _ hv hstep => viewStep_inv hstep hv
  rintro v rfl
  refine ⟨⟨?_, ?_, ?_, ?_⟩, fun t => ⟨trivial, ?_, ?_⟩, ?_⟩
  · exact fun _ he => absurd he List.not_mem_nil
  · exact fun _ _ hc => absurd hc (by simp [program])
  · exact fun _ hi => absurd hi List.not_mem_nil
  · exact fun _ _ hc => absurd hc (by simp [program])
  · exact fun _ _ hj => absurd hj (by simp [program, Ctl.job])
  · rintro _ ⟨_, hj, -⟩
    exact absurd hj (by simp [program, Ctl.job])
  · exact fun _ _ _ hi => absurd hi (by simp [program, Ctl.id, Ctl.job])

/-- In every state of every run: every byte of the output belongs to a call; of every call a
beginning of its message has been written, in order, and all of it if the call has returned; and
the bytes of a call stand together if it is `print!` or `println!`, if it was made on a
`StdoutLock`, or if its message has at most one fragment that is not empty and the kernel never
took a part of it only. -/
theorem calls_contiguous {s : State Tid Unit Ctl Data} (h : program.client.Reaches s) :
    (∀ e ∈ s.data.out, e.1 < s.data.calls.length) ∧
    ∀ i c, s.data.calls[i]? = some c →
      itemsOf i s.data.out <+: c.frags.flatten ∧
      (i ∈ s.data.done → itemsOf i s.data.out = c.frags.flatten) ∧
      ((c.route = .handle → filled c.frags ≤ 1 ∧ i ∉ s.data.short) → Block i s.data.out) := by
  have hdata : s.data.Ok := (reaches_inv h).data
  refine ⟨hdata.known, fun i c hc => ⟨hdata.part i c hc, fun hi => ?_, hdata.block i c hc⟩⟩
  obtain ⟨c', hc', hitems⟩ := hdata.done i hi
  obtain rfl := Option.some.inj (hc.symm.trans hc')
  exact hitems

/-- One `write` of a call on a `Stdout` in which the kernel takes one byte: from `write_all` to
`write_all`, with the guard taken and dropped. -/
def writeOne (t : ℕ) : List (ℕ × Option Choice) :=
  List.replicate 3 (t, none) ++ (t, some (.wrote 1)) :: List.replicate 2 (t, none)

/-- `print!` of one fragment of one byte. -/
def printOne (t : ℕ) (b : UInt8) : List (ℕ × Option Choice) :=
  (t, some (.call .print [[b]])) :: List.replicate 3 (t, none) ++ (t, some (.wrote 1)) ::
    List.replicate 4 (t, none)

/-- Thread 0 writes the fragments `a` and `b` to a `Stdout`, or passes `ab` to `write_all` and the
kernel takes one byte at a time; thread 1 prints `c` between the two. -/
def splitRun (frags : List (List UInt8)) : List (ℕ × Option Choice) :=
  (0, some (.call .handle frags)) :: (0, none) :: writeOne 0 ++ printOne 1 99 ++
    List.replicate (frags.length - 1) (0, none) ++ writeOne 0 ++ [(0, none)]

/-- Both calls return, all is written, and the bytes of the first do not stand together. -/
theorem stdout_split :
    (∃ s : State ℕ Unit Ctl Data, program.client.Reaches s ∧
      s.data.calls = [⟨.handle, [[97], [98]]⟩, ⟨.print, [[99]]⟩] ∧ s.data.done = [0, 1] ∧
      s.data.short = [] ∧ s.data.out = [(0, 97), (1, 99), (0, 98)] ∧ ¬ Block 0 s.data.out) ∧
    ∃ s : State ℕ Unit Ctl Data, program.client.Reaches s ∧
      s.data.calls = [⟨.handle, [[97, 98]]⟩, ⟨.print, [[99]]⟩] ∧ s.data.done = [0, 1] ∧
      s.data.out = [(0, 97), (1, 99), (0, 98)] ∧ ¬ Block 0 s.data.out :=
  ⟨⟨_, reaches_play reaches_begin (splitRun [[97], [98]]), rfl, rfl, rfl, rfl, by decide⟩,
    ⟨_, reaches_play reaches_begin (splitRun [[97, 98]]), rfl, rfl, rfl, by decide⟩⟩

/-- In the same run the byte of thread 1 stands together, and all of it is there. -/
theorem calls_contiguous_print : ∃ s : State ℕ Unit Ctl Data, program.client.Reaches s ∧
    s.data.calls[1]? = some ⟨.print, [[99]]⟩ ∧ 1 ∈ s.data.done ∧
      itemsOf 1 s.data.out = [99] ∧ Block 1 s.data.out := by
  have hbegin : program.client.Reaches (program.begin : State ℕ Unit Ctl Data) := reaches_begin
  have hreach := reaches_play hbegin (splitRun [[97], [98]])
  obtain ⟨-, hdone, hblock⟩ := (calls_contiguous hreach).2 1 ⟨.print, [[99]]⟩ rfl
  have hmem : 1 ∈ (program.play program.begin (splitRun [[97], [98]]) :
    State ℕ Unit Ctl Data).data.done := by decide
  exact ⟨_, hreach, rfl, hmem, hdone hmem, hblock fun h => absurd h (by decide)⟩

end PureStd.Io.Stdout
