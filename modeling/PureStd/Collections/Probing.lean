/-
Linear probing.

The two loops of the table, `probe` and the re-insertion loop of `grow_to`, walk the
slots cyclically from the hash position on.  This file proves what they return on a
table in which every entry can be reached from its hash position without crossing an
empty slot (`WellPlaced`), and that they end as soon as the table has an empty slot.

Nothing is assumed here about the hash function or the key comparison.
-/
import PureStd.Collections.HashMap
import PureStd.Lib.CyclicRun

namespace PureStd.Collections

open CyclicRun

variable {S K V Q : Type} {slots : List (Slot K V)} {i n k' : ℕ} {s : Slot K V} {w : PtrWidth}

/-! ### What the slots hold -/

/-- The hash, key and value of a full slot. -/
def Slot.record : Slot K V → Option (UInt64 × K × V)
  | .full h k v => some (h, k, v)
  | _ => none

/-- The contents of the full slots, in slot order. -/
def records (slots : List (Slot K V)) : List (UInt64 × K × V) := slots.filterMap Slot.record

/-- The number of slots that are not empty. -/
def occupiedCount (slots : List (Slot K V)) : ℕ := slots.countP fun s => !s.isEmpty

@[simp] lemma records_nil : records ([] : List (Slot K V)) = [] := rfl

@[simp] lemma records_append (l₁ l₂ : List (Slot K V)) :
    records (l₁ ++ l₂) = records l₁ ++ records l₂ := List.filterMap_append

@[simp] lemma records_full_cons (h : UInt64) (k : K) (v : V) (l : List (Slot K V)) :
    records (.full h k v :: l) = (h, k, v) :: records l := rfl

@[simp] lemma records_empty_cons (l : List (Slot K V)) : records (.empty :: l) = records l := rfl

@[simp] lemma records_tombstone_cons (l : List (Slot K V)) :
    records (.tombstone :: l) = records l := rfl

@[simp] lemma occupiedCount_nil : occupiedCount ([] : List (Slot K V)) = 0 := rfl

@[simp] lemma occupiedCount_append (l₁ l₂ : List (Slot K V)) :
    occupiedCount (l₁ ++ l₂) = occupiedCount l₁ + occupiedCount l₂ := List.countP_append

@[simp] lemma occupiedCount_full_cons (h : UInt64) (k : K) (v : V) (l : List (Slot K V)) :
    occupiedCount (.full h k v :: l) = occupiedCount l + 1 := by
  simp [occupiedCount, Slot.isEmpty]

@[simp] lemma occupiedCount_tombstone_cons (l : List (Slot K V)) :
    occupiedCount (.tombstone :: l) = occupiedCount l + 1 := by
  simp [occupiedCount, Slot.isEmpty]

@[simp] lemma occupiedCount_empty_cons (l : List (Slot K V)) :
    occupiedCount (.empty :: l) = occupiedCount l := by
  simp [occupiedCount, Slot.isEmpty]

lemma occupiedCount_replicate_empty (n : ℕ) :
    occupiedCount (List.replicate n (.empty : Slot K V)) = 0 := by
  induction n with
  | zero => rfl
  | succ n ih => rw [List.replicate_succ, occupiedCount_empty_cons, ih]

lemma records_replicate_empty (n : ℕ) : records (List.replicate n (.empty : Slot K V)) = [] := by
  induction n with
  | zero => rfl
  | succ n ih => rw [List.replicate_succ, records_empty_cons, ih]

/-- Full slots are occupied. -/
lemma length_records_le (slots : List (Slot K V)) :
    (records slots).length ≤ occupiedCount slots := by
  induction slots with
  | nil => simp
  | cons s l ih => cases s <;> simp <;> omega

lemma mem_records_iff {r : UInt64 × K × V} :
    r ∈ records slots ↔ ∃ i : ℕ, slots[i]? = some (.full r.1 r.2.1 r.2.2) := by
  rw [records, List.mem_filterMap]
  constructor
  · rintro ⟨s, hs, hr⟩
    obtain ⟨i, hi⟩ := List.mem_iff_getElem?.1 hs
    cases s with
    | empty | tombstone => simp [Slot.record] at hr
    | full h k v =>
      simp only [Slot.record, Option.some.injEq] at hr
      subst hr
      exact ⟨i, hi⟩
  · rintro ⟨i, hi⟩
    exact ⟨_, List.mem_iff_getElem?.2 ⟨i, hi⟩, rfl⟩

/-- A slot is somewhere in the list, and writing to it changes nothing else. -/
lemma exists_split (h : slots[i]? = some s) :
    ∃ l₁ l₂, slots = l₁ ++ s :: l₂ ∧ ∀ s', slots.set i s' = l₁ ++ s' :: l₂ := by
  obtain ⟨hi, hs⟩ := List.getElem?_eq_some_iff.1 h
  refine ⟨slots.take i, slots.drop (i + 1), ?_, fun s' => ?_⟩
  · rw [← hs, List.getElem_cons_drop, List.take_append_drop]
  · rw [List.set_eq_take_append_cons_drop, if_pos hi]

/-- A table with fewer occupied slots than slots has an empty one. -/
lemma exists_empty (h : occupiedCount slots < slots.length) :
    ∃ i : ℕ, i < slots.length ∧ slots[i]? = some .empty := by
  by_contra hno
  push Not at hno
  have hall : occupiedCount slots = slots.length := by
    rw [occupiedCount, List.countP_eq_length]
    intro s hs
    obtain ⟨i, hi⟩ := List.mem_iff_getElem?.1 hs
    cases s with
    | empty => exact absurd hi (hno i (List.getElem?_eq_some_iff.1 hi).1)
    | tombstone => rfl
    | full => rfl
  omega

/-! ### The hash position -/

/-- The hash position of a table of `n` slots. -/
def home (w : PtrWidth) (n : ℕ) (h : UInt64) : ℕ := w.wrap h.toNat % n

lemma hashIndex_eq_home {k : ℕ} (hn : n = 2 ^ k) (h : UInt64) :
    hashIndex w h (n - 1) = home w n h := by
  subst hn
  exact Nat.and_two_pow_sub_one_eq_mod _ _

lemma step_eq {k : ℕ} (hn : n = 2 ^ k) (s d : ℕ) :
    (s + d) % n + 1 &&& n - 1 = (s + (d + 1)) % n := by
  subst hn
  rw [Nat.and_two_pow_sub_one_eq_mod, succ_mod]

lemma home_lt (hn : 0 < n) (h : UInt64) : home w n h < n :=
  Nat.mod_lt _ hn

/-- Slot `j` is not empty. -/
def Occupied (slots : List (Slot K V)) (j : ℕ) : Prop := slots[j]? ≠ some .empty

/-- For every full slot, the cyclic run of slots from its hash position up to it contains
no empty slot. -/
def WellPlaced (w : PtrWidth) (slots : List (Slot K V)) : Prop :=
  ∀ (i : ℕ) h k v, slots[i]? = some (.full h k v) →
    RunTo slots.length (Occupied slots) (home w slots.length h) i

/-- A table in which no slot became empty is well placed if its full slots can be
reached in the table it came from. -/
lemma WellPlaced.of_pointwise {slots' : List (Slot K V)}
    (hlen : slots'.length = slots.length) (hocc : ∀ j, Occupied slots j → Occupied slots' j)
    (hfull : ∀ (i : ℕ) h k v, slots'[i]? = some (.full h k v) →
      RunTo slots.length (Occupied slots) (home w slots.length h) i) :
    WellPlaced w slots' := by
  intro i h k v hi
  rw [hlen]
  exact (hfull i h k v hi).mono fun j _ hj => hocc j hj

lemma occupied_set {j : ℕ} (hs : s ≠ .empty) (hj : Occupied slots j) :
    Occupied (slots.set i s) j := by
  rw [Occupied, List.getElem?_set]
  split
  · split
    · simpa using hs
    · simp
  · exact hj

/-- Writing to a slot something that is not empty keeps the table well placed, provided
a new entry can be reached. -/
lemma WellPlaced.set (hw : WellPlaced w slots)
    (hs : s ≠ .empty)
    (hrun : ∀ h k v, s = .full h k v →
      RunTo slots.length (Occupied slots) (home w slots.length h) i) :
    WellPlaced w (slots.set i s) := by
  refine WellPlaced.of_pointwise (by rw [List.length_set]) (fun j hj => occupied_set hs hj) ?_
  intro i' h k v hi'
  rw [List.getElem?_set] at hi'
  split at hi'
  · next heq =>
      split at hi'
      · rw [← heq]
        exact hrun h k v (by simpa using hi')
      · exact absurd hi' (by simp)
  · exact hw i' h k v hi'

lemma wellPlaced_of_records_nil (h : records slots = []) : WellPlaced w slots := by
  intro i h' k v hi
  have : (h', k, v) ∈ records slots := mem_records_iff.2 ⟨i, hi⟩
  rw [h] at this
  exact absurd this (by simp)

/-! ### The re-insertion loop -/

/-- The re-insertion loop from offset `d` on reaches the first empty slot, at offset
`D`. -/
lemma placeLoop_eq (hn : slots.length = 2 ^ k') {s D : ℕ}
    (hempty : slots[(s + D) % slots.length]? = some .empty)
    (hocc : ∀ e < D, Occupied slots ((s + e) % slots.length)) (h : UInt64) (k : K) (v : V) :
    ∀ {d fuel : ℕ}, d ≤ D → D - d < fuel →
      placeLoop slots (slots.length - 1) h k v fuel ((s + d) % slots.length)
        = .ok (slots.set ((s + D) % slots.length) (.full h k v)) := by
  intro d fuel hd hfuel
  -- by induction on the distance to the empty slot
  induction hm : D - d generalizing d fuel with
  | zero =>
    have heq : d = D := by omega
    subst heq
    obtain ⟨f, rfl⟩ : ∃ f, fuel = f + 1 := ⟨fuel - 1, by omega⟩
    rw [placeLoop, hempty]
    rfl
  | succ m ih =>
    obtain ⟨f, rfl⟩ : ∃ f, fuel = f + 1 := ⟨fuel - 1, by omega⟩
    have hpos : 0 < slots.length := by rw [hn]; positivity
    have hlt : (s + d) % slots.length < slots.length := Nat.mod_lt _ hpos
    have hne := hocc d (by omega)
    rw [Occupied, List.getElem?_eq_getElem hlt] at hne
    have hnot : (slots[(s + d) % slots.length]).isEmpty = false := by
      cases hs : slots[(s + d) % slots.length] with
      | empty => exact absurd (congrArg some hs) hne
      | tombstone => rfl
      | full => rfl
    rw [placeLoop, List.getElem?_eq_getElem hlt]
    simp only [hnot, Bool.false_eq_true, if_false]
    rw [step_eq hn]
    exact ih (by omega) (by omega) (by omega)

/-- The re-insertion loop puts the entry into a slot that was empty and that can be
reached from the hash position. -/
lemma placeLoop_spec (hn : slots.length = 2 ^ k') (hfree : occupiedCount slots < slots.length)
    (h : UInt64) (k : K) (v : V) :
    ∃ i : ℕ, slots[i]? = some .empty ∧
      RunTo slots.length (Occupied slots) (home w slots.length h) i ∧
      placeLoop slots (slots.length - 1) h k v slots.length
          (hashIndex w h (slots.length - 1)) = .ok (slots.set i (.full h k v)) := by
  obtain ⟨j, hj, hej⟩ := exists_empty hfree
  obtain ⟨D, hD, hfail, hrun⟩ := exists_run_to_first (P := Occupied slots) hj
    (fun hocc => hocc hej) (home w slots.length h)
  have hempty : slots[(home w slots.length h + D) % slots.length]? = some .empty := by
    rw [Occupied] at hfail
    exact not_not.1 hfail
  refine ⟨(home w slots.length h + D) % slots.length, hempty, ⟨D, hD, rfl, hrun⟩, ?_⟩
  have hloop := placeLoop_eq hn hempty hrun h k v (Nat.zero_le D) (by omega : D - 0 < slots.length)
  rw [hashIndex_eq_home hn]
  rwa [Nat.add_zero, Nat.mod_eq_of_lt (home_lt (by omega) h)] at hloop

/-- `grow_to` moves the entries of the old table to the new one. -/
lemma rehash_spec (hn : n = 2 ^ k') (old : List (Slot K V)) :
    ∀ {slots : List (Slot K V)}, slots.length = n → WellPlaced w slots →
      (records old).length + occupiedCount slots < n →
      ∃ slots', rehash w (n - 1) old slots = .ok slots' ∧ slots'.length = n ∧
        WellPlaced w slots' ∧ (records slots').Perm (records slots ++ records old) ∧
        occupiedCount slots' = occupiedCount slots + (records old).length := by
  induction old with
  | nil =>
    intro slots hlen hw _
    exact ⟨slots, rfl, hlen, hw, by simp, by simp⟩
  | cons s old ih =>
    intro slots hlen hw hroom
    cases s with
    | empty | tombstone => exact ih hlen hw (by simpa using hroom)
    | full h k v =>
      -- the entry goes to an empty slot; the rest is placed into what results
      rw [records_full_cons, List.length_cons] at hroom
      have hpow : slots.length = 2 ^ k' := by rw [hlen, hn]
      obtain ⟨i, hempty, hrun, hplace⟩ :=
        placeLoop_spec (w := w) hpow (by omega : occupiedCount slots < slots.length) h k v
      obtain ⟨l₁, l₂, hsplit, hset⟩ := exists_split hempty
      have hcount : occupiedCount (slots.set i (.full h k v)) = occupiedCount slots + 1 := by
        rw [hset, hsplit]
        simp
        omega
      have hrecs : (records (slots.set i (.full h k v))).Perm
          (records slots ++ [(h, k, v)]) := by
        rw [hset, hsplit]
        simp only [records_append, records_full_cons, records_empty_cons]
        exact List.perm_middle.trans (List.perm_append_singleton _ _).symm
      have hw' : WellPlaced w (slots.set i (.full h k v)) :=
        hw.set (by simp) fun h' k' v' heq => by
          obtain ⟨rfl, rfl, rfl⟩ := Slot.full.inj heq
          exact hrun
      obtain ⟨slots', hok, hlen', hwp, hperm, hocc⟩ :=
        ih (by rw [List.length_set, hlen]) hw' (by omega)
      refine ⟨slots', ?_, hlen', hwp, ?_, ?_⟩
      · rw [rehash]
        rw [hlen] at hplace
        rw [hlen, hplace]
        exact hok
      · rw [records_full_cons]
        refine hperm.trans ((hrecs.append_right _).trans ?_)
        rw [List.append_assoc]
        exact List.Perm.refl _
      · rw [hocc, hcount, records_full_cons, List.length_cons]
        omega

/-! ### The probe loop -/

section Probe

variable [BEq Q] [Borrow K Q] {hash : UInt64} {key : Q}

/-- The test of `probe` on the contents of a full slot. -/
def keyMatches (hash : UInt64) (key : Q) (h : UInt64) (k : K) : Bool :=
  h == hash && (Borrow.borrow k : Q) == key

/-- The probe loop stops at slot `j`. -/
def Stops (slots : List (Slot K V)) (hash : UInt64) (key : Q) (j : ℕ) : Prop :=
  slots[j]? = some .empty ∨ ∃ h k v, slots[j]? = some (.full h k v) ∧ keyMatches hash key h k = true

/-- A slot at which the loop does not stop is a tombstone or holds another key. -/
lemma passes_of_not_stops {j : ℕ} (hj : j < slots.length) (h : ¬ Stops slots hash key j) :
    slots[j]? = some .tombstone ∨
      ∃ h' k v, slots[j]? = some (.full h' k v) ∧ keyMatches hash key h' k = false := by
  rw [List.getElem?_eq_getElem hj]
  cases hs : slots[j] with
  | empty => exact absurd (Or.inl (by rw [List.getElem?_eq_getElem hj, hs])) h
  | tombstone => exact Or.inl rfl
  | full h' k v =>
    refine Or.inr ⟨h', k, v, rfl, ?_⟩
    by_contra hm
    refine h (Or.inr ⟨h', k, v, by rw [List.getElem?_eq_getElem hj, hs], by simpa using hm⟩)

/-- An iteration of `probe` at a tombstone, which is remembered if it is the first one. -/
lemma probeLoop_tombstone (hn : slots.length = 2 ^ k') {s d : ℕ}
    (h : slots[(s + d) % slots.length]? = some .tombstone) (fuel : ℕ) (ins : Option ℕ) :
    HashMap.probeLoop slots (slots.length - 1) hash key (fuel + 1) ((s + d) % slots.length) ins
      = HashMap.probeLoop slots (slots.length - 1) hash key fuel ((s + (d + 1)) % slots.length)
          (if ins.isNone then some ((s + d) % slots.length) else ins) := by
  rw [HashMap.probeLoop, h]
  simp only [step_eq hn]

/-- An iteration of `probe` at another key. -/
lemma probeLoop_pass (hn : slots.length = 2 ^ k') {s d : ℕ} {h : UInt64} {k : K} {v : V}
    (hfull : slots[(s + d) % slots.length]? = some (.full h k v))
    (hmatch : keyMatches hash key h k = false) (fuel : ℕ) (ins : Option ℕ) :
    HashMap.probeLoop slots (slots.length - 1) hash key (fuel + 1) ((s + d) % slots.length) ins
      = HashMap.probeLoop slots (slots.length - 1) hash key fuel ((s + (d + 1)) % slots.length)
          ins := by
  rw [keyMatches] at hmatch
  rw [HashMap.probeLoop, hfull]
  simp only [hmatch, step_eq hn, Bool.false_eq_true, if_false]

/-- The loop invariant of `probe`: from offset `d` on, with the stop at offset `D`, the
loop returns the matching slot, or the remembered tombstone, or a slot that holds no
entry between `d` and `D`. -/
lemma probeLoop_eq (hn : slots.length = 2 ^ k') {s D : ℕ}
    (hstop : Stops slots hash key ((s + D) % slots.length))
    (hpass : ∀ e < D, ¬ Stops slots hash key ((s + e) % slots.length)) :
    ∀ (d fuel : ℕ) (ins : Option ℕ), d ≤ D → D - d < fuel →
      (∃ h k v, slots[(s + D) % slots.length]? = some (.full h k v) ∧
        keyMatches hash key h k = true ∧
        HashMap.probeLoop slots (slots.length - 1) hash key fuel ((s + d) % slots.length) ins
          = .ok (some ((s + D) % slots.length), (s + D) % slots.length)) ∨
      (slots[(s + D) % slots.length]? = some .empty ∧ ∃ j,
        HashMap.probeLoop slots (slots.length - 1) hash key fuel ((s + d) % slots.length) ins
          = .ok (none, j) ∧
        (ins = some j ∨ ∃ e, d ≤ e ∧ e ≤ D ∧ j = (s + e) % slots.length ∧
          ∃ t, slots[j]? = some t ∧ t.record = none)) := by
  intro d fuel ins hd hfuel
  -- by induction on the distance to the stop
  induction hm : D - d generalizing d fuel ins with
  | zero =>
    have heq : d = D := by omega
    subst heq
    obtain ⟨f, rfl⟩ : ∃ f, fuel = f + 1 := ⟨fuel - 1, by omega⟩
    rcases hstop with hempty | ⟨h, k, v, hfull, hmatch⟩
    · refine Or.inr ⟨hempty, ins.getD ((s + d) % slots.length), ?_, ?_⟩
      · rw [HashMap.probeLoop, hempty]
      · cases ins with
        | none => exact Or.inr ⟨d, le_rfl, le_rfl, rfl, .empty, hempty, rfl⟩
        | some j => exact Or.inl rfl
    · refine Or.inl ⟨h, k, v, hfull, hmatch, ?_⟩
      rw [HashMap.probeLoop, hfull]
      simp only [keyMatches] at hmatch
      simp only [hmatch, if_true]
  | succ m ih =>
    obtain ⟨f, rfl⟩ : ∃ f, fuel = f + 1 := ⟨fuel - 1, by omega⟩
    have hpos : 0 < slots.length := by rw [hn]; positivity
    have hlt : (s + d) % slots.length < slots.length := Nat.mod_lt _ hpos
    rcases passes_of_not_stops hlt (hpass d (by omega)) with htomb | ⟨h, k, v, hfull, hmatch⟩
    · rw [probeLoop_tombstone hn htomb]
      rcases ih (d + 1) f (if ins.isNone then some ((s + d) % slots.length) else ins)
        (by omega) (by omega) (by omega) with hl | ⟨he, j, hj, hins⟩
      · exact Or.inl hl
      · refine Or.inr ⟨he, j, hj, ?_⟩
        rcases hins with hins | ⟨e, hde, heD, hje, ht⟩
        · cases ins with
          | none =>
            -- the tombstone at `d` is the one that is remembered
            have hj' : (s + d) % slots.length = j := by simpa using hins
            exact Or.inr ⟨d, le_rfl, by omega, hj'.symm, .tombstone, by rw [← hj']; exact htomb,
              rfl⟩
          | some j' => exact Or.inl (by simpa using hins)
        · exact Or.inr ⟨e, by omega, heD, hje, ht⟩
    · rw [probeLoop_pass hn hfull hmatch]
      rcases ih (d + 1) f ins (by omega) (by omega) (by omega) with hl | ⟨he, j, hj, hins⟩
      · exact Or.inl hl
      · refine Or.inr ⟨he, j, hj, ?_⟩
        rcases hins with hins | ⟨e, hde, heD, hje, ht⟩
        · exact Or.inl hins
        · exact Or.inr ⟨e, by omega, heD, hje, ht⟩

/-- What `probe` returns on a well placed table with an empty slot: the slot of a match,
or, if no slot matches, a slot without an entry that can be reached from the hash
position. -/
lemma probe_spec {L : TableLayout} {m : HashMap S K V} (hn : m.slots.length = 2 ^ k')
    (hw : WellPlaced L.width m.slots) (hfree : occupiedCount m.slots < m.slots.length)
    (hash : UInt64) (key : Q) :
    (∃ i k v, m.slots[i]? = some (.full hash k v) ∧ ((Borrow.borrow k : Q) == key) = true ∧
      m.probe L hash key = .ok (some i, i)) ∨
    (∃ j t, m.slots[j]? = some t ∧ t.record = none ∧
      RunTo m.slots.length (Occupied m.slots) (home L.width m.slots.length hash) j ∧
      m.probe L hash key = .ok (none, j) ∧
      ∀ r ∈ records m.slots, keyMatches hash key r.1 r.2.1 = false) := by
  obtain ⟨j₀, hj₀, hej₀⟩ := exists_empty hfree
  set s := home L.width m.slots.length hash with hs
  obtain ⟨D, hD, hfail, hrun⟩ := exists_run_to_first
    (P := fun j => ¬ Stops m.slots hash key j) hj₀ (fun h => h (Or.inl hej₀)) s
  have hstop := not_not.1 hfail
  have hstart : (s + 0) % m.slots.length = hashIndex L.width hash (m.cap - 1) := by
    rw [HashMap.cap, hashIndex_eq_home hn, Nat.add_zero, Nat.mod_eq_of_lt (home_lt (by omega) hash)]
  have hloop := probeLoop_eq hn hstop hrun 0 m.slots.length none (Nat.zero_le D) (by omega)
  rw [hstart] at hloop
  rcases hloop with ⟨h, k, v, hfull, hmatch, hok⟩ | ⟨hempty, j, hok, hj⟩
  · simp only [keyMatches, Bool.and_eq_true, beq_iff_eq] at hmatch
    obtain ⟨rfl, hkey⟩ := hmatch
    exact Or.inl ⟨_, k, v, hfull, hkey, hok⟩
  · refine Or.inr ⟨j, ?_⟩
    rcases hj with hj | ⟨e, -, heD, rfl, t, ht, hrec⟩
    · exact absurd hj (by simp)
    refine ⟨t, ht, hrec, ⟨e, by omega, rfl, ?_⟩, hok, ?_⟩
    · intro e' he' hemp
      exact hrun e' (by omega) (Or.inl hemp)
    · -- a matching entry would be met before the empty slot
      intro r hr
      obtain ⟨i, hi⟩ := mem_records_iff.1 hr
      by_contra hm
      rw [Bool.not_eq_false] at hm
      have hhash : r.1 = hash := by
        simp only [keyMatches, Bool.and_eq_true, beq_iff_eq] at hm
        exact hm.1
      have hreach := hw i r.1 r.2.1 r.2.2 hi
      rw [hhash, ← hs] at hreach
      obtain ⟨e', he', rfl, -⟩ := hreach.offset_le (d := D) (fun hocc => hocc hempty)
      rcases Nat.lt_or_ge e' D with hlt | hge
      · exact hrun e' hlt (Or.inr ⟨r.1, r.2.1, r.2.2, hi, hm⟩)
      · have : e' = D := by omega
        subst this
        rw [hempty] at hi
        exact absurd hi (by simp)

end Probe

end PureStd.Collections
