/-
The invariant along a session.

`exec_inv` is the step: on a table with the invariant an operation returns, and the
table it leaves has the invariant again, or `Vec` refuses the growth that the operation
asks for.  Nothing is assumed of the hash function or of the comparison of keys.
`start_inv` and `run_inv` carry this to every session.
-/
import PureStd.Collections.TableOps

namespace PureStd.Collections

variable {S K V Q : Type}

/-- The loop of `capacity_for` returns a power of two: a capacity that has been doubled
out of the range of `usize` is zero, and with zero the loop never ends. -/
lemma capacityForLoop_ok {w : PtrWidth} {items c : ℕ} (fuel : ℕ) :
    ∀ cap, (cap = 0 ∨ ∃ k, 3 ≤ k ∧ cap = 2 ^ k) → capacityForLoop w items fuel cap = .ok c →
      ∃ k, 3 ≤ k ∧ c = 2 ^ k := by
  induction fuel with
  | zero => intro cap _ hok; exact absurd hok (by simp [capacityForLoop])
  | succ fuel ih =>
    intro cap hcap hok
    rw [capacityForLoop] at hok
    split at hok
    · refine ih _ ?_ hok
      rcases hcap with rfl | ⟨k, hk, rfl⟩
      · exact Or.inl (by simp [PtrWidth.wrap])
      · rw [← pow_succ]
        by_cases hlt : k + 1 < w.bits
        · exact Or.inr ⟨k + 1, by omega,
            PtrWidth.wrap_of_lt (Nat.pow_lt_pow_right (by norm_num) hlt)⟩
        · exact Or.inl (Nat.mod_eq_zero_of_dvd (pow_dvd_pow 2 (by omega)))
    · rename_i hlt
      cases hok
      rcases hcap with rfl | hpow
      · exact absurd hlt (by simp [PtrWidth.wrap])
      · exact hpow

lemma capacityFor_ok {w : PtrWidth} {items c : ℕ} (h : capacityFor w items = .ok c) :
    ∃ k, 3 ≤ k ∧ c = 2 ^ k :=
  capacityForLoop_ok w.bits 8 (Or.inr ⟨3, le_refl 3, rfl⟩) h

namespace HashMap

variable [BEq K] [BuildHasher S K] {L : TableLayout} {m m' : HashMap S K V}

/-! ### The start -/

omit [BEq K] in
lemma withHasher_inv (b : S) : Inv L (withHasher b : HashMap S K V) where
  cap := Or.inl rfl
  fits := by simp [withHasher]
  len := rfl
  used := rfl
  load h := absurd h (by simp [withHasher])
  hash r hr := absurd hr (by simp [withHasher])
  placed := wellPlaced_of_records_nil rfl

omit [BEq K] in
/-- A new map has the invariant and no entries. -/
lemma start_inv {st : Start S} (h : st.make L = .ok m) : Inv L m ∧ records m.slots = [] := by
  have hempty : ∀ b : S, Inv L (withHasher b : HashMap S K V) ∧
      records (withHasher b : HashMap S K V).slots = [] := fun b => ⟨withHasher_inv b, rfl⟩
  cases st with
  | withHasher b =>
    cases h
    exact hempty b
  | withCapacity n b =>
    rw [Start.make, withCapacityAndHasher] at h
    split at h
    · cases hcap : capacityFor L.width n with
      | error e => rw [hcap] at h; exact absurd h (by simp)
      | ok c =>
        rw [hcap, ok_bind] at h
        obtain ⟨k, hk, rfl⟩ := capacityFor_ok hcap
        rcases growTo_spec (hempty b).1 hk (by simp [withHasher]) with
          ⟨herr, -⟩ | ⟨m₁, hok, hinv, -, hperm, -⟩
        · rw [h] at herr
          exact absurd herr (by simp)
        · rw [h] at hok
          cases hok
          exact ⟨hinv, by simpa [(hempty b).2] using hperm⟩
    · cases h
      exact hempty b

/-! ### One operation -/

lemma andModifyAll_inv {k : K} (mods : List (V → V)) :
    ∀ {e : Entry S K V}, EntryOk L k e →
      ∃ e', e.andModifyAll mods = .ok e' ∧ EntryOk L k e' ∧
        e'.map.hashBuilder = e.map.hashBuilder := by
  induction mods with
  | nil => intro e he; exact ⟨e, rfl, he, rfl⟩
  | cons f mods ih =>
    intro e he
    obtain ⟨e₁, hok, he₁, hb, -⟩ := andModify_spec he f
    obtain ⟨e', hok', he', hb'⟩ := ih he₁
    exact ⟨e', by rw [Entry.andModifyAll, hok, ok_bind, hok'], he', hb'.trans hb⟩

lemma use_inv {k : K} {e : Entry S K V} (he : EntryOk L k e) (use : EntryUse V) :
    ∃ m' ans, e.use use = .ok (m', ans) ∧ Inv L m' ∧ m'.hashBuilder = e.map.hashBuilder := by
  cases use with
  | dropped => exact ⟨e.map, .done, rfl, he.inv, rfl⟩
  | orInsert default write =>
    obtain ⟨r, hok, hinv, -⟩ := orInsertWith_spec he fun _ => default
    exact ⟨_, _, by rw [Entry.use, Entry.orInsert, hok, ok_bind], hinv _⟩
  | orInsertWith default write =>
    obtain ⟨r, hok, hinv, -⟩ := orInsertWith_spec he default
    exact ⟨_, _, by rw [Entry.use, hok, ok_bind], hinv _⟩

variable [BEq Q] [Borrow K Q] [BuildHasher S Q]

/-- `Vec` refuses a growth at the end of some session that starts with `m`. -/
def Outgrows (L : TableLayout) (Q : Type) [BEq Q] [Borrow K Q] [BuildHasher S Q]
    (m : HashMap S K V) : Prop :=
  ∃ (ops : List (Op K Q V)) (m' : HashMap S K V) (as : List (Answer V)),
    m.run L ops = .ok (m', as) ∧ GrowthRefused L m'

lemma exec_inv (hm : Inv L m) (op : Op K Q V) :
    (m.exec L op = .error .capacityOverflow ∧ Outgrows L Q m) ∨
    ∃ m' ans, m.exec L op = .ok (m', ans) ∧ Inv L m' ∧ m'.hashBuilder = m.hashBuilder := by
  cases op with
  | insert k v =>
    rcases insert_spec hm k v with ⟨herr, hbig⟩ | ⟨m', hm', hb, hins⟩
    · exact Or.inl ⟨by rw [exec, herr, error_bind], [], m, [], rfl, hbig⟩
    · rcases hins with ⟨_, _, v', _, hok, -⟩ | ⟨hok, -⟩
      · exact Or.inr ⟨m', .value (some v'), by rw [exec, hok, ok_bind], hm', hb⟩
      · exact Or.inr ⟨m', .value none, by rw [exec, hok, ok_bind], hm', hb⟩
  | remove q =>
    rcases remove_spec hm q with ⟨m', _, _, v, _, hok, -, hm', hb, -⟩ | ⟨hok, -⟩
    · exact Or.inr ⟨m', .value (some v), by rw [exec, hok, ok_bind], hm', hb⟩
    · exact Or.inr ⟨m, .value none, by rw [exec, hok, ok_bind], hm, rfl⟩
  | get q =>
    rcases get_spec hm q with ⟨_, _, v, _, hok, -⟩ | ⟨hok, -⟩
    · exact Or.inr ⟨m, .value (some v), by rw [exec, hok, ok_bind], hm, rfl⟩
    · exact Or.inr ⟨m, .value none, by rw [exec, hok, ok_bind], hm, rfl⟩
  | getMut q write =>
    rcases getMut_spec hm q with ⟨r, _, _, _, hok, -, -, hw⟩ | ⟨hok, -⟩
    · obtain ⟨hm', hb, -⟩ := hw (write r.val)
      exact Or.inr ⟨_, .value (some r.val), by rw [exec, hok, ok_bind], hm', hb⟩
    · exact Or.inr ⟨m, .value none, by rw [exec, hok, ok_bind], hm, rfl⟩
  | containsKey q =>
    rcases get_spec hm q with ⟨_, _, v, _, hok, -⟩ | ⟨hok, -⟩
    · exact Or.inr ⟨m, .flag true,
        by rw [exec, containsKey, hok, ok_bind, ok_bind]; rfl, hm, rfl⟩
    · exact Or.inr ⟨m, .flag false,
        by rw [exec, containsKey, hok, ok_bind, ok_bind]; rfl, hm, rfl⟩
  | entry k mods use =>
    rcases entry_spec hm k with ⟨herr, hbig⟩ | ⟨e, hok, he, hb, -⟩
    · exact Or.inl ⟨by rw [exec, herr, error_bind], [], m, [], rfl, hbig⟩
    · obtain ⟨e₁, hok₁, he₁, hb₁⟩ := andModifyAll_inv mods he
      obtain ⟨m', ans, hok', hm', hb'⟩ := use_inv he₁ use
      exact Or.inr ⟨m', ans, by rw [exec, hok, ok_bind, hok₁, ok_bind, hok'], hm',
        hb'.trans (hb₁.trans hb)⟩
  | retain σ f st =>
    obtain ⟨hm', hb, -⟩ := retain_spec hm f st
    exact Or.inr ⟨_, .done, rfl, hm', hb⟩
  | clear => exact Or.inr ⟨_, .done, rfl, (clear_spec hm).1, rfl⟩
  | extend es =>
    rcases extend_spec es hm with ⟨herr, es', m', hok, hbig⟩ | ⟨m', hok, hm', hb⟩
    · refine Or.inl ⟨by rw [exec, herr, error_bind], [.extend es'], m', [.done], ?_, hbig⟩
      rw [run, exec, hok]
      rfl
    · exact Or.inr ⟨m', .done, by rw [exec, hok, ok_bind], hm', hb⟩
  | iterMut σ f st =>
    obtain ⟨hm', hb, -⟩ := retain_spec hm (fun st k v => ((f st k v).1, true, (f st k v).2)) st
    rw [← iterMut_eq_retain] at hm' hb
    exact Or.inr ⟨_, .done, rfl, hm', hb⟩

/-! ### Whole sessions -/

/-- A session that has begun goes on from the map it has reached. -/
lemma run_cons {op : Op K Q V} {ans : Answer V} (h : m.exec L op = .ok (m', ans))
    (ops : List (Op K Q V)) :
    m.run L (op :: ops) = (m'.run L ops).map fun r => (r.1, ans :: r.2) := by
  rw [run, h, ok_bind]
  cases hrest : m'.run L ops with
  | error e => simp only [hrest, error_bind]; rfl
  | ok r => simp only [hrest, ok_bind]; rfl

/-- A session that returned made its first operation and went on. -/
lemma run_cons_ok {op : Op K Q V} {ops : List (Op K Q V)} {as : List (Answer V)}
    (h : m.run L (op :: ops) = .ok (m', as)) :
    ∃ m₁ ans as', m.exec L op = .ok (m₁, ans) ∧ m₁.run L ops = .ok (m', as') ∧
      as = ans :: as' := by
  obtain ⟨⟨m₁, ans⟩, hexec, hrest⟩ := bind_eq_ok h
  obtain ⟨⟨m₂, as'⟩, hrun, hans⟩ := bind_eq_ok hrest
  obtain ⟨rfl, rfl⟩ := ok_inj hans
  exact ⟨m₁, ans, as', hexec, hrun, rfl⟩

lemma exec_ok_inv (hm : Inv L m) {op : Op K Q V} {ans : Answer V}
    (hok : m.exec L op = .ok (m', ans)) : Inv L m' := by
  rcases exec_inv hm op with ⟨herr, -⟩ | ⟨m₁, ans₁, hok₁, hm₁, -⟩
  · rw [hok] at herr
    cases herr
  · obtain ⟨rfl, -⟩ := ok_inj (hok.symm.trans hok₁)
    exact hm₁

lemma run_inv (ops : List (Op K Q V)) : ∀ {m : HashMap S K V}, Inv L m →
    (m.run L ops = .error .capacityOverflow ∧ Outgrows L Q m) ∨
    ∃ m' as, m.run L ops = .ok (m', as) ∧ Inv L m' ∧ m'.hashBuilder = m.hashBuilder := by
  induction ops with
  | nil => intro m hm; exact Or.inr ⟨m, [], rfl, hm, rfl⟩
  | cons op ops ih =>
    intro m hm
    rcases exec_inv hm op with ⟨herr, hbig⟩ | ⟨m₁, ans, hok, hm₁, hb⟩
    · exact Or.inl ⟨by rw [run, herr, error_bind], hbig⟩
    · rw [run_cons hok]
      rcases ih hm₁ with ⟨herr, ops', m', as, hrun, hbig⟩ | ⟨m', as, hrun, hm', hb'⟩
      · refine Or.inl ⟨by rw [herr]; rfl, op :: ops', m', ans :: as, ?_, hbig⟩
        rw [run_cons hok, hrun]
        rfl
      · exact Or.inr ⟨m', ans :: as, by rw [hrun]; rfl, hm', hb'.trans hb⟩

lemma run_ok_inv (hm : Inv L m) {ops : List (Op K Q V)} {as : List (Answer V)}
    (hrun : m.run L ops = .ok (m', as)) : Inv L m' := by
  rcases run_inv ops hm with ⟨herr, -⟩ | ⟨m₁, as₁, hrun₁, hm₁, -⟩
  · rw [hrun] at herr
    cases herr
  · obtain ⟨rfl, -⟩ := ok_inj (hrun.symm.trans hrun₁)
    exact hm₁

end HashMap

end PureStd.Collections
