/-
Byte-addressed memory, and lists threaded through it.

A memory gives every address a byte.  Numbers are stored in it as a fixed number of
little-endian bytes.  `Chain n mem head l` says that the `n`-byte links in `mem` lead
from `head` through the addresses `l` to the null address.  A chain looks only at the
first `n` bytes of its nodes, so a write elsewhere keeps it (`Chain.congr`), and writing
the head into a new node puts that node in front (`Chain.push`).
-/
import PureStd.Lib.LittleEndian

namespace PureStd.ByteMemory

open LittleEndian

/-! ### Regions of addresses -/

/-- A range of `len` addresses. -/
structure Region where
  base : ℕ
  len : ℕ
deriving DecidableEq, Repr

namespace Region

/-- The address is in the region. -/
def Has (r : Region) (a : ℕ) : Prop := r.base ≤ a ∧ a < r.base + r.len

instance (r : Region) (a : ℕ) : Decidable (r.Has a) := inferInstanceAs (Decidable (_ ∧ _))

/-- One region ends before the other begins. -/
def Apart (r s : Region) : Prop := r.base + r.len ≤ s.base ∨ s.base + s.len ≤ r.base

instance (r s : Region) : Decidable (r.Apart s) := inferInstanceAs (Decidable (_ ∨ _))

variable {r s : Region}

lemma Apart.symm (h : r.Apart s) : s.Apart r := Or.symm h

lemma Apart.not_has (h : r.Apart s) {a : ℕ} (ha : r.Has a) : ¬ s.Has a := by
  rintro ⟨hlo, hhi⟩
  obtain ⟨hlo', hhi'⟩ := ha
  rcases h with h | h <;> omega

/-- Nonempty regions without a common address are apart. -/
lemma apart_of_forall (hr : 0 < r.len) (hs : 0 < s.len) (h : ∀ a, r.Has a → ¬ s.Has a) :
    r.Apart s := by
  by_contra hno
  rw [Apart, not_or] at hno
  refine h (max r.base s.base) ⟨?_, ?_⟩ ⟨?_, ?_⟩ <;> omega

/-- The region lies inside the other one. -/
def Within (r s : Region) : Prop := s.base ≤ r.base ∧ r.base + r.len ≤ s.base + s.len

lemma Within.has (h : r.Within s) {a : ℕ} (ha : r.Has a) : s.Has a := by
  obtain ⟨hlo, hhi⟩ := h
  obtain ⟨hlo', hhi'⟩ := ha
  constructor <;> omega

/-- Parts of regions that are apart are apart. -/
lemma Apart.within {r' s' : Region} (h : r.Apart s) (hr : r'.Within r) (hs : s'.Within s) :
    r'.Apart s' := by
  obtain ⟨hr₁, hr₂⟩ := hr
  obtain ⟨hs₁, hs₂⟩ := hs
  rcases h with h | h
  · exact Or.inl (by omega)
  · exact Or.inr (by omega)

end Region

/-! ### Loads and stores -/

/-- The number in the `n` bytes at `a`. -/
def load (n : ℕ) (mem : ℕ → UInt8) (a : ℕ) : ℕ := leNat ((List.range n).map fun i => mem (a + i))

/-- Write a number to the `n` bytes at `a`. -/
def store (n : ℕ) (mem : ℕ → UInt8) (a v : ℕ) : ℕ → UInt8 := fun x =>
  if a ≤ x ∧ x < a + n then (leBytes n v).getD (x - a) 0 else mem x

variable {n head a v : ℕ} {mem mem' : ℕ → UInt8} {l : List ℕ}

lemma store_of_not_has {x : ℕ} (h : ¬ Region.Has ⟨a, n⟩ x) : store n mem a v x = mem x := if_neg h

lemma load_congr (h : ∀ x, Region.Has ⟨a, n⟩ x → mem x = mem' x) :
    load n mem a = load n mem' a := by
  rw [load, load]
  congr 1
  refine List.map_congr_left fun i hi => h _ ?_
  rw [List.mem_range] at hi
  constructor <;> simp only <;> omega

lemma load_store_same (h : v < 256 ^ n) : load n (store n mem a v) a = v := by
  have hbytes : ((List.range n).map fun i => store n mem a v (a + i)) = leBytes n v := by
    refine List.ext_getElem (by simp) fun i hi hi' => ?_
    rw [length_leBytes] at hi'
    have hin : a ≤ a + i ∧ a + i < a + n := by omega
    simp only [List.getElem_map, List.getElem_range, store, if_pos hin, Nat.add_sub_cancel_left]
    rw [List.getD_eq_getElem?_getD, List.getElem?_eq_getElem (by simpa using hi')]
    rfl
  rw [load, hbytes, leNat_leBytes_of_lt h]

/-- Stores to different places may be exchanged. -/
lemma store_comm {b u : ℕ} (h : Region.Apart ⟨a, n⟩ ⟨b, n⟩) :
    store n (store n mem a u) b v = store n (store n mem b v) a u := by
  funext x
  by_cases ha : Region.Has ⟨a, n⟩ x
  · rw [store_of_not_has (h.not_has ha)]
    exact (if_pos ha).trans (if_pos ha).symm
  · rw [store_of_not_has ha]
    by_cases hb : Region.Has ⟨b, n⟩ x
    · exact (if_pos hb).trans (if_pos hb).symm
    · rw [store_of_not_has hb, store_of_not_has hb, store_of_not_has ha]

/-- Words stored one after the other. -/
def storeWords (n : ℕ) : (ℕ → UInt8) → ℕ → List ℕ → ℕ → UInt8
  | mem, _, [] => mem
  | mem, a, v :: vs => storeWords n (store n mem a v) (a + n) vs

lemma storeWords_of_not_has {vs : List ℕ} {x : ℕ} (h : ¬ Region.Has ⟨a, n * vs.length⟩ x) :
    storeWords n mem a vs x = mem x := by
  induction vs generalizing mem a with
  | nil => rfl
  | cons v vs ih =>
    have hlen : n * (v :: vs).length = n + n * vs.length := by
      rw [List.length_cons, Nat.mul_succ, Nat.add_comm]
    rw [hlen] at h
    rw [storeWords, ih, store_of_not_has]
    · exact fun hin => h ⟨hin.1, lt_of_lt_of_le hin.2 (by simp only; omega)⟩
    · exact fun hin => h ⟨le_trans (by simp only; omega) hin.1,
        lt_of_lt_of_le hin.2 (by simp only; omega)⟩

/-! ### Chains -/

/-- The links lead from `head` through the listed nodes to the null address. -/
def Chain (n : ℕ) (mem : ℕ → UInt8) : ℕ → List ℕ → Prop
  | head, [] => head = 0
  | head, a :: l => head = a ∧ a ≠ 0 ∧ Chain n mem (load n mem a) l

/-- A chain does not change with memory outside its links. -/
lemma Chain.congr : ∀ {head : ℕ}, Chain n mem head l →
    (∀ a ∈ l, ∀ x, Region.Has ⟨a, n⟩ x → mem x = mem' x) → Chain n mem' head l := by
  induction l with
  | nil => exact fun h _ => h
  | cons a l ih =>
    rintro head ⟨rfl, hne, hrest⟩ hsame
    refine ⟨rfl, hne, ?_⟩
    rw [← load_congr (hsame head (by simp))]
    exact ih hrest fun b hb => hsame b (by simp [hb])

/-- A store outside the links of a chain keeps it. -/
lemma Chain.store (h : Chain n mem head l) (hap : ∀ b ∈ l, Region.Apart ⟨a, n⟩ ⟨b, n⟩) :
    Chain n (store n mem a v) head l := by
  refine h.congr fun b hb x hx => ?_
  rw [store_of_not_has fun ha => (hap b hb).not_has ha hx]

/-- Storing the head in a new node puts the node in front. -/
lemma Chain.push (h : Chain n mem head l) (hhead : head < 256 ^ n) (hne : a ≠ 0)
    (hap : ∀ b ∈ l, Region.Apart ⟨a, n⟩ ⟨b, n⟩) :
    Chain n (ByteMemory.store n mem a head) a (a :: l) := by
  refine ⟨rfl, hne, ?_⟩
  rw [load_store_same hhead]
  exact h.store hap

/-- The head of a chain is null or its first node. -/
lemma Chain.head_cases (h : Chain n mem head l) :
    (head = 0 ∧ l = []) ∨
      ∃ l', l = head :: l' ∧ head ≠ 0 ∧ Chain n mem (load n mem head) l' := by
  cases l with
  | nil => exact Or.inl ⟨h, rfl⟩
  | cons a l =>
    obtain ⟨rfl, hne, hrest⟩ := h
    exact Or.inr ⟨l, rfl, hne, hrest⟩

end PureStd.ByteMemory
