/-
What the functions of the allocator compute.

The size classes are the powers of two from 16 to 4096; a request is served by the
first class that holds both its size and its alignment.  An arena is cut into blocks of
one class (`carve`), and the loop of `refill` links exactly these blocks in front of the
list (`refillLoop_chain`).  `map_cases` is all that is used of the kernel.
-/
import PureStd.Alloc.Allocator
import PureStd.Lib.WordMask

namespace PureStd.Alloc

open ByteMemory

/-! ### Rounding -/

/-- Rounding up to a power of two, for a number that leaves room for it. -/
lemma roundUp_eq {w : PtrWidth} {v k : ℕ} (hk : k ≤ w.bits) (h : v + 2 ^ k - 1 < w.size) :
    roundUp w v (2 ^ k) = (v + 2 ^ k - 1) / 2 ^ k * 2 ^ k := by
  rw [roundUp, PtrWidth.wrap_of_lt h, PtrWidth.size, and_clear_low hk h]

lemma roundUp_gran (w : PtrWidth) {v : ℕ} (h : v ≤ w.isizeMax) :
    roundUp w v gran = (v + 16383) / 16384 * 16384 := by
  have hsize := w.two_mul_isizeMax
  have hbig : 16384 ≤ w.isizeMax := by
    cases w <;> norm_num [PtrWidth.isizeMax, PtrWidth.bits]
  have hk : 14 ≤ w.bits := by cases w <;> norm_num [PtrWidth.bits]
  have hround := roundUp_eq (v := v) hk (by omega)
  norm_num at hround
  exact hround

/-- What is mapped for a large block has whole pages on every target but wasm, where a
page is larger. -/
lemma le_pages (p : Platform) (len : ℕ) : len ≤ p.pages len := by
  have hpos : 0 < p.page := by cases p <;> simp [Platform.page]
  have hdiv := Nat.div_add_mod (len + p.page - 1) p.page
  have hmod := Nat.mod_lt (len + p.page - 1) hpos
  rw [Platform.pages, Nat.mul_comm]
  omega

lemma arena_eq : arena = 1048576 := by
  rw [arena, Nat.one_shiftLeft]

lemma pages_arena (p : Platform) : p.pages arena = arena := by
  cases p <;> norm_num [Platform.pages, Platform.page, arena_eq]

section Layout

variable {w : PtrWidth} (layout : Layout w)

lemma Layout.align_pos : 0 < layout.align := by
  obtain ⟨k, hk⟩ := layout.align_pow
  rw [hk]
  positivity

lemma Layout.size_le : layout.size ≤ w.isizeMax := by
  have hfits := layout.fits
  have hdiv := Nat.div_add_mod (layout.size + layout.align - 1) layout.align
  have hmod := Nat.mod_lt (layout.size + layout.align - 1) layout.align_pos
  rw [Nat.mul_comm] at hfits
  omega

lemma Layout.size_le_roundUp : layout.size ≤ roundUp w layout.size gran := by
  rw [roundUp_gran w layout.size_le]
  omega

end Layout

/-! ### Size classes -/

/-- The loop of `class_for` finds the first power of two that is large enough. -/
lemma classForLoop_spec (need shift : ℕ) :
    shift ≤ classForLoop need shift ∧ need ≤ 2 ^ classForLoop need shift ∧
      (classForLoop need shift = shift ∨ 2 ^ (classForLoop need shift - 1) < need) := by
  fun_induction classForLoop need shift with
  | case1 shift hlt ih =>
    obtain ⟨hle, hneed, hlast⟩ := ih
    rw [Nat.one_shiftLeft] at hlt
    refine ⟨by omega, hneed, Or.inr ?_⟩
    rcases hlast with heq | hlast
    · rwa [heq, Nat.add_sub_cancel]
    · exact hlast
  | case2 shift hge =>
    rw [Nat.one_shiftLeft] at hge
    exact ⟨le_refl _, by omega, Or.inl rfl⟩

lemma classSize_eq (idx : ℕ) : classSize idx = 2 ^ (idx + 4) := Nat.one_shiftLeft _

lemma classSize_dvd {idx : ℕ} (h : idx < numClasses) : classSize idx ∣ 4096 := by
  rw [classSize_eq, show 4096 = 2 ^ 12 by norm_num]
  refine pow_dvd_pow 2 ?_
  change idx < 9 at h
  omega

lemma classSize_ge (idx : ℕ) : 16 ≤ classSize idx := by
  rw [classSize_eq, pow_add]
  have : 0 < 2 ^ idx := by positivity
  omega

/-- A small request has a class, and its size and alignment fit in a block of it. -/
lemma classFor_some {size align idx : ℕ} (h : classFor size align = some idx) :
    idx < numClasses ∧ size ≤ classSize idx ∧ align ≤ classSize idx := by
  rw [classFor] at h
  split at h
  · exact absurd h (by simp)
  · rename_i hsmall
    have hidx := Option.some.inj h
    obtain ⟨hle, hneed, hlast⟩ :=
      classForLoop_spec (max (max size align) (1 <<< minShift)) minShift
    rw [show (1 <<< minShift : ℕ) = 16 from rfl, show minShift = 4 from rfl] at *
    change ¬ max (max size align) 16 > 4096 at hsmall
    have hlt : classForLoop (max (max size align) 16) 4 < 13 := by
      by_contra hge
      have hpow : 2 ^ 12 ≤ 2 ^ (classForLoop (max (max size align) 16) 4 - 1) :=
        Nat.pow_le_pow_right (by norm_num) (by omega)
      rcases hlast with heq | hlast <;> omega
    rw [classSize_eq, ← hidx, Nat.sub_add_cancel hle]
    refine ⟨?_, by omega, by omega⟩
    change _ < 9
    omega

lemma classFor_of_align {size align : ℕ} (h : 4096 < align) : classFor size align = none := by
  rw [classFor, if_pos]
  change max (max size align) 16 > 4096
  omega

/-! ### The kernel -/

/-- `map` fails, or returns the base of a fresh region of whole pages. -/
lemma map_cases {p : Platform} {k : Kernel} {h : Heap} (hk : k.Ok p h) (len : ℕ) :
    map p k h len = (0, h) ∨
    ∃ r : Region, map p k h len = (r.base, h.mapRegion r) ∧ p.page ∣ r.base ∧
      r.len = p.pages len ∧ h.Fresh p r := by
  have hmmap : (∀ len base, k.ask len = some base → p.page ∣ base ∧ h.Fresh p ⟨base, p.pages len⟩) →
      mapMmap p k h len = (0, h) ∨
      ∃ r : Region, mapMmap p k h len = (r.base, h.mapRegion r) ∧ p.page ∣ r.base ∧
        r.len = p.pages len ∧ h.Fresh p r := by
    intro hk
    rw [mapMmap]
    cases hask : k.ask len with
    | none => exact Or.inl rfl
    | some base =>
      obtain ⟨hdvd, hfresh⟩ := hk len base hask
      exact Or.inr ⟨⟨base, p.pages len⟩, rfl, hdvd, rfl, hfresh⟩
  cases p with
  | linux | macosX64 | macosArm64 => exact hmmap hk
  | wasm =>
    rw [map, mapWasm]
    cases hask : k.ask ((len + Platform.wasm.page - 1) / Platform.wasm.page) with
    | none => exact Or.inl rfl
    | some prev =>
      exact Or.inr ⟨⟨prev * Platform.wasm.page, Platform.wasm.pages len⟩, rfl,
        Dvd.intro_left _ rfl, rfl, hk _ prev hask⟩

/-! ### Carving an arena -/

/-- The first `count` blocks from `base` on. -/
def carve (base block count : ℕ) : List ℕ := (List.range count).map fun i => base + i * block

lemma mem_carve {base block count x : ℕ} :
    x ∈ carve base block count ↔ ∃ i < count, x = base + i * block := by
  simp [carve, eq_comm]

lemma carve_succ (base block count : ℕ) :
    carve base block (count + 1) = carve base block count ++ [base + count * block] := by
  rw [carve, List.range_succ, List.map_append]
  rfl

/-- Blocks at different places of an arena are apart. -/
lemma apart_of_lt {base block i j n : ℕ} (hij : i < j) (hn : n ≤ block) :
    Region.Apart ⟨base + i * block, n⟩ ⟨base + j * block, n⟩ := by
  have hstep : (i + 1) * block ≤ j * block := Nat.mul_le_mul_right _ hij
  left
  change base + i * block + n ≤ base + j * block
  rw [Nat.succ_mul] at hstep
  omega

/-- The loop of `refill` links the blocks of the arena in front of the list. -/
lemma refillLoop_chain {w : PtrWidth} {base block : ℕ} (hbase : base ≠ 0)
    (hblock : w.bytes ≤ block) (i : ℕ) :
    ∀ {next : ℕ} {mem : ℕ → UInt8} {l : List ℕ}, Chain w.bytes mem next l → next < w.size →
      base + i * block ≤ w.size →
      (∀ b ∈ l, ∀ j < i, Region.Apart ⟨base + j * block, w.bytes⟩ ⟨b, w.bytes⟩) →
      Chain w.bytes (refillLoop w base block i next mem).2 (refillLoop w base block i next mem).1
        (carve base block i ++ l) := by
  induction i with
  | zero => exact fun hchain _ _ _ => hchain
  | succ i ih =>
    intro next mem l hchain hnext hfits hap
    have hpos : 0 < block := lt_of_lt_of_le (by cases w <;> decide) hblock
    rw [Nat.succ_mul] at hfits
    have hpush := hchain.push (a := base + i * block) (by rwa [← w.size_eq_bytes])
      (by omega) fun b hb => hap b hb i (by omega)
    have hrest := ih hpush (by omega) (by omega) ?_
    · rw [carve_succ, List.append_assoc]
      exact hrest
    · intro b hb j hj
      rcases List.mem_cons.1 hb with rfl | hb
      · exact apart_of_lt hj hblock
      · exact hap b hb j (by omega)

/-- The loop of `refill` writes only to the arena. -/
lemma refillLoop_frame {w : PtrWidth} {base block : ℕ} (hblock : w.bytes ≤ block) (i : ℕ) :
    ∀ {next : ℕ} {mem : ℕ → UInt8} {x : ℕ}, ¬ Region.Has ⟨base, i * block⟩ x →
      (refillLoop w base block i next mem).2 x = mem x := by
  induction i with
  | zero => exact fun _ => rfl
  | succ i ih =>
    intro next mem x hx
    have hx' : x < base ∨ base + (i * block + block) ≤ x := by
      by_contra hno
      push Not at hno
      refine hx ⟨hno.1, ?_⟩
      change x < base + (i + 1) * block
      rw [Nat.succ_mul]
      exact hno.2
    have hout : ¬ Region.Has ⟨base, i * block⟩ x := by
      rintro ⟨hlo, hhi⟩
      change base ≤ x at hlo
      change x < base + i * block at hhi
      omega
    rw [refillLoop, ih hout, store_of_not_has]
    rintro ⟨hlo, hhi⟩
    change base + i * block ≤ x at hlo
    change x < base + i * block + w.bytes at hhi
    omega

end PureStd.Alloc
