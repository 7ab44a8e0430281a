/-
Which alignments the allocator keeps.

A small block is at a multiple of its class size inside an arena, which is enough for
every alignment that has a class.  A large block is at the start of a mapping, so it is
as aligned as the pages of the target and no more.  The test against `GRAN` in `alloc`
lets alignments of 8192 and 16384 through on targets whose pages are smaller: the
allocator keeps an alignment exactly if a page has it, or if it refuses it.
-/
import PureStd.Alloc.HeapSafety

namespace PureStd.Alloc

open ByteMemory

variable {p : Platform}

/-- Whatever the session and the kernel, a request with this layout that does not fail
returns an aligned address. -/
def KeepsAlignment (p : Platform) (layout : Layout p.width) : Prop :=
  ∀ s, Reachable (Started p) (Step p) s → ∀ k : Kernel, k.Ok p s.heap → ∀ h ptr,
    alloc p k s.heap layout = some (h, ptr) → ptr ≠ 0 → layout.align ∣ ptr

lemma two_pow_dvd_of_le {a b n : ℕ} (ha : ∃ k, a = 2 ^ k) (hb : ∃ k, b = 2 ^ k) (hab : a ≤ b)
    (hn : b ∣ n) : a ∣ n := by
  obtain ⟨i, rfl⟩ := ha
  obtain ⟨j, rfl⟩ := hb
  exact (pow_dvd_pow 2 ((Nat.pow_le_pow_iff_right (by norm_num)).1 hab)).trans hn

lemma page_pow (p : Platform) : ∃ k, p.page = 2 ^ k := by
  cases p with
  | macosArm64 => exact ⟨14, rfl⟩
  | wasm => exact ⟨16, rfl⟩
  | _ => exact ⟨12, rfl⟩

/-- An alignment that a page has is kept. -/
lemma keepsAlignment_of_le {layout : Layout p.width} (hle : layout.align ≤ p.page) :
    KeepsAlignment p layout := by
  intro s hs k hk h ptr hrun hne
  obtain ⟨h', ptr', new, hrun', -, -, -, arenas, chains, hi⟩ :=
    alloc_spec (session_inv hs) hk layout
  obtain ⟨rfl, rfl⟩ := Prod.mk.inj (Option.some.inj (hrun.symm.trans hrun'))
  rw [if_neg hne] at hi
  have hptr := hi.ptr_aligned List.mem_cons_self
  cases hcls : classFor layout.size layout.align with
  | some idx =>
    rw [Block.cls, hcls] at hptr
    exact two_pow_dvd_of_le layout.align_pow ⟨_, classSize_eq idx⟩ (classFor_some hcls).2.2 hptr
  | none =>
    rw [Block.cls, hcls] at hptr
    exact two_pow_dvd_of_le layout.align_pow (page_pow p) hle hptr

/-- An alignment above `GRAN` is refused. -/
lemma keepsAlignment_of_gt {layout : Layout p.width} (hgt : gran < layout.align) :
    KeepsAlignment p layout := by
  intro s _ k _ h ptr hrun hne
  have hcls : classFor layout.size layout.align = none :=
    classFor_of_align (lt_trans (by decide) hgt)
  simp only [alloc, hcls, if_pos hgt] at hrun
  exact absurd (Prod.mk.inj (Option.some.inj hrun)).2.symm hne

/-- The kernel grants one request at `base`. -/
def oneGrant (len base : ℕ) : Kernel := ⟨fun n => if n = len then some base else none, true⟩

/-- What `mmap` grants is mapped. -/
lemma map_of_ask {k : Kernel} {h : Heap} {len base : ℕ} (hp : p ≠ .wasm)
    (hask : k.ask len = some base) :
    map p k h len = (base, h.mapRegion ⟨base, p.pages len⟩) := by
  cases p with
  | wasm => exact absurd rfl hp
  | _ => simp only [map, mapMmap, hask]

/-- A request with an alignment between a page and `GRAN` is answered with the first
page that the kernel offers. -/
lemma alloc_misaligned (layout : Layout p.width) (hlo : p.page < layout.align)
    (hhi : layout.align ≤ gran) :
    ∃ s, Reachable (Started p) (Step p) s ∧
      ∃ k : Kernel, k.Ok p s.heap ∧ ∃ h, alloc p k s.heap layout = some (h, p.page) := by
  have hwasm : p ≠ .wasm := by
    rintro rfl
    exact absurd (hlo.trans_le hhi) (by decide)
  have hpage : 4096 ≤ p.page ∧ p.page ≤ 16384 := by
    cases p <;> simp_all [Platform.page]
  have hcls : classFor layout.size layout.align = none := classFor_of_align (by omega)
  have hsize := layout.size_le
  set len := roundUp p.width layout.size gran with hlen
  -- the first page after the null page, with room for the whole request
  have hroom : p.page + p.pages len ≤ p.width.size := by
    have hround : len ≤ layout.size + 16383 := by
      rw [hlen, roundUp_gran _ hsize]
      omega
    have hpages : p.pages len ≤ len + p.page - 1 := Nat.div_mul_le_self _ _
    have hwidth := p.width.two_mul_isizeMax
    have hbig : 100000 ≤ p.width.isizeMax := by
      cases p.width <;> norm_num [PtrWidth.isizeMax, PtrWidth.bits]
    omega
  refine ⟨⟨Heap.new (fun _ => 0) fun _ => false, []⟩, .start ⟨_, _, rfl⟩, oneGrant len p.page, ?_,
    (Heap.new (fun _ => 0) fun _ => false).mapRegion ⟨p.page, p.pages len⟩, ?_⟩
  · have hok : ∀ n base, (oneGrant len p.page).ask n = some base → p.page ∣ base ∧
        (Heap.new (fun _ => 0) fun _ => false).Fresh p ⟨base, p.pages n⟩ := by
      intro n base hask
      change (if n = len then some p.page else none) = some base at hask
      split at hask
      · rename_i hn
        cases hask
        exact ⟨dvd_refl _, by rw [hn]; exact hroom, fun _ _ => rfl⟩
      · exact absurd hask (by simp)
    cases p with
    | wasm => exact absurd rfl hwasm
    | _ => exact hok
  · have hmap : map p (oneGrant len p.page) (Heap.new (fun _ => 0) fun _ => false) len
        = (p.page, (Heap.new (fun _ => 0) fun _ => false).mapRegion ⟨p.page, p.pages len⟩) :=
      map_of_ask hwasm (if_pos rfl)
    simp only [alloc, hcls, if_neg (not_lt.2 hhi), ← hlen, hmap]

/-- An alignment is kept exactly if a page has it or the allocator refuses it. -/
theorem keepsAlignment_iff (p : Platform) (layout : Layout p.width) :
    KeepsAlignment p layout ↔ layout.align ≤ p.page ∨ gran < layout.align := by
  constructor
  · intro hkeeps
    by_contra hno
    push Not at hno
    obtain ⟨s, hs, k, hk, h, hrun⟩ := alloc_misaligned layout hno.1 hno.2
    have hpos : 0 < p.page := by cases p <;> simp [Platform.page]
    have hle := Nat.le_of_dvd hpos (hkeeps s hs k hk h p.page hrun hpos.ne')
    omega
  · rintro (hle | hgt)
    · exact keepsAlignment_of_le hle
    · exact keepsAlignment_of_gt hgt

/-- Two pages of Linux, aligned to their size. -/
def twoPages : Layout (Platform.linux .w64).width where
  size := 8192
  align := 8192
  size_pos := by norm_num
  align_pow := ⟨13, by norm_num⟩
  fits := by norm_num [Platform.width, PtrWidth.isizeMax, PtrWidth.bits]

/-- On Linux such a request can be answered with 4096. -/
theorem twoPages_misaligned : ∃ s, Reachable (Started (.linux .w64)) (Step (.linux .w64)) s ∧
    ∃ k : Kernel, k.Ok (.linux .w64) s.heap ∧ ∃ h ptr,
      alloc (.linux .w64) k s.heap twoPages = some (h, ptr) ∧ ptr ≠ 0 ∧ ¬ twoPages.align ∣ ptr := by
  obtain ⟨s, hs, k, hk, h, hrun⟩ :=
    alloc_misaligned (p := .linux .w64) twoPages (by decide) (by decide)
  exact ⟨s, hs, k, hk, h, 4096, hrun, by decide, by decide⟩

end PureStd.Alloc
