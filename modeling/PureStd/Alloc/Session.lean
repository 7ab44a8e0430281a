/-
Sessions with the allocator, and the invariant of the heap.

A session is a heap and the blocks that are live in it.  Its steps are the calls of
`alloc` and `dealloc` that the contract of `GlobalAlloc` allows, and writes of the
program into live blocks.

The invariant says where every block is.  The allocator has mapped some arenas, each cut
into blocks of one class, and a region for every large live block; these regions are
apart.  The blocks of the arenas are, without repetition or loss, the nodes of the free
lists and the small live blocks (`HeapInv.blocks`).  Disjointness of blocks is not part
of the invariant: it follows from that of the regions.
-/
import PureStd.Alloc.FreeList
import PureStd.Lib.Transition

namespace PureStd.Alloc

open ByteMemory

variable {p : Platform} {x : ℕ × ℕ} {r s : Region}

/-! ### Sessions -/

/-- A live block: what `alloc` returned for a layout, and what that call had the kernel
do. -/
structure Block (p : Platform) where
  ptr : ℕ
  layout : Layout p.width
  calls : List SysCall

namespace Block

/-- The class of the block. -/
def cls (b : Block p) : Option ℕ := classFor b.layout.size b.layout.align

/-- The bytes that belong to the block. -/
def region (b : Block p) : Region :=
  match b.cls with
  | some idx => ⟨b.ptr, classSize idx⟩
  | none => ⟨b.ptr, p.pages (roundUp p.width b.layout.size gran)⟩

lemma region_base (b : Block p) : b.region.base = b.ptr := by
  rw [region]
  split <;> rfl

/-- A block has at least the bytes that were asked for. -/
lemma size_le_region (b : Block p) : b.layout.size ≤ b.region.len := by
  rw [region]
  split
  · rename_i idx hcls
    exact (classFor_some hcls).2.1
  · exact b.layout.size_le_roundUp.trans (le_pages p _)

lemma region_len_pos (b : Block p) : 0 < b.region.len :=
  lt_of_lt_of_le b.layout.size_pos b.size_le_region

end Block

/-- A heap and its live blocks. -/
structure Session (p : Platform) where
  heap : Heap
  live : List (Block p)

/-- The calls that the contract of `GlobalAlloc` allows, and the writes of the program. -/
inductive Step (p : Platform) : Session p → Session p → Prop
  | alloc {s : Session p} {k : Kernel} {layout : Layout p.width} {h : Heap} {ptr : ℕ}
      {new : List SysCall} (hk : k.Ok p s.heap)
      (hrun : alloc p k s.heap layout = some (h, ptr)) (hnew : h.calls = s.heap.calls ++ new) :
      Step p s ⟨h, if ptr = 0 then s.live else ⟨ptr, layout, new⟩ :: s.live⟩
  | dealloc {s : Session p} {k : Kernel} {b : Block p} {l₁ l₂ : List (Block p)} {h : Heap}
      (hb : s.live = l₁ ++ b :: l₂) (hrun : dealloc p k s.heap b.ptr b.layout = some h) :
      Step p s ⟨h, l₁ ++ l₂⟩
  | write {s : Session p} {b : Block p} {a : ℕ} {v : UInt8} (hb : b ∈ s.live)
      (ha : b.ptr ≤ a ∧ a < b.ptr + b.layout.size) :
      Step p s ⟨{ s.heap with mem := Function.update s.heap.mem a v }, s.live⟩

/-- A session begins with a new allocator in any process. -/
def Started (p : Platform) (s : Session p) : Prop :=
  ∃ mem mapped, s = ⟨Heap.new mem mapped, []⟩

/-! ### Where the blocks are -/

/-- The nodes of the free lists, with their classes. -/
def freeBlocks (chains : ℕ → List ℕ) : List (ℕ × ℕ) :=
  (List.range numClasses).flatMap fun idx => (chains idx).map fun b => (idx, b)

/-- The small live blocks, with their classes. -/
def smallLive (live : List (Block p)) : List (ℕ × ℕ) :=
  live.filterMap fun b => b.cls.map fun idx => (idx, b.ptr)

/-- The large live blocks. -/
def largeLive (live : List (Block p)) : List (Block p) := live.filter fun b => b.cls.isNone

/-- The blocks of an arena, given by its class and its base. -/
def arenaBlocks (a : ℕ × ℕ) : List (ℕ × ℕ) :=
  (carve a.2 (classSize a.1) (arena / classSize a.1)).map fun b => (a.1, b)

/-- The bytes of an arena. -/
def arenaRegion (a : ℕ × ℕ) : Region := ⟨a.2, arena⟩

/-- The bytes of a block of a class. -/
def blockRegion (x : ℕ × ℕ) : Region := ⟨x.2, classSize x.1⟩

/-- The regions that the allocator holds. -/
def regions (arenas : List (ℕ × ℕ)) (live : List (Block p)) : List Region :=
  arenas.map arenaRegion ++ (largeLive live).map Block.region

/-- The region is in memory of the process, away from the null address. -/
structure Owned (p : Platform) (mapped : ℕ → Bool) (r : Region) : Prop where
  ne_null : r.base ≠ 0
  pos : 0 < r.len
  fits : r.base + r.len ≤ p.width.size
  mapped : ∀ a, r.Has a → mapped a = true

/-- The invariant of the heap, for the arenas mapped so far and the free lists. -/
structure HeapInv (p : Platform) (h : Heap) (live : List (Block p)) (arenas : List (ℕ × ℕ))
    (chains : ℕ → List ℕ) : Prop where
  heads : h.free.length = numClasses
  chain : ∀ (idx : ℕ) head, h.free[idx]? = some head →
    Chain p.width.bytes h.mem head (chains idx)
  blocks : (freeBlocks chains ++ smallLive live).Perm (arenas.flatMap arenaBlocks)
  classes : ∀ a ∈ arenas, a.1 < numClasses
  apart : (regions arenas live).Pairwise Region.Apart
  owned : ∀ r ∈ regions arenas live, Owned p h.mapped r
  aligned : ∀ r ∈ regions arenas live, p.page ∣ r.base
  arenas_mapped : ∀ a ∈ arenas, SysCall.map (arenaRegion a) ∈ h.calls
  large_mapped : ∀ b ∈ largeLive live, b.calls = [.map b.region]

/-! ### Lists of blocks -/

lemma mem_freeBlocks {chains : ℕ → List ℕ} :
    x ∈ freeBlocks chains ↔ x.1 < numClasses ∧ x.2 ∈ chains x.1 := by
  rw [freeBlocks, List.mem_flatMap]
  constructor
  · rintro ⟨idx, hidx, hx⟩
    obtain ⟨b, hb, rfl⟩ := List.mem_map.1 hx
    exact ⟨List.mem_range.1 hidx, hb⟩
  · rintro ⟨hidx, hx⟩
    exact ⟨x.1, List.mem_range.2 hidx, List.mem_map.2 ⟨x.2, hx, rfl⟩⟩

/-- Putting nodes in front of one list adds them to the free blocks. -/
lemma freeBlocks_update {idx : ℕ} (h : idx < numClasses) (chains : ℕ → List ℕ) (A l : List ℕ) :
    (freeBlocks (Function.update chains idx (A ++ l))).Perm
      (A.map (fun b => (idx, b)) ++ freeBlocks (Function.update chains idx l)) := by
  -- the class `idx` first, then the others, which the update does not touch
  have hsplit : ∀ l, (freeBlocks (Function.update chains idx l)).Perm
      (l.map (fun b => (idx, b)) ++ ((List.range numClasses).erase idx).flatMap
        fun i => (chains i).map fun b => (i, b)) := by
    intro l
    refine (List.Perm.flatMap_right _ (List.perm_cons_erase (List.mem_range.2 h))).trans ?_
    rw [List.flatMap_cons, Function.update_self]
    refine List.Perm.append_left _ (List.Perm.of_eq (List.flatMap_congr fun i hi => ?_))
    have hne : i ≠ idx := by
      rintro rfl
      exact List.Nodup.not_mem_erase List.nodup_range hi
    rw [Function.update_of_ne hne]
  refine (hsplit (A ++ l)).trans ?_
  rw [List.map_append, List.append_assoc]
  exact (hsplit l).symm.append_left _

lemma within_arena {a : ℕ × ℕ} (ha : a.1 < numClasses) (hx : x ∈ arenaBlocks a) :
    x.1 = a.1 ∧ (blockRegion x).Within (arenaRegion a) ∧ ∃ i, x.2 = a.2 + i * classSize a.1 := by
  obtain ⟨b, hb, rfl⟩ := List.mem_map.1 hx
  obtain ⟨i, hi, rfl⟩ := mem_carve.1 hb
  have hdvd : classSize a.1 ∣ arena :=
    (classSize_dvd ha).trans (by rw [arena_eq]; norm_num)
  have hend : (i + 1) * classSize a.1 ≤ arena := by
    calc (i + 1) * classSize a.1 ≤ arena / classSize a.1 * classSize a.1 :=
          Nat.mul_le_mul_right _ hi
      _ = arena := Nat.div_mul_cancel hdvd
  rw [Nat.succ_mul] at hend
  refine ⟨rfl, ⟨?_, ?_⟩, i, rfl⟩
  · change a.2 ≤ a.2 + i * classSize a.1
    omega
  · change a.2 + i * classSize a.1 + classSize a.1 ≤ a.2 + arena
    omega

lemma arenaBlocks_apart (a : ℕ × ℕ) :
    (arenaBlocks a).Pairwise fun x y => (blockRegion x).Apart (blockRegion y) := by
  rw [arenaBlocks, carve, List.map_map, List.pairwise_map]
  exact List.pairwise_lt_range.imp fun hij => apart_of_lt hij (le_refl _)

/-- The blocks of arenas that are apart are apart. -/
lemma carved_apart {arenas : List (ℕ × ℕ)} (hcls : ∀ a ∈ arenas, a.1 < numClasses)
    (hap : (arenas.map arenaRegion).Pairwise Region.Apart) :
    (arenas.flatMap arenaBlocks).Pairwise fun x y => (blockRegion x).Apart (blockRegion y) := by
  rw [List.pairwise_flatMap]
  refine ⟨fun a _ => arenaBlocks_apart a, ?_⟩
  rw [List.pairwise_map] at hap
  refine hap.imp_of_mem fun {a a'} ha ha' hapart x hx y hy => ?_
  exact hapart.within (within_arena (hcls a ha) hx).2.1 (within_arena (hcls a' ha') hy).2.1

/-! ### What the invariant gives -/

lemma Owned.within {mapped : ℕ → Bool} (hs : Owned p mapped s) (hr : r.Within s)
    (hpos : 0 < r.len) : Owned p mapped r := by
  have := hs.ne_null
  have := hs.fits
  obtain ⟨hlo, hhi⟩ := hr
  exact ⟨by omega, hpos, by omega, fun a ha => hs.mapped a (Region.Within.has ⟨hlo, hhi⟩ ha)⟩

namespace HeapInv

variable {h : Heap} {live : List (Block p)} {arenas : List (ℕ × ℕ)} {chains : ℕ → List ℕ}
  {b : Block p}

/-- Every block, free or live, lies in an arena of its class. -/
lemma block_cases (hi : HeapInv p h live arenas chains)
    (hx : x ∈ freeBlocks chains ++ smallLive live) :
    ∃ a ∈ arenas, x.1 = a.1 ∧ (blockRegion x).Within (arenaRegion a) ∧
      ∃ i, x.2 = a.2 + i * classSize a.1 := by
  obtain ⟨a, ha, hxa⟩ := List.mem_flatMap.1 (hi.blocks.mem_iff.1 hx)
  exact ⟨a, ha, within_arena (hi.classes a ha) hxa⟩

lemma arena_owned (hi : HeapInv p h live arenas chains) {a : ℕ × ℕ} (ha : a ∈ arenas) :
    Owned p h.mapped (arenaRegion a) :=
  hi.owned _ (List.mem_append_left _ (List.mem_map_of_mem ha))

lemma block_owned (hi : HeapInv p h live arenas chains)
    (hx : x ∈ freeBlocks chains ++ smallLive live) : Owned p h.mapped (blockRegion x) := by
  obtain ⟨a, ha, -, hw, -⟩ := hi.block_cases hx
  exact (hi.arena_owned ha).within hw (lt_of_lt_of_le (by norm_num) (classSize_ge x.1))

/-- All blocks, free or live, are apart. -/
lemma blocks_apart (hi : HeapInv p h live arenas chains) :
    (freeBlocks chains ++ smallLive live).Pairwise fun x y =>
      (blockRegion x).Apart (blockRegion y) := by
  have hap := carved_apart hi.classes (List.pairwise_append.1 hi.apart).1
  exact hap.perm hi.blocks.symm fun hxy => hxy.symm

/-- A block is apart from a large live block. -/
lemma block_apart_large (hi : HeapInv p h live arenas chains)
    (hx : x ∈ freeBlocks chains ++ smallLive live) (hb : b ∈ largeLive live) :
    (blockRegion x).Apart b.region := by
  obtain ⟨a, ha, -, hw, -⟩ := hi.block_cases hx
  have hap := (List.pairwise_append.1 hi.apart).2.2 (arenaRegion a) (List.mem_map_of_mem ha)
    b.region (List.mem_map_of_mem hb)
  exact hap.within hw ⟨le_refl _, le_refl _⟩

/-- A live block is small and listed with its class, or large. -/
lemma live_cases (hb : b ∈ live) :
    (∃ idx, b.cls = some idx ∧ (idx, b.ptr) ∈ smallLive live ∧
      b.region = blockRegion (idx, b.ptr)) ∨ (b.cls = none ∧ b ∈ largeLive live) := by
  cases hcls : b.cls with
  | none => exact Or.inr ⟨rfl, List.mem_filter.2 ⟨hb, by rw [hcls]; rfl⟩⟩
  | some idx =>
    refine Or.inl ⟨idx, rfl, List.mem_filterMap.2 ⟨b, hb, by rw [hcls]; rfl⟩, ?_⟩
    rw [Block.region, hcls]
    rfl

lemma live_owned (hi : HeapInv p h live arenas chains) (hb : b ∈ live) :
    Owned p h.mapped b.region := by
  rcases live_cases hb with ⟨idx, -, hmem, heq⟩ | ⟨-, hlarge⟩
  · rw [heq]
    exact hi.block_owned (List.mem_append_right _ hmem)
  · exact hi.owned _ (List.mem_append_right _ (List.mem_map_of_mem hlarge))

/-- A free block is apart from every live block. -/
lemma free_apart_live (hi : HeapInv p h live arenas chains) (hx : x ∈ freeBlocks chains)
    (hb : b ∈ live) : (blockRegion x).Apart b.region := by
  rcases live_cases hb with ⟨idx, -, hmem, heq⟩ | ⟨-, hlarge⟩
  · rw [heq]
    exact (List.pairwise_append.1 hi.blocks_apart).2.2 x hx _ hmem
  · exact hi.block_apart_large (List.mem_append_left _ hx) hlarge

/-- The link of a node is in its block. -/
lemma link_within (idx b : ℕ) : Region.Within ⟨b, p.width.bytes⟩ (blockRegion (idx, b)) := by
  have hbytes : p.width.bytes ≤ 16 := by cases p.width <;> decide
  exact ⟨le_refl _, Nat.add_le_add_left (hbytes.trans (classSize_ge idx)) b⟩

/-- Memory outside the free blocks has no part in the free lists. -/
lemma chain_congr (hi : HeapInv p h live arenas chains) {mem : ℕ → UInt8}
    (hsame : ∀ x ∈ freeBlocks chains, ∀ a, (blockRegion x).Has a → h.mem a = mem a) :
    ∀ (idx : ℕ) head, h.free[idx]? = some head → Chain p.width.bytes mem head (chains idx) := by
  intro idx head hhead
  refine (hi.chain idx head hhead).congr fun b hb a ha => ?_
  have hidx : idx < numClasses := by
    rw [← hi.heads]
    exact (List.getElem?_eq_some_iff.1 hhead).1
  exact hsame (idx, b) (mem_freeBlocks.2 ⟨hidx, hb⟩) a ((link_within idx b).has ha)

/-! ### How the invariant is kept -/

/-- A write of the program into a live block. -/
lemma write (hi : HeapInv p h live arenas chains) (hb : b ∈ live) {a : ℕ}
    (ha : b.ptr ≤ a ∧ a < b.ptr + b.layout.size) (v : UInt8) :
    HeapInv p { h with mem := Function.update h.mem a v } live arenas chains := by
  have hin : b.region.Has a := by
    rw [Region.Has, b.region_base]
    have := b.size_le_region
    omega
  refine { hi with chain := hi.chain_congr fun x hx a' ha' => ?_ }
  have hne : a' ≠ a := by
    rintro rfl
    exact (hi.free_apart_live hx hb).not_has ha' hin
  exact (Function.update_of_ne hne _ _).symm

/-- A region that is not mapped is apart from what the allocator holds. -/
lemma fresh_apart (hs : Owned p h.mapped s) (hr : h.Fresh p r) (hpos : 0 < r.len) : r.Apart s := by
  refine Region.apart_of_forall hpos hs.pos fun a ha ha' => ?_
  have := hr.2 a ha
  rw [hs.mapped a ha'] at this
  exact absurd this (by simp)

/-- What the allocator holds stays mapped when the kernel grants a region. -/
lemma owned_mapRegion (hs : Owned p h.mapped s) : Owned p (h.mapRegion r).mapped s := by
  refine ⟨hs.ne_null, hs.pos, hs.fits, fun a ha => ?_⟩
  change (if r.Has a then true else h.mapped a) = true
  rw [hs.mapped a ha]
  exact ite_self true

/-- The kernel grants a region that the allocator does not take. -/
lemma mapRegion (hi : HeapInv p h live arenas chains) (hr : h.Fresh p r) (hpos : 0 < r.len) :
    HeapInv p (h.mapRegion r) live arenas chains := by
  refine ⟨hi.heads, hi.chain_congr fun x hx a ha => ?_, hi.blocks, hi.classes, hi.apart,
    fun s hs => owned_mapRegion (hi.owned s hs), hi.aligned,
    fun a ha => List.mem_append_left _ (hi.arenas_mapped a ha), hi.large_mapped⟩
  have hap := fresh_apart (hi.block_owned (List.mem_append_left _ hx)) hr hpos
  exact (if_neg fun hin => hap.not_has hin ha).symm

/-- The granted region itself. -/
lemma owned_granted (hr : h.Fresh p r) (hpos : 0 < r.len) (hne : r.base ≠ 0) :
    Owned p (h.mapRegion r).mapped r :=
  ⟨hne, hpos, hr.1, fun _ ha => if_pos ha⟩

end HeapInv

end PureStd.Alloc
