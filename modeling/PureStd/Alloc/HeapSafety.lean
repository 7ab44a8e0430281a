/-
The heap is safe in every session.

Each step of a session keeps the invariant of the heap: one lemma for each thing that
can happen to it (an arena is carved, a node is taken from a free list or put on one, a
large block comes or goes), then one lemma for each function of the allocator
(`alloc_spec`, `dealloc_spec`), and the run (`session_inv`).
-/
import PureStd.Alloc.Session

namespace PureStd.Alloc

open ByteMemory

variable {p : Platform}

/-! ### One more block -/

section Cons

variable {b : Block p} {live : List (Block p)} {idx : ℕ}

lemma smallLive_cons_small (h : b.cls = some idx) :
    smallLive (b :: live) = (idx, b.ptr) :: smallLive live := by
  rw [smallLive, List.filterMap_cons_some (by rw [h]; rfl)]
  rfl

lemma smallLive_cons_large (h : b.cls = none) : smallLive (b :: live) = smallLive live := by
  rw [smallLive, List.filterMap_cons_none (by rw [h]; rfl)]
  rfl

lemma largeLive_cons_small (h : b.cls = some idx) : largeLive (b :: live) = largeLive live := by
  rw [largeLive, List.filter_cons_of_neg (by simp [h])]
  rfl

lemma largeLive_cons_large (h : b.cls = none) : largeLive (b :: live) = b :: largeLive live := by
  rw [largeLive, List.filter_cons_of_pos (by simp [h])]
  rfl

lemma regions_cons_small (h : b.cls = some idx) (arenas : List (ℕ × ℕ)) :
    regions arenas (b :: live) = regions arenas live := by
  rw [regions, largeLive_cons_small h]
  rfl

lemma regions_cons_large (h : b.cls = none) (arenas : List (ℕ × ℕ)) :
    (regions arenas (b :: live)).Perm (b.region :: regions arenas live) := by
  rw [regions, largeLive_cons_large h]
  exact List.perm_middle

end Cons

/-- A head of a list of heads after one was set. -/
lemma getElem?_set_cases {l : List ℕ} {i j v x : ℕ} (h : (l.set i v)[j]? = some x) :
    (j = i ∧ x = v) ∨ (j ≠ i ∧ l[j]? = some x) := by
  rw [List.getElem?_set] at h
  split at h
  · rename_i hij
    split at h
    · exact Or.inl ⟨hij.symm, (Option.some.inj h).symm⟩
    · exact absurd h (by simp)
  · rename_i hij
    exact Or.inr ⟨fun hji => hij hji.symm, h⟩

namespace HeapInv

variable {h : Heap} {live live' : List (Block p)} {arenas : List (ℕ × ℕ)} {chains : ℕ → List ℕ}
  {b : Block p} {idx : ℕ}

/-- The invariant does not look at the lock. -/
lemma relock (hi : HeapInv p h live arenas chains) (l : Bool) :
    HeapInv p { h with locked := l } live arenas chains :=
  { hi with }

/-- The invariant does not look at the order of the live blocks. -/
lemma perm_live (hi : HeapInv p h live arenas chains) (hp : live.Perm live') :
    HeapInv p h live' arenas chains := by
  have hregions : (regions arenas live).Perm (regions arenas live') :=
    List.Perm.append_left _ ((hp.filter _).map _)
  exact ⟨hi.heads, hi.chain, ((hp.filterMap _).append_left _).symm.trans hi.blocks, hi.classes,
    hi.apart.perm hregions fun hxy => hxy.symm, fun r hr => hi.owned r (hregions.mem_iff.2 hr),
    fun r hr => hi.aligned r (hregions.mem_iff.2 hr), hi.arenas_mapped,
    fun b hb => hi.large_mapped b ((hp.filter _).mem_iff.2 hb)⟩

lemma exists_head (hi : HeapInv p h live arenas chains) (hidx : idx < numClasses) :
    ∃ head, h.free[idx]? = some head :=
  ⟨_, List.getElem?_eq_getElem (by rwa [hi.heads])⟩

lemma ptr_ne_null (hi : HeapInv p h live arenas chains) (hb : b ∈ live) : b.ptr ≠ 0 := by
  rw [← b.region_base]
  exact (hi.live_owned hb).ne_null

/-- The head of a free list is an address. -/
lemma head_lt (hi : HeapInv p h live arenas chains) {head : ℕ}
    (hhead : h.free[idx]? = some head) : head < p.width.size := by
  rcases (hi.chain idx head hhead).head_cases with ⟨rfl, -⟩ | ⟨l, hl, -⟩
  · exact Nat.two_pow_pos _
  · have hidx : idx < numClasses := by
      rw [← hi.heads]
      exact (List.getElem?_eq_some_iff.1 hhead).1
    have hfree : (idx, head) ∈ freeBlocks chains := mem_freeBlocks.2 ⟨hidx, by rw [hl]; simp⟩
    have howned := hi.block_owned (List.mem_append_left _ hfree)
    have hfits := howned.fits
    have hpos := howned.pos
    change head + _ ≤ _ at hfits
    omega

/-! ### Large blocks -/

/-- A large block gets a region of its own. -/
lemma addLarge (hi : HeapInv p h live arenas chains) (hcls : b.cls = none)
    (hr : h.Fresh p b.region) (hne : b.ptr ≠ 0) (hal : p.page ∣ b.ptr)
    (hcalls : b.calls = [.map b.region]) :
    HeapInv p (h.mapRegion b.region) (b :: live) arenas chains := by
  have hmap := hi.mapRegion hr b.region_len_pos
  have hperm : (regions arenas (b :: live)).Perm (b.region :: regions arenas live) :=
    regions_cons_large hcls arenas
  refine ⟨hmap.heads, hmap.chain, ?_, hmap.classes, ?_, ?_, ?_, hmap.arenas_mapped, ?_⟩
  · rw [smallLive_cons_large hcls]
    exact hmap.blocks
  · refine List.Pairwise.perm ?_ hperm.symm fun hxy => hxy.symm
    exact List.pairwise_cons.2
      ⟨fun s hs => fresh_apart (hi.owned s hs) hr b.region_len_pos, hmap.apart⟩
  · have hb := owned_granted hr b.region_len_pos (by rwa [b.region_base])
    exact fun s hs => List.forall_mem_cons.2 ⟨hb, hmap.owned⟩ s (hperm.mem_iff.1 hs)
  · intro s hs
    rcases List.mem_cons.1 (hperm.mem_iff.1 hs) with rfl | hs
    · rwa [b.region_base]
    · exact hmap.aligned s hs
  · rw [largeLive_cons_large hcls]
    exact List.forall_mem_cons.2 ⟨hcalls, hmap.large_mapped⟩

/-- A large block is gone, and its region stays mapped. -/
lemma dropLarge (hi : HeapInv p h (b :: live) arenas chains) (hcls : b.cls = none) :
    HeapInv p h live arenas chains := by
  have hperm : (regions arenas (b :: live)).Perm (b.region :: regions arenas live) :=
    regions_cons_large hcls arenas
  have hsub : ∀ s ∈ regions arenas live, s ∈ regions arenas (b :: live) :=
    fun s hs => hperm.mem_iff.2 (List.mem_cons_of_mem _ hs)
  refine ⟨hi.heads, hi.chain, ?_, hi.classes, ?_, fun s hs => hi.owned s (hsub s hs),
    fun s hs => hi.aligned s (hsub s hs), hi.arenas_mapped, fun b' hb' => hi.large_mapped b' ?_⟩
  · rw [← smallLive_cons_large hcls]
    exact hi.blocks
  · exact (List.pairwise_cons.1 (hi.apart.perm hperm fun hxy => hxy.symm)).2
  · rw [largeLive_cons_large hcls]
    exact List.mem_cons_of_mem _ hb'

/-- A large block is gone, and so is its region. -/
lemma unmapLarge (hi : HeapInv p h (b :: live) arenas chains) (hcls : b.cls = none) :
    HeapInv p (h.unmapRegion b.region) live arenas chains := by
  have hdrop := hi.dropLarge hcls
  have hperm : (regions arenas (b :: live)).Perm (b.region :: regions arenas live) :=
    regions_cons_large hcls arenas
  have hap := (List.pairwise_cons.1 (hi.apart.perm hperm fun hxy => hxy.symm)).1
  refine { hdrop with
    owned := ?_
    arenas_mapped := fun a ha => List.mem_append_left _ (hdrop.arenas_mapped a ha) }
  intro s hs
  obtain ⟨hne, hpos, hfits, hmapped⟩ := hdrop.owned s hs
  refine ⟨hne, hpos, hfits, fun a ha => ?_⟩
  change (if b.region.Has a then false else h.mapped a) = true
  rw [if_neg fun hin => (hap s hs).not_has hin ha]
  exact hmapped a ha

/-! ### Free lists -/

/-- An arena is carved into blocks, which go to the front of the free list. -/
lemma addArena (hi : HeapInv p h live arenas chains) (hidx : idx < numClasses) {base : ℕ}
    (hr : h.Fresh p ⟨base, arena⟩) (hne : base ≠ 0) (hal : p.page ∣ base) {head : ℕ}
    (hhead : h.free[idx]? = some head) {next : ℕ} {mem : ℕ → UInt8}
    (hloop : refillLoop p.width base (classSize idx) (arena / classSize idx) head
      (h.mapRegion ⟨base, arena⟩).mem = (next, mem)) :
    HeapInv p { h.mapRegion ⟨base, arena⟩ with mem := mem, free := h.free.set idx next } live
      ((idx, base) :: arenas)
      (Function.update chains idx
        (carve base (classSize idx) (arena / classSize idx) ++ chains idx)) := by
  have hpos : 0 < arena := by rw [arena_eq]; norm_num
  have hmap := hi.mapRegion hr hpos
  have hbytes : p.width.bytes ≤ classSize idx :=
    le_trans (by cases p.width <;> decide) (classSize_ge idx)
  have hcount : arena / classSize idx * classSize idx = arena :=
    Nat.div_mul_cancel ((classSize_dvd hidx).trans (by rw [arena_eq]; norm_num))
  -- the old blocks are apart from the arena
  have hold : ∀ x ∈ freeBlocks chains, Region.Apart ⟨base, arena⟩ (blockRegion x) := fun x hx =>
    fresh_apart (hi.block_owned (List.mem_append_left _ hx)) hr hpos
  have hframe : ∀ x ∈ freeBlocks chains, ∀ a, (blockRegion x).Has a →
      (h.mapRegion ⟨base, arena⟩).mem a = mem a := by
    intro x hx a ha
    have hout : (refillLoop p.width base (classSize idx) (arena / classSize idx) head
        (h.mapRegion ⟨base, arena⟩).mem).2 a = (h.mapRegion ⟨base, arena⟩).mem a := by
      refine refillLoop_frame hbytes _ ?_
      rw [hcount]
      exact fun hin => (hold x hx).not_has hin ha
    rw [hloop] at hout
    exact hout.symm
  refine ⟨by simpa using hi.heads, ?_, ?_, ?_, ?_, ?_, ?_, ?_, hmap.large_mapped⟩
  · intro idx' head' hhead'
    rcases getElem?_set_cases hhead' with ⟨rfl, rfl⟩ | ⟨hne', hhead'⟩
    · -- the new list: the blocks of the arena, then the old list
      have hchain := refillLoop_chain hne hbytes (arena / classSize idx')
        (hmap.chain idx' head hhead)
        (hi.head_lt hhead) (by rw [hcount]; exact hr.1) ?_
      · rw [hloop] at hchain
        rw [Function.update_self]
        exact hchain
      · intro c hc j hj
        have hblock : (idx', base + j * classSize idx') ∈ arenaBlocks (idx', base) :=
          List.mem_map_of_mem (mem_carve.2 ⟨j, hj, rfl⟩)
        have hin := (within_arena hidx hblock).2.1
        have hap := hold (idx', c) (mem_freeBlocks.2 ⟨hidx, hc⟩)
        exact (hap.within hin ⟨le_refl _, le_refl _⟩).within (link_within idx' _)
          (link_within idx' c)
    · rw [Function.update_of_ne hne']
      exact hmap.chain_congr hframe idx' head' hhead'
  · -- all blocks of the new arena are free
    refine ((freeBlocks_update hidx chains _ _).append_right _).trans ?_
    rw [Function.update_eq_self, List.append_assoc, List.flatMap_cons]
    exact hi.blocks.append_left _
  · exact List.forall_mem_cons.2 ⟨hidx, hi.classes⟩
  · exact List.pairwise_cons.2 ⟨fun s hs => fresh_apart (hi.owned s hs) hr hpos, hi.apart⟩
  · exact List.forall_mem_cons.2 ⟨owned_granted hr hpos hne, hmap.owned⟩
  · exact List.forall_mem_cons.2 ⟨hal, hi.aligned⟩
  · exact List.forall_mem_cons.2
      ⟨List.mem_append_right _ (by simp [arenaRegion]), hmap.arenas_mapped⟩

/-- The first node of a free list becomes a live block. -/
lemma pop (hi : HeapInv p h live arenas chains) (hcls : b.cls = some idx)
    (hhead : h.free[idx]? = some b.ptr) (hne : b.ptr ≠ 0) :
    ∃ chains', HeapInv p { h with free := h.free.set idx (load p.width.bytes h.mem b.ptr) }
      (b :: live) arenas chains' := by
  have hidx := (classFor_some hcls).1
  rcases (hi.chain idx b.ptr hhead).head_cases with ⟨hzero, -⟩ | ⟨l, hl, -, hrest⟩
  · exact absurd hzero hne
  · have hfree : (freeBlocks chains).Perm
        ((idx, b.ptr) :: freeBlocks (Function.update chains idx l)) := by
      have hupdate := freeBlocks_update hidx chains [b.ptr] l
      rw [List.singleton_append, ← hl, Function.update_eq_self] at hupdate
      exact hupdate
    refine ⟨Function.update chains idx l, by simpa using hi.heads, ?_, ?_, hi.classes, ?_, ?_, ?_,
      hi.arenas_mapped, ?_⟩
    · intro idx' head' hhead'
      rcases getElem?_set_cases hhead' with ⟨rfl, rfl⟩ | ⟨hne', hhead'⟩
      · rw [Function.update_self]
        exact hrest
      · rw [Function.update_of_ne hne']
        exact hi.chain idx' head' hhead'
    · rw [smallLive_cons_small hcls]
      exact List.perm_middle.trans ((hfree.append_right _).symm.trans hi.blocks)
    · rw [regions_cons_small hcls]
      exact hi.apart
    · rw [regions_cons_small hcls]
      exact hi.owned
    · rw [regions_cons_small hcls]
      exact hi.aligned
    · rw [largeLive_cons_small hcls]
      exact hi.large_mapped

/-- A live block goes to the front of the free list of its class. -/
lemma push (hi : HeapInv p h (b :: live) arenas chains) (hcls : b.cls = some idx) {head : ℕ}
    (hhead : h.free[idx]? = some head) :
    HeapInv p { h with mem := store p.width.bytes h.mem b.ptr head, free := h.free.set idx b.ptr }
      live arenas (Function.update chains idx (b.ptr :: chains idx)) := by
  have hidx := (classFor_some hcls).1
  have hregion : b.region = blockRegion (idx, b.ptr) := by
    rw [Block.region, hcls]
    rfl
  have hb : b ∈ b :: live := List.mem_cons_self
  have hap : ∀ x ∈ freeBlocks chains, Region.Apart ⟨b.ptr, p.width.bytes⟩ (blockRegion x) := by
    intro x hx
    have hfree := hi.free_apart_live hx hb
    rw [hregion] at hfree
    exact hfree.symm.within (link_within idx b.ptr) ⟨le_refl _, le_refl _⟩
  have hne := hi.ptr_ne_null hb
  refine ⟨by simpa using hi.heads, ?_, ?_, hi.classes, ?_, ?_, ?_, hi.arenas_mapped, ?_⟩
  · intro idx' head' hhead'
    rcases getElem?_set_cases hhead' with ⟨rfl, rfl⟩ | ⟨hne', hhead'⟩
    · rw [Function.update_self]
      refine (hi.chain idx' head hhead).push ?_ hne fun c hc => ?_
      · rw [← p.width.size_eq_bytes]
        exact hi.head_lt hhead
      · exact (hap (idx', c) (mem_freeBlocks.2 ⟨hidx, hc⟩)).within ⟨le_refl _, le_refl _⟩
          (link_within idx' c)
    · rw [Function.update_of_ne hne']
      refine hi.chain_congr (fun x hx a ha => ?_) idx' head' hhead'
      exact (store_of_not_has fun hin => (hap x hx).not_has hin ha).symm
  · have hblocks := hi.blocks
    rw [smallLive_cons_small hcls] at hblocks
    have hupdate := freeBlocks_update hidx chains [b.ptr] (chains idx)
    rw [List.singleton_append, Function.update_eq_self] at hupdate
    exact (hupdate.append_right _).trans (List.perm_middle.symm.trans hblocks)
  · have := hi.apart
    rwa [regions_cons_small hcls] at this
  · have := hi.owned
    rwa [regions_cons_small hcls] at this
  · have := hi.aligned
    rwa [regions_cons_small hcls] at this
  · have := hi.large_mapped
    rwa [largeLive_cons_small hcls] at this

/-! ### Live blocks -/

/-- Live blocks are apart if the small ones are, the large ones are, and the small ones
are apart from the large ones. -/
lemma live_apart_of (live : List (Block p)) :
    ((smallLive live).Pairwise fun x y => (blockRegion x).Apart (blockRegion y)) →
    ((largeLive live).map Block.region).Pairwise Region.Apart →
    (∀ x ∈ smallLive live, ∀ b ∈ largeLive live, (blockRegion x).Apart b.region) →
    live.Pairwise fun b b' => b.region.Apart b'.region := by
  induction live with
  | nil => exact fun _ _ _ => List.Pairwise.nil
  | cons b live ih =>
    intro hsmall hlarge hcross
    cases hcls : b.cls with
    | none =>
      rw [smallLive_cons_large hcls] at hsmall hcross
      rw [largeLive_cons_large hcls] at hlarge hcross
      obtain ⟨hfirst, hlarge⟩ := List.pairwise_cons.1 hlarge
      refine List.pairwise_cons.2 ⟨fun b' hb' => ?_,
        ih hsmall hlarge fun x hx c hc => hcross x hx c (List.mem_cons_of_mem _ hc)⟩
      rcases live_cases hb' with ⟨idx, -, hmem, heq⟩ | ⟨-, hmem⟩
      · rw [heq]
        exact (hcross _ hmem b List.mem_cons_self).symm
      · exact hfirst b'.region (List.mem_map_of_mem hmem)
    | some idx =>
      rw [smallLive_cons_small hcls] at hsmall hcross
      rw [largeLive_cons_small hcls] at hlarge hcross
      obtain ⟨hfirst, hsmall⟩ := List.pairwise_cons.1 hsmall
      have hregion : b.region = blockRegion (idx, b.ptr) := by
        rw [Block.region, hcls]
        rfl
      refine List.pairwise_cons.2 ⟨fun b' hb' => ?_,
        ih hsmall hlarge fun x hx => hcross x (List.mem_cons_of_mem _ hx)⟩
      rw [hregion]
      rcases live_cases hb' with ⟨idx', -, hmem, heq⟩ | ⟨-, hmem⟩
      · rw [heq]
        exact hfirst _ hmem
      · exact hcross _ List.mem_cons_self b' hmem

lemma live_apart (hi : HeapInv p h live arenas chains) :
    live.Pairwise fun b b' => b.region.Apart b'.region := by
  refine live_apart_of live ?_ ?_ ?_
  · exact (List.pairwise_append.1 hi.blocks_apart).2.1
  · exact (List.pairwise_append.1 hi.apart).2.1
  · exact fun x hx b hb => hi.block_apart_large (List.mem_append_right _ hx) hb

/-- The address of a live block is a multiple of its class size, or of the page size. -/
lemma ptr_aligned (hi : HeapInv p h live arenas chains) (hb : b ∈ live) :
    match b.cls with
    | some idx => classSize idx ∣ b.ptr
    | none => p.page ∣ b.ptr := by
  rcases live_cases hb with ⟨idx, hcls, hmem, -⟩ | ⟨hcls, hlarge⟩
  · rw [hcls]
    obtain ⟨a, ha, hidx, -, i, hptr⟩ := hi.block_cases (List.mem_append_right _ hmem)
    change idx = a.1 at hidx
    change b.ptr = a.2 + i * classSize a.1 at hptr
    have hpage : p.page ∣ a.2 :=
      hi.aligned (arenaRegion a) (List.mem_append_left _ (List.mem_map_of_mem ha))
    have hcls : classSize a.1 ∣ p.page := by
      refine (classSize_dvd (hi.classes a ha)).trans ?_
      cases p <;> norm_num [Platform.page]
    rw [hidx, hptr]
    exact (hcls.trans hpage).add (Dvd.intro_left _ rfl)
  · rw [hcls, ← b.region_base]
    exact hi.aligned _ (List.mem_append_right _ (List.mem_map_of_mem hlarge))

end HeapInv

/-! ### The functions of the allocator -/

/-- The invariant between two calls. -/
def SessionInv (p : Platform) (h : Heap) (live : List (Block p)) : Prop :=
  h.locked = false ∧ ∃ arenas chains, HeapInv p h live arenas chains

section Calls

variable {h : Heap} {live : List (Block p)} {k : Kernel}

lemma lock_eq (hlock : h.locked = false) : h.lock = some { h with locked := true } := by
  rw [Heap.lock, hlock]
  rfl

lemma unlock_inv {arenas : List (ℕ × ℕ)} {chains : ℕ → List ℕ}
    (hi : HeapInv p h live arenas chains) : SessionInv p h.unlock live :=
  ⟨rfl, arenas, chains, hi.relock false⟩

/-- `refill` fails, or the free list of the class has a first node. -/
lemma refill_spec {arenas : List (ℕ × ℕ)} {chains : ℕ → List ℕ}
    (hi : HeapInv p h live arenas chains) (hk : k.Ok p h) {idx : ℕ} (hidx : idx < numClasses) :
    ∃ h' filled new, refill p k h idx = some (h', filled) ∧ h'.calls = h.calls ++ new ∧
      (∀ r, SysCall.unmap r ∉ new) ∧ (∃ arenas' chains', HeapInv p h' live arenas' chains') ∧
      (filled = true → ∃ blk, h'.free[idx]? = some blk ∧ blk ≠ 0) := by
  have hpos : 0 < arena := by rw [arena_eq]; norm_num
  rcases map_cases hk arena with hfail | ⟨r, hmap, hal, hlen, hfresh⟩
  · refine ⟨h, false, [], ?_, by simp, by simp, ⟨arenas, chains, hi⟩, by simp⟩
    rw [refill, hfail]
    rfl
  · rw [pages_arena] at hlen
    obtain ⟨base, len⟩ := r
    change len = arena at hlen
    subst hlen
    by_cases hbase : base = 0
    · -- a region at the null address is taken for a failure
      refine ⟨h.mapRegion ⟨base, arena⟩, false, [.map ⟨base, arena⟩], ?_, rfl, by simp,
        ⟨arenas, chains, hi.mapRegion hfresh hpos⟩, by simp⟩
      rw [refill, hmap]
      exact if_pos hbase
    · obtain ⟨head, hhead⟩ := hi.exists_head hidx
      cases hloop : refillLoop p.width base (classSize idx) (arena / classSize idx) head
          (h.mapRegion ⟨base, arena⟩).mem with
      | mk next mem =>
        have hinv := hi.addArena hidx hfresh hbase hal hhead hloop
        have hnext : (h.free.set idx next)[idx]? = some next := by
          rw [List.getElem?_set_self (by rw [hi.heads]; exact hidx)]
        refine ⟨_, true, [.map ⟨base, arena⟩], ?_, rfl, by simp, ⟨_, _, hinv⟩,
          fun _ => ⟨next, hnext, ?_⟩⟩
        · have hhead' : (h.mapRegion ⟨base, arena⟩).free[idx]? = some head := hhead
          simp only [refill, hmap, if_neg hbase, hhead', Option.bind_eq_bind, Option.bind_some,
            hloop]
          rfl
        · -- the list now starts with the blocks of the arena, of which there is one
          have hchain := hinv.chain idx next hnext
          rw [Function.update_self] at hchain
          have hcount : 0 < arena / classSize idx := by
            refine Nat.div_pos ?_ (lt_of_lt_of_le (by norm_num) (classSize_ge idx))
            exact (Nat.le_of_dvd (by norm_num) (classSize_dvd hidx)).trans
              (by rw [arena_eq]; norm_num)
          rcases hchain.head_cases with ⟨-, hnil⟩ | ⟨-, -, hne, -⟩
          · have hlen := congrArg List.length (List.append_eq_nil_iff.1 hnil).1
            rw [carve, List.length_map, List.length_range, List.length_nil] at hlen
            omega
          · exact hne

/-- `alloc_small` fails, or returns a block of the class. -/
lemma allocSmall_spec (hs : SessionInv p h live) (hk : k.Ok p h) {idx : ℕ}
    (hidx : idx < numClasses) :
    ∃ h' ptr new, allocSmall p k h idx = some (h', ptr) ∧ h'.calls = h.calls ++ new ∧
      (∀ r, SysCall.unmap r ∉ new) ∧ (ptr = 0 → SessionInv p h' live) ∧
      (ptr ≠ 0 → ∀ b : Block p, b.cls = some idx → b.ptr = ptr → SessionInv p h' (b :: live)) := by
  obtain ⟨hlock, arenas, chains, hi⟩ := hs
  obtain ⟨head, hhead⟩ := hi.exists_head hidx
  -- the heap from which the block is taken: as it is, or refilled
  obtain ⟨h₁, filled, new, hfill, hcalls, hmaps, ⟨arenas₁, chains₁, hi₁⟩, hready⟩ :
      ∃ h₁ filled new,
        (if head = 0 then refill p k { h with locked := true } idx
          else some ({ h with locked := true }, true)) = some (h₁, filled) ∧
        h₁.calls = h.calls ++ new ∧ (∀ r, SysCall.unmap r ∉ new) ∧
        (∃ arenas' chains', HeapInv p h₁ live arenas' chains') ∧
        (filled = true → ∃ blk, h₁.free[idx]? = some blk ∧ blk ≠ 0) := by
    by_cases hzero : head = 0
    · rw [if_pos hzero]
      exact refill_spec (hi.relock true) hk hidx
    · rw [if_neg hzero]
      exact ⟨_, true, [], rfl, by simp, by simp, ⟨_, _, hi.relock true⟩,
        fun _ => ⟨head, hhead, hzero⟩⟩
  have hlocked : ({ h with locked := true } : Heap).free[idx]? = some head := hhead
  cases filled with
  | false =>
    refine ⟨h₁.unlock, 0, new, ?_, hcalls, hmaps, fun _ => unlock_inv hi₁,
      fun hne => absurd rfl hne⟩
    simp only [allocSmall, lock_eq hlock, Option.bind_eq_bind, Option.bind_some, hlocked, hfill]
    rfl
  | true =>
    obtain ⟨blk, hblk, hne⟩ := hready rfl
    refine ⟨{ h₁ with free := h₁.free.set idx (load p.width.bytes h₁.mem blk) }.unlock, blk, new,
      ?_, hcalls, hmaps, fun hzero => absurd hzero hne, fun _ b hcls hptr => ?_⟩
    · simp only [allocSmall, lock_eq hlock, Option.bind_eq_bind, Option.bind_some, hlocked, hfill,
        hblk]
      rfl
    · subst hptr
      obtain ⟨chains', hpop⟩ := hi₁.pop hcls hblk hne
      exact unlock_inv hpop

/-- `alloc` returns, and what it returns becomes a live block. -/
lemma alloc_spec (hs : SessionInv p h live) (hk : k.Ok p h) (layout : Layout p.width) :
    ∃ h' ptr new, alloc p k h layout = some (h', ptr) ∧ h'.calls = h.calls ++ new ∧
      (∀ r, SysCall.unmap r ∉ new) ∧
      SessionInv p h' (if ptr = 0 then live else ⟨ptr, layout, new⟩ :: live) := by
  cases hcls : classFor layout.size layout.align with
  | some idx =>
    obtain ⟨h', ptr, new, hrun, hcalls, hmaps, hfail, hok⟩ :=
      allocSmall_spec hs hk (classFor_some hcls).1
    refine ⟨h', ptr, new, by rw [alloc, hcls]; exact hrun, hcalls, hmaps, ?_⟩
    split
    · exact hfail ‹_›
    · exact hok ‹_› ⟨ptr, layout, new⟩ hcls rfl
  | none =>
    by_cases halign : layout.align > gran
    · refine ⟨h, 0, [], ?_, by simp, by simp, hs⟩
      simp only [alloc, hcls, if_pos halign]
    · obtain ⟨hlock, arenas, chains, hi⟩ := hs
      rcases map_cases hk (roundUp p.width layout.size gran) with
        hfail | ⟨r, hmap, hal, hlen, hfresh⟩
      · refine ⟨h, 0, [], ?_, by simp, by simp, hlock, arenas, chains, hi⟩
        simp only [alloc, hcls, if_neg halign, hfail]
      · have hregion : (⟨r.base, layout, [.map r]⟩ : Block p).region = r := by
          rw [Block.region]
          simp only [Block.cls, hcls, ← hlen]
        have hpos : 0 < r.len := by
          rw [← hregion]
          exact Block.region_len_pos _
        refine ⟨h.mapRegion r, r.base, [.map r], ?_, rfl, by simp, hlock, arenas, chains, ?_⟩
        · simp only [alloc, hcls, if_neg halign, hmap]
        · split
          · exact hi.mapRegion hfresh hpos
          · rename_i hne
            have hadd := hi.addLarge (b := ⟨r.base, layout, [.map r]⟩) hcls
              (by rwa [hregion]) hne hal (by rw [hregion])
            rwa [hregion] at hadd

/-- `dealloc` of a live block returns.  Only for a large block it calls `munmap`, and
then with the region that was mapped for it. -/
lemma dealloc_spec {b : Block p} (hs : SessionInv p h (b :: live)) (k : Kernel) :
    ∃ h' new, dealloc p k h b.ptr b.layout = some h' ∧ h'.calls = h.calls ++ new ∧
      SessionInv p h' live ∧ (∀ r, SysCall.unmap r ∈ new → r = b.region ∧ b.calls = [.map r]) ∧
      (b.cls = none → p ≠ .wasm → k.release = true → new = [.unmap b.region]) := by
  obtain ⟨hlock, arenas, chains, hi⟩ := hs
  have hne := hi.ptr_ne_null List.mem_cons_self
  cases hcls : b.cls with
  | some idx =>
    obtain ⟨head, hhead⟩ := hi.exists_head (classFor_some hcls).1
    have hlocked : ({ h with locked := true } : Heap).free[idx]? = some head := hhead
    refine ⟨Heap.unlock { h with
        locked := true
        mem := store p.width.bytes h.mem b.ptr head
        free := h.free.set idx b.ptr }, [], ?_, (List.append_nil _).symm,
      unlock_inv ((hi.relock true).push hcls hhead), by simp, by simp⟩
    rw [Block.cls] at hcls
    simp only [dealloc, if_neg hne, hcls, freeSmall, lock_eq hlock, Option.bind_eq_bind,
      Option.bind_some, hlocked]
  | none =>
    have hregion : b.region = ⟨b.ptr, p.pages (roundUp p.width b.layout.size gran)⟩ := by
      rw [Block.region, hcls]
    have hmapped : b.calls = [.map b.region] :=
      hi.large_mapped b (by rw [largeLive_cons_large hcls]; exact List.mem_cons_self)
    have hrun : dealloc p k h b.ptr b.layout
        = some (munmap p k h b.ptr (roundUp p.width b.layout.size gran)) := by
      rw [Block.cls] at hcls
      simp only [dealloc, if_neg hne, hcls]
    by_cases hreal : p ≠ .wasm ∧ k.release = true
    · have hunmap : munmap p k h b.ptr (roundUp p.width b.layout.size gran)
          = h.unmapRegion b.region := by
        rw [hregion]
        cases p with
        | wasm => exact absurd rfl hreal.1
        | _ => exact if_pos hreal.2
      refine ⟨h.unmapRegion b.region, [.unmap b.region], by rw [hrun, hunmap], rfl,
        ⟨hlock, arenas, chains, hi.unmapLarge hcls⟩, fun r hr => ?_, fun _ _ _ => rfl⟩
      have hr' : r = b.region := by simpa using hr
      exact ⟨hr', by rw [hr']; exact hmapped⟩
    · have hkeep : munmap p k h b.ptr (roundUp p.width b.layout.size gran) = h := by
        cases p with
        | wasm => rfl
        | _ => exact if_neg fun hrel => hreal ⟨by simp, hrel⟩
      refine ⟨h, [], by rw [hrun, hkeep], by simp, ⟨hlock, arenas, chains, hi.dropLarge hcls⟩,
        by simp, fun _ hwasm hrel => absurd ⟨hwasm, hrel⟩ hreal⟩

end Calls

/-! ### Every session -/

lemma started_inv {s : Session p} (h : Started p s) : SessionInv p s.heap s.live := by
  obtain ⟨mem, mapped, rfl⟩ := h
  refine ⟨rfl, [], fun _ => [], ?_, ?_, ?_, by simp, List.Pairwise.nil,
    by simp [regions, largeLive],
    by simp [regions, largeLive], by simp, by simp [largeLive]⟩
  · exact List.length_replicate
  · intro idx head hhead
    exact List.eq_of_mem_replicate (List.mem_of_getElem? hhead)
  · simp [freeBlocks, smallLive]

/-- Every step keeps the invariant. -/
lemma step_inv {s s' : Session p} (h : Step p s s') (hs : SessionInv p s.heap s.live) :
    SessionInv p s'.heap s'.live := by
  cases h with
  | @alloc k layout h ptr new hk hrun hnew =>
    obtain ⟨h', ptr', new', hrun', hcalls, -, hinv⟩ := alloc_spec hs hk layout
    obtain ⟨rfl, rfl⟩ := Prod.mk.inj (Option.some.inj (hrun.symm.trans hrun'))
    obtain rfl : new = new' := List.append_cancel_left (hnew.symm.trans hcalls)
    exact hinv
  | @dealloc k b l₁ l₂ h hb hrun =>
    obtain ⟨hlock, arenas, chains, hi⟩ := hs
    rw [hb] at hi
    have hs' : SessionInv p s.heap (b :: (l₁ ++ l₂)) :=
      ⟨hlock, arenas, chains, hi.perm_live List.perm_middle⟩
    obtain ⟨h', new, hrun', -, hinv, -⟩ := dealloc_spec hs' k
    obtain rfl := Option.some.inj (hrun.symm.trans hrun')
    exact hinv
  | @write b a v hb ha =>
    obtain ⟨hlock, arenas, chains, hi⟩ := hs
    exact ⟨hlock, arenas, chains, hi.write hb ha v⟩

lemma session_inv {s : Session p} (h : Reachable (Started p) (Step p) s) :
    SessionInv p s.heap s.live :=
  h.induct (fun _ hs => started_inv hs) fun _ _ _ hs hstep => step_inv hstep hs

/-- The heap of every session.  The live blocks are apart and as large as was asked for.
The free lists are finite chains of blocks of their own class, no block is on them
twice, and all of them are apart from the live blocks.  The next call returns, and every
`munmap` is of a region that was mapped for the block. -/
theorem heap_safe {s : Session p} (h : Reachable (Started p) (Step p) s) :
    (s.live.Pairwise fun b b' => b.region.Apart b'.region) ∧
    (∀ b ∈ s.live, b.region.base = b.ptr ∧ b.layout.size ≤ b.region.len) ∧
    (∃ (arenas : List (ℕ × ℕ)) (chains : ℕ → List ℕ),
      (arenas.map arenaRegion).Pairwise Region.Apart ∧
      (∀ a ∈ arenas, SysCall.map (arenaRegion a) ∈ s.heap.calls) ∧
      (∀ (idx : ℕ) head, s.heap.free[idx]? = some head →
        Chain p.width.bytes s.heap.mem head (chains idx)) ∧
      (∀ idx < numClasses, ∀ x ∈ chains idx, ∃ a ∈ arenas, (idx, x) ∈ arenaBlocks a) ∧
      ((freeBlocks chains).Pairwise fun x y => (blockRegion x).Apart (blockRegion y)) ∧
      ((freeBlocks chains).map Prod.snd).Nodup ∧
      ∀ x ∈ freeBlocks chains, ∀ b ∈ s.live, (blockRegion x).Apart b.region ∧ b.ptr ≠ x.2) ∧
    (∀ k layout, k.Ok p s.heap → ∃ h ptr new, alloc p k s.heap layout = some (h, ptr) ∧
      h.calls = s.heap.calls ++ new ∧ ∀ r, SysCall.unmap r ∉ new) ∧
    ∀ k, ∀ b ∈ s.live, ∃ h new, dealloc p k s.heap b.ptr b.layout = some h ∧
      h.calls = s.heap.calls ++ new ∧
      (∀ r, SysCall.unmap r ∈ new → r = b.region ∧ b.calls = [.map r]) ∧
      (b.cls = none → p ≠ .wasm → k.release = true → new = [.unmap b.region]) := by
  have hs := session_inv h
  obtain ⟨hlock, arenas, chains, hi⟩ := id hs
  have hap := (List.pairwise_append.1 hi.blocks_apart).1
  -- blocks are not empty, so blocks that are apart have different addresses
  have hne : ∀ {x : ℕ × ℕ} {r : Region}, (blockRegion x).Apart r → 0 < r.len → r.base ≠ x.2 := by
    rintro ⟨idx, a⟩ ⟨base, len⟩ hxr hlen rfl
    have hsize := classSize_ge idx
    rcases hxr with hlt | hlt
    · change base + classSize idx ≤ base at hlt
      omega
    · change base + len ≤ base at hlt
      change 0 < len at hlen
      omega
  refine ⟨hi.live_apart, fun b _ => ⟨b.region_base, b.size_le_region⟩,
    ⟨arenas, chains, (List.pairwise_append.1 hi.apart).1, hi.arenas_mapped, hi.chain, ?_, hap, ?_,
      ?_⟩, ?_, ?_⟩
  · intro idx hidx x hx
    have hfree : (idx, x) ∈ freeBlocks chains ++ smallLive s.live :=
      List.mem_append_left _ (mem_freeBlocks.2 ⟨hidx, hx⟩)
    obtain ⟨a, ha, hxa⟩ := List.mem_flatMap.1 (hi.blocks.mem_iff.1 hfree)
    exact ⟨a, ha, hxa⟩
  · rw [List.Nodup, List.pairwise_map]
    refine hap.imp fun {x y} hxy heq => ?_
    exact hne hxy (lt_of_lt_of_le (by norm_num) (classSize_ge y.1)) heq.symm
  · intro x hx b hb
    have hxb := hi.free_apart_live hx hb
    exact ⟨hxb, by rw [← b.region_base]; exact hne hxb b.region_len_pos⟩
  · intro k layout hk
    obtain ⟨h', ptr, new, hrun, hcalls, hmaps, -⟩ := alloc_spec hs hk layout
    exact ⟨h', ptr, new, hrun, hcalls, hmaps⟩
  · intro k b hb
    obtain ⟨l₁, l₂, hl⟩ := List.append_of_mem hb
    rw [hl] at hi
    obtain ⟨h', new, hrun, hcalls, -, hunmap, hlarge⟩ :=
      dealloc_spec ⟨hlock, arenas, chains, hi.perm_live List.perm_middle⟩ k
    exact ⟨h', new, hrun, hcalls, hunmap, hlarge⟩

/-! A session on Linux with two large blocks. -/

/-- A request for 5000 bytes. -/
def wideLayout : Layout (Platform.linux .w64).width where
  size := 5000
  align := 8
  size_pos := by norm_num
  align_pow := ⟨3, by norm_num⟩
  fits := by norm_num [Platform.width, PtrWidth.isizeMax, PtrWidth.bits]

/-- The region at `base` in which such a block is put. -/
def wideBlock (base : ℕ) : Block (.linux .w64) := ⟨base, wideLayout, [.map ⟨base, 16384⟩]⟩

/-- The heap after such blocks were put at 65536 and then at 131072. -/
def wideHeap : Heap :=
  ((Heap.new (fun _ => 0) fun _ => false).mapRegion ⟨65536, 16384⟩).mapRegion ⟨131072, 16384⟩

/-- The kernel grants 16 KiB at `base`. -/
def wideKernel (base : ℕ) : Kernel := ⟨fun len => if len = 16384 then some base else none, true⟩

lemma wideKernel_ok {h : Heap} {base : ℕ} (hpage : 4096 ∣ base)
    (hfresh : h.Fresh (.linux .w64) ⟨base, 16384⟩) : (wideKernel base).Ok (.linux .w64) h := by
  intro len base' hask
  change (if len = 16384 then some base else none) = some base' at hask
  split at hask
  · rename_i hlen
    cases hask
    subst hlen
    exact ⟨hpage, hfresh⟩
  · exact absurd hask (by simp)

lemma alloc_wide (h : Heap) (base : ℕ) :
    alloc (.linux .w64) (wideKernel base) h wideLayout
      = some (h.mapRegion ⟨base, 16384⟩, base) := by
  have hcls : classFor wideLayout.size wideLayout.align = none := by
    rw [classFor, if_pos]
    decide
  have hlen : roundUp (Platform.linux .w64).width wideLayout.size gran = 16384 := by
    rw [roundUp_gran _ wideLayout.size_le]
    rfl
  have halign : ¬ wideLayout.align > gran := by decide
  simp only [alloc, hcls, if_neg halign, hlen]
  rfl

theorem heap_safe_two_blocks :
    Reachable (Started (.linux .w64)) (Step (.linux .w64))
      ⟨wideHeap, [wideBlock 131072, wideBlock 65536]⟩ ∧
    [wideBlock 131072, wideBlock 65536].Pairwise fun b b' => b.region.Apart b'.region := by
  have hreach : Reachable (Started (.linux .w64)) (Step (.linux .w64))
      ⟨wideHeap, [wideBlock 131072, wideBlock 65536]⟩ := by
    have hstart : Reachable (Started (.linux .w64)) (Step (.linux .w64))
        ⟨Heap.new (fun _ => 0) fun _ => false, []⟩ := .start ⟨_, _, rfl⟩
    have hone := hstart.next (.alloc (wideKernel_ok (by norm_num) ⟨by decide, fun _ _ => rfl⟩)
      (alloc_wide _ 65536) rfl)
    refine hone.next (.alloc (wideKernel_ok (by norm_num) ⟨by decide, fun a ha => ?_⟩)
      (alloc_wide _ 131072) rfl)
    change (if Region.Has ⟨65536, 16384⟩ a then true else false) = false
    rw [if_neg]
    exact Region.Apart.not_has (Or.inr (by norm_num)) ha
  exact ⟨hreach, (heap_safe hreach).1⟩

end PureStd.Alloc
