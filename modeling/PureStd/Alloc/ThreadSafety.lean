/-
What threads may rely on when they share the allocator.

Since a session stands for the threads at all times, the blocks that they own are apart and
mapped, as in every session (`threads_blocks_safe`).  No turn inside the allocator touches
them.  And no thread gets stuck: it finds every head that it reads, every link that it reads
or writes is mapped, and whoever is inside the lock leaves it after a bounded number of its
own turns (`threads_never_stuck`).
-/
import PureStd.Alloc.Alignment
import PureStd.Alloc.Linearization

namespace PureStd.Alloc

open ByteMemory CriticalSection

variable {p : Platform} {Tid : Type*} [DecidableEq Tid] {s : Threads Tid p}

/-! ### One call after the other -/

/-- Threads that call the allocator in any order of turns are followed by a session of whole
calls.  It makes at most one step in each turn, and whenever no thread is in a call, its lists,
its memory and its live blocks are those of the threads. -/
theorem threads_linearize (h : s.Reaches) :
    ∃ q : Session p, Reachable (Started p) (Step p) q ∧ Linearizes s q ∧
      ((∀ t, s.pc t = .idle) → s.heap.Same q.heap ∧ (q.live.map Block.grant).Perm s.live) ∧
      ∀ s', Threads.Turn s s' → ∃ q', (q' = q ∨ Step p q q') ∧ Linearizes s' q' := by
  obtain ⟨q, hq, hl⟩ := exists_session h
  refine ⟨q, hq, hl, fun hidle => ⟨?_, ?_⟩, fun s' hturn => hl.turn (session_inv hq) hturn⟩
  · obtain ⟨pos, hex, hah⟩ := hl.heaps
    rcases hex.pos_cases with rfl | ⟨t, ht, -⟩
    · exact hah
    · rw [hidle t] at ht
      cases ht
  · obtain ⟨held, hheld, hperm⟩ := hl.blocks
    have hnil : held = [] := by
      refine List.eq_nil_iff_forall_not_mem.2 ?_
      rintro ⟨t, g⟩ hmem
      rw [hheld.mem_iff, hidle t] at hmem
      cases hmem
    rw [hnil] at hperm
    exact hperm

lemma word_pos : 0 < 8 := by decide

lemma word_align : ∃ k, 8 = 2 ^ k := ⟨3, rfl⟩

lemma word_fits : (8 + 8 - 1) / 8 * 8 ≤ (Platform.linux .w64).width.isizeMax := by decide

/-- A machine word. -/
def word : Layout (Platform.linux .w64).width := ⟨8, 8, word_pos, word_align, word_fits⟩

/-- Two threads have called `alloc`, and one of them is inside the lock. -/
def contended : Threads Bool (.linux .w64) where
  heap := { Heap.new (fun _ => 0) (fun _ => false) with locked := true }
  live := []
  pc := Function.update (Function.update (Function.update (fun _ => .idle) true
    (callAlloc word)) false (callAlloc word)) true (.allocHead word 0)

lemma contended_reaches : contended.Reaches := by
  have hbegun : (⟨Heap.new (fun _ => 0) (fun _ => false), [], fun _ => .idle⟩ :
      Threads Bool (.linux .w64)).Reaches := .start ⟨_, _, rfl⟩
  have hcall : callAlloc (p := .linux .w64) word = .allocLock word 0 := by
    have hcls : classFor word.size word.align = some 0 := by
      simp [classFor, word, classForLoop, minShift, maxSmall, minMapAlign]
    simp only [callAlloc, hcls]
  have hk : (⟨fun _ => none, true⟩ : Kernel).Ok (.linux .w64)
      (Heap.new (fun _ => 0) (fun _ => false)) := fun _ _ h => by cases h
  refine ((hbegun.next (.call true word rfl)).next (.call false word rfl)).next
    (.exec true hk ?_)
  change exec _ _ _ (callAlloc word) = _
  rw [hcall]
  rfl

theorem threads_linearize_contended :
    contended.Reaches ∧ ∃ q : Session (.linux .w64), Reachable (Started _) (Step _) q ∧
      Linearizes contended q := by
  obtain ⟨q, hq, hl, -⟩ := threads_linearize contended_reaches
  exact ⟨contended_reaches, q, hq, hl⟩

/-! ### The blocks of the program -/

/-- The blocks that the loop of `refill` links are in the arena. -/
lemma link_within_arena {idx base i : ℕ} (hidx : idx < numClasses)
    (hi : i + 1 ≤ arena / classSize idx) :
    Region.Within ⟨base + i * classSize idx, p.width.bytes⟩ ⟨base, arena⟩ := by
  have hlen := Nat.mul_le_mul_right (classSize idx) hi
  rw [count_mul hidx, Nat.succ_mul] at hlen
  have hbytes := bytes_le_classSize p.width idx
  constructor
  · change base ≤ base + i * classSize idx
    omega
  · change base + i * classSize idx + p.width.bytes ≤ base + arena
    omega

omit [DecidableEq Tid] in
/-- What no turn inside the allocator touches. -/
lemma exec_frame {q : Session p} (hl : Linearizes s q) (hinv : SessionInv p q.heap q.live)
    {t : Tid} {k : Kernel} (hk : k.Ok p s.heap) {pos : Pc p} {heap : Heap}
    (hrun : exec p k s.heap (s.pc t) = some (pos, heap)) {g : Grant p} (hg : g ∈ s.live) {x : ℕ}
    (hx : g.region.Has x) :
    heap.mem x = s.heap.mem x ∧ heap.mapped x = s.heap.mapped x := by
  obtain ⟨-, arenas, chains, hi⟩ := hinv
  obtain ⟨b, hb, rfl⟩ := hl.blocks.mem_of_live hg
  have hqx : q.heap.mapped x = true := (hi.live_owned hb).mapped x hx
  have hsx : s.heap.mapped x = true := hl.mapped hqx
  obtain ⟨-, hcross, -⟩ := hl.blocks.apart hi.live_apart
  have hmap : ∀ len, (map p k s.heap len).2.mem x = s.heap.mem x ∧
      (map p k s.heap len).2.mapped x = s.heap.mapped x := by
    intro len
    rcases map_uniform hk len with hfail | ⟨r, hmap, hfresh⟩
    · rw [hfail]
      exact ⟨rfl, rfl⟩
    · have hout : ¬ r.Has x := by
        intro hr
        rw [hfresh.2 x hr] at hsx
        cases hsx
      rw [hmap]
      exact ⟨if_neg hout, if_neg hout⟩
  generalize hpc : s.pc t = pos₀ at hrun
  cases pos₀ with
  | idle | ret _ _ => cases hrun
  | allocLock _ _ | freeLock _ _ =>
    simp only [exec] at hrun
    split at hrun <;> (cases hrun; exact ⟨rfl, rfl⟩)
  | allocHead _ _ | refillHead _ _ _ | take _ _ | freeHead _ _ =>
    obtain ⟨_, _, hrun⟩ := Option.bind_eq_some_iff.1 hrun
    cases hrun
    exact ⟨rfl, rfl⟩
  | refillMap _ _ | largeMap _ =>
    cases hrun
    exact hmap _
  | refillLoop _ idx base i next =>
    obtain ⟨-, hgr, -, -, -, hle, -⟩ := hl.ahead hpc rfl
    have hidx := (classFor_some (hl.classed_at hpc)).1
    cases i with
    | zero =>
      cases hrun
      exact ⟨rfl, rfl⟩
    | succ i =>
      simp only [exec] at hrun
      split at hrun
      · cases hrun
        refine ⟨store_of_not_has fun hin => ?_, rfl⟩
        -- the link is in the arena, which the session has not mapped
        have harena : Region.Has ⟨base, arena⟩ x :=
          (link_within_arena hidx hle).has hin
        rw [hgr.2.2.2 x harena] at hqx
        cases hqx
      · cases hrun
  | link _ _ _ =>
    simp only [exec] at hrun
    split at hrun
    · cases hrun
      exact ⟨rfl, rfl⟩
    · cases hrun
  | setHead _ _ _ _ | allocUnlock _ _ | freeSet _ _ | freeUnlock =>
    cases hrun
    exact ⟨rfl, rfl⟩
  | freeLink g₀ _ _ =>
    have hap := hcross t g₀ (by rw [hpc]; rfl) _ hg
    have hwithin := Grant.link_within (hl.classed_at hpc)
    simp only [exec] at hrun
    split at hrun
    · cases hrun
      exact ⟨store_of_not_has fun hin => hap.not_has (hwithin.has hin) hx, rfl⟩
    · cases hrun
  | largeUnmap g₀ =>
    have hap := hcross t g₀ (by rw [hpc]; rfl) _ hg
    have hcls : classFor g₀.layout.size g₀.layout.align = none := hl.classed_at hpc
    have hregion : g₀.region =
        ⟨g₀.ptr, p.pages (roundUp p.width g₀.layout.size gran)⟩ := by
      rw [Grant.region, hcls]
    cases hrun
    rcases munmap_uniform p k g₀.ptr (roundUp p.width g₀.layout.size gran) with hkeep | hunmap
    · rw [hkeep]
      exact ⟨rfl, rfl⟩
    · rw [hunmap, ← hregion]
      exact ⟨rfl, if_neg fun hin => hap.not_has hin hx⟩

/-- In every run of the threads, the blocks that the program owns are apart, mapped, large
enough and aligned as far as pages are.  At most one thread is inside the lock, and the lock is
taken exactly then.  No turn of a thread in the allocator changes a byte of these blocks. -/
theorem threads_blocks_safe (h : s.Reaches) :
    (s.live.Pairwise fun g g' => g.region.Apart g'.region) ∧
    (∀ g ∈ s.live, g.ptr ≠ 0 ∧ g.region.base = g.ptr ∧ g.layout.size ≤ g.region.len ∧
      (∀ x, g.region.Has x → s.heap.mapped x = true) ∧
      (g.layout.align ≤ p.page → g.layout.align ∣ g.ptr)) ∧
    (∀ t u, (s.pc t).inside = true → (s.pc u).inside = true → t = u) ∧
    (s.heap.locked = true ↔ ∃ t, (s.pc t).inside = true) ∧
    ∀ t k pos heap, k.Ok p s.heap → exec p k s.heap (s.pc t) = some (pos, heap) →
      ∀ g ∈ s.live, ∀ x, g.region.Has x →
        heap.mem x = s.heap.mem x ∧ heap.mapped x = s.heap.mapped x := by
  obtain ⟨q, hq, hl⟩ := exists_session h
  have hinv := session_inv hq
  obtain ⟨-, arenas, chains, hi⟩ := id hinv
  obtain ⟨pos, hex, -⟩ := hl.heaps
  refine ⟨(hl.blocks.apart hi.live_apart).1, fun g hg => ?_, fun t u ht hu => hex.unique ht hu,
    hex.locked_iff, fun t k pos heap hk hrun g hg x hx => exec_frame hl hinv hk hrun hg hx⟩
  obtain ⟨b, hb, rfl⟩ := hl.blocks.mem_of_live hg
  have howned := hi.live_owned hb
  refine ⟨hi.ptr_ne_null hb, Grant.region_base _, Grant.size_le_region _,
    fun x hx => hl.mapped (howned.mapped x hx), fun halign => ?_⟩
  have hptr := hi.ptr_aligned hb
  cases hcls : b.cls with
  | some idx =>
    rw [hcls] at hptr
    exact two_pow_dvd_of_le b.layout.align_pow ⟨_, classSize_eq idx⟩ (classFor_some hcls).2.2 hptr
  | none =>
    rw [hcls] at hptr
    exact two_pow_dvd_of_le b.layout.align_pow (page_pow p) halign hptr

/-- A thread may come to own a large block at any free place. -/
lemma reaches_large {s : Threads Tid (.linux .w64)} (h : s.Reaches) (t : Tid)
    (hidle : s.pc t = .idle) (base : ℕ) (hpage : 4096 ∣ base) (hne : base ≠ 0)
    (hfresh : s.heap.Fresh (.linux .w64) ⟨base, 16384⟩) :
    ∃ s' : Threads Tid (.linux .w64), s'.Reaches ∧ s'.live = ⟨base, twoPages⟩ :: s.live ∧
      s'.heap = s.heap.mapRegion ⟨base, 16384⟩ ∧ s'.pc t = .idle ∧ ∀ u ≠ t, s'.pc u = s.pc u := by
  have hcall : callAlloc (p := .linux .w64) twoPages = .largeMap twoPages := by
    have hcls : classFor twoPages.size twoPages.align = none := rfl
    simp only [callAlloc, hcls]
    rfl
  let k : Kernel := ⟨fun len => if len = 16384 then some base else none, true⟩
  have hk : k.Ok (.linux .w64) s.heap := by
    intro len base' hask
    obtain ⟨rfl, hbase⟩ := Option.ite_none_right_eq_some.1 hask
    cases hbase
    exact ⟨hpage, hfresh⟩
  have hrun : exec (.linux .w64) k s.heap (.largeMap twoPages) =
      some (.ret twoPages base, s.heap.mapRegion ⟨base, 16384⟩) := by
    have hround : roundUp (Platform.linux .w64).width twoPages.size gran = 16384 :=
      roundUp_gran _ twoPages.size_le
    have hask : k.ask 16384 = some base := by simp [k]
    simp only [exec, hround, map, mapMmap, hask]
    rfl
  have hcalled := h.next (.call t twoPages hidle)
  rw [hcall] at hcalled
  have hpc : Function.update s.pc t (.largeMap twoPages) t = .largeMap twoPages :=
    Function.update_self ..
  have hmapped := hcalled.next (.exec t hk ((congrArg _ hpc).trans hrun))
  refine ⟨_, hmapped.next (.ret t (Function.update_self ..)), if_neg hne, rfl,
    Function.update_self .., fun u hu => ?_⟩
  simp only [Function.update_of_ne hu]

/-- Two threads own a block each. -/
theorem threads_blocks_safe_two : ∃ (s : Threads Bool (.linux .w64)) (g g' : Grant (.linux .w64)),
    s.Reaches ∧ s.live = [g, g'] ∧ g.ptr = 65536 ∧ g'.ptr = 32768 ∧ g.region.Apart g'.region ∧
      (∀ x, g.region.Has x → s.heap.mapped x = true) ∧ s.heap.locked = false := by
  have hbegun : (⟨Heap.new (fun _ => 0) (fun _ => false), [], fun _ => .idle⟩ :
      Threads Bool (.linux .w64)).Reaches := .start ⟨_, _, rfl⟩
  obtain ⟨s₁, hs₁, hlive₁, hheap₁, hpc₁, hother₁⟩ := reaches_large hbegun true rfl
    32768 (by decide) (by decide) ⟨by decide, fun _ _ => rfl⟩
  have hfree : s₁.heap.Fresh (.linux .w64) ⟨65536, 16384⟩ := by
    refine ⟨by decide, fun x hx => ?_⟩
    rw [hheap₁]
    refine if_neg fun hin => ?_
    obtain ⟨hlo, -⟩ := hx
    obtain ⟨-, hhi⟩ := hin
    simp only at hlo hhi
    omega
  obtain ⟨s₂, hs₂, hlive₂, hheap₂, -, hother₂⟩ := reaches_large hs₁ false
    (hother₁ false (by decide)) 65536 (by decide) (by decide) hfree
  rw [hlive₁] at hlive₂
  obtain ⟨hapart, hblocks, -⟩ := threads_blocks_safe hs₂
  rw [hlive₂] at hapart hblocks
  refine ⟨s₂, _, _, hs₂, hlive₂, rfl, rfl, ?_, (hblocks _ List.mem_cons_self).2.2.2.1, ?_⟩
  · exact (List.pairwise_cons.1 hapart).1 _ List.mem_cons_self
  · rw [hheap₂, hheap₁]
    rfl

/-! ### Progress -/

/-- How many turns a thread may still take inside the lock. -/
def Pc.rest : Pc p → ℕ
  | allocHead .. => 65544
  | refillMap .. => 65543
  | refillHead .. => 65542
  | refillLoop _ _ _ i _ => i + 5
  | take .. => 4
  | link .. => 3
  | setHead .. => 2
  | allocUnlock .. => 1
  | freeHead .. => 4
  | freeLink .. => 3
  | freeSet .. => 2
  | freeUnlock => 1
  | _ => 0

lemma count_le (idx : ℕ) : arena / classSize idx ≤ 65536 := by
  refine Nat.div_le_of_le_mul ?_
  rw [arena_eq]
  have := classSize_ge idx
  omega

/-- The threads have as many lists as the session. -/
lemma Ahead.length_free {a h : Heap} {pos : Pc p} (hah : Ahead p a h pos) :
    h.free.length = a.free.length := by
  have hfilled : ∀ idx, Filled p a h idx → h.free.length = a.free.length := by
    rintro idx (⟨-, -, -, hs⟩ | ⟨base, -, -, hs⟩)
    · rw [hs.free]
    · rw [hs.free, carved, List.length_set]
  cases pos with
  | refillMap _ _ | freeLink _ _ _ => rw [hah.1.free]
  | refillHead _ _ _ => exact congrArg List.length hah.2.2.free
  | refillLoop _ _ _ _ _ => rw [hah.2.2.1]
  | take _ idx => exact hfilled idx hah
  | link _ idx _ | setHead _ idx _ _ => exact hfilled idx hah.1
  | freeSet _ _ =>
    obtain ⟨-, -, hfree, -⟩ := hah
    rw [hfree]
  | _ => exact congrArg List.length (Heap.Same.free hah)

lemma Heap.backed_of {h : Heap} {a n : ℕ} (hmapped : ∀ x, Region.Has ⟨a, n⟩ x → h.mapped x = true) :
    h.backed a n = true := by
  refine List.all_eq_true.2 fun i hi => hmapped _ ⟨Nat.le_add_right a i, ?_⟩
  exact Nat.add_lt_add_left (List.mem_range.1 hi) a

omit [DecidableEq Tid] in
/-- The addresses that a thread inside the lock is about to read or write are mapped. -/
lemma backed_spec {q : Session p} (hl : Linearizes s q) (hinv : SessionInv p q.heap q.live)
    {t : Tid} :
    (∀ layout idx base i next, s.pc t = .refillLoop layout idx base (i + 1) next →
      s.heap.backed (base + i * classSize idx) p.width.bytes = true) ∧
    (∀ layout idx blk, s.pc t = .link layout idx blk →
      s.heap.backed blk p.width.bytes = true) ∧
    ∀ g idx head, s.pc t = .freeLink g idx head → s.heap.backed g.ptr p.width.bytes = true := by
  obtain ⟨-, arenas, chains, hi⟩ := id hinv
  refine ⟨fun layout idx base i next hpc => ?_, fun layout idx blk hpc => ?_,
    fun g idx head hpc => ?_⟩
  · obtain ⟨-, -, -, -, hmapped, hle, -⟩ := hl.ahead hpc rfl
    refine Heap.backed_of fun x hx => ?_
    have hidx := (classFor_some (hl.classed_at hpc)).1
    rw [hmapped]
    exact if_pos ((link_within_arena hidx hle).has hx)
  · obtain ⟨-, hfilled, hblk⟩ := hl.ahead hpc rfl
    obtain ⟨c, arenas', chains', hsame, hc, hfree⟩ :=
      hfilled.free_block (classFor_some (hl.classed_at hpc)).1 hinv hblk
    refine Heap.backed_of fun x hx => ?_
    rw [hsame.mapped]
    exact (hc.block_owned (List.mem_append_left _ hfree)).mapped x
      ((HeapInv.link_within idx blk).has hx)
  · obtain ⟨b, hb, rfl⟩ := hl.blocks.mem_of_holds (t := t) (by rw [hpc]; rfl)
    exact Heap.backed_of fun x hx =>
      hl.mapped ((hi.live_owned hb).mapped x ((Grant.link_within (hl.classed_at hpc)).has hx))

/-- No thread in a call is stuck, whatever the kernel answers: its next turn has a result.  The
thread inside the lock has at most 65544 turns to go, and each of its turns is one less. -/
theorem threads_never_stuck (h : s.Reaches) (t : Tid) (k : Kernel) :
    s.pc t = .idle ∨ (∃ layout ptr, s.pc t = .ret layout ptr) ∨
      ∃ pos heap, exec p k s.heap (s.pc t) = some (pos, heap) ∧ (s.pc t).rest ≤ 65544 ∧
        ((s.pc t).inside = true → pos.inside = true → pos.rest < (s.pc t).rest) := by
  obtain ⟨q, hq, hl⟩ := exists_session h
  have hinv := session_inv hq
  obtain ⟨hloop, hlink, hfree⟩ := backed_spec (t := t) hl hinv
  obtain ⟨-, arenas, chains, hi⟩ := hinv
  -- every list has a head
  have hhead : ∀ {pos idx}, s.pc t = pos → pos.inside = true → idx < numClasses →
      ∃ head, s.heap.free[idx]? = some head := fun hpc hin hidx =>
    ⟨_, List.getElem?_eq_getElem (by rwa [(hl.ahead hpc hin).2.length_free, hi.heads])⟩
  cases hpc : s.pc t with
  | idle => exact Or.inl rfl
  | ret layout ptr => exact Or.inr (Or.inl ⟨layout, ptr, rfl⟩)
  | allocLock | freeLock =>
    refine Or.inr (Or.inr ?_)
    simp only [exec]
    split <;> exact ⟨_, _, rfl, Nat.zero_le _, fun hin => absurd hin Bool.false_ne_true⟩
  | allocHead layout idx =>
    obtain ⟨head, hhead⟩ := hhead hpc rfl (classFor_some (hl.classed_at hpc)).1
    refine Or.inr (Or.inr ⟨_, _, by simp only [exec, hhead]; rfl, le_refl _, fun _ _ => ?_⟩)
    split
    · exact Nat.lt_succ_self _
    · exact (by norm_num : 4 < 65544)
  | refillMap layout idx =>
    have hrest : ∀ base, (if base = 0 then (.allocUnlock layout 0 : Pc p)
        else .refillHead layout idx base).rest < 65543 := by
      intro base
      split
      · exact (by norm_num : 1 < 65543)
      · exact Nat.lt_succ_self _
    exact Or.inr (Or.inr ⟨_, _, rfl, by change 65543 ≤ 65544; norm_num, fun _ _ => hrest _⟩)
  | refillHead layout idx base =>
    obtain ⟨head, hhead⟩ := hhead hpc rfl (classFor_some (hl.classed_at hpc)).1
    refine Or.inr (Or.inr ⟨_, _, by simp only [exec, hhead]; rfl,
      by change 65542 ≤ 65544; norm_num, fun _ _ => ?_⟩)
    change arena / classSize idx + 5 < 65542
    have := count_le idx
    omega
  | refillLoop layout idx base i next =>
    obtain ⟨-, -, -, -, -, hle, -⟩ := hl.ahead hpc rfl
    have hcount := count_le idx
    have hrest : i + 5 ≤ 65544 := by omega
    cases i with
    | zero => exact Or.inr (Or.inr ⟨_, _, rfl, hrest, fun _ _ => Nat.lt_succ_self _⟩)
    | succ i =>
      exact Or.inr (Or.inr ⟨_, _, if_pos (hloop _ _ _ _ _ hpc), hrest,
        fun _ _ => Nat.lt_succ_self _⟩)
  | take | freeHead =>
    obtain ⟨head, hhead⟩ := hhead hpc rfl (classFor_some (hl.classed_at hpc)).1
    exact Or.inr (Or.inr ⟨_, _, by simp only [exec, hhead]; rfl,
      by change 4 ≤ 65544; norm_num, fun _ _ => Nat.lt_succ_self _⟩)
  | link layout idx blk =>
    exact Or.inr (Or.inr ⟨_, _, if_pos (hlink _ _ _ hpc),
      by change 3 ≤ 65544; norm_num, fun _ _ => Nat.lt_succ_self _⟩)
  | setHead | freeSet =>
    exact Or.inr (Or.inr ⟨_, _, rfl, by change 2 ≤ 65544; norm_num,
      fun _ _ => Nat.lt_succ_self _⟩)
  | allocUnlock | freeUnlock =>
    exact Or.inr (Or.inr ⟨_, _, rfl, by change 1 ≤ 65544; norm_num,
      fun _ hin => absurd hin Bool.false_ne_true⟩)
  | largeMap | largeUnmap =>
    exact Or.inr (Or.inr ⟨_, _, rfl, Nat.zero_le _, fun hin => absurd hin Bool.false_ne_true⟩)
  | freeLink g idx head =>
    exact Or.inr (Or.inr ⟨_, _, if_pos (hfree _ _ _ hpc),
      by change 3 ≤ 65544; norm_num, fun _ _ => Nat.lt_succ_self _⟩)

theorem threads_never_stuck_contended :
    ∃ pos heap, exec (.linux .w64) ⟨fun _ => none, true⟩ contended.heap (contended.pc true) =
      some (pos, heap) := by
  rcases threads_never_stuck contended_reaches true _ with hidle | ⟨_, _, hret⟩ | ⟨pos, heap, h, -⟩
  · cases hidle
  · cases hret
  · exact ⟨pos, heap, h⟩

end PureStd.Alloc
