/-
Calls of the allocator by many threads are calls one after the other.

A session (`PureStd.Alloc.Session`) follows the threads: it stands still while they spin or
work inside the lock, and makes a whole call at one turn of theirs, the one at which a list
head is written, or at which a large block is mapped or unmapped.  So whatever the threads
do, their heap is that of a session, up to what the thread inside the lock has begun
(`exists_session`).  What holds in every session holds for the threads.
-/
import PureStd.Alloc.Interference

namespace PureStd.Alloc

open ByteMemory CriticalSection

variable {p : Platform} {Tid : Type*} {layout : Layout p.width} {ptr : ℕ} {g : Grant p}

/-! ### The blocks of the threads and of the session -/

/-- The blocks of the session are those that the program owns, and those that a thread is about
to return from `alloc` or has still to give back in `dealloc`. -/
def Shared (pc : Tid → Pc p) (live : List (Grant p)) (blocks : List (Block p)) : Prop :=
  ∃ held, Holding Pc.holds pc held ∧
    (blocks.map Block.grant).Perm (held.map Prod.snd ++ live)

namespace Shared

variable {pc : Tid → Pc p} {live : List (Grant p)} {blocks : List (Block p)} {t : Tid} {q : Pc p}

lemma mem_of_live (h : Shared pc live blocks) (hg : g ∈ live) : ∃ b ∈ blocks, b.grant = g := by
  obtain ⟨held, -, hperm⟩ := h
  exact List.mem_map.1 (hperm.mem_iff.2 (List.mem_append_right _ hg))

lemma mem_of_holds (h : Shared pc live blocks) (hg : (pc t).holds = some g) :
    ∃ b ∈ blocks, b.grant = g := by
  obtain ⟨held, hheld, hperm⟩ := h
  refine List.mem_map.1 (hperm.mem_iff.2 (List.mem_append_left _ ?_))
  exact List.mem_map.2 ⟨(t, g), (hheld.mem_iff t g).2 hg, rfl⟩

/-- The blocks of the program are apart from each other and from those that threads hold. -/
lemma apart (h : Shared pc live blocks)
    (hap : blocks.Pairwise fun b b' => b.region.Apart b'.region) :
    (live.Pairwise fun g g' => g.region.Apart g'.region) ∧
      (∀ t g, (pc t).holds = some g → ∀ g' ∈ live, g.region.Apart g'.region) ∧
      ∀ t u g g', t ≠ u → (pc t).holds = some g → (pc u).holds = some g' →
        g.region.Apart g'.region := by
  obtain ⟨held, hheld, hperm⟩ := h
  have hall : (held.map Prod.snd ++ live).Pairwise fun g g' => g.region.Apart g'.region := by
    refine List.Pairwise.perm ?_ hperm fun hxy => hxy.symm
    exact List.pairwise_map.2 hap
  obtain ⟨hheldap, hliveap, hcross⟩ := List.pairwise_append.1 hall
  refine ⟨hliveap, fun t g hg g' hg' => ?_, fun t u g g' hne hg hg' => ?_⟩
  · exact hcross g (List.mem_map.2 ⟨(t, g), (hheld.mem_iff t g).2 hg, rfl⟩) g' hg'
  · have hsym : Std.Symm fun x y : Tid × Grant p => x.2.region.Apart y.2.region :=
      ⟨fun _ _ hxy => hxy.symm⟩
    exact (List.pairwise_map.1 hheldap).forall ((hheld.mem_iff t g).2 hg)
      ((hheld.mem_iff u g').2 hg') fun heq => hne (Prod.mk.inj heq).1

variable [DecidableEq Tid]

lemma keep (h : Shared pc live blocks) (hq : q.holds = (pc t).holds) :
    Shared (Function.update pc t q) live blocks := by
  obtain ⟨held, hheld, hperm⟩ := h
  exact ⟨held, hheld.keep hq, hperm⟩

/-- `alloc` has got a block, or nothing. -/
lemma alloc (h : Shared pc live blocks) (ht : (pc t).holds = none)
    (hq : q.holds = if ptr = 0 then none else some ⟨ptr, layout⟩) (calls : List SysCall) :
    Shared (Function.update pc t q) live
      (if ptr = 0 then blocks else ⟨ptr, layout, calls⟩ :: blocks) := by
  split
  · rw [if_pos ‹_›] at hq
    exact h.keep (hq.trans ht.symm)
  · rw [if_neg ‹_›] at hq
    obtain ⟨held, hheld, hperm⟩ := h
    exact ⟨_, hheld.gain ht hq, hperm.cons _⟩

/-- `dealloc` has given a block back. -/
lemma dealloc (h : Shared pc live blocks) (ht : (pc t).holds = some g) (hq : q.holds = none) :
    ∃ b l₁ l₂, blocks = l₁ ++ b :: l₂ ∧ b.grant = g ∧
      Shared (Function.update pc t q) live (l₁ ++ l₂) := by
  obtain ⟨b, hb, hbg⟩ := h.mem_of_holds ht
  obtain ⟨l₁, l₂, rfl⟩ := List.append_of_mem hb
  obtain ⟨held, hheld, hperm⟩ := h
  obtain ⟨k₁, k₂, rfl, hheld'⟩ := hheld.lose ht hq
  refine ⟨b, l₁, l₂, rfl, hbg, k₁ ++ k₂, hheld', ?_⟩
  rw [List.map_append, List.map_cons, List.map_append, List.map_cons, List.append_assoc,
    List.cons_append, hbg] at hperm
  rw [List.map_append, List.map_append, List.append_assoc]
  exact (List.perm_middle.symm.trans (hperm.trans List.perm_middle)).cons_inv

/-- `alloc` returns to the program. -/
lemma ret (h : Shared pc live blocks) (ht : pc t = .ret layout ptr) :
    Shared (Function.update pc t .idle) (if ptr = 0 then live else ⟨ptr, layout⟩ :: live)
      blocks := by
  have hholds : (pc t).holds = if ptr = 0 then none else some ⟨ptr, layout⟩ := by rw [ht]; rfl
  split
  · rw [if_pos ‹_›] at hholds
    exact h.keep hholds.symm
  · rw [if_neg ‹_›] at hholds
    obtain ⟨held, hheld, hperm⟩ := h
    obtain ⟨k₁, k₂, rfl, hheld'⟩ := hheld.lose hholds (q := .idle) rfl
    refine ⟨k₁ ++ k₂, hheld', hperm.trans ?_⟩
    rw [List.map_append, List.map_cons, List.map_append, List.append_assoc, List.cons_append,
      List.append_assoc]
    refine List.Perm.append_left _ ?_
    exact List.perm_middle.symm

/-- The program calls `dealloc`. -/
lemma free {l₁ l₂ : List (Grant p)} (h : Shared pc (l₁ ++ g :: l₂) blocks)
    (ht : (pc t).holds = none) (hq : q.holds = some g) :
    Shared (Function.update pc t q) (l₁ ++ l₂) blocks := by
  obtain ⟨held, hheld, hperm⟩ := h
  refine ⟨_, hheld.gain ht hq, hperm.trans ?_⟩
  rw [List.map_cons, List.cons_append, ← List.append_assoc, ← List.append_assoc]
  exact List.perm_middle

end Shared

/-! ### The first turns of the calls -/

lemma callAlloc_spec (layout : Layout p.width) :
    (callAlloc layout).inside = false ∧ (callAlloc layout).Classed ∧
      (callAlloc layout).holds = none := by
  rw [callAlloc]
  split
  · exact ⟨rfl, ‹_›, rfl⟩
  · split
    · exact ⟨rfl, trivial, rfl⟩
    · exact ⟨rfl, ⟨‹_›, ‹_›⟩, rfl⟩

lemma callDealloc_spec (hne : g.ptr ≠ 0) :
    (callDealloc g).inside = false ∧ (callDealloc g).Classed ∧
      (callDealloc g).holds = some g := by
  rw [callDealloc, if_neg hne]
  split
  · exact ⟨rfl, ‹_›, rfl⟩
  · exact ⟨rfl, ‹_›, rfl⟩

/-! ### Sessions that stand for the threads -/

/-- A session stands for the threads. -/
structure Linearizes (s : Threads Tid p) (q : Session p) : Prop where
  heaps : ∃ pos, Exclusive Pc.inside .idle s.heap.locked s.pc pos ∧ Ahead p q.heap s.heap pos
  classed : ∀ t, (s.pc t).Classed
  blocks : Shared s.pc s.live q.live

namespace Linearizes

variable {s : Threads Tid p} {q : Session p} {t : Tid} {pos : Pc p}

lemma ahead (h : Linearizes s q) (hpc : s.pc t = pos) (hin : pos.inside = true) :
    Exclusive Pc.inside .idle s.heap.locked s.pc pos ∧ Ahead p q.heap s.heap pos := by
  subst hpc
  obtain ⟨pos, hex, hah⟩ := h.heaps
  obtain rfl := hex.pos_eq hin
  exact ⟨hex, hah⟩

lemma classed_at (h : Linearizes s q) (hpc : s.pc t = pos) : pos.Classed :=
  hpc ▸ h.classed t

lemma mapped (h : Linearizes s q) {x : ℕ} (hx : q.heap.mapped x = true) :
    s.heap.mapped x = true := by
  obtain ⟨pos, -, hah⟩ := h.heaps
  exact hah.mapped hx

/-- A block of the session that is not that of the thread inside the lock. -/
def Elsewhere (s : Threads Tid p) (g : Grant p) : Prop :=
  g ∈ s.live ∨ ∃ t, (s.pc t).inside = false ∧ (s.pc t).holds = some g

lemma elsewhere_mem (h : Linearizes s q) (hg : Elsewhere s g) : ∃ b ∈ q.live, b.grant = g := by
  rcases hg with hlive | ⟨t, -, hholds⟩
  · exact h.blocks.mem_of_live hlive
  · exact h.blocks.mem_of_holds hholds

/-- A block elsewhere is apart from the link that the thread inside the lock works on. -/
lemma touched_apart (h : Linearizes s q) (hinv : SessionInv p q.heap q.live)
    (ht : (s.pc t).inside = true) {blk : ℕ} (hblk : (s.pc t).touched = some blk) :
    (∀ x, Region.Has ⟨blk, p.width.bytes⟩ x → s.heap.mapped x = true) ∧
      ∀ g, Elsewhere s g → Region.Apart ⟨blk, p.width.bytes⟩ g.region := by
  obtain ⟨-, arenas, chains, hi⟩ := id hinv
  cases hpc : s.pc t with
  | setHead layout idx blk' next =>
    obtain ⟨-, hah⟩ := h.ahead hpc rfl
    have hcls := h.classed_at hpc
    rw [hpc] at hblk
    obtain rfl : blk' = blk := Option.some.inj hblk
    -- a free block, in the lists of the session or in the arena
    obtain ⟨c, arenas', chains', hsame, hc, hfree⟩ :=
      hah.1.free_block (classFor_some hcls).1 hinv hah.2.1
    have hwithin := HeapInv.link_within (p := p) idx blk'
    refine ⟨fun x hx => ?_, fun g hg => ?_⟩
    · rw [hsame.mapped]
      exact (hc.block_owned (List.mem_append_left _ hfree)).mapped x (hwithin.has hx)
    · obtain ⟨b, hb, rfl⟩ := h.elsewhere_mem hg
      exact (hc.free_apart_live hfree hb).within hwithin ⟨le_refl _, le_refl _⟩
  | freeSet g₀ idx =>
    rw [hpc] at hblk
    obtain rfl : g₀.ptr = blk := Option.some.inj hblk
    have hholds : (s.pc t).holds = some g₀ := by rw [hpc]; rfl
    have hwithin := Grant.link_within (h.classed_at hpc)
    obtain ⟨-, hcross, hpair⟩ := h.blocks.apart hi.live_apart
    refine ⟨fun x hx => ?_, fun g hg => ?_⟩
    · obtain ⟨b, hb, rfl⟩ := h.blocks.mem_of_holds hholds
      exact h.mapped ((hi.live_owned hb).mapped x (hwithin.has hx))
    · refine Region.Apart.within ?_ hwithin ⟨le_refl _, le_refl _⟩
      rcases hg with hlive | ⟨u, hu, hother⟩
      · exact hcross t g₀ hholds g hlive
      · refine hpair t u g₀ g ?_ hholds hother
        rintro rfl
        rw [ht] at hu
        cases hu
  | _ =>
    rw [hpc] at hblk
    cases hblk

/-- Whoever is not inside the lock works on blocks elsewhere and on fresh memory, and that the
session can do as well. -/
lemma effect (h : Linearizes s q) (hinv : SessionInv p q.heap q.live) {E : Effect}
    (hE : ∀ x, E.Spares x ∨ s.heap.mapped x = false ∨ ∃ g, Elsewhere s g ∧ g.region.Has x) :
    ∃ pos, Exclusive Pc.inside .idle s.heap.locked s.pc pos ∧
      Ahead p (E.apply q.heap) (E.apply s.heap) pos := by
  obtain ⟨pos, hex, hah⟩ := h.heaps
  obtain ⟨-, arenas, chains, hi⟩ := id hinv
  have hcls : pos.Classed := by
    rcases hex.pos_cases with rfl | ⟨t, -, rfl⟩
    · trivial
    · exact h.classed t
  refine ⟨pos, hex, hah.effect hcls (fun x hax hhx => ?_) fun blk hblk x hx => ?_⟩
  · rcases hE x with hspares | hfresh | ⟨g, hg, hin⟩
    · exact hspares
    · rw [hhx] at hfresh
      cases hfresh
    · obtain ⟨b, hb, rfl⟩ := h.elsewhere_mem hg
      rw [(hi.live_owned hb).mapped x hin] at hax
      cases hax
  · rcases hex.pos_cases with rfl | ⟨t, ht, rfl⟩
    · cases hblk
    · obtain ⟨hmapped, hap⟩ := h.touched_apart hinv ht hblk
      rcases hE x with hspares | hfresh | ⟨g, hg, hin⟩
      · exact hspares
      · rw [hmapped x hx] at hfresh
        cases hfresh
      · exact absurd hin ((hap g hg).not_has hx)

/-! ### One turn of a thread -/

variable [DecidableEq Tid] {heap : Heap} {idx : ℕ} {k : Kernel}

/-- The session follows a turn of the threads: it stands still or makes a step. -/
def Follows (q : Session p) (s' : Threads Tid p) : Prop :=
  ∃ q', (q' = q ∨ Step p q q') ∧ Linearizes s' q'

lemma classed_update (h : Linearizes s q) (hpos : pos.Classed) :
    ∀ u, (Function.update s.pc t pos u).Classed :=
  (Function.forall_update_iff s.pc fun _ pos => pos.Classed).2 ⟨hpos, fun u _ => h.classed u⟩

/-- A thread goes on inside the lock, and the session stands still. -/
lemma go_on (h : Linearizes s q) {pos' : Pc p} (hpc : s.pc t = pos) (hin : pos.inside = true)
    (hin' : pos'.inside = true) (hcls : pos'.Classed) (hholds : pos'.holds = pos.holds)
    (hlock : heap.locked = s.heap.locked) (hah : Ahead p q.heap heap pos') :
    Follows q { s with heap := heap, pc := Function.update s.pc t pos' } := by
  refine ⟨q, Or.inl rfl, ⟨pos', ?_, hah⟩, h.classed_update hcls,
    h.blocks.keep (by rw [hholds, hpc])⟩
  change Exclusive _ _ heap.locked _ _
  rw [hlock]
  exact (h.ahead hpc hin).1.go_on (by rw [hpc]; exact hin) hin'

/-- A thread in `lock` spins or enters. -/
lemma spin (h : Linearizes s q) (pos' : Pc p) (ht : s.pc t = pos)
    (hout : pos.inside = false) (hin : pos'.inside = true) (hcls : pos'.Classed)
    (hholds : pos'.holds = pos.holds)
    (hsame : ∀ a h, Heap.Same h a → Ahead p a h pos') {q₁ : Pc p}
    (hrun : (if s.heap.locked then some (pos, s.heap)
      else some (pos', { s.heap with locked := true })) = some (q₁, heap)) :
    Follows q { s with heap := heap, pc := Function.update s.pc t q₁ } := by
  split at hrun
  · cases hrun
    obtain rfl := ht
    rw [Function.update_eq_self]
    exact ⟨q, Or.inl rfl, h⟩
  · rename_i hfree
    cases hrun
    obtain ⟨pos₀, hex, hah⟩ := h.heaps
    rw [Bool.not_eq_true] at hfree
    rw [hfree] at hex
    obtain rfl := hex.pos_of_free
    have hs : s.heap.Same q.heap := hah
    exact ⟨q, Or.inl rfl, ⟨pos', hex.enter hin, hsame _ _ ⟨hs.free, hs.mem, hs.mapped⟩⟩,
      h.classed_update hcls, h.blocks.keep (by rw [hholds, ht])⟩

/-- A thread releases the lock. -/
lemma unlock (h : Linearizes s q) {pos' : Pc p} (hpc : s.pc t = pos) (hin : pos.inside = true)
    (hout : pos'.inside = false) (hcls : pos'.Classed) (hholds : pos'.holds = pos.holds)
    (hsame : s.heap.Same q.heap) :
    Follows q { s with heap := s.heap.unlock, pc := Function.update s.pc t pos' } := by
  refine ⟨q, Or.inl rfl, ⟨.idle, (h.ahead hpc hin).1.leave (by rw [hpc]; exact hin) hout, ?_⟩,
    h.classed_update hcls, h.blocks.keep (by rw [hholds, hpc])⟩
  exact ⟨hsame.free, hsame.mem, hsame.mapped⟩

/-- The session makes a call of `alloc` for a small block. -/
lemma alloc_step (new : List SysCall) (hcls : classFor layout.size layout.align = some idx)
    {a' : Heap} (hk : k.Ok p q.heap) (hrun : allocSmall p k q.heap idx = some (a', ptr))
    (hcalls : a'.calls = q.heap.calls ++ new) :
    Step p q ⟨a', if ptr = 0 then q.live else ⟨ptr, layout, new⟩ :: q.live⟩ :=
  .alloc hk (by rw [alloc, hcls]; exact hrun) hcalls

/-- `refill` maps an arena, or `alloc_small` fails. -/
lemma refillMap_turn (h : Linearizes s q) (hinv : SessionInv p q.heap q.live) (hk : k.Ok p s.heap)
    (hpc : s.pc t = .refillMap layout idx)
    (hrun : exec p k s.heap (.refillMap layout idx) = some (pos, heap)) :
    Follows q { s with heap := heap, pc := Function.update s.pc t pos } := by
  have hcls := h.classed_at hpc
  obtain ⟨hex, hs, hzero⟩ := h.ahead hpc rfl
  rcases map_cases hk arena with hfail | ⟨⟨base, len⟩, hmap, hal, hlen, hfresh⟩
  · simp only [exec, hfail, if_true] at hrun
    cases hrun
    exact h.go_on hpc rfl rfl trivial rfl rfl hs
  · rw [pages_arena] at hlen
    obtain rfl : len = arena := hlen
    simp only [exec, hmap] at hrun
    cases hrun
    by_cases hbase : base = 0
    · -- the null address counts as a failure, and the region stays mapped
      subst hbase
      have hok : (arenaGrant p 0).Ok p q.heap := arenaGrant_ok (dvd_zero _) (hs.fresh hfresh)
      have hstep := alloc_step (q := q) [.map ⟨0, arena⟩] hcls hok
        (allocSmall_null hinv.1 hzero) rfl
      refine ⟨_, Or.inr hstep, ⟨_, hex.go_on (by rw [hpc]; rfl) rfl, ?_⟩,
        h.classed_update trivial, h.blocks.keep (by rw [hpc]; rfl)⟩
      have hs' := hs.mapRegion ⟨0, arena⟩
      exact ⟨hs'.free, hs'.mem, hs'.mapped⟩
    · rw [if_neg hbase]
      refine h.go_on hpc rfl rfl hcls rfl rfl ⟨⟨hbase, hal, hs.fresh hfresh⟩, hzero, ?_⟩
      exact hs.mapRegion _

/-- The turn at which `alloc_small` takes effect. -/
lemma setHead_turn (h : Linearizes s q) (hinv : SessionInv p q.heap q.live) {blk next : ℕ}
    (hpc : s.pc t = .setHead layout idx blk next) :
    Follows q { s with
      heap := { s.heap with free := s.heap.free.set idx next }
      pc := Function.update s.pc t (.allocUnlock layout blk) } := by
  obtain ⟨hex, hfilled, hblk, rfl⟩ := h.ahead hpc rfl
  obtain ⟨k, a', new, hk, hrun, hcalls, hsame⟩ := hfilled.allocSmall hinv.1 hblk
  exact ⟨_, Or.inr (alloc_step _ (h.classed_at hpc) hk hrun hcalls),
    ⟨_, hex.go_on (by rw [hpc]; rfl) rfl, hsame⟩, h.classed_update trivial,
    h.blocks.alloc (by rw [hpc]; rfl) rfl new⟩

/-- The turn at which `free_small` takes effect. -/
lemma freeSet_turn (h : Linearizes s q) (hinv : SessionInv p q.heap q.live)
    (hpc : s.pc t = .freeSet g idx) :
    Follows q { s with
      heap := { s.heap with free := s.heap.free.set idx g.ptr }
      pc := Function.update s.pc t .freeUnlock } := by
  obtain ⟨hex, head, hhead, hfree, hmapped, hmem⟩ := h.ahead hpc rfl
  obtain ⟨b, l₁, l₂, hlive, rfl, hblocks⟩ :=
    h.blocks.dealloc (q := .freeUnlock) (by rw [hpc]; rfl) rfl
  obtain ⟨hlock, arenas, chains, hi⟩ := hinv
  have hne : b.ptr ≠ 0 := hi.ptr_ne_null (by rw [hlive]; simp)
  have hrun : dealloc p ⟨fun _ => none, true⟩ q.heap b.ptr b.layout =
      some (Heap.unlock { q.heap with
        locked := true
        mem := store p.width.bytes q.heap.mem b.ptr head
        free := q.heap.free.set idx b.ptr }) := by
    have hcls : classFor b.layout.size b.layout.align = some idx := h.classed_at hpc
    simp only [dealloc, if_neg hne, hcls, freeSmall, lock_eq hlock, Option.bind_eq_bind,
      Option.bind_some, hhead]
  refine ⟨_, Or.inr (.dealloc hlive hrun), ⟨_, hex.go_on (by rw [hpc]; rfl) rfl, ?_⟩,
    h.classed_update trivial, hblocks⟩
  exact ⟨by rw [hfree]; rfl, hmem, hmapped⟩

/-- `alloc` maps a large block. -/
lemma largeMap_turn (h : Linearizes s q) (hinv : SessionInv p q.heap q.live) (hk : k.Ok p s.heap)
    (hpc : s.pc t = .largeMap layout)
    (hrun : exec p k s.heap (.largeMap layout) = some (pos, heap)) :
    Follows q { s with heap := heap, pc := Function.update s.pc t pos } := by
  have hout : (s.pc t).inside = false := by rw [hpc]; rfl
  have hcls := h.classed_at hpc
  have hkq : k.Ok p q.heap := hk.anti fun x hx => h.mapped hx
  -- the session asks the same kernel
  have hask : ∀ a ptr a', map p k a (roundUp p.width layout.size gran) = (ptr, a') →
      alloc p k a layout = some (a', ptr) := by
    intro a ptr a' hmap
    simp only [alloc, hcls.1, if_neg hcls.2, hmap]
  rcases map_uniform hk (roundUp p.width layout.size gran) with hfail | ⟨r, hmap, hfresh⟩
  · simp only [exec, hfail] at hrun
    cases hrun
    obtain ⟨pos, hex, hah⟩ := h.heaps
    exact ⟨q, Or.inl rfl, ⟨pos, hex.pass hout rfl, hah⟩, h.classed_update trivial,
      h.blocks.keep (by rw [hpc]; rfl)⟩
  · simp only [exec, hmap] at hrun
    cases hrun
    have hspares : ∀ x, (Effect.map r).Spares x ∨ s.heap.mapped x = false ∨
        ∃ g, Elsewhere s g ∧ g.region.Has x := by
      intro x
      by_cases hx : r.Has x
      · exact Or.inr (Or.inl (hfresh.2 x hx))
      · exact Or.inl (Effect.map_spares hx)
    obtain ⟨pos, hex, hah⟩ := h.effect hinv hspares
    have hstep : Step p q _ :=
      .alloc hkq (hask _ _ _ (hmap q.heap)) (show _ = _ ++ [.map r] from rfl)
    exact ⟨_, Or.inr hstep, ⟨pos, hex.pass hout rfl, hah⟩, h.classed_update trivial,
      h.blocks.alloc (by rw [hpc]; rfl) rfl _⟩

/-- `dealloc` unmaps a large block. -/
lemma largeUnmap_turn (h : Linearizes s q) (hinv : SessionInv p q.heap q.live)
    (hpc : s.pc t = .largeUnmap g) :
    Follows q { s with
      heap := munmap p k s.heap g.ptr (roundUp p.width g.layout.size gran)
      pc := Function.update s.pc t .idle } := by
  have hout : (s.pc t).inside = false := by rw [hpc]; rfl
  have hholds : (s.pc t).holds = some g := by rw [hpc]; rfl
  have hcls : classFor g.layout.size g.layout.align = none := h.classed_at hpc
  obtain ⟨b, l₁, l₂, hlive, rfl, hblocks⟩ := h.blocks.dealloc (q := .idle) hholds rfl
  obtain ⟨-, arenas, chains, hi⟩ := id hinv
  have hne : b.ptr ≠ 0 := hi.ptr_ne_null (by rw [hlive]; simp)
  have hrun : dealloc p k q.heap b.ptr b.layout =
      some (munmap p k q.heap b.ptr (roundUp p.width b.layout.size gran)) := by
    have hcls' : classFor b.layout.size b.layout.align = none := hcls
    simp only [dealloc, if_neg hne, hcls']
  have hstep := Step.dealloc hlive hrun
  change Follows q { s with
    heap := munmap p k s.heap b.ptr (roundUp p.width b.layout.size gran)
    pc := Function.update s.pc t .idle }
  rcases munmap_uniform p k b.ptr (roundUp p.width b.layout.size gran) with hkeep | hunmap
  · rw [hkeep] at hstep ⊢
    obtain ⟨pos, hex, hah⟩ := h.heaps
    exact ⟨_, Or.inr hstep, ⟨pos, hex.pass hout rfl, hah⟩, h.classed_update trivial, hblocks⟩
  · have hregion : b.grant.region = ⟨b.ptr, p.pages (roundUp p.width b.layout.size gran)⟩ := by
      rw [Grant.region, hcls]
      rfl
    rw [← hregion] at hunmap
    rw [hunmap] at hstep ⊢
    have hspares : ∀ x, (Effect.unmap b.grant.region).Spares x ∨ s.heap.mapped x = false ∨
        ∃ g, Elsewhere s g ∧ g.region.Has x := by
      intro x
      by_cases hx : b.grant.region.Has x
      · exact Or.inr (Or.inr ⟨b.grant, Or.inr ⟨t, hout, hholds⟩, hx⟩)
      · exact Or.inl (Effect.unmap_spares hx)
    obtain ⟨pos, hex, hah⟩ := h.effect hinv hspares
    exact ⟨_, Or.inr hstep, ⟨pos, hex.pass hout rfl, hah⟩, h.classed_update trivial, hblocks⟩

/-- A turn of a thread in a call of the allocator. -/
lemma exec_turn (h : Linearizes s q) (hinv : SessionInv p q.heap q.live) (hk : k.Ok p s.heap)
    (hrun : exec p k s.heap (s.pc t) = some (pos, heap)) :
    Follows q { s with heap := heap, pc := Function.update s.pc t pos } := by
  have hcls := h.classed t
  have hah := fun hin => (h.ahead (t := t) rfl hin).2
  generalize hpc : s.pc t = pos₀ at hrun hcls hah
  cases pos₀ with
  | idle | ret _ _ => cases hrun
  | allocLock layout idx =>
    exact h.spin (.allocHead layout idx) hpc rfl rfl hcls rfl (fun _ _ hs => hs) hrun
  | allocHead layout idx =>
    obtain ⟨head, hhead, hrun⟩ := Option.bind_eq_some_iff.1 hrun
    cases hrun
    have hs : s.heap.Same q.heap := hah rfl
    rw [hs.free] at hhead
    by_cases hzero : head = 0
    · rw [if_pos hzero]
      exact h.go_on hpc rfl rfl hcls rfl rfl ⟨hs, by rw [hhead, hzero]⟩
    · rw [if_neg hzero]
      exact h.go_on hpc rfl rfl hcls rfl rfl (Or.inl ⟨head, hhead, hzero, hs⟩)
  | refillMap layout idx => exact h.refillMap_turn hinv hk hpc hrun
  | refillHead layout idx base =>
    obtain ⟨next, hnext, hrun⟩ := Option.bind_eq_some_iff.1 hrun
    cases hrun
    obtain ⟨hg, hzero, hs⟩ := hah rfl
    have hfree : s.heap.free = q.heap.free := hs.free
    rw [hfree] at hnext
    obtain rfl := Option.some.inj (hzero.symm.trans hnext)
    exact h.go_on hpc rfl rfl hcls rfl rfl
      ⟨hg, hzero, hfree, hs.mapped, le_refl _, by rw [hs.mem]⟩
  | refillLoop layout idx base i next =>
    obtain ⟨hg, hzero, hfree, hmapped, hi, hloop⟩ := hah rfl
    cases i with
    | zero =>
      cases hrun
      obtain ⟨hnext, hmem⟩ := Prod.mk.inj hloop
      refine h.go_on hpc rfl rfl hcls rfl rfl (Or.inr ⟨base, hg, hzero, ?_⟩)
      exact ⟨by rw [hfree, hnext]; rfl, hmem, hmapped⟩
    | succ i =>
      simp only [exec] at hrun
      split at hrun
      · cases hrun
        exact h.go_on hpc rfl rfl hcls rfl rfl
          ⟨hg, hzero, hfree, hmapped, Nat.le_of_succ_le hi, hloop⟩
      · cases hrun
  | take layout idx =>
    obtain ⟨blk, hblk, hrun⟩ := Option.bind_eq_some_iff.1 hrun
    cases hrun
    exact h.go_on hpc rfl rfl hcls rfl rfl ⟨hah rfl, hblk⟩
  | link layout idx blk =>
    simp only [exec] at hrun
    split at hrun
    · cases hrun
      exact h.go_on hpc rfl rfl hcls rfl rfl ⟨(hah rfl).1, (hah rfl).2, rfl⟩
    · cases hrun
  | setHead layout idx blk next =>
    cases hrun
    exact h.setHead_turn hinv hpc
  | allocUnlock layout blk =>
    cases hrun
    exact h.unlock hpc rfl rfl trivial rfl (hah rfl)
  | largeMap layout => exact h.largeMap_turn hinv hk hpc hrun
  | freeLock g idx =>
    exact h.spin (.freeHead g idx) hpc rfl rfl hcls rfl (fun _ _ hs => hs) hrun
  | freeHead g idx =>
    obtain ⟨head, hhead, hrun⟩ := Option.bind_eq_some_iff.1 hrun
    cases hrun
    have hs : s.heap.Same q.heap := hah rfl
    exact h.go_on hpc rfl rfl hcls rfl rfl ⟨hs, by rw [← hs.free]; exact hhead⟩
  | freeLink g idx head =>
    simp only [exec] at hrun
    split at hrun
    · cases hrun
      obtain ⟨hs, hhead⟩ := hah rfl
      exact h.go_on hpc rfl rfl hcls rfl rfl
        ⟨head, hhead, hs.free, hs.mapped, by rw [← hs.mem]⟩
    · cases hrun
  | freeSet g idx =>
    cases hrun
    exact h.freeSet_turn hinv hpc
  | freeUnlock =>
    cases hrun
    exact h.unlock hpc rfl rfl trivial rfl (hah rfl)
  | largeUnmap g =>
    cases hrun
    exact h.largeUnmap_turn hinv hpc

/-- Every turn of the threads. -/
lemma turn {s' : Threads Tid p} (h : Linearizes s q) (hinv : SessionInv p q.heap q.live)
    (hturn : Threads.Turn s s') : Follows q s' := by
  cases hturn with
  | call t layout ht =>
    have hout : (s.pc t).inside = false := by rw [ht]; rfl
    obtain ⟨pos, hex, hah⟩ := h.heaps
    obtain ⟨hpos, hcls, hholds⟩ := callAlloc_spec layout
    exact ⟨q, Or.inl rfl, ⟨pos, hex.pass hout hpos, hah⟩, h.classed_update hcls,
      h.blocks.keep (by rw [hholds, ht]; rfl)⟩
  | exec t hk hrun => exact h.exec_turn hinv hk hrun
  | ret t ht =>
    have hout : (s.pc t).inside = false := by rw [ht]; rfl
    obtain ⟨pos, hex, hah⟩ := h.heaps
    exact ⟨q, Or.inl rfl, ⟨pos, hex.pass hout rfl, hah⟩, h.classed_update trivial,
      h.blocks.ret ht⟩
  | @free t g l₁ l₂ ht hg =>
    have hout : (s.pc t).inside = false := by rw [ht]; rfl
    obtain ⟨pos, hex, hah⟩ := h.heaps
    obtain ⟨b, hb, hbg⟩ := h.blocks.mem_of_live (g := g) (by rw [hg]; simp)
    obtain ⟨-, arenas, chains, hi⟩ := hinv
    have hne : g.ptr ≠ 0 := hbg ▸ hi.ptr_ne_null hb
    obtain ⟨hpos, hcls, hholds⟩ := callDealloc_spec hne
    have hblocks := h.blocks
    rw [hg] at hblocks
    exact ⟨q, Or.inl rfl, ⟨pos, hex.pass hout hpos, hah⟩, h.classed_update hcls,
      hblocks.free (by rw [ht]; rfl) hholds⟩
  | @write g a v hg ha =>
    obtain ⟨b, hb, rfl⟩ := h.blocks.mem_of_live hg
    have hspares : ∀ x, (Effect.write a v).Spares x ∨ s.heap.mapped x = false ∨
        ∃ g, Elsewhere s g ∧ g.region.Has x := by
      intro x
      by_cases hx : x = a
      · refine Or.inr (Or.inr ⟨b.grant, Or.inl hg, ?_⟩)
        rw [hx, Region.Has, Grant.region_base]
        have := b.grant.size_le_region
        omega
      · exact Or.inl (Effect.write_spares hx)
    obtain ⟨pos, hex, hah⟩ := h.effect hinv hspares
    rw [Effect.apply_write, Effect.apply_write] at hah
    exact ⟨_, Or.inr (.write hb ha), ⟨pos, hex, hah⟩, h.classed, h.blocks⟩

end Linearizes

/-- Whatever the threads do, some session stands for them. -/
lemma exists_session [DecidableEq Tid] {s : Threads Tid p} (h : s.Reaches) :
    ∃ q : Session p, Reachable (Started p) (Step p) q ∧ Linearizes s q := by
  refine Reachable.induct (P := fun s => ∃ q : Session p,
    Reachable (Started p) (Step p) q ∧ Linearizes s q) h ?_ ?_
  · rintro s ⟨mem, mapped, rfl⟩
    exact ⟨⟨Heap.new mem mapped, []⟩, .start ⟨mem, mapped, rfl⟩,
      ⟨.idle, .start fun _ => rfl, rfl, rfl, rfl⟩, fun _ => trivial,
      [], .nil fun _ => rfl, .nil⟩
  · rintro s s' - ⟨q, hq, hl⟩ hturn
    obtain ⟨q', hmove, hl'⟩ := hl.turn (session_inv hq) hturn
    rcases hmove with rfl | hstep
    · exact ⟨q', hq, hl'⟩
    · exact ⟨q', hq.next hstep, hl'⟩

end PureStd.Alloc
