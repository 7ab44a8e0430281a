/-
How far a thread inside the lock of the allocator is ahead of the last whole call.

Threads share the heap, and a session (`PureStd.Alloc.Session`) has the heap between whole
calls.  `Ahead` says how the two differ, for every position of the thread inside the lock:
by what that thread has done so far of its call.  The other threads change memory address
by address, and only at addresses that this call does not use; such an effect keeps the
difference (`Ahead.effect`).  At the turn that makes the work of the thread visible, the
whole call of the session catches up (`Filled.allocSmall`).
-/
import PureStd.Alloc.Threads

namespace PureStd.Alloc

open ByteMemory CriticalSection

variable {p : Platform} {h a : Heap} {r : Region} {x : ℕ}

/-! ### Blocks as the program has them -/

/-- The block without its history. -/
def Block.grant (b : Block p) : Grant p := ⟨b.ptr, b.layout⟩

/-- The bytes that belong to the block. -/
def Grant.region (g : Grant p) : Region :=
  match classFor g.layout.size g.layout.align with
  | some idx => ⟨g.ptr, classSize idx⟩
  | none => ⟨g.ptr, p.pages (roundUp p.width g.layout.size gran)⟩

lemma Grant.region_base (g : Grant p) : g.region.base = g.ptr := by
  rw [region]
  split <;> rfl

lemma Grant.size_le_region (g : Grant p) : g.layout.size ≤ g.region.len :=
  Block.size_le_region ⟨g.ptr, g.layout, []⟩

/-- The link of a small block is in it. -/
lemma Grant.link_within {g : Grant p} {idx : ℕ}
    (h : classFor g.layout.size g.layout.align = some idx) :
    Region.Within ⟨g.ptr, p.width.bytes⟩ g.region := by
  have hregion : g.region = blockRegion (idx, g.ptr) := by
    rw [region, h]
    rfl
  rw [hregion]
  exact HeapInv.link_within idx g.ptr

/-! ### Heaps that are the same -/

/-- The lists and the memory are the same; the lock and the log may differ. -/
structure Heap.Same (h a : Heap) : Prop where
  free : h.free = a.free
  mem : h.mem = a.mem
  mapped : h.mapped = a.mapped

lemma Heap.Same.symm (hs : h.Same a) : a.Same h :=
  ⟨hs.free.symm, hs.mem.symm, hs.mapped.symm⟩

lemma Heap.Same.trans {b : Heap} (hs : h.Same a) (ht : a.Same b) : h.Same b :=
  ⟨hs.free.trans ht.free, hs.mem.trans ht.mem, hs.mapped.trans ht.mapped⟩

lemma Heap.Same.mapRegion (hs : h.Same a) (r : Region) : (h.mapRegion r).Same (a.mapRegion r) :=
  ⟨hs.free, by simp only [Heap.mapRegion, hs.mem], by simp only [Heap.mapRegion, hs.mapped]⟩

lemma Heap.Same.fresh (hs : h.Same a) (hr : h.Fresh p r) :
    a.Fresh p r := ⟨hr.1, by rw [← hs.mapped]; exact hr.2⟩

/-- The kernel keeps its contract for a heap with less memory. -/
lemma Kernel.Ok.anti {k : Kernel} (hk : k.Ok p h)
    (hsub : ∀ x, a.mapped x = true → h.mapped x = true) : k.Ok p a := by
  have hfresh : ∀ r, h.Fresh p r → a.Fresh p r := by
    refine fun r hr => ⟨hr.1, fun x hx => ?_⟩
    rw [Bool.eq_false_iff]
    intro hax
    have hhx := hr.2 x hx
    rw [hsub x hax] at hhx
    cases hhx
  cases p with
  | wasm => exact fun pages prev hask => hfresh _ (hk pages prev hask)
  | _ => exact fun len base hask => (hk len base hask).imp_right (hfresh _)

/-- What `map` does depends on the kernel alone. -/
lemma map_uniform {k : Kernel} (hk : k.Ok p h) (len : ℕ) :
    (∀ a, map p k a len = (0, a)) ∨
      ∃ r : Region, (∀ a, map p k a len = (r.base, a.mapRegion r)) ∧ h.Fresh p r := by
  have hmmap : (∀ len base, k.ask len = some base → p.page ∣ base ∧ h.Fresh p ⟨base, p.pages len⟩) →
      (∀ a, mapMmap p k a len = (0, a)) ∨
        ∃ r : Region, (∀ a, mapMmap p k a len = (r.base, a.mapRegion r)) ∧ h.Fresh p r := by
    intro hk
    cases hask : k.ask len with
    | none => exact Or.inl fun a => by simp only [mapMmap, hask]
    | some base =>
      exact Or.inr ⟨⟨base, p.pages len⟩, fun a => by simp only [mapMmap, hask],
        (hk len base hask).2⟩
  cases p with
  | wasm =>
    cases hask : k.ask ((len + Platform.wasm.page - 1) / Platform.wasm.page) with
    | none => exact Or.inl fun a => by simp only [map, mapWasm, hask]
    | some prev =>
      exact Or.inr ⟨⟨prev * Platform.wasm.page, Platform.wasm.pages len⟩,
        fun a => by simp only [map, mapWasm, hask]; rfl, hk _ prev hask⟩
  | _ => exact hmmap hk

/-- So does what `munmap` does. -/
lemma munmap_uniform (p : Platform) (k : Kernel) (addr len : ℕ) :
    (∀ a, munmap p k a addr len = a) ∨
      ∀ a, munmap p k a addr len = a.unmapRegion ⟨addr, p.pages len⟩ := by
  cases p with
  | wasm => exact Or.inl fun _ => rfl
  | _ =>
    cases hrel : k.release with
    | false => exact Or.inl fun a => by simp [munmap, hrel]
    | true => exact Or.inr fun a => by simp [munmap, hrel]

/-! ### Effects -/

/-- A change that is made address by address. -/
structure Effect where
  mem : ℕ → UInt8 → UInt8
  mapped : ℕ → Bool → Bool
  calls : List SysCall

namespace Effect

/-- The heap after the change. -/
def apply (E : Effect) (h : Heap) : Heap :=
  { h with
    mem := fun x => E.mem x (h.mem x)
    mapped := fun x => E.mapped x (h.mapped x)
    calls := h.calls ++ E.calls }

/-- The change leaves an address alone. -/
def Spares (E : Effect) (x : ℕ) : Prop := (∀ b, E.mem x b = b) ∧ ∀ b, E.mapped x b = b

/-- The program writes a byte. -/
def write (a : ℕ) (v : UInt8) : Effect := ⟨fun x b => if x = a then v else b, fun _ b => b, []⟩

/-- The kernel grants a region. -/
def map (r : Region) : Effect :=
  ⟨fun x b => if r.Has x then 0 else b, fun x b => if r.Has x then true else b, [.map r]⟩

/-- The kernel takes a region back. -/
def unmap (r : Region) : Effect :=
  ⟨fun _ b => b, fun x b => if r.Has x then false else b, [.unmap r]⟩

lemma write_spares {a : ℕ} {v : UInt8} (h : x ≠ a) : (write a v).Spares x :=
  ⟨fun _ => if_neg h, fun _ => rfl⟩

lemma map_spares (h : ¬ r.Has x) : (map r).Spares x :=
  ⟨fun _ => if_neg h, fun _ => if_neg h⟩

lemma unmap_spares (h : ¬ r.Has x) : (unmap r).Spares x :=
  ⟨fun _ => rfl, fun _ => if_neg h⟩

lemma apply_write (h : Heap) (a : ℕ) (v : UInt8) :
    (write a v).apply h = { h with mem := Function.update h.mem a v } := by
  have hmem : (fun x => if x = a then v else h.mem x) = Function.update h.mem a v :=
    funext fun x => (Function.update_apply h.mem a v x).symm
  rw [apply, ← hmem, show h.calls ++ (write a v).calls = h.calls from List.append_nil _]
  rfl

variable {E : Effect}

lemma same (hs : h.Same a) : (E.apply h).Same (E.apply a) :=
  ⟨hs.free, by simp only [apply, hs.mem], by simp only [apply, hs.mapped]⟩

/-- A store elsewhere may as well come first. -/
lemma store_comm {n a v : ℕ} {mem : ℕ → UInt8} (h : ∀ x, Region.Has ⟨a, n⟩ x → E.Spares x) :
    store n (fun x => E.mem x (mem x)) a v = fun x => E.mem x (store n mem a v x) := by
  funext x
  by_cases hx : Region.Has ⟨a, n⟩ x
  · have hin : a ≤ x ∧ x < a + n := hx
    rw [(h x hx).1, store, store, if_pos hin, if_pos hin]
  · rw [store_of_not_has hx, store_of_not_has hx]

/-- So may the loop of `refill`. -/
lemma refillLoop_comm {w : PtrWidth} {base block : ℕ} (hblock : w.bytes ≤ block) (i : ℕ) :
    ∀ {next : ℕ} {mem : ℕ → UInt8}, (∀ x, Region.Has ⟨base, i * block⟩ x → E.Spares x) →
      refillLoop w base block i next (fun x => E.mem x (mem x)) =
        ((refillLoop w base block i next mem).1,
          fun x => E.mem x ((refillLoop w base block i next mem).2 x)) := by
  induction i with
  | zero => exact fun _ => rfl
  | succ i ih =>
    intro next mem h
    have hin : ∀ x, base ≤ x ∧ x < base + (i * block + block) → E.Spares x := by
      intro x hx
      refine h x ⟨hx.1, ?_⟩
      change x < base + (i + 1) * block
      rw [Nat.succ_mul]
      exact hx.2
    rw [refillLoop, refillLoop, store_comm, ih]
    · exact fun x hx => hin x ⟨hx.1, by have := hx.2; simp only at this; omega⟩
    · exact fun x hx => hin x ⟨by have := hx.1; simp only at this; omega,
        by have := hx.2; simp only at this; omega⟩

end Effect

/-! ### How far a thread inside the lock is ahead -/

/-- An arena that the kernel can grant. -/
def Granted (p : Platform) (a : Heap) (base : ℕ) : Prop :=
  base ≠ 0 ∧ p.page ∣ base ∧ a.Fresh p ⟨base, arena⟩

/-- The heap after `refill` for an empty list. -/
def carved (p : Platform) (a : Heap) (idx base : ℕ) : Heap :=
  { a.mapRegion ⟨base, arena⟩ with
    mem := (refillLoop p.width base (classSize idx) (arena / classSize idx) 0
      (a.mapRegion ⟨base, arena⟩).mem).2
    free := a.free.set idx (refillLoop p.width base (classSize idx) (arena / classSize idx) 0
      (a.mapRegion ⟨base, arena⟩).mem).1 }

/-- The list of the class is not empty, or it was and has been refilled. -/
def Filled (p : Platform) (a h : Heap) (idx : ℕ) : Prop :=
  (∃ head, a.free[idx]? = some head ∧ head ≠ 0 ∧ h.Same a) ∨
    ∃ base, Granted p a base ∧ a.free[idx]? = some 0 ∧ h.Same (carved p a idx base)

/-- The heap `h` of the threads against the heap `a` of the session, for the position of the
thread inside the lock. -/
def Ahead (p : Platform) (a h : Heap) : Pc p → Prop
  | .refillMap _ idx => h.Same a ∧ a.free[idx]? = some 0
  | .refillHead _ idx base =>
    Granted p a base ∧ a.free[idx]? = some 0 ∧ h.Same (a.mapRegion ⟨base, arena⟩)
  | .refillLoop _ idx base i next =>
    Granted p a base ∧ a.free[idx]? = some 0 ∧ h.free = a.free ∧
      h.mapped = (a.mapRegion ⟨base, arena⟩).mapped ∧ i ≤ arena / classSize idx ∧
      -- what the loop will have done is what it does in one go
      refillLoop p.width base (classSize idx) i next h.mem =
        refillLoop p.width base (classSize idx) (arena / classSize idx) 0
          (a.mapRegion ⟨base, arena⟩).mem
  | .take _ idx => Filled p a h idx
  | .link _ idx blk => Filled p a h idx ∧ h.free[idx]? = some blk
  | .setHead _ idx blk next =>
    Filled p a h idx ∧ h.free[idx]? = some blk ∧ next = load p.width.bytes h.mem blk
  | .freeLink _ idx head => h.Same a ∧ a.free[idx]? = some head
  | .freeSet g idx => ∃ head, a.free[idx]? = some head ∧ h.free = a.free ∧ h.mapped = a.mapped ∧
      h.mem = store p.width.bytes a.mem g.ptr head
  | _ => h.Same a

/-- The link that a thread inside the lock has read or written, and with which it goes on. -/
def Pc.touched : Pc p → Option ℕ
  | setHead _ _ blk _ => some blk
  | freeSet g _ => some g.ptr
  | _ => none

lemma count_mul {idx : ℕ} (hidx : idx < numClasses) :
    arena / classSize idx * classSize idx = arena :=
  Nat.div_mul_cancel ((classSize_dvd hidx).trans (by rw [arena_eq]; norm_num))

lemma bytes_le_classSize (w : PtrWidth) (idx : ℕ) : w.bytes ≤ classSize idx :=
  le_trans (by cases w <;> decide) (classSize_ge idx)

section Effects

variable {E : Effect} {idx base : ℕ}

/-- The arena is out of reach of an effect that spares what only the threads have. -/
lemma Granted.spares (hg : Granted p a base)
    (hmapped : ∀ x, (a.mapRegion ⟨base, arena⟩).mapped x = true → h.mapped x = true)
    (hE : ∀ x, a.mapped x = false → h.mapped x = true → E.Spares x)
    (hx : Region.Has ⟨base, arena⟩ x) : E.Spares x :=
  hE x (hg.2.2.2 x hx) (hmapped x (if_pos hx))

lemma Granted.effect (hg : Granted p a base)
    (hE : ∀ x, Region.Has ⟨base, arena⟩ x → E.Spares x) : Granted p (E.apply a) base := by
  refine ⟨hg.1, hg.2.1, hg.2.2.1, fun x hx => ?_⟩
  change E.mapped x (a.mapped x) = false
  rw [(hE x hx).2, hg.2.2.2 x hx]

/-- The effect and the grant of the arena do not meet. -/
lemma mapRegion_effect (hE : ∀ x, Region.Has ⟨base, arena⟩ x → E.Spares x) :
    ((E.apply a).mapRegion ⟨base, arena⟩).Same (E.apply (a.mapRegion ⟨base, arena⟩)) := by
  refine ⟨rfl, funext fun x => ?_, funext fun x => ?_⟩
  · by_cases hx : Region.Has ⟨base, arena⟩ x
    · simp only [Heap.mapRegion, Effect.apply, if_pos hx, (hE x hx).1]
    · simp only [Heap.mapRegion, Effect.apply, if_neg hx]
  · by_cases hx : Region.Has ⟨base, arena⟩ x
    · simp only [Heap.mapRegion, Effect.apply, if_pos hx, (hE x hx).2]
    · simp only [Heap.mapRegion, Effect.apply, if_neg hx]

lemma refillLoop_effect (hidx : idx < numClasses)
    (hE : ∀ x, Region.Has ⟨base, arena⟩ x → E.Spares x) {i : ℕ} (next : ℕ)
    (hi : i ≤ arena / classSize idx) (mem : ℕ → UInt8) :
    refillLoop p.width base (classSize idx) i next (fun x => E.mem x (mem x)) =
      ((refillLoop p.width base (classSize idx) i next mem).1,
        fun x => E.mem x ((refillLoop p.width base (classSize idx) i next mem).2 x)) := by
  refine Effect.refillLoop_comm (bytes_le_classSize _ _) i fun x hx => hE x ⟨hx.1, ?_⟩
  have hlen := Nat.mul_le_mul_right (classSize idx) hi
  rw [count_mul hidx] at hlen
  exact lt_of_lt_of_le hx.2 (Nat.add_le_add_left hlen base)

lemma carved_effect (hidx : idx < numClasses)
    (hE : ∀ x, Region.Has ⟨base, arena⟩ x → E.Spares x) :
    (carved p (E.apply a) idx base).Same (E.apply (carved p a idx base)) := by
  have hsame := mapRegion_effect (a := a) hE
  have hloop := refillLoop_effect (p := p) hidx hE 0 (le_refl _)
    (a.mapRegion ⟨base, arena⟩).mem
  have hmem : ((E.apply a).mapRegion ⟨base, arena⟩).mem =
      fun x => E.mem x ((a.mapRegion ⟨base, arena⟩).mem x) := hsame.mem
  refine ⟨?_, ?_, hsame.mapped⟩
  · change a.free.set idx _ = a.free.set idx _
    rw [hmem, hloop]
  · change (refillLoop _ _ _ _ _ _).2 = _
    rw [hmem, hloop]
    rfl

/-- What the session has mapped, the threads have mapped. -/
lemma Ahead.mapped {pos : Pc p} (hah : Ahead p a h pos) (hx : a.mapped x = true) :
    h.mapped x = true := by
  have hgrant : ∀ base, (a.mapRegion ⟨base, arena⟩).mapped x = true := fun base => by
    simp only [Heap.mapRegion, hx, ite_self]
  have hfilled : ∀ idx, Filled p a h idx → h.mapped x = true := by
    rintro idx (⟨-, -, -, hs⟩ | ⟨base, -, -, hs⟩)
    · rw [hs.mapped, hx]
    · rw [hs.mapped]
      exact hgrant base
  cases pos with
  | refillMap | freeLink => rw [hah.1.mapped, hx]
  | refillHead _ _ base => rw [hah.2.2.mapped, hgrant base]
  | refillLoop _ _ base _ _ => rw [hah.2.2.2.1, hgrant base]
  | take _ idx => exact hfilled idx hah
  | link _ idx | setHead _ idx => exact hfilled idx hah.1
  | freeSet _ _ =>
    obtain ⟨-, -, -, hm, -⟩ := hah
    rw [hm, hx]
  | _ => rw [Heap.Same.mapped hah, hx]

lemma Filled.effect (hidx : idx < numClasses) (hf : Filled p a h idx)
    (hE : ∀ x, a.mapped x = false → h.mapped x = true → E.Spares x) :
    Filled p (E.apply a) (E.apply h) idx := by
  rcases hf with ⟨head, hhead, hne, hs⟩ | ⟨base, hg, hzero, hs⟩
  · exact Or.inl ⟨head, hhead, hne, Effect.same hs⟩
  · have hspares : ∀ x, Region.Has ⟨base, arena⟩ x → E.Spares x := fun x hx =>
      hg.spares (fun y hy => by rw [hs.mapped]; exact hy) hE hx
    refine Or.inr ⟨base, hg.effect hspares, hzero, ?_⟩
    exact (Effect.same hs).trans (carved_effect hidx hspares).symm

/-- An effect keeps the distance, if it spares what only the threads have mapped and the link
that the thread inside the lock has read or written. -/
lemma Ahead.effect {pos : Pc p} (hcls : pos.Classed) (hah : Ahead p a h pos)
    (hE : ∀ x, a.mapped x = false → h.mapped x = true → E.Spares x)
    (hlink : ∀ blk, pos.touched = some blk →
      ∀ x, Region.Has ⟨blk, p.width.bytes⟩ x → E.Spares x) :
    Ahead p (E.apply a) (E.apply h) pos := by
  cases pos with
  | refillMap | freeLink => exact ⟨Effect.same hah.1, hah.2⟩
  | refillHead _ _ base =>
    obtain ⟨hg, hzero, hs⟩ := hah
    have hspares : ∀ x, Region.Has ⟨base, arena⟩ x → E.Spares x := fun x hx =>
      hg.spares (fun y hy => by rw [hs.mapped]; exact hy) hE hx
    exact ⟨hg.effect hspares, hzero, (Effect.same hs).trans (mapRegion_effect hspares).symm⟩
  | refillLoop _ idx base i next =>
    obtain ⟨hg, hzero, hfree, hmapped, hi, hloop⟩ := hah
    have hidx := (classFor_some hcls).1
    have hspares : ∀ x, Region.Has ⟨base, arena⟩ x → E.Spares x := fun x hx =>
      hg.spares (fun y hy => by rw [hmapped]; exact hy) hE hx
    have hsame := mapRegion_effect (a := a) hspares
    refine ⟨hg.effect hspares, hzero, hfree, ?_, hi, ?_⟩
    · rw [hsame.mapped]
      simp only [Effect.apply, hmapped]
    · have hmem : ((E.apply a).mapRegion ⟨base, arena⟩).mem =
          fun x => E.mem x ((a.mapRegion ⟨base, arena⟩).mem x) := hsame.mem
      change refillLoop _ _ _ _ _ (fun x => E.mem x (h.mem x)) = _
      rw [hmem, refillLoop_effect hidx hspares _ hi, refillLoop_effect hidx hspares _ (le_refl _),
        hloop]
  | take _ idx => exact Filled.effect (classFor_some hcls).1 hah hE
  | link _ idx _ => exact ⟨Filled.effect (classFor_some hcls).1 hah.1 hE, hah.2⟩
  | setHead _ idx blk next =>
    obtain ⟨hf, hblk, hnext⟩ := hah
    refine ⟨Filled.effect (classFor_some hcls).1 hf hE, hblk, hnext.trans ?_⟩
    exact load_congr fun x hx => ((hlink blk rfl x hx).1 _).symm
  | freeSet g idx =>
    obtain ⟨head, hhead, hfree, hmapped, hmem⟩ := hah
    refine ⟨head, hhead, hfree, by simp only [Effect.apply, hmapped], ?_⟩
    simp only [Effect.apply, hmem]
    exact (Effect.store_comm (hlink g.ptr rfl)).symm
  | _ => exact Effect.same hah

end Effects

/-! ### The calls of the session -/

/-- The kernel grants an arena at `base`, and nothing else. -/
def arenaGrant : Platform → ℕ → Kernel
  | .wasm, base =>
    ⟨fun pages => if pages = arena / Platform.wasm.page then some (base / Platform.wasm.page)
      else none, true⟩
  | _, base => ⟨fun len => if len = arena then some base else none, true⟩

section Calls

variable {idx base blk : ℕ}

lemma arenaGrant_ok (hal : p.page ∣ base) (hfresh : a.Fresh p ⟨base, arena⟩) :
    (arenaGrant p base).Ok p a := by
  have hmmap : ∀ len b, (if len = arena then some base else none) = some b →
      p.page ∣ b ∧ a.Fresh p ⟨b, p.pages len⟩ := by
    intro len b hask
    split at hask
    · rename_i hlen
      cases hask
      rw [hlen, pages_arena]
      exact ⟨hal, hfresh⟩
    · cases hask
  cases p with
  | wasm =>
    intro pages prev hask
    simp only [arenaGrant] at hask
    split at hask
    · rename_i hpages
      cases hask
      rw [hpages, Nat.div_mul_cancel hal,
        show arena / Platform.wasm.page * Platform.wasm.page = arena by
          rw [arena_eq]; rfl]
      exact hfresh
    · cases hask
  | _ => exact hmmap

lemma map_arenaGrant (hal : p.page ∣ base) :
    map p (arenaGrant p base) a arena = (base, a.mapRegion ⟨base, arena⟩) := by
  cases p with
  | wasm =>
    have hpages : (arena + Platform.wasm.page - 1) / Platform.wasm.page =
        arena / Platform.wasm.page := by rw [arena_eq]; rfl
    have harena : arena / Platform.wasm.page * Platform.wasm.page = arena := by
      rw [arena_eq]; rfl
    simp only [map, mapWasm, arenaGrant, hpages, if_true, Nat.div_mul_cancel hal, harena]
  | _ => simp only [map, mapMmap, arenaGrant, if_true, pages_arena]

lemma refill_arenaGrant (hg : Granted p a base) (hzero : a.free[idx]? = some 0) :
    refill p (arenaGrant p base) a idx = some (carved p a idx base, true) := by
  have hzero' : (a.mapRegion ⟨base, arena⟩).free[idx]? = some 0 := hzero
  simp only [refill, map_arenaGrant hg.2.1, if_neg hg.1, Option.bind_eq_bind, hzero',
    Option.bind_some]
  rfl

/-- The whole of `alloc_small`, if the kernel grants an arena at the null address. -/
lemma allocSmall_null (hlock : a.locked = false) (hzero : a.free[idx]? = some 0) :
    allocSmall p (arenaGrant p 0) a idx = some ((a.mapRegion ⟨0, arena⟩).unlock, 0) := by
  have hrefill : refill p (arenaGrant p 0) { a with locked := true } idx =
      some (Heap.mapRegion { a with locked := true } ⟨0, arena⟩, false) := by
    simp only [refill, map_arenaGrant (dvd_zero _), if_true]
  simp only [allocSmall, lock_eq hlock, Option.bind_eq_bind, Option.bind_some, hzero, if_true,
    hrefill]
  rfl

/-- The whole of `alloc_small`, for a list that was filled. -/
lemma Filled.allocSmall (hf : Filled p a h idx) (hlock : a.locked = false)
    (hblk : h.free[idx]? = some blk) :
    ∃ k a' new, k.Ok p a ∧ allocSmall p k a idx = some (a', blk) ∧ a'.calls = a.calls ++ new ∧
      Heap.Same { h with free := h.free.set idx (load p.width.bytes h.mem blk) } a' := by
  have hsame : ∀ {a₁ : Heap}, h.Same a₁ → a₁.free[idx]? = some blk ∧
      Heap.Same { h with free := h.free.set idx (load p.width.bytes h.mem blk) }
        { a₁ with free := a₁.free.set idx (load p.width.bytes a₁.mem blk) }.unlock :=
    fun hs => ⟨hs.free ▸ hblk, by simp only [hs.free, hs.mem]; rfl, hs.mem, hs.mapped⟩
  rcases hf with ⟨head, hhead, hne, hs⟩ | ⟨base, hg, hzero, hs⟩
  · obtain ⟨hblk', hs'⟩ := hsame hs
    refine ⟨⟨fun _ => none, true⟩, _, [], ?_, ?_, ?_, hs'⟩
    · cases p <;> exact nofun
    · obtain rfl := Option.some.inj (hhead.symm.trans hblk')
      simp only [Alloc.allocSmall, lock_eq hlock, Option.bind_eq_bind, Option.bind_some, hhead,
        if_neg hne, if_true]
      rfl
    · exact (List.append_nil _).symm
  · obtain ⟨hblk', hs'⟩ := hsame hs
    refine ⟨arenaGrant p base, _, [.map ⟨base, arena⟩], arenaGrant_ok hg.2.1 hg.2.2, ?_, rfl, hs'⟩
    have hrefill : refill p (arenaGrant p base) { a with locked := true } idx =
        some ({ carved p a idx base with locked := true }, true) :=
      refill_arenaGrant (a := { a with locked := true }) hg hzero
    simp only [Alloc.allocSmall, lock_eq hlock, Option.bind_eq_bind, Option.bind_some, hzero,
      if_true, hrefill, hblk']
    rfl

/-- The first block of a list that was filled is a free block, in the lists as the session has
them or will have them. -/
lemma Filled.free_block {live : List (Block p)} (hf : Filled p a h idx) (hidx : idx < numClasses)
    (hinv : SessionInv p a live) (hblk : h.free[idx]? = some blk) :
    ∃ c arenas chains, h.Same c ∧ HeapInv p c live arenas chains ∧
      (idx, blk) ∈ freeBlocks chains := by
  obtain ⟨-, arenas, chains, hi⟩ := hinv
  -- an address in a list that is not null is that of the first node
  have hfirst : ∀ {c : Heap} {arenas chains}, HeapInv p c live arenas chains → h.Same c →
      blk ≠ 0 → (idx, blk) ∈ freeBlocks chains := by
    intro c arenas chains hi hs hne
    rcases (hi.chain idx blk (hs.free ▸ hblk)).head_cases with ⟨hzero, -⟩ | ⟨l, hl, -⟩
    · exact absurd hzero hne
    · exact mem_freeBlocks.2 ⟨hidx, by simp [hl]⟩
  rcases hf with ⟨head, hhead, hne, hs⟩ | ⟨base, hg, hzero, hs⟩
  · obtain rfl := Option.some.inj (hhead.symm.trans (hs.free ▸ hblk))
    exact ⟨a, arenas, chains, hs, hi, hfirst hi hs hne⟩
  · obtain ⟨c, filled, -, hrun, -, -, ⟨arenas', chains', hi'⟩, hready⟩ :=
      refill_spec hi (arenaGrant_ok hg.2.1 hg.2.2) hidx
    rw [refill_arenaGrant hg hzero] at hrun
    cases hrun
    obtain ⟨blk', hblk', hne⟩ := hready rfl
    obtain rfl := Option.some.inj (hblk'.symm.trans (hs.free ▸ hblk))
    exact ⟨_, arenas', chains', hs, hi', hfirst hi' hs hne⟩

end Calls

end PureStd.Alloc
