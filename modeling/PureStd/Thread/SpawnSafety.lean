/-
The life of a spawned thread.

Each of the two threads has an assertion about what they share (`Pc.Parent`, `Pc.Child`).
Until the kernel has created the thread, everything belongs to the parent.  From then on the
two have a reference to the packet each, the child owns the stack and the payload, and the
word `state` passes the result from the child to the parent.

So nothing is used after it was freed, and everything is freed but the stack on Linux
(`spawn_reclaims`); and `join` returns what the closure returned (`join_delivers`).
-/
import PureStd.Thread.Spawn

namespace PureStd.Thread.Spawn

open Sleeper

variable {V : Type*} {w : PtrWidth} {os : Os} {size : Option ℕ} {d d' : Job V} {p p' q : Pc V}

/-! ### Who owns what -/

/-- A region that `mmap` may return to `spawn`. -/
structure Stack.Fits (w : PtrWidth) (size : Option ℕ) (k : Stack) : Prop where
  size_eq : k.size = stackSize w size
  pos : 0 < k.size
  page : 4096 ∣ k.base
  below : k.base + k.size < w.size

/-- The packet is allocated as long as there are references, and the word says that the result
is there. -/
structure Job.Ok (d : Job V) : Prop where
  sound : d.fault = false
  count : d.refs = d.parentRef.toNat + d.childRef.toNat
  alloc : d.packet = decide (0 < d.refs)
  word : d.state = 0 ∨ d.state = 1
  published : d.state = 1 → d.parentRef = true → d.taken = false →
    d.result = d.produced ∧ d.produced ≠ none

/-- There is no thread yet. -/
structure Job.Before (d : Job V) (stack payload : Option Stack) (mine its : Bool) : Prop where
  sp : d.sp = none
  state : d.state = 0
  stack : d.stack = stack
  payload : d.payload = payload
  parentRef : d.parentRef = mine
  childRef : d.childRef = its
  taken : d.taken = false
  seen : d.seen = false

/-- There is a thread, and the parent has a handle that was not joined. -/
structure Job.Held (d : Job V) : Prop where
  sp : d.sp ≠ none
  parentRef : d.parentRef = true
  taken : d.taken = false
  seen : d.seen = true → d.state = 1

/-- The parent ends in this way. -/
def Outcome.Of (d : Job V) (mine : Bool) : Outcome V → Prop
  | failed _ => d.Before none none mine false
  | detached => d.sp ≠ none ∧ d.parentRef = mine
  | joined v => d.sp ≠ none ∧ d.parentRef = mine ∧ d.produced = some v
  | panicked => False

/-- The assertion of the parent. -/
def Pc.Parent (w : PtrWidth) (size : Option ℕ) : Pc V → Job V → Prop
  | mapStack, d => d.Before none none false false
  | newPacket k, d => k.Fits w size ∧ d.Before (some k) none false false
  | newPayload k, d => k.Fits w size ∧ d.Before (some k) none true false
  | spawnOs k, d => k.Fits w size ∧ d.Before (some k) (some k) true true
  | dropPayload k, d => d.Before (some k) (some k) true true
  | unmap k, d => d.Before (some k) none true false
  | dropPacket o, d => o.Of d true
  | handle, d => d.Held
  | loadState, d => d.Held
  | answered b, d => d.Held ∧ (b = true → d.state = 1)
  | joinWait v, d => d.Held ∧ (d.seen = true → v = .load)
  | joinTake, d => d.Held ∧ d.state = 1
  | ended o, d => o.Of d false
  | _, _ => False

/-- The thread runs on its stack. -/
structure Job.Runs (w : PtrWidth) (size : Option ℕ) (d : Job V) (k : Stack) : Prop where
  fits : k.Fits w size
  sp : d.sp = some (stackTop w k)
  stack : d.stack = some k
  payload : d.payload = none

lemma Job.Runs.born {k : Stack} (h : d.Runs w size k) : d.sp ≠ none := by simp [h.sp]

/-- The assertion of the child. -/
def Pc.Child (w : PtrWidth) (os : Os) (size : Option ℕ) : Pc V → Job V → Prop
  | unborn, d => d.state = 0 ∧ d.produced = none ∧ (d.sp ≠ none → d.childRef = true ∧
      ∃ k : Stack, k.Fits w size ∧ d.sp = some (stackTop w k) ∧ d.stack = some k ∧
        d.payload = some k)
  | body k, d => d.Runs w size k ∧ d.childRef = true ∧ d.state = 0 ∧ d.produced = none
  | publish k v, d => d.Runs w size k ∧ d.childRef = true ∧ d.state = 0 ∧ d.produced = some v
  | store k, d => d.Runs w size k ∧ d.childRef = true ∧ d.state = 0 ∧ d.result = d.produced ∧
      d.produced ≠ none
  | wake k, d => d.Runs w size k ∧ d.childRef = true ∧ d.state = 1
  | release k, d => d.Runs w size k ∧ d.childRef = true ∧ d.state = 1
  | exit k, d => d.Runs w size k ∧ d.childRef = false ∧ d.state = 1
  | exited, d => d.sp ≠ none ∧ (d.stack = none ↔ os = .macos) ∧ d.payload = none ∧
      d.childRef = false ∧ d.state = 1
  | _, _ => False

/-- The assertion of a thread. -/
def Assert (w : PtrWidth) (os : Os) (size : Option ℕ) : Side → Pc V → Job V → Prop
  | .parent, p, d => p.Parent w size d
  | .child, p, d => p.Child w os size d

/-! ### The operations on the packet -/

lemma Job.Ok.touch (h : d.Ok) (hrefs : 0 < d.refs) : d.touch = d :=
  if_pos (h.alloc.trans (by simpa using hrefs))

/-- The last reference frees the packet. -/
lemma Job.Ok.drop_last (h : d.Ok) (hrefs : d.refs = 1) :
    d.drop = { d with refs := 0, packet := false, result := none } := by
  have hpacket : d.packet = true := h.alloc.trans (by simp [hrefs])
  simp [Job.drop, hpacket, hrefs]

/-- Another one leaves it as it is. -/
lemma Job.Ok.drop_other (h : d.Ok) (hrefs : d.refs = 2) : d.drop = { d with refs := 1 } := by
  have hpacket : d.packet = true := h.alloc.trans (by simp [hrefs])
  simp [Job.drop, hpacket, hrefs]

/-! ### What the threads do not touch -/

/-- Before there is a thread, the child is where it begins. -/
lemma Pc.Child.unborn_of (h : q.Child w os size d) (hsp : d.sp = none) :
    q = .unborn ∧ d.state = 0 ∧ d.produced = none := by
  cases q
  case unborn => exact ⟨rfl, h.1, h.2.1⟩
  case exited => exact absurd hsp h.1
  case body | publish | store | wake | release | exit =>
    have := h.1.sp
    rw [hsp] at this
    cases this
  all_goals exact h.elim

/-- The assertion of the child survives what the parent does with a handle. -/
lemma Pc.Child.frame (h : q.Child w os size d) (hsp : d'.sp = d.sp) (hstack : d'.stack = d.stack)
    (hpayload : d'.payload = d.payload) (href : d'.childRef = d.childRef)
    (hstate : d'.state = d.state) (hprod : d'.produced = d.produced)
    (hresult : d.childRef = true → d.state = 0 → d'.result = d.result) :
    q.Child w os size d' := by
  have hruns : ∀ k, d.Runs w size k → d'.Runs w size k := fun k h =>
    ⟨h.fits, hsp.trans h.sp, hstack.trans h.stack, hpayload.trans h.payload⟩
  cases q
  case unborn => simpa only [Pc.Child, hsp, hstack, hpayload, href, hstate, hprod] using h
  case exited => simpa only [Pc.Child, hsp, hstack, hpayload, href, hstate] using h
  case store k =>
    obtain ⟨hk, hr, hs, hres, hp⟩ := h
    exact ⟨hruns k hk, href.trans hr, hstate.trans hs,
      (hresult hr hs).trans (hres.trans hprod.symm), by rwa [hprod]⟩
  case body | publish | wake | release | exit =>
    exact ⟨hruns _ h.1, by simpa only [href, hstate, hprod] using h.2⟩
  all_goals exact h.elim

/-- The assertion of the parent survives what the child does. -/
lemma Pc.Parent.frame (h : q.Parent w size d) (hsp : d.sp ≠ none) (hsp' : d'.sp = d.sp)
    (href : d'.parentRef = d.parentRef) (htaken : d'.taken = d.taken) (hseen : d'.seen = d.seen)
    (hstate : d.state = 1 → d'.state = 1)
    (hprod : ∀ v, d.produced = some v → d'.produced = some v) : q.Parent w size d' := by
  have hheld : d.Held → d'.Held := fun h => ⟨hsp'.trans_ne h.sp, href.trans h.parentRef,
    htaken.trans h.taken, fun hs => hstate (h.seen (hseen ▸ hs))⟩
  have hof : ∀ (o : Outcome V) mine, o.Of d mine → o.Of d' mine := by
    intro o mine ho
    cases o with
    | failed e => exact absurd ho.sp hsp
    | detached => exact ⟨hsp'.trans_ne hsp, href.trans ho.2⟩
    | joined v => exact ⟨hsp'.trans_ne hsp, href.trans ho.2.1, hprod v ho.2.2⟩
    | panicked => exact ho.elim
  cases q
  case mapStack => exact absurd h.sp hsp
  case newPacket | newPayload | spawnOs => exact absurd h.2.sp hsp
  case dropPayload | unmap => exact absurd h.sp hsp
  case dropPacket o => exact hof o true h
  case ended o => exact hof o false h
  case handle | loadState => exact hheld h
  case answered b => exact ⟨hheld h.1, fun hb => hstate (h.2 hb)⟩
  case joinWait v => exact ⟨hheld h.1, fun hs => h.2 (hseen ▸ hs)⟩
  case joinTake => exact ⟨hheld h.1, hstate h.2⟩
  all_goals exact h.elim

/-! ### The moves of the parent -/

lemma Job.Before.ok {k j : Option Stack} {mine its : Bool} (hb : d.Before k j mine its)
    (hfault : d.fault = false) (hcount : d.refs = mine.toNat + its.toNat)
    (halloc : d.packet = decide (0 < d.refs)) : d.Ok := by
  refine ⟨hfault, ?_, halloc, Or.inl hb.state, fun hone => ?_⟩
  · rw [hcount, hb.parentRef, hb.childRef]
  · rw [hb.state] at hone
    exact absurd hone (by decide)

/-- A move of the parent before there is a thread. -/
lemma Job.Before.child {k k' j j' : Option Stack} {mine its mine' its' : Bool}
    (hb : d.Before k j mine its) (hb' : d'.Before k' j' mine' its')
    (hprod : d'.produced = d.produced) (hq : q.Child w os size d) : q.Child w os size d' := by
  obtain ⟨rfl, -, hnone⟩ := hq.unborn_of hb.sp
  exact ⟨hb'.state, hprod.trans hnone, fun h => absurd hb'.sp h⟩

/-- A move of the parent that changes nothing. -/
lemma parent_stays (hd : d.Ok) (hp' : p'.Parent w size d) :
    d.Ok ∧ p'.Parent w size d ∧ ∀ q : Pc V, q.Child w os size d → q.Child w os size d :=
  ⟨hd, hp', fun _ hq => hq⟩

lemma Job.Ok.refs_pos (hd : d.Ok) (h : d.parentRef = true) : 0 < d.refs := by
  rw [hd.count, h]
  exact Nat.lt_of_lt_of_le Nat.zero_lt_one (Nat.le_add_right 1 _)

lemma Job.Ok.refs_pos_child (hd : d.Ok) (h : d.childRef = true) : 0 < d.refs := by
  rw [hd.count, h]
  exact Nat.lt_of_lt_of_le Nat.zero_lt_one (Nat.le_add_left 1 _)

/-- The parent releases its reference. -/
lemma parent_drops (hd : d.Ok) {o : Outcome V} (ho : o.Of d true) :
    ({ d.drop with parentRef := false } : Job V).Ok ∧
      o.Of { d.drop with parentRef := false } false ∧
      ∀ q : Pc V, q.Child w os size d → q.Child w os size { d.drop with parentRef := false } := by
  have href : d.parentRef = true := by
    cases o with
    | failed e => exact ho.parentRef
    | detached => exact ho.2
    | joined v => exact ho.2.1
    | panicked => exact ho.elim
  have hcount := hd.count
  rw [href] at hcount
  cases hc : d.childRef with
  | false =>
    rw [hd.drop_last (by rw [hcount, hc]; rfl)]
    refine ⟨⟨hd.sound, by simp [hc], by simp, hd.word, nofun⟩, ?_, fun q hq => ?_⟩
    · cases o with
      | failed e =>
        exact ⟨ho.sp, ho.state, ho.stack, ho.payload, rfl, ho.childRef, ho.taken, ho.seen⟩
      | detached => exact ⟨ho.1, rfl⟩
      | joined v => exact ⟨ho.1, rfl, ho.2.2⟩
      | panicked => exact ho.elim
    · exact hq.frame rfl rfl rfl rfl rfl rfl fun h => by rw [hc] at h; cases h
  | true =>
    rw [hd.drop_other (by rw [hcount, hc]; rfl)]
    refine ⟨⟨hd.sound, by simp [hc], ?_, hd.word, nofun⟩, ?_, fun q hq => ?_⟩
    · exact hd.alloc.trans (by simp [hcount, hc])
    · cases o with
      | failed e => rw [ho.childRef] at hc; cases hc
      | detached => exact ⟨ho.1, rfl⟩
      | joined v => exact ⟨ho.1, rfl, ho.2.2⟩
      | panicked => exact ho.elim
    · exact hq.frame rfl rfl rfl rfl rfl rfl fun _ _ => rfl

lemma parent_exec (h : exec os .parent p d = some (p', d')) (hd : d.Ok)
    (hp : p.Parent w size d) :
    d'.Ok ∧ p'.Parent w size d' ∧ ∀ q : Pc V, q.Child w os size d → q.Child w os size d' := by
  cases p <;> simp only [exec, Option.some.injEq, Prod.mk.injEq, reduceCtorEq] at h
  case newPacket k =>
    obtain ⟨rfl, rfl⟩ := h
    obtain ⟨hfits, hb⟩ := hp
    have hb' : d.newPacket.Before (some k) none true false :=
      { hb with state := rfl, parentRef := rfl }
    exact ⟨hb'.ok hd.sound rfl rfl, ⟨hfits, hb'⟩, fun q => hb.child hb' rfl⟩
  case newPayload k =>
    obtain ⟨rfl, rfl⟩ := h
    obtain ⟨hfits, hb⟩ := hp
    have hrefs : d.refs = 1 := by rw [hd.count, hb.parentRef, hb.childRef]; rfl
    rw [Job.box, hd.touch (by omega)]
    have hb' : ({ d with refs := d.refs + 1, payload := some k, childRef := true } : Job V).Before
        (some k) (some k) true true :=
      { hb with payload := rfl, childRef := rfl }
    exact ⟨hb'.ok hd.sound (by simp [hrefs]) (hd.alloc.trans (by simp [hrefs])), ⟨hfits, hb'⟩,
      fun q => hb.child hb' rfl⟩
  case dropPayload k =>
    obtain ⟨rfl, rfl⟩ := h
    have hb : d.Before (some k) (some k) true true := hp
    have hrefs : d.refs = 2 := by rw [hd.count, hb.parentRef, hb.childRef]; rfl
    rw [hd.drop_other hrefs]
    have hb' : ({ ({ d with refs := 1 } : Job V).unbox with childRef := false } : Job V).Before
        (some k) none true false :=
      { hb with payload := rfl, childRef := rfl }
    exact ⟨hb'.ok (by simp [Job.unbox, hd.sound, hb.payload]) rfl
      (hd.alloc.trans (by simp [Job.unbox, hrefs])), hb', fun q => hb.child hb' rfl⟩
  case unmap k =>
    obtain ⟨rfl, rfl⟩ := h
    have hb : d.Before (some k) none true false := hp
    have hb' : (d.unmap k).Before none none true false :=
      { hb with stack := if_pos hb.stack }
    exact ⟨hb'.ok hd.sound (hd.count.trans (by rw [hb.parentRef, hb.childRef])) hd.alloc, hb',
      fun q => hb.child hb' rfl⟩
  case dropPacket o =>
    obtain ⟨rfl, rfl⟩ := h
    exact parent_drops hd hp
  case loadState =>
    obtain ⟨rfl, rfl⟩ := h
    have hh : d.Held := hp
    rw [hd.touch (hd.refs_pos hh.parentRef)]
    refine ⟨{ hd with },
      ⟨⟨hh.sp, hh.parentRef, hh.taken, ?_⟩, of_decide_eq_true⟩,
      fun q hq => hq.frame rfl rfl rfl rfl rfl rfl fun _ _ => rfl⟩
    intro hs
    rcases Bool.or_eq_true_iff.1 hs with hs | hs
    · exact hh.seen hs
    · exact of_decide_eq_true hs
  case joinWait v =>
    obtain ⟨v', hv, hv'⟩ := Option.map_eq_some_iff.1 h
    obtain ⟨rfl, rfl⟩ := Prod.mk.inj hv'
    obtain ⟨hh, hseen⟩ := hp
    rw [hd.touch (hd.refs_pos hh.parentRef)]
    refine parent_stays hd ?_
    split
    · rename_i hdone
      subst hdone
      exact ⟨hh, hd.word.resolve_left (WaitPc.ne_of_exec_done hv)⟩
    · rename_i hne
      refine ⟨hh, fun hs => absurd ?_ hne⟩
      -- the load finds 1, and the loop ends
      rw [hseen hs, WaitPc.exec, hh.seen hs] at hv
      exact (Option.some.inj hv).symm
  case joinTake =>
    obtain ⟨hh, hone⟩ := hp
    obtain ⟨hres, hprod⟩ := hd.published hone hh.parentRef hh.taken
    obtain ⟨v, hv⟩ := Option.ne_none_iff_exists'.1 hprod
    rw [hd.touch (hd.refs_pos hh.parentRef), hres.trans hv] at h
    cases h
    refine ⟨{ hd with published := fun _ _ htaken => (by cases htaken) },
      ⟨hh.sp, hh.parentRef, hv⟩, fun q hq => hq.frame rfl rfl rfl rfl rfl rfl fun _ hzero => ?_⟩
    rw [hone] at hzero
    exact absurd hzero (by decide)

lemma parent_choose {x : Choice V} (h : choose w size .parent x p d = some (p', d')) (hd : d.Ok)
    (hp : p.Parent w size d) :
    d'.Ok ∧ p'.Parent w size d' ∧ ∀ q : Pc V, q.Child w os size d → q.Child w os size d' := by
  cases p <;> cases x <;> simp only [choose, Option.some.injEq, Prod.mk.injEq, reduceCtorEq,
    Option.ite_none_right_eq_some] at h
  case mapStack.map base =>
    obtain ⟨⟨hpos, hpage, hbelow⟩, rfl, rfl⟩ := h
    have hb : d.Before none none false false := hp
    have hb' : ({ d with stack := some ⟨base, stackSize w size⟩ } : Job V).Before
        (some ⟨base, stackSize w size⟩) none false false :=
      { hb with stack := rfl }
    exact ⟨hb'.ok hd.sound (hd.count.trans (by rw [hb.parentRef, hb.childRef])) hd.alloc,
      ⟨⟨rfl, hpos, hpage, hbelow⟩, hb'⟩, fun q => hb.child hb' rfl⟩
  case spawnOs.grant k =>
    -- everything of the child is handed over
    obtain ⟨rfl, rfl⟩ := h
    obtain ⟨hfits, hb⟩ := hp
    refine ⟨{ hd with }, ⟨by simp, hb.parentRef,
      hb.taken, fun hs => ?_⟩, fun q hq => ?_⟩
    · exact absurd (hb.seen.symm.trans hs) (by decide)
    · obtain ⟨rfl, -, hnone⟩ := hq.unborn_of hb.sp
      exact ⟨hb.state, hnone, fun _ => ⟨hb.childRef, k, hfits, rfl, hb.stack, hb.payload⟩⟩
  case answered.resume b =>
    obtain ⟨rfl, rfl⟩ := h
    exact parent_stays hd hp.1
  case spawnOs.refuse k =>
    obtain ⟨rfl, rfl⟩ := h
    exact parent_stays hd hp.2
  case handle.detach =>
    obtain ⟨rfl, rfl⟩ := h
    exact parent_stays hd ⟨hp.sp, hp.parentRef⟩
  case handle.join =>
    obtain ⟨rfl, rfl⟩ := h
    exact parent_stays hd ⟨hp, fun _ => rfl⟩
  all_goals
    obtain ⟨rfl, rfl⟩ := h
    exact parent_stays hd hp

/-! ### The moves of the child -/

lemma child_exec (h : exec os .child p d = some (p', d')) (hd : d.Ok)
    (hp : p.Child w os size d) :
    d'.Ok ∧ p'.Child w os size d' ∧ ∀ q : Pc V, q.Parent w size d → q.Parent w size d' := by
  cases p <;> simp only [exec, Option.some.injEq, Prod.mk.injEq, reduceCtorEq] at h
  case unborn =>
    obtain ⟨hzero, hnone, hborn⟩ := hp
    have hsp : d.sp ≠ none := by
      intro hsp
      simp [hsp] at h
    obtain ⟨href, k, hfits, hsp', hstack, hpayload⟩ := hborn hsp
    rw [hsp', hpayload] at h
    cases h
    refine ⟨{ hd with sound := by simp [Job.unbox, hd.sound, hpayload] },
      ⟨⟨hfits, hsp', hstack, rfl⟩, href, hzero, hnone⟩, fun q hq => ?_⟩
    exact hq.frame hsp rfl rfl rfl rfl id fun _ => id
  case publish k v =>
    obtain ⟨rfl, rfl⟩ := h
    obtain ⟨hruns, href, hzero, hprod⟩ := hp
    rw [hd.touch (hd.refs_pos_child href)]
    refine ⟨{ hd with published := fun hone => ?_ },
      ⟨{ hruns with }, href, hzero, hprod.symm,
        by simp [hprod]⟩,
      fun q hq => hq.frame hruns.born rfl rfl rfl rfl id fun _ => id⟩
    rw [show d.state = 1 from hone] at hzero
    exact absurd hzero (by decide)
  case store k =>
    obtain ⟨rfl, rfl⟩ := h
    obtain ⟨hruns, href, hzero, hres, hprod⟩ := hp
    rw [hd.touch (hd.refs_pos_child href)]
    exact ⟨{ hd with word := Or.inr rfl, published := fun _ _ _ => ⟨hres, hprod⟩ },
      ⟨{ hruns with }, href, rfl⟩,
      fun q hq => hq.frame hruns.born rfl rfl rfl rfl (fun _ => rfl) fun _ => id⟩
  case release k =>
    obtain ⟨rfl, rfl⟩ := h
    obtain ⟨hruns, href, hone⟩ := hp
    have hcount := hd.count
    rw [href] at hcount
    cases hmine : d.parentRef with
    | false =>
      rw [hd.drop_last (by rw [hcount, hmine]; rfl)]
      refine ⟨⟨hd.sound, by simp [hmine], rfl, hd.word, fun _ h => ?_⟩,
        ⟨{ hruns with }, rfl, hone⟩,
        fun q hq => hq.frame hruns.born rfl rfl rfl rfl id fun _ => id⟩
      rw [show d.parentRef = true from h] at hmine
      cases hmine
    | true =>
      rw [hd.drop_other (by rw [hcount, hmine]; rfl)]
      exact ⟨⟨hd.sound, by simp [hmine], hd.alloc.trans (by simp [hcount, hmine]), hd.word,
        hd.published⟩, ⟨{ hruns with }, rfl, hone⟩,
        fun q hq => hq.frame hruns.born rfl rfl rfl rfl id fun _ => id⟩
  case exit k =>
    obtain ⟨rfl, rfl⟩ := h
    obtain ⟨hruns, href, hone⟩ := hp
    split
    · rename_i hos
      exact ⟨{ hd with },
        ⟨hruns.born, ⟨fun _ => hos, fun _ => if_pos hruns.stack⟩, hruns.payload, href, hone⟩,
        fun q hq => hq.frame hruns.born rfl rfl rfl rfl id fun _ => id⟩
    · rename_i hos
      exact ⟨hd, ⟨hruns.born, by simp [hruns.stack, hos], hruns.payload, href, hone⟩,
        fun q hq => hq⟩

lemma child_choose {x : Choice V} (h : choose w size .child x p d = some (p', d')) (hd : d.Ok)
    (hp : p.Child w os size d) :
    d'.Ok ∧ p'.Child w os size d' ∧ ∀ q : Pc V, q.Parent w size d → q.Parent w size d' := by
  cases p <;> cases x <;>
    simp only [choose, Option.some.injEq, Prod.mk.injEq, reduceCtorEq] at h
  case body.finish k v =>
    obtain ⟨rfl, rfl⟩ := h
    obtain ⟨hruns, href, hzero, hnone⟩ := hp
    refine ⟨{ hd with published := fun hone => ?_ },
      ⟨{ hruns with }, href, hzero, rfl⟩,
      fun q hq => hq.frame hruns.born rfl rfl rfl rfl id fun v hv => ?_⟩
    · rw [show d.state = 1 from hone] at hzero
      exact absurd hzero (by decide)
    · rw [hnone] at hv
      cases hv

/-- The assertions hold along every run. -/
lemma machine_local : (machine w os size V).Local Job.Ok (Assert w os size) where
  init := ⟨rfl, rfl, rfl, Or.inl rfl, fun _ => nofun⟩
  start t := by
    cases t with
    | parent => exact ⟨rfl, rfl, rfl, rfl, rfl, rfl, rfl, rfl⟩
    | child => exact ⟨rfl, rfl, fun h => absurd rfl h⟩
  moves t p d p' d' h hd hp := by
    cases t with
    | parent =>
      obtain ⟨hok, hself, hother⟩ : d'.Ok ∧ p'.Parent w size d' ∧
          ∀ q : Pc V, q.Child w os size d → q.Child w os size d' := by
        cases h with
        | exec h => exact parent_exec h hd hp
        | choose x h => exact parent_choose h hd hp
      refine ⟨hok, hself, fun u q hu hq => ?_⟩
      cases u with
      | parent => exact absurd rfl hu
      | child => exact hother q hq
    | child =>
      obtain ⟨hok, hself, hother⟩ : d'.Ok ∧ p'.Child w os size d' ∧
          ∀ q : Pc V, q.Parent w size d → q.Parent w size d' := by
        cases h with
        | exec h => exact child_exec h hd hp
        | choose x h => exact child_choose h hd hp
      refine ⟨hok, hself, fun u q hu hq => ?_⟩
      cases u with
      | parent => exact hother q hq
      | child => exact absurd rfl hu
  waker t p d all a next h hp := by
    cases p <;> simp only [machine, Option.some.injEq, Prod.mk.injEq, reduceCtorEq] at h
    obtain ⟨-, -, rfl⟩ := h
    cases t with
    | parent => exact hp.elim
    | child => exact hp
  awaken t p d a ha hp := by
    cases p <;> try exact hp
    cases t with
    | parent => exact ⟨hp.1, fun _ => rfl⟩
    | child => exact hp.elim

/-! ### Who sleeps in `join` -/

lemma Job.touch_state (d : Job V) : d.touch.state = d.state := by
  rw [Job.touch]
  split <;> rfl

lemma Job.drop_state (d : Job V) : d.drop.state = d.state := by
  rw [Job.drop]
  split <;> rfl

/-- The word changes only when the child stores 1 or the packet is new, and the parent falls
asleep only while it is 0. -/
lemma moves_state {t : Side} (h : (machine w os size V).Moves t p d p' d') :
    (d'.state = d.state ∨ d'.state = 0 ∨ ∃ k, p' = .wake k) ∧ (∀ k, p ≠ .wake k) ∧
      (asleepOn p' = some () → d'.state = 0) := by
  cases h with
  | exec h =>
    change exec os t p d = some (p', d') at h
    cases t <;> cases p <;> simp only [exec, Option.some.injEq, Prod.mk.injEq, reduceCtorEq] at h
    case parent.joinWait v =>
      obtain ⟨v', hv, hv'⟩ := Option.map_eq_some_iff.1 h
      obtain ⟨rfl, rfl⟩ := Prod.mk.inj hv'
      refine ⟨Or.inl d.touch_state, nofun, fun ha => d.touch_state.trans ?_⟩
      cases v' with
      | asleep => exact WaitPc.eq_of_exec_asleep hv
      | _ => exact absurd ha (by simp [asleepOn])
    case parent.joinTake =>
      cases hres : d.result <;> rw [hres] at h <;>
        cases h
      all_goals exact ⟨Or.inl d.touch_state, nofun, nofun⟩
    case child.unborn =>
      cases hsp : d.sp <;> cases hk : d.payload <;> simp only [hsp, hk, reduceCtorEq] at h
      all_goals
        cases h
        exact ⟨Or.inl rfl, nofun, nofun⟩
    case child.exit k =>
      obtain ⟨rfl, rfl⟩ := h
      refine ⟨Or.inl ?_, nofun, nofun⟩
      split <;> rfl
    all_goals
      obtain ⟨rfl, rfl⟩ := h
      refine ⟨?_, nofun, nofun⟩
    case parent.newPacket => exact Or.inr (Or.inl rfl)
    case parent.newPayload | parent.loadState | child.publish => exact Or.inl d.touch_state
    case parent.dropPayload | parent.dropPacket | child.release => exact Or.inl d.drop_state
    case parent.unmap => exact Or.inl rfl
    case child.store k => exact Or.inr (Or.inr ⟨k, rfl⟩)
  | choose x h =>
    change choose w size t x p d = some (p', d') at h
    cases t <;> cases p <;> cases x <;> simp only [choose, Option.some.injEq, Prod.mk.injEq,
      reduceCtorEq, Option.ite_none_right_eq_some] at h
    case parent.mapStack.map base =>
      obtain ⟨-, rfl, rfl⟩ := h
      exact ⟨Or.inl rfl, nofun, nofun⟩
    all_goals
      obtain ⟨rfl, rfl⟩ := h
      exact ⟨Or.inl rfl, nofun, nofun⟩

lemma machine_handoff : (machine w os size V).Handoff (Assert w os size) ()
    (fun d => d.state = 0) (fun p => ∃ k, p = .wake k) where
  start t := by cases t <;> simp [machine, asleepOn]
  sleeps t p d p' d' h _ := (moves_state h).2.2
  keeps t p d p' d' h _ hd := by
    obtain ⟨hstate, hwake, -⟩ := moves_state h
    have hzero : d.state = 0 := hd.resolve_right fun ⟨k, hk⟩ => hwake k hk
    rcases hstate with hsame | hzero' | hstore
    · exact Or.inl (hsame.trans hzero)
    · exact Or.inl hzero'
    · exact Or.inr hstore
  wakes p all b next h := by
    cases p <;> simp only [machine, Option.some.injEq, Prod.mk.injEq, reduceCtorEq] at h
    obtain ⟨-, -, rfl⟩ := h
    exact ⟨rfl, fun _ => rfl⟩
  awake p h := by
    obtain ⟨k, rfl⟩ := h
    rfl
  awaken p := by cases p <;> rfl

/-- Only the parent sleeps. -/
lemma parent_of_asleep {t : Side} (hp : Assert w os size t p d) (ha : asleepOn p = some ()) :
    t = .parent := by
  cases t with
  | parent => rfl
  | child => cases p <;> first | exact hp.elim | exact absurd ha (by simp [asleepOn])

/-- The thread has not called `futex_wake` yet. -/
def Pc.beforeWake : Pc V → Bool
  | unborn | body _ | publish _ _ | store _ | wake _ => true
  | _ => false

/-! ### The results -/

variable {s : Machine.State Side (Pc V) (Job V)}

/-- Neither the packet nor the payload is used after it was freed.  The thread runs on a mapped
stack that is not smaller than what was asked for, and starts at its end.  A call of `spawn`
that fails leaves nothing behind, and no thread.  When the thread has exited and the handle is
gone, the packet and the payload are freed, and the stack is unmapped on macOS only. -/
theorem spawn_reclaims (hsize : size.getD defaultStack < w.size)
    (h : (machine w os size V).Reaches s) :
    s.shared.fault = false ∧
      (∀ k, (s.pc .child).runsOn = some k → s.shared.stack = some k ∧
        size.getD defaultStack ≤ k.size ∧ s.shared.sp = some (k.base + k.size) ∧
        16 ∣ k.base + k.size) ∧
      (∀ e, s.pc .parent = .ended (.failed e) → s.pc .child = .unborn ∧ s.shared.sp = none ∧
        s.shared.stack = none ∧ s.shared.packet = false ∧ s.shared.payload = none) ∧
      (∀ o, s.pc .parent = .ended o → s.pc .child = .exited → s.shared.packet = false ∧
        s.shared.payload = none ∧ (s.shared.stack = none ↔ os = .macos)) := by
  obtain ⟨hok, hL⟩ := machine_local.reaches h
  have hparent : (s.pc .parent).Parent w size s.shared := hL .parent
  have hchild : (s.pc .child).Child w os size s.shared := hL .child
  -- without references there is no packet
  have hfree : s.shared.parentRef = false → s.shared.childRef = false →
      s.shared.packet = false := by
    intro hmine hits
    rw [hok.alloc, hok.count, hmine, hits]
    rfl
  refine ⟨hok.sound, fun k hk => ?_, fun e he => ?_, fun o ho hexited => ?_⟩
  · have hruns : s.shared.Runs w size k := by
      revert hk hchild
      cases s.pc .child <;> intro hchild hk <;> simp only [Pc.runsOn, Option.some.injEq,
        reduceCtorEq] at hk
      all_goals
        subst hk
        exact hchild.1
    obtain ⟨base, n⟩ := k
    obtain ⟨hn, hpos, hpage, hbelow⟩ := hruns.fits
    obtain rfl : n = stackSize w size := hn
    obtain ⟨htop, hdvd⟩ := stackTop_eq hpage hbelow
    exact ⟨hruns.stack, le_stackSize hsize hpos, by rw [hruns.sp, htop], hdvd⟩
  · rw [he] at hparent
    have hb : s.shared.Before none none false false := hparent
    exact ⟨(hchild.unborn_of hb.sp).1, hb.sp, hb.stack, hfree hb.parentRef hb.childRef, hb.payload⟩
  · rw [hexited] at hchild
    obtain ⟨hsp, hstack, hpayload, hits, -⟩ := hchild
    rw [ho] at hparent
    have hmine : s.shared.parentRef = false := by
      cases o with
      | failed e => exact hparent.parentRef
      | detached => exact hparent.2
      | joined v => exact hparent.2.1
      | panicked => exact hparent.elim
    exact ⟨hfree hmine hits, hpayload, hstack⟩

/-- The kernel has no thread to give. -/
theorem spawn_reclaims_refused : ∃ s : Machine.State Side (Pc ℕ) (Job ℕ),
    (machine .w64 .linux none ℕ).Reaches s ∧ s.pc .parent = .ended (.failed .os) ∧
      s.shared.fault = false ∧ s.shared.stack = none ∧ s.shared.packet = false := by
  have hreach := (Machine.reaches_begin (M := machine .w64 .linux none ℕ)).play
    [(.parent, some (.map 0x10000)), (.parent, none), (.parent, none), (.parent, some .refuse),
      (.parent, none), (.parent, none), (.parent, none)]
  obtain ⟨hsound, -, hfailed, -⟩ := spawn_reclaims (by decide) hreach
  obtain ⟨-, -, hstack, hpacket, -⟩ := hfailed .os rfl
  exact ⟨_, hreach, rfl, hsound, hstack, hpacket⟩

/-- `join` returns what the closure has returned, and never panics.  It does not sleep if
`is_finished` has returned `true`; and while it sleeps, the thread has still to wake it. -/
theorem join_delivers (h : (machine w os size V).Reaches s) :
    s.pc .parent ≠ .ended .panicked ∧
      (∀ v, s.pc .parent = .ended (.joined v) → s.shared.produced = some v) ∧
      (s.shared.seen = true → asleepOn (s.pc .parent) = none) ∧
      (asleepOn (s.pc .parent) = some () → (s.pc .child).beforeWake = true) := by
  obtain ⟨hok, hL⟩ := machine_local.reaches h
  have hparent : (s.pc .parent).Parent w size s.shared := hL .parent
  have hchild : (s.pc .child).Child w os size s.shared := hL .child
  refine ⟨fun hp => ?_, fun v hv => ?_, fun hseen => ?_, fun hasleep => ?_⟩
  · rw [hp] at hparent
    exact hparent
  · rw [hv] at hparent
    exact hparent.2.2
  · revert hparent
    cases s.pc .parent <;> intro hparent
    case joinWait v =>
      rw [hparent.2 hseen]
      rfl
    all_goals rfl
  · have hlone : ∀ s, (machine w os size V).Reaches s → ∀ v v', asleepOn (s.pc v) = some () →
        asleepOn (s.pc v') = some () → v = v' := by
      intro s hs v v' hv hv'
      have hassert := (machine_local.reaches hs).2
      rw [parent_of_asleep (hassert v) hv, parent_of_asleep (hassert v') hv']
    rcases machine_handoff.reaches (fun s hs => (machine_local.reaches hs).2) (Or.inr hlone) h
      ⟨.parent, hasleep⟩ with hzero | ⟨u, k, hk⟩
    · revert hchild
      cases s.pc .child <;> intro hchild
      case release | exit => exact absurd (hzero.symm.trans hchild.2.2) (by decide)
      case exited => exact absurd (hzero.symm.trans hchild.2.2.2.2) (by decide)
      case unborn | body | publish | store | wake => rfl
      all_goals exact hchild.elim
    · cases u with
      | parent =>
        rw [hk] at hasleep
        cases hasleep
      | child =>
        rw [hk]
        rfl

/-- A stack of 100000 bytes is asked for; the parent sleeps in `join` while the closure
returns 7. -/
theorem join_delivers_asleep : ∃ s : Machine.State Side (Pc ℕ) (Job ℕ),
    (machine .w64 .linux (some 100000) ℕ).Reaches s ∧ asleepOn (s.pc .parent) = some () ∧
      s.pc .child = .wake ⟨0x10000, 114688⟩ ∧ (s.pc .child).beforeWake = true := by
  have hreach := (Machine.reaches_begin (M := machine .w64 .linux (some 100000) ℕ)).play
    [(.parent, some (.map 0x10000)), (.parent, none), (.parent, none), (.parent, some .grant),
      (.child, none), (.parent, some .join), (.parent, none), (.parent, none),
      (.child, some (.finish 7)), (.child, none), (.child, none)]
  exact ⟨_, hreach, rfl, rfl, (join_delivers hreach).2.2.2 rfl⟩

end PureStd.Thread.Spawn
