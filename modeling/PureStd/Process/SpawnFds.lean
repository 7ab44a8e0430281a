/-
The descriptors of a spawned child.

Which numbers above 2 a process has in use makes no difference to a spawn: its table is the
renaming of a table in which only the numbers 0, 1 and 2 may be in use.  For such tables there
are eight cases and 27 configurations of the streams, which are run through.

The streams of the child are the configured ones if 0, 1 and 2 are open in the parent.  If one
of them is closed, a pipe or `/dev/null` may be opened under its number, and then
`child_setup_fd` closes as a temporary number what it was to put in place.  In every such case
a stream that was to be a pipe or `/dev/null` is closed in the child; nothing else goes wrong.
-/
import PureStd.Process.Spawn
import Mathlib.Data.Nat.Nth

namespace PureStd.Process

open FdTable

/-! ### What the child should have -/

/-- What the descriptor of a stream should refer to in the child. -/
def wanted (owner : ℕ) (io : Stdio) (t : FdTable File) (s : Stream) : Option File :=
  match io.kind s with
  | .inherit => t.get s.target
  | .null => some .devNull
  | .piped => some (.pipe owner s s.childSide)

/-- The streams of a child are as configured, and no end of the spawn's pipes is open under
another number. -/
structure FdsRight (owner : ℕ) (io : Stdio) (t child : FdTable File) : Prop where
  streams : ∀ s : Stream, child.get s.target = wanted owner io t s
  ends : ∀ fd s side, child.get fd = some (.pipe owner s side) →
    io.kind s = .piped ∧ fd = s.target ∧ side = s.childSide

/-- Which streams may be redirected, by which of the numbers 0, 1 and 2 are open in the
parent. -/
def SafeStart (open0 open1 open2 : Bool) (io : Stdio) : Prop :=
  match open0, open1, open2 with
  | true, true, true => True
  | false, true, true => io.stdin = .inherit
  | true, false, true => io.stdout = .inherit ∨ io.stdin = .piped ∧ io.stdout = .piped
  | true, true, false =>
    io.stderr = .inherit ∨ io.stderr = .piped ∧ (io.stdin = .piped ∨ io.stdout = .piped)
  | false, false, _ =>
    io.stdin = .inherit ∧ (io.stdout = .inherit ∨ io.stdout = .null ∧ io.stderr ≠ .piped)
  | false, true, false => io.stdin = .inherit ∧ (io.stderr ≠ .piped ∨ io.stdout = .piped)
  | true, false, false =>
    io.stdout = .inherit ∧ (io.stderr ≠ .piped ∨ io.stdin = .piped) ∨
      io.stdin = .piped ∧ io.stdout = .piped ∧ io.stderr ≠ .null

instance (o₀ o₁ o₂ : Bool) (io : Stdio) : Decidable (SafeStart o₀ o₁ o₂ io) :=
  match o₀, o₁, o₂ with
  | true, true, true => inferInstanceAs (Decidable True)
  | false, true, true => inferInstanceAs (Decidable (_ = _))
  | true, false, true | true, true, false | true, false, false =>
    inferInstanceAs (Decidable (_ ∨ _))
  | false, false, true | false, false, false | false, true, false =>
    inferInstanceAs (Decidable (_ ∧ _))

/-! ### Small tables -/

/-- A table in which only 0, 1 and 2 may be in use, each with a file of its own. -/
def smallTable (o₀ o₁ o₂ : Bool) : FdTable File :=
  ⟨[if o₀ then some (.other 0) else none, if o₁ then some (.other 1) else none,
    if o₂ then some (.other 2) else none]⟩

/-- A spawn from a small table. -/
def smallSpawn (o₀ o₁ o₂ : Bool) (io : Stdio) : Spawned :=
  spawn 0 io .none (smallTable o₀ o₁ o₂)

/-- The child's table. -/
def smallChild (o₀ o₁ o₂ : Bool) (io : Stdio) : FdTable File :=
  (smallSpawn o₀ o₁ o₂ io).child.getD ⟨[]⟩

lemma smallChild_streams : ∀ o₀ o₁ o₂ : Bool, ∀ a b c : StdioKind,
    SafeStart o₀ o₁ o₂ ⟨a, b, c⟩ → ∀ s : Stream,
    (smallChild o₀ o₁ o₂ ⟨a, b, c⟩).get s.target =
      wanted 0 ⟨a, b, c⟩ (smallTable o₀ o₁ o₂) s := by
  decide +kernel

/-- From an unsafe start a redirected stream is closed in the child. -/
lemma smallChild_closed : ∀ o₀ o₁ o₂ : Bool, ∀ a b c : StdioKind,
    ¬ SafeStart o₀ o₁ o₂ ⟨a, b, c⟩ → ∃ s : Stream, Stdio.kind ⟨a, b, c⟩ s ≠ .inherit ∧
      (smallChild o₀ o₁ o₂ ⟨a, b, c⟩).get s.target = none := by
  decide +kernel

/-- A check that a descriptor of the child is no end of the spawn's pipes but its stream's. -/
def endRight (io : Stdio) (fd : ℕ) : File → Bool
  | .pipe _ s side => io.kind s = .piped ∧ fd = s.target ∧ side = s.childSide
  | _ => true

lemma smallChild_ends : ∀ o₀ o₁ o₂ : Bool, ∀ a b c : StdioKind,
    (smallChild o₀ o₁ o₂ ⟨a, b, c⟩).all (endRight ⟨a, b, c⟩) := by
  decide +kernel

/-! ### Every table is a renamed small table -/

/-- The numbers of `t` are those of a small table, renamed by `φ`, and its files those of the
small table, renamed by `ψ`. -/
structure Shrinks (owner : ℕ) (t : FdTable File) (φ : ℕ → ℕ) (ψ : File → File) : Prop where
  mono : StrictMono φ
  low : ∀ n < 3, φ n = n
  devNull : ψ .devNull = .devNull
  pipe : ∀ o s side, ψ (.pipe o s side) = .pipe owner s side
  other : ∀ i, ψ (.other i) = .devNull ∨ ∃ fd, t.get fd = some (ψ (.other i))
  renames : Renames φ ψ t
    (smallTable (t.get 0).isSome (t.get 1).isSome (t.get 2).isSome) t

/-- The files of a small table, in a table with files of its own. -/
def renameFile (owner : ℕ) (t : FdTable File) : File → File
  | .other i => (t.get i).getD .devNull
  | .devNull => .devNull
  | .pipe _ s side => .pipe owner s side

lemma get_smallTable (t : FdTable File) (n : ℕ) :
    (smallTable (t.get 0).isSome (t.get 1).isSome (t.get 2).isSome).get n =
      if n < 3 ∧ (t.get n).isSome then some (.other n) else none := by
  match n with
  | 0 => cases h : t.get 0 <;> simp [smallTable, FdTable.get]
  | 1 => cases h : t.get 1 <;> simp [smallTable, FdTable.get]
  | 2 => cases h : t.get 2 <;> simp [smallTable, FdTable.get]
  | n + 3 => simp [smallTable, FdTable.get]

lemma exists_shrinks (owner : ℕ) (t : FdTable File) : ∃ φ ψ, Shrinks owner t φ ψ := by
  -- the numbers that a spawn may touch: 0, 1, 2 and the free ones
  let p : ℕ → Prop := fun n => n < 3 ∨ t.get n = none
  have hinf : (Set.ofPred p).Infinite := by
    refine Set.infinite_of_forall_exists_gt fun n => ⟨max n t.slots.length + 1, ?_, by omega⟩
    have hlen : t.slots.length ≤ max n t.slots.length + 1 := by omega
    refine Or.inr ?_
    rw [FdTable.get, List.getElem?_eq_none hlen]
    rfl
  have hlow : ∀ n < 3, Nat.nth p n = n := by
    classical
    intro n hn
    have hcount : Nat.count p n = n := by
      rw [Nat.count_iff_forall]
      intro m hm
      exact Or.inl (hm.trans hn)
    conv_lhs => rw [← hcount]
    exact Nat.nth_count (Or.inl hn)
  have hmono := Nat.nth_strictMono hinf
  refine ⟨Nat.nth p, renameFile owner t, hmono, hlow, rfl, fun _ _ _ => rfl, ?_, ?_, ?_⟩
  · intro i
    cases h : t.get i with
    | none => exact Or.inl (by simp [renameFile, h])
    | some f => exact Or.inr ⟨i, by simp [renameFile, h]⟩
  · intro n
    rw [get_smallTable]
    by_cases hn : n < 3
    · rw [hlow n hn]
      cases h : t.get n with
      | none => simp
      | some f => simp [hn, renameFile, h]
    · have hge : ¬ Nat.nth p n < 3 := by
        have hle := hmono.le_apply (x := n)
        omega
      rw [if_neg (fun h => hn h.1)]
      exact (Nat.nth_mem_of_infinite hinf n).resolve_left hge
  · intro m hm
    refine ⟨rfl, ?_⟩
    intro hfree
    have hmem : m ∈ Set.range (Nat.nth p) := by
      rw [Nat.range_nth_of_infinite hinf]
      exact Or.inr hfree
    obtain ⟨n, hn⟩ := hmem
    exact hm n hn

/-! ### A spawn from a renamed table -/

def PipePair.rename (φ : ℕ → ℕ) (p : PipePair) : PipePair := ⟨φ p.parent, φ p.child⟩

def Pipes.rename (φ : ℕ → ℕ) (p : Pipes) : Pipes :=
  ⟨p.stdin.map (PipePair.rename φ), p.stdout.map (PipePair.rename φ),
    p.stderr.map (PipePair.rename φ)⟩

def Child.rename (φ : ℕ → ℕ) (c : Child) : Child :=
  ⟨c.stdin.map φ, c.stdout.map φ, c.stderr.map φ⟩

section Transport

variable {owner : ℕ} {φ : ℕ → ℕ} {ψ : File → File} {rest u t : FdTable File}

lemma makePipe_renames (hφ : StrictMono φ)
    (hpipe : ∀ s side, ψ (.pipe 0 s side) = .pipe owner s side) (h : Renames φ ψ rest u t)
    (s : Stream) (kind : StdioKind) :
    ∃ u' t' p, makePipe 0 s kind none u = (u', .ok p) ∧
      makePipe owner s kind none t = (t', .ok (p.map (PipePair.rename φ))) ∧
      Renames φ ψ rest u' t' := by
  by_cases hk : kind = .piped
  · obtain ⟨hr, hrn⟩ := h.install hφ (.pipe 0 s .read)
    obtain ⟨hw, hwn⟩ := hr.install hφ (.pipe 0 s .write)
    rw [hpipe] at hr hrn hw hwn
    rw [hpipe] at hw hwn
    refine ⟨_, _, _, if_neg (not_not.2 hk), ?_, hw⟩
    rw [makePipe, if_neg (not_not.2 hk)]
    simp only [hrn, hwn]
    split <;> rfl
  · exact ⟨u, t, none, if_pos hk, if_pos hk, h⟩

lemma childSetupFd_renames (hφ : StrictMono φ) (hlow : ∀ n < 3, φ n = n)
    (hnull : ψ .devNull = .devNull) (h : Renames φ ψ rest u t) (s : Stream) (kind : StdioKind)
    (p : Option PipePair) :
    Renames φ ψ rest (childSetupFd s kind p false u)
      (childSetupFd s kind (p.map (PipePair.rename φ)) false t) := by
  have htarget : φ s.target = s.target := hlow _ (by cases s <;> decide)
  cases kind with
  | inherit => exact h
  | null =>
    obtain ⟨hd, hdn⟩ := h.install hφ .devNull
    have hset := (hd.dup2 hφ (u.install .devNull).2 s.target).close hφ (u.install .devNull).2
    rw [htarget, ← hdn, hnull] at hset
    exact hset
  | piped =>
    cases p with
    | none => exact h
    | some p =>
      have hset := ((h.dup2 hφ p.child s.target).close hφ p.child).close hφ p.parent
      rwa [htarget] at hset

lemma parentKeep_renames (hφ : StrictMono φ) (h : Renames φ ψ rest u t) (kind : StdioKind)
    (p : Option PipePair) :
    Renames φ ψ rest (parentKeep kind p u).1 (parentKeep kind (p.map (PipePair.rename φ)) t).1 ∧
      (parentKeep kind (p.map (PipePair.rename φ)) t).2 = (parentKeep kind p u).2.map φ := by
  by_cases hk : kind = .piped
  · subst hk
    cases p with
    | none => exact ⟨h, rfl⟩
    | some p => exact ⟨h.close hφ p.child, rfl⟩
  · simp only [parentKeep, if_neg hk]
    exact ⟨h, rfl⟩

/-- A spawn whose pipes could be made. -/
lemma spawn_of_openPipes {io : Stdio} {t' : FdTable File} {pipes : Pipes}
    (h : openPipes owner io .none t = (t', .ok pipes)) :
    spawn owner io .none t = ⟨(parentTable io pipes t').1,
      some (childTable io pipes (fun _ => false) t'), .ok (parentTable io pipes t').2⟩ := by
  rw [spawn, h]
  rfl

/-- A spawn from a renamed table is the renamed spawn, in both processes. -/
lemma spawn_renames (hφ : StrictMono φ) (hlow : ∀ n < 3, φ n = n) (hnull : ψ .devNull = .devNull)
    (hpipe : ∀ s side, ψ (.pipe 0 s side) = .pipe owner s side) (h : Renames φ ψ rest u t)
    (io : Stdio) :
    ∃ up tp uc tc c, spawn 0 io .none u = ⟨up, some uc, .ok c⟩ ∧
      spawn owner io .none t = ⟨tp, some tc, .ok (c.rename φ)⟩ ∧
      Renames φ ψ rest up tp ∧ Renames φ ψ rest uc tc := by
  obtain ⟨u₁, t₁, p₁, hu₁, ht₁, h₁⟩ := makePipe_renames hφ hpipe h .stdin io.stdin
  obtain ⟨u₂, t₂, p₂, hu₂, ht₂, h₂⟩ := makePipe_renames hφ hpipe h₁ .stdout io.stdout
  obtain ⟨u₃, t₃, p₃, hu₃, ht₃, h₃⟩ := makePipe_renames hφ hpipe h₂ .stderr io.stderr
  have hu : openPipes 0 io .none u = (u₃, .ok ⟨p₁, p₂, p₃⟩) := by
    simp only [openPipes, Faults.none, hu₁, hu₂, hu₃]
  have ht : openPipes owner io .none t = (t₃, .ok (Pipes.rename φ ⟨p₁, p₂, p₃⟩)) := by
    simp only [openPipes, Faults.none, ht₁, ht₂, ht₃]
    rfl
  obtain ⟨k₁, hk₁⟩ := parentKeep_renames hφ h₃ io.stdin p₁
  obtain ⟨k₂, hk₂⟩ := parentKeep_renames hφ k₁ io.stdout p₂
  obtain ⟨k₃, hk₃⟩ := parentKeep_renames hφ k₂ io.stderr p₃
  have c₁ := childSetupFd_renames hφ hlow hnull h₃ .stdin io.stdin p₁
  have c₂ := childSetupFd_renames hφ hlow hnull c₁ .stdout io.stdout p₂
  have c₃ := childSetupFd_renames hφ hlow hnull c₂ .stderr io.stderr p₃
  have hchild : (parentTable io (Pipes.rename φ ⟨p₁, p₂, p₃⟩) t₃).2 =
      ((parentTable io ⟨p₁, p₂, p₃⟩ u₃).2).rename φ := by
    simp only [parentTable, Pipes.rename, Child.rename, hk₁, hk₂, hk₃]
  refine ⟨_, _, _, _, _, spawn_of_openPipes hu, ?_, k₃, c₃⟩
  rw [spawn_of_openPipes ht, hchild]
  rfl

end Transport

variable {φ : ℕ → ℕ} {ψ : File → File}

/-- The spawn from a table is the renamed spawn from its small table. -/
lemma Shrinks.spawn {owner : ℕ} {t : FdTable File} (h : Shrinks owner t φ ψ) (io : Stdio) :
    ∃ up tp uc tc c,
      smallSpawn (t.get 0).isSome (t.get 1).isSome (t.get 2).isSome io = ⟨up, some uc, .ok c⟩ ∧
      Process.spawn owner io .none t = ⟨tp, some tc, .ok (c.rename φ)⟩ ∧
      Renames φ ψ t up tp ∧ Renames φ ψ t uc tc :=
  spawn_renames h.mono h.low h.devNull (h.pipe 0) h.renames io

/-! ### The child's descriptors -/

section Child

variable {owner : ℕ} {t child : FdTable File} {io : Stdio}

/-- No descriptor of the table is an end of a pipe of the spawn `owner`. -/
def Fresh (owner : ℕ) (t : FdTable File) : Prop :=
  ∀ fd s side, t.get fd ≠ some (.pipe owner s side)

/-- Only ends of pipes are renamed to ends of the spawn's pipes. -/
lemma Shrinks.eq_pipe (h : Shrinks owner t φ ψ) (hfresh : Fresh owner t) {f : File} {s : Stream}
    {side : Side} (heq : ψ f = .pipe owner s side) : ∃ o, f = .pipe o s side := by
  cases f with
  | other i =>
    rcases h.other i with hnull | ⟨fd, hfd⟩
    · rw [hnull] at heq
      cases heq
    · rw [heq] at hfd
      exact absurd hfd (hfresh fd s side)
  | devNull =>
    rw [h.devNull] at heq
    cases heq
  | pipe o s' side' =>
    rw [h.pipe] at heq
    cases heq
    exact ⟨o, rfl⟩

/-- A check of a small table holds of the renamed table, for the spawn's pipes. -/
lemma Shrinks.all_get (h : Shrinks owner t φ ψ) (hfresh : Fresh owner t) {u t' : FdTable File}
    (hr : Renames φ ψ t u t') {p : ℕ → File → Bool} (hall : u.all p) {fd : ℕ} {s : Stream}
    {side : Side} (hget : t'.get fd = some (.pipe owner s side)) :
    ∃ n o, φ n = fd ∧ u.get n = some (.pipe o s side) ∧ p n (.pipe o s side) := by
  by_cases hrange : ∃ n, φ n = fd
  · obtain ⟨n, rfl⟩ := hrange
    rw [hr.get_map] at hget
    obtain ⟨f, hf, heq⟩ := Option.map_eq_some_iff.1 hget
    obtain ⟨o, rfl⟩ := h.eq_pipe hfresh heq
    exact ⟨n, o, rfl, hf, FdTable.all_get hall hf⟩
  · rw [(hr.get_rest fd (not_exists.1 hrange)).1] at hget
    exact absurd hget (hfresh fd s side)

/-- The child of a spawn that succeeds: the ends of the spawn's pipes are where they should be,
and the streams are right exactly from a safe start. -/
lemma spawn_child (hfresh : Fresh owner t) (io : Stdio) :
    ∃ child, (spawn owner io .none t).child = some child ∧
      (∀ fd s side, child.get fd = some (.pipe owner s side) →
        io.kind s = .piped ∧ fd = s.target ∧ side = s.childSide) ∧
      ((∀ s : Stream, child.get s.target = wanted owner io t s) ↔
        SafeStart (t.get 0).isSome (t.get 1).isSome (t.get 2).isSome io) := by
  obtain ⟨φ, ψ, h⟩ := exists_shrinks owner t
  obtain ⟨up, tp, uc, tc, c, hsmall, hspawn, -, hr⟩ := h.spawn io
  have huc : smallChild (t.get 0).isSome (t.get 1).isSome (t.get 2).isSome io = uc := by
    rw [smallChild, hsmall]
    rfl
  have hlow (s : Stream) : φ s.target = s.target := h.low _ (by cases s <;> decide)
  have hget (s : Stream) : tc.get s.target = (uc.get s.target).map ψ := by
    rw [← hr.get_map, hlow]
  refine ⟨tc, by rw [hspawn], ?_, ?_, ?_⟩
  · intro fd s side hfd
    have hends := smallChild_ends (t.get 0).isSome (t.get 1).isSome (t.get 2).isSome
      io.stdin io.stdout io.stderr
    rw [huc] at hends
    obtain ⟨n, o, rfl, -, hn⟩ := h.all_get hfresh hr hends hfd
    obtain ⟨hk, htarget, hside⟩ := of_decide_eq_true hn
    exact ⟨hk, by rw [htarget, hlow], hside⟩
  · -- from an unsafe start a stream is closed that should be open
    intro hstreams
    by_contra hunsafe
    obtain ⟨s, hk, hclosed⟩ := smallChild_closed _ _ _ io.stdin io.stdout io.stderr hunsafe
    have hwant := hstreams s
    change (smallChild _ _ _ io).get s.target = none at hclosed
    rw [hget, ← huc, hclosed, Option.map_none] at hwant
    change io.kind s ≠ .inherit at hk
    rw [wanted] at hwant
    split at hwant
    · exact hk ‹_›
    · cases hwant
    · cases hwant
  · intro hsafe s
    have hsmallget := smallChild_streams _ _ _ io.stdin io.stdout io.stderr hsafe s
    change (smallChild _ _ _ io).get s.target = wanted 0 io _ s at hsmallget
    rw [huc] at hsmallget
    rw [hget, hsmallget, wanted, wanted]
    cases io.kind s with
    | inherit => rw [← h.renames.get_map, hlow]
    | null => simp [h.devNull]
    | piped => simp [h.pipe]

/-- The descriptors of a spawned child are as configured if and only if the start is safe for
the configuration; from descriptors 0, 1 and 2 that are open, every start is. -/
theorem spawn_fdsRight_iff (owner : ℕ) (io : Stdio) (t : FdTable File)
    (hfresh : Fresh owner t) :
    ∃ child, (spawn owner io .none t).child = some child ∧
      (FdsRight owner io t child ↔
        SafeStart (t.get 0).isSome (t.get 1).isSome (t.get 2).isSome io) := by
  obtain ⟨child, hchild, hends, hstreams⟩ := spawn_child hfresh io
  refine ⟨child, hchild, ?_⟩
  rw [← hstreams]
  exact ⟨fun h => h.streams, fun h => ⟨h, hends⟩⟩

end Child

lemma fresh_openTable (owner : ℕ) : Fresh owner openTable := by
  intro fd s side hget
  have hall : openTable.all fun _ f => f ∈ [.other 0, .other 1, .other 2] := by decide
  have hmem := FdTable.all_get hall hget
  simp at hmem

/-- From open descriptors 0, 1 and 2, a child with three pipes has them. -/
theorem spawn_fdsRight_openTable :
    Fresh 0 openTable ∧ ∃ child, (spawn 0 ⟨.piped, .piped, .piped⟩ .none openTable).child =
      some child ∧ (FdsRight 0 ⟨.piped, .piped, .piped⟩ openTable child ↔
        SafeStart true true true ⟨.piped, .piped, .piped⟩) :=
  ⟨fresh_openTable 0, spawn_fdsRight_iff 0 ⟨.piped, .piped, .piped⟩ openTable (fresh_openTable 0)⟩

/-- A table with 1 and 2 open and 0 closed. -/
def closedStdin : FdTable File := ⟨[none, some (.other 1), some (.other 2)]⟩

/-- With descriptor 0 closed in the parent, the pipe of a piped stdin is opened under 0 and
closed in the child, which starts without stdin. -/
theorem spawn_loses_stdin :
    (∃ child, (spawn 0 ⟨.piped, .inherit, .inherit⟩ .none closedStdin).child = some child ∧
      child.get 0 = none ∧ ¬ FdsRight 0 ⟨.piped, .inherit, .inherit⟩ closedStdin child) ∧
    (∃ child, (spawn 0 ⟨.null, .inherit, .inherit⟩ .none closedStdin).child = some child ∧
      child.get 0 = none ∧ ¬ FdsRight 0 ⟨.null, .inherit, .inherit⟩ closedStdin child) := by
  refine ⟨⟨_, rfl, by decide, fun h => ?_⟩, ⟨_, rfl, by decide, fun h => ?_⟩⟩
  · exact absurd (h.streams .stdin) (by decide)
  · exact absurd (h.streams .stdin) (by decide)

end PureStd.Process
