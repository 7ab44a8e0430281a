/-
Who holds which ends of the pipes of spawned children.

A session is a parent that spawns children, with any configurations of the streams and any
failing system calls, and drops the handles of children in any order.  Each fork copies the
whole table of the parent, so a child gets the parent's ends of all pipes that are open at
that time, but for its own, which it closes.  If no such end is open whenever a child is
spawned, no child holds the parent's end of any pipe.
-/
import PureStd.Lib.Transition
import PureStd.Process.SpawnFds

namespace PureStd.Process

open FdTable

/-! ### Sessions -/

/-- `ChildStdin`, `ChildStdout` or `ChildStderr` of a spawned child. -/
structure Handle where
  owner : ℕ
  stream : Stream
  fd : ℕ
deriving DecidableEq, Repr

/-- The parent and the children it has spawned, each with its number and the table that it
had when it executed its program. -/
structure Session where
  parent : FdTable File
  next : ℕ
  handles : List Handle
  children : List (ℕ × FdTable File)

/-- The handles of a new child. -/
def Child.handles (owner : ℕ) (c : Child) : List Handle :=
  [.stdin, .stdout, .stderr].filterMap fun s => (c.handle s).map fun fd => ⟨owner, s, fd⟩

namespace Session

/-- The parent calls `spawn`. -/
def spawn (s : Session) (io : Stdio) (f : Faults) : Session :=
  match Process.spawn s.next io f s.parent with
  | ⟨parent, some child, .ok c⟩ =>
    ⟨parent, s.next + 1, s.handles ++ c.handles s.next, s.children ++ [(s.next, child)]⟩
  | ⟨parent, _, _⟩ => { s with parent, next := s.next + 1 }

/-- The parent drops a handle. -/
def drop (s : Session) (h : Handle) : Session :=
  { s with parent := s.parent.close h.fd, handles := s.handles.erase h }

/-- A session starts with any table, in which no pipe of a spawn is open yet. -/
def Start (s : Session) : Prop :=
  (∀ owner, Fresh owner s.parent) ∧ s.handles = [] ∧ s.children = []

inductive Step (s : Session) : Session → Prop where
  | spawn (io : Stdio) (f : Faults) : Step s (s.spawn io f)
  | drop (h : Handle) (hmem : h ∈ s.handles) : Step s (s.drop h)

/-- The parent holds its end of no earlier pipe. -/
def HoldsNoEnd (s : Session) : Prop :=
  ∀ fd o st, s.parent.get fd ≠ some (.pipe o st st.parentSide)

/-- A step, where children are spawned only while the parent holds no end of an earlier pipe. -/
inductive CarefulStep (s : Session) : Session → Prop where
  | spawn (io : Stdio) (f : Faults) (hends : s.HoldsNoEnd) : CarefulStep s (s.spawn io f)
  | drop (h : Handle) (hmem : h ∈ s.handles) : CarefulStep s (s.drop h)

/-- No child holds the parent's end of a pipe made for another child; and once the handle of a
child's stdin is dropped, no process holds a write end of that pipe, so that the child reads the
end of the file. -/
def Private (s : Session) : Prop :=
  (∀ o child, (o, child) ∈ s.children → ∀ fd o' st,
    child.get fd = some (.pipe o' st st.parentSide) → o' = o) ∧
  ∀ o child, (o, child) ∈ s.children → (∀ fd, ⟨o, .stdin, fd⟩ ∉ s.handles) →
    (∀ fd, s.parent.get fd ≠ some (.pipe o .stdin .write)) ∧
    ∀ o' child', (o', child') ∈ s.children → ∀ fd, child'.get fd ≠ some (.pipe o .stdin .write)

end Session

/-! ### Files that a spawn brings in -/

variable {s : Stream} {kind : StdioKind} {io : Stdio} {f : Faults} {child : FdTable File}
  {c : Child}

section Files

variable {owner : ℕ} {t : FdTable File} {fd : ℕ} {g : File}

/-- `make_pipe` adds ends of the new pipe and nothing else. -/
lemma makePipe_get {fault : Option Io.ErrorKind}
    (h : (makePipe owner s kind fault t).1.get fd = some g) :
    t.get fd = some g ∨ ∃ side, g = .pipe owner s side := by
  unfold makePipe at h
  split at h
  · exact Or.inl h
  · split at h
    · exact Or.inl h
    · simp only [get_install] at h
      split at h
      · exact Or.inr ⟨.write, (Option.some.inj h).symm⟩
      · split at h
        · exact Or.inr ⟨.read, (Option.some.inj h).symm⟩
        · exact Or.inl h

lemma openPipes_get (h : (openPipes owner io f t).1.get fd = some g) :
    t.get fd = some g ∨ ∃ s side, g = .pipe owner s side := by
  have hstep {s : Stream} {kind : StdioKind} {fault : Option Io.ErrorKind} {t₁ t₂ : FdTable File}
      {r : Io.Result (Option PipePair)} (heq : makePipe owner s kind fault t₁ = (t₂, r))
      (hg : t₂.get fd = some g) : t₁.get fd = some g ∨ ∃ s side, g = .pipe owner s side := by
    have hfst : (makePipe owner s kind fault t₁).1.get fd = some g := by rw [heq]; exact hg
    exact (makePipe_get hfst).imp_right fun ⟨side, hside⟩ => ⟨s, side, hside⟩
  rw [openPipes] at h
  split at h
  · rename_i h₁
    exact hstep h₁ h
  · rename_i t₁ p₁ h₁
    split at h
    · rename_i h₂
      exact (hstep h₂ h).elim (hstep h₁) Or.inr
    · rename_i t₂ p₂ h₂
      split at h <;> rename_i h₃ <;>
        exact (hstep h₃ h).elim (fun hg => (hstep h₂ hg).elim (hstep h₁) Or.inr) Or.inr

lemma parentKeep_get {p : Option PipePair} (h : (parentKeep kind p t).1.get fd = some g) :
    t.get fd = some g := by
  unfold parentKeep at h
  split at h
  · split at h
    · rw [get_close] at h
      split at h
      · cases h
      · exact h
    · exact h
  · exact h

/-- What the parent has after a spawn it had before, under the same number, or it belongs to
the new pipes. -/
lemma spawn_parent_get (h : (spawn owner io f t).parent.get fd = some g) :
    t.get fd = some g ∨ ∃ s side, g = .pipe owner s side := by
  rw [spawn] at h
  split at h
  · rename_i t' e heq
    exact openPipes_get (by rw [heq]; exact h)
  · rename_i t' pipes heq
    have hopen : (openPipes owner io f t).1 = t' := by rw [heq]
    split at h
    · exact openPipes_get (by rw [hopen]; exact h)
    · have hkept := parentKeep_get (parentKeep_get (parentKeep_get h))
      exact openPipes_get (by rw [hopen]; exact hkept)

lemma childSetupFd_only {P : File → Prop} (h : Only P t) (hnull : P .devNull) (s : Stream)
    (kind : StdioKind) (p : Option PipePair) (b : Bool) : Only P (childSetupFd s kind p b t) := by
  unfold childSetupFd
  split
  · exact h
  · split
    · exact h
    · exact ((h.install hnull).dup2 _ _).close _
  · split
    · exact h
    · exact ((h.dup2 _ _).close _).close _

/-- What a child has comes from the parent, or is `/dev/null`, or belongs to the new pipes. -/
lemma spawn_child_get (hchild : (spawn owner io f t).child = some child)
    (h : child.get fd = some g) :
    g = .devNull ∨ (∃ s side, g = .pipe owner s side) ∨ ∃ fd', t.get fd' = some g := by
  rw [spawn] at hchild
  split at hchild
  · cases hchild
  · rename_i t' pipes heq
    split at hchild
    · cases hchild
    · cases hchild
      have hbase : Only (fun g => g = .devNull ∨ (∃ s side, g = .pipe owner s side) ∨
          ∃ fd', t.get fd' = some g) t' := by
        intro fd' g' hg'
        have hopen : (openPipes owner io f t).1.get fd' = some g' := by rw [heq]; exact hg'
        rcases openPipes_get hopen with hold | hnew
        · exact Or.inr (Or.inr ⟨fd', hold⟩)
        · exact Or.inr (Or.inl hnew)
      have hin := childSetupFd_only hbase (Or.inl rfl) .stdin io.stdin pipes.stdin
        (f.devNull .stdin)
      have hout := childSetupFd_only hin (Or.inl rfl) .stdout io.stdout pipes.stdout
        (f.devNull .stdout)
      have herr := childSetupFd_only hout (Or.inl rfl) .stderr io.stderr pipes.stderr
        (f.devNull .stderr)
      exact herr fd g h

end Files

/-! ### A spawn that succeeds in spite of faults -/

/-- The configuration that a child carries out if it cannot open `/dev/null`. -/
def Stdio.degrade (io : Stdio) (noDevNull : Stream → Bool) : Stdio where
  stdin := if io.stdin = .null ∧ noDevNull .stdin then .inherit else io.stdin
  stdout := if io.stdout = .null ∧ noDevNull .stdout then .inherit else io.stdout
  stderr := if io.stderr = .null ∧ noDevNull .stderr then .inherit else io.stderr

section Faults

variable {owner : ℕ} {t t' : FdTable File} {p : Option PipePair}

lemma makePipe_degrade {fault : Option Io.ErrorKind} (b : Bool)
    (h : makePipe owner s kind fault t = (t', .ok p)) :
    makePipe owner s (if kind = .null ∧ b then .inherit else kind) none t = (t', .ok p) := by
  cases kind with
  | inherit => exact h
  | null => cases b <;> exact h
  | piped =>
    cases fault with
    | none => exact h
    | some e => cases h

lemma childSetupFd_degrade (s : Stream) (kind : StdioKind) (b : Bool) :
    childSetupFd s (if kind = .null ∧ b then .inherit else kind) p false t =
      childSetupFd s kind p b t := by
  cases kind <;> cases b <;> rfl

lemma parentKeep_degrade (kind : StdioKind) (b : Bool) :
    parentKeep (if kind = .null ∧ b then .inherit else kind) p t = parentKeep kind p t := by
  cases kind <;> cases b <;> rfl

/-- A spawn that succeeds is a spawn without faults, of the degraded configuration. -/
lemma spawn_degrade {parent : FdTable File} (h : spawn owner io f t = ⟨parent, some child, .ok c⟩) :
    spawn owner (io.degrade f.devNull) .none t = ⟨parent, some child, .ok c⟩ := by
  rw [spawn] at h
  split at h
  · cases h
  · rename_i t₃ pipes hopen
    split at h
    · cases h
    · have hopen' : openPipes owner (io.degrade f.devNull) .none t = (t₃, .ok pipes) := by
        rw [openPipes] at hopen
        split at hopen
        · cases hopen
        · rename_i t₁ p₁ h₁
          split at hopen
          · cases hopen
          · rename_i t₂ p₂ h₂
            split at hopen
            · cases hopen
            · rename_i t₃' p₃ h₃
              cases hopen
              simp only [openPipes, Faults.none, Stdio.degrade, makePipe_degrade _ h₁,
                makePipe_degrade _ h₂, makePipe_degrade _ h₃]
      have hparent : parentTable (io.degrade f.devNull) pipes t₃ = parentTable io pipes t₃ := by
        simp only [parentTable, Stdio.degrade, parentKeep_degrade]
      have hchild : childTable (io.degrade f.devNull) pipes (fun _ => false) t₃ =
          childTable io pipes f.devNull t₃ := by
        simp only [childTable, Stdio.degrade, childSetupFd_degrade]
      rw [spawn_of_openPipes hopen', hparent, hchild]
      exact h

end Faults

/-! ### What a successful spawn leaves open -/

/-- A check that a descriptor of the parent is the handle of the new child for its end. -/
def keptRight (c : Child) (fd : ℕ) : File → Bool
  | .pipe _ s side => c.handle s = some fd ∧ side = s.parentSide
  | _ => true

/-- The check, for a spawn from a small table. -/
def smallKept (o₀ o₁ o₂ : Bool) (io : Stdio) : Bool :=
  match (smallSpawn o₀ o₁ o₂ io).result with
  | .ok c => (smallSpawn o₀ o₁ o₂ io).parent.all (keptRight c)
  | .error _ => false

lemma Child.handle_rename (φ : ℕ → ℕ) (c : Child) (s : Stream) :
    (c.rename φ).handle s = (c.handle s).map φ := by
  cases s <;> rfl

lemma smallKept_all : ∀ o₀ o₁ o₂ : Bool, ∀ a b c : StdioKind, smallKept o₀ o₁ o₂ ⟨a, b, c⟩ := by
  decide +kernel

section Kept

variable {owner : ℕ} {t parent : FdTable File}

/-- The parent keeps its own ends of the new pipes, as the handles of the new child. -/
lemma spawn_kept (hfresh : Fresh owner t) (h : spawn owner io f t = ⟨parent, some child, .ok c⟩)
    {fd : ℕ} {side : Side} (hget : parent.get fd = some (.pipe owner s side)) :
    c.handle s = some fd ∧ side = s.parentSide := by
  have hnone := spawn_degrade h
  obtain ⟨φ, ψ, hs⟩ := exists_shrinks owner t
  obtain ⟨up, tp, uc, tc, c', hsmall, hspawn, hr, -⟩ := hs.spawn (io.degrade f.devNull)
  rw [hnone] at hspawn
  obtain ⟨rfl, -, hc⟩ := Spawned.mk.inj hspawn
  cases hc
  have hall := smallKept_all (t.get 0).isSome (t.get 1).isSome (t.get 2).isSome
    (io.degrade f.devNull).stdin (io.degrade f.devNull).stdout (io.degrade f.devNull).stderr
  change smallKept _ _ _ (io.degrade f.devNull) = true at hall
  rw [smallKept, hsmall] at hall
  obtain ⟨n, o, rfl, -, hn⟩ := hs.all_get hfresh hr hall hget
  obtain ⟨hhandle, hside⟩ := of_decide_eq_true hn
  rw [Child.handle_rename, hhandle]
  exact ⟨rfl, hside⟩

/-- The child does not keep the parent's ends of its own pipes. -/
lemma spawn_child_own (hfresh : Fresh owner t)
    (h : spawn owner io f t = ⟨parent, some child, .ok c⟩) (fd : ℕ) (s : Stream) :
    child.get fd ≠ some (.pipe owner s s.parentSide) := by
  intro hget
  have hnone := spawn_degrade h
  obtain ⟨child', hchild', hends, -⟩ := spawn_child hfresh (io.degrade f.devNull)
  rw [hnone] at hchild'
  cases hchild'
  have hside := (hends fd s _ hget).2.2
  cases s <;> cases hside

end Kept

/-! ### The invariant of a session -/

lemma Child.mem_handles {owner : ℕ} {h : Handle} :
    h ∈ c.handles owner ↔ h.owner = owner ∧ c.handle h.stream = some h.fd := by
  obtain ⟨o, s, fd⟩ := h
  have hmem : ∀ s : Stream, s ∈ [Stream.stdin, .stdout, .stderr] := by decide
  simp only [handles, List.mem_filterMap, Option.map_eq_some_iff, Handle.mk.injEq]
  constructor
  · rintro ⟨s', -, fd', hfd, rfl, rfl, rfl⟩
    exact ⟨rfl, hfd⟩
  · rintro ⟨rfl, hfd⟩
    exact ⟨s, hmem s, fd, hfd, rfl, rfl, rfl⟩

namespace Session

variable {s s' : Session}

/-- What a call of `spawn` does to a session. -/
lemma spawn_cases (s : Session) (io : Stdio) (f : Faults) :
    (∃ parent child c, Process.spawn s.next io f s.parent = ⟨parent, some child, .ok c⟩ ∧
      s.spawn io f = ⟨parent, s.next + 1, s.handles ++ c.handles s.next,
        s.children ++ [(s.next, child)]⟩) ∨
    s.spawn io f = { s with
      parent := (Process.spawn s.next io f s.parent).parent, next := s.next + 1 } := by
  rw [spawn]
  split
  · rename_i parent child c heq
    exact Or.inl ⟨parent, child, c, heq, rfl⟩
  · rename_i parent child r hne heq
    rw [heq]
    exact Or.inr rfl

/-- The parent's ends of the pipes of a child are under its handles, and no child has an end
of the parent. -/
structure Tidy (s : Session) : Prop where
  parent_lt : ∀ fd o st side, s.parent.get fd = some (.pipe o st side) → o < s.next
  child_lt : ∀ o child, (o, child) ∈ s.children → o < s.next
  tracked : ∀ o child, (o, child) ∈ s.children → ∀ fd st side,
    s.parent.get fd = some (.pipe o st side) → ⟨o, st, fd⟩ ∈ s.handles
  child_ends : ∀ o child, (o, child) ∈ s.children → ∀ fd o' st,
    child.get fd ≠ some (.pipe o' st st.parentSide)

lemma Tidy.start (h : s.Start) : s.Tidy where
  parent_lt fd o st side hget := absurd hget (h.1 o fd st side)
  child_lt o child hmem := by simp [h.2.2] at hmem
  tracked o child hmem := by simp [h.2.2] at hmem
  child_ends o child hmem := by simp [h.2.2] at hmem

lemma Tidy.fresh (h : s.Tidy) : Fresh s.next s.parent :=
  fun fd st side hget => (h.parent_lt fd s.next st side hget).false

/-- After a spawn, the ends of all pipes belong to this spawn and to earlier ones. -/
lemma Tidy.spawn_lt (h : s.Tidy) {fd o : ℕ} {st : Stream} {side : Side}
    (hget : (Process.spawn s.next io f s.parent).parent.get fd = some (.pipe o st side)) :
    o < s.next + 1 := by
  rcases spawn_parent_get hget with hold | ⟨st', side', hnew⟩
  · exact (h.parent_lt fd o st side hold).trans (Nat.lt_succ_self _)
  · cases hnew
    exact Nat.lt_succ_self _

lemma Tidy.spawn_failed (h : s.Tidy) (io : Stdio) (f : Faults) :
    Tidy { s with parent := (Process.spawn s.next io f s.parent).parent, next := s.next + 1 } where
  parent_lt fd o st side hget := h.spawn_lt hget
  child_lt o child hmem := (h.child_lt o child hmem).trans (Nat.lt_succ_self _)
  tracked o child hmem fd st side hget := by
    rcases spawn_parent_get hget with hold | ⟨st', side', hnew⟩
    · exact h.tracked o child hmem fd st side hold
    · cases hnew
      exact absurd (h.child_lt _ child hmem) (lt_irrefl _)
  child_ends := h.child_ends

lemma Tidy.spawn_ok (h : s.Tidy) (hends : s.HoldsNoEnd) {parent : FdTable File}
    (hspawn : Process.spawn s.next io f s.parent = ⟨parent, some child, .ok c⟩) :
    Tidy ⟨parent, s.next + 1, s.handles ++ c.handles s.next,
      s.children ++ [(s.next, child)]⟩ := by
  have hparent : (Process.spawn s.next io f s.parent).parent = parent := by rw [hspawn]
  have hchild : (Process.spawn s.next io f s.parent).child = some child := by rw [hspawn]
  have hmem {o : ℕ} {child' : FdTable File} (hin : (o, child') ∈ s.children ++ [(s.next, child)]) :
      (o, child') ∈ s.children ∨ o = s.next ∧ child' = child := by simpa using hin
  constructor
  · intro fd o st side hget
    exact h.spawn_lt (by rw [hparent]; exact hget)
  · intro o child' hin
    rcases hmem hin with hold | ⟨rfl, -⟩
    · exact (h.child_lt o child' hold).trans (Nat.lt_succ_self _)
    · exact Nat.lt_succ_self _
  · intro o child' hin fd st side hget
    have hget' : (Process.spawn s.next io f s.parent).parent.get fd = some (.pipe o st side) := by
      rw [hparent]
      exact hget
    refine List.mem_append.2 ?_
    rcases hmem hin with hold | ⟨rfl, -⟩
    · rcases spawn_parent_get hget' with hbefore | ⟨st', side', hnew⟩
      · exact Or.inl (h.tracked o child' hold fd st side hbefore)
      · cases hnew
        exact absurd (h.child_lt _ child' hold) (lt_irrefl _)
    · exact Or.inr (Child.mem_handles.2 ⟨rfl, (spawn_kept h.fresh hspawn hget).1⟩)
  · intro o child' hin fd o' st hget
    rcases hmem hin with hold | ⟨rfl, rfl⟩
    · exact h.child_ends o child' hold fd o' st hget
    · rcases spawn_child_get hchild hget with hnull | ⟨st', side', hnew⟩ | ⟨fd', hbefore⟩
      · cases hnull
      · cases hnew
        exact spawn_child_own h.fresh hspawn fd st hget
      · exact hends fd' o' st hbefore

lemma Tidy.drop (h : s.Tidy) (hd : Handle) : (s.drop hd).Tidy := by
  have hget {fd : ℕ} {g : File} (hg : (s.drop hd).parent.get fd = some g) :
      fd ≠ hd.fd ∧ s.parent.get fd = some g := by
    rw [Session.drop, get_close] at hg
    split at hg
    · cases hg
    · exact ⟨‹_›, hg⟩
  constructor
  · intro fd o st side hg
    exact h.parent_lt fd o st side (hget hg).2
  · exact h.child_lt
  · intro o child hmem fd st side hg
    obtain ⟨hne, hg⟩ := hget hg
    refine (List.mem_erase_of_ne ?_).2 (h.tracked o child hmem fd st side hg)
    rintro rfl
    exact hne rfl
  · exact h.child_ends

lemma Tidy.step (h : s.Tidy) (hstep : CarefulStep s s') : s'.Tidy := by
  cases hstep with
  | spawn io f hends =>
    rcases spawn_cases s io f with ⟨parent, child, c, hspawn, heq⟩ | heq
    · rw [heq]
      exact h.spawn_ok hends hspawn
    · rw [heq]
      exact h.spawn_failed io f
  | drop hd _ => exact h.drop hd

lemma Tidy.isPrivate (h : s.Tidy) : s.Private := by
  constructor
  · intro o child hmem fd o' st hget
    exact absurd hget (h.child_ends o child hmem fd o' st)
  · intro o child hmem hdropped
    constructor
    · intro fd hget
      exact hdropped fd (h.tracked o child hmem fd .stdin .write hget)
    · intro o' child' hmem' fd
      exact h.child_ends o' child' hmem' fd o .stdin

/-- If the parent holds no end of an earlier pipe whenever it spawns a child, the ends of
each child's pipes stay private to it. -/
theorem private_of_carefulSteps (h : Reachable Start CarefulStep s) : s.Private := by
  have htidy : s.Tidy :=
    h.induct (fun _ hstart => .start hstart) fun _ _ _ ih hstep => ih.step hstep
  exact htidy.isPrivate

/-- The parent starts with 0, 1 and 2 open. -/
def opening : Session := ⟨openTable, 0, [], []⟩

lemma opening_start : opening.Start := ⟨fun owner => fresh_openTable owner, rfl, rfl⟩

lemma opening_holdsNoEnd : opening.HoldsNoEnd :=
  fun fd o st => fresh_openTable o fd st st.parentSide

/-- A child with three pipes, whose stdin is dropped. -/
theorem private_after_drop :
    Reachable Start CarefulStep
      ((opening.spawn ⟨.piped, .piped, .piped⟩ .none).drop ⟨0, .stdin, 4⟩) ∧
    ((opening.spawn ⟨.piped, .piped, .piped⟩ .none).drop ⟨0, .stdin, 4⟩).Private := by
  have hrun : Reachable Start CarefulStep
      ((opening.spawn ⟨.piped, .piped, .piped⟩ .none).drop ⟨0, .stdin, 4⟩) :=
    ((Reachable.start opening_start).next (.spawn _ _ opening_holdsNoEnd)).next
      (.drop _ (by decide))
  exact ⟨hrun, private_of_carefulSteps hrun⟩

/-- A child with a piped stdin, a second child that inherits its streams, and then the stdin of
the first is dropped. -/
def overlapping : Session :=
  ((opening.spawn ⟨.piped, .inherit, .inherit⟩ .none).spawn ⟨.inherit, .inherit, .inherit⟩
    .none).drop ⟨0, .stdin, 4⟩

/-- The second child holds the write end of the first child's stdin, under 4, and still does when
the parent has dropped its own. -/
theorem second_child_holds_stdin :
    Reachable Start Step overlapping ∧
    (∃ child, (1, child) ∈ overlapping.children ∧
      child.get 4 = some (.pipe 0 .stdin .write)) ∧
    (∀ fd, ⟨0, .stdin, fd⟩ ∉ overlapping.handles) ∧ ¬ overlapping.Private := by
  have hget : (1, (⟨[some (.other 0), some (.other 1), some (.other 2), none,
      some (.pipe 0 .stdin .write)]⟩ : FdTable File)) ∈ overlapping.children :=
    List.mem_cons_of_mem _ (List.mem_cons_self ..)
  refine ⟨?_, ⟨_, hget, by decide⟩, ?_, fun h => ?_⟩
  · exact (((Reachable.start opening_start).next (.spawn _ _)).next (.spawn _ _)).next
      (.drop _ (by decide))
  · intro fd hmem
    have hnil : overlapping.handles = [] := by decide
    rw [hnil] at hmem
    cases hmem
  · exact absurd (h.1 1 _ hget 4 0 .stdin (by decide)) (by decide)

end Session

end PureStd.Process
