/-
The descriptors that `Command::spawn` leaves in the parent, `src/process.rs`.

The ends of the pipes are plain numbers, and a `?` that returns in the middle closes none of
them.  So a spawn that fails leaves the pipes behind that it had made (`spawn_noLeak_iff`).  A
spawn that succeeds leaves the handles of the child and nothing else.
-/
import PureStd.Process.Spawn

namespace PureStd.Process

open FdTable

/-! ### What is to hold -/

/-- A spawn that fails leaves the parent's table as it was, and one that succeeds adds the handles
of the child. -/
structure NoLeak (t : FdTable File) (r : Spawned) : Prop where
  failed : ∀ e, r.result = .error e → ∀ fd, r.parent.get fd = t.get fd
  made : ∀ c, r.result = .ok c → Adds t {fd | ∃ s, c.handle s = some fd} r.parent

/-- The fault of the pipe of a stream. -/
def Faults.pipe (f : Faults) : Stream → Option Io.ErrorKind
  | .stdin => f.stdin
  | .stdout => f.stdout
  | .stderr => f.stderr

/-- The call of `pipe` for a stream is made, and it fails. -/
def PipeFails (io : Stdio) (f : Faults) (s : Stream) : Prop := io.kind s = .piped ∧ f.pipe s ≠ none

/-- A call of `pipe` or `fork` fails after a pipe was made. -/
def FailsLate (io : Stdio) (f : Faults) : Prop :=
  ¬ PipeFails io f .stdin ∧
    (PipeFails io f .stdout ∧ io.stdin = .piped ∨
      ¬ PipeFails io f .stdout ∧
        (PipeFails io f .stderr ∧ (io.stdin = .piped ∨ io.stdout = .piped) ∨
          ¬ PipeFails io f .stderr ∧ f.fork ≠ none ∧ ∃ s, io.kind s = .piped))

section FailsLate

variable {io : Stdio} {f : Faults}

lemma failsLate_stdout (hstdin : ¬ PipeFails io f .stdin) (hstdout : PipeFails io f .stdout) :
    FailsLate io f ↔ io.stdin = .piped := by
  simp [FailsLate, hstdin, hstdout]

lemma failsLate_stderr (hstdin : ¬ PipeFails io f .stdin) (hstdout : ¬ PipeFails io f .stdout)
    (hstderr : PipeFails io f .stderr) :
    FailsLate io f ↔ io.stdin = .piped ∨ io.stdout = .piped := by
  simp [FailsLate, hstdin, hstdout, hstderr]

lemma failsLate_fork (h : ∀ s, ¬ PipeFails io f s) :
    FailsLate io f ↔ f.fork ≠ none ∧ ∃ s, io.kind s = .piped := by
  simp [FailsLate, h]

end FailsLate

/-! ### The pipes -/

/-- The parent's end of a pipe. -/
def parentEnd (p : Option PipePair) : Set ℕ := {fd | ∃ q, p = some q ∧ q.parent = fd}

/-- The child's end of a pipe. -/
def childEnd (p : Option PipePair) : Set ℕ := {fd | ∃ q, p = some q ∧ q.child = fd}

section Ends

variable (q : PipePair)

@[simp] lemma parentEnd_some : parentEnd (some q) = {q.parent} := by
  ext fd
  simp [parentEnd, eq_comm]

@[simp] lemma childEnd_some : childEnd (some q) = {q.child} := by
  ext fd
  simp [childEnd, eq_comm]

@[simp] lemma parentEnd_none : parentEnd none = ∅ := by simp [parentEnd]

@[simp] lemma childEnd_none : childEnd none = ∅ := by simp [childEnd]

lemma ends_eq_empty_iff (p : Option PipePair) : parentEnd p ∪ childEnd p = ∅ ↔ p = none := by
  rw [Set.union_empty_iff]
  cases p <;> simp

end Ends

/-- The table `u` has what `t` has, and besides, under numbers of their own, the ends of pipes
that are the parent's, `P`, and the child's, `C`. -/
structure Made (t : FdTable File) (P C : Set ℕ) (u : FdTable File) : Prop where
  adds : Adds t (P ∪ C) u
  apart : ∀ fd ∈ P, fd ∉ C

namespace Made

variable {t u : FdTable File} {P C : Set ℕ}

lemma refl (t : FdTable File) : Made t ∅ ∅ t := by
  refine ⟨?_, fun fd hfd => absurd hfd (Set.notMem_empty fd)⟩
  rw [Set.union_empty]
  exact .refl t

/-- One more pipe. -/
lemma add (h : Made t P C u) {q : PipePair} {u' : FdTable File} (hparent : q.parent ∉ P ∪ C)
    (hchild : q.child ∉ P ∪ C) (hne : q.parent ≠ q.child)
    (hadds : Adds t (insert q.parent (insert q.child (P ∪ C))) u') :
    Made t (P ∪ parentEnd (some q)) (C ∪ childEnd (some q)) u' := by
  rw [Set.mem_union, not_or] at hparent hchild
  rw [parentEnd_some, childEnd_some]
  refine ⟨?_, ?_⟩
  · have hset : P ∪ {q.parent} ∪ (C ∪ {q.child}) = insert q.parent (insert q.child (P ∪ C)) := by
      ext fd
      simp only [Set.mem_union, Set.mem_insert_iff, Set.mem_singleton_iff]
      tauto
    rwa [hset]
  · rintro fd (hP | rfl) (hC | hC)
    · exact h.apart fd hP hC
    · exact hchild.1 (Set.mem_singleton_iff.1 hC ▸ hP)
    · exact hparent.2 hC
    · exact hne hC

/-- The child's ends were free before, and are not the parent's. -/
lemma child (h : Made t P C u) {fd : ℕ} (hfd : fd ∈ C) : t.get fd = none ∧ fd ∉ P :=
  ⟨(h.adds.new fd (Or.inr hfd)).1, fun hP => h.apart fd hP hfd⟩

end Made

variable {owner : ℕ} {t u : FdTable File} {P C : Set ℕ}

/-- `make_pipe` fails and changes nothing, or makes a pipe if the stream is piped. -/
lemma makePipe_made (h : Made t P C u) (owner : ℕ) (s : Stream) (kind : StdioKind)
    (fault : Option Io.ErrorKind) :
    ((kind = .piped ∧ fault ≠ none) ∧ ∃ e, makePipe owner s kind fault u = (u, .error e)) ∨
      (¬ (kind = .piped ∧ fault ≠ none) ∧ ∃ u' p, makePipe owner s kind fault u = (u', .ok p) ∧
        (p = none ↔ kind ≠ .piped) ∧ Made t (P ∪ parentEnd p) (C ∪ childEnd p) u') := by
  by_cases hk : kind = .piped
  · cases fault with
    | some e => exact Or.inl ⟨⟨hk, by simp⟩, e, by rw [makePipe, if_neg (not_not.2 hk)]⟩
    | none =>
      have hread := h.adds.install (.pipe owner s .read)
      have hboth := hread.install (.pipe owner s .write)
      have hnew := hread.lowestFree_notMem
      rw [Set.mem_insert_iff, not_or] at hnew
      refine Or.inr ⟨by simp, _, _, by rw [makePipe, if_neg (not_not.2 hk)], by simp [hk], ?_⟩
      -- the two numbers, in the order of the stream
      split
      · exact h.add hnew.2 h.adds.lowestFree_notMem hnew.1 hboth
      · rw [Set.insert_comm] at hboth
        exact h.add h.adds.lowestFree_notMem hnew.2 (Ne.symm hnew.1) hboth
  · refine Or.inr ⟨fun hpiped => hk hpiped.1, u, none, if_pos hk, by simp [hk], ?_⟩
    simpa using h

/-- `parent_keep` closes the child's end of a pipe. -/
lemma parentKeep_made (h : Made t P C u) {kind : StdioKind} {p : Option PipePair}
    (hp : p = none ↔ kind ≠ .piped) (hchild : ∀ fd ∈ childEnd p, t.get fd = none ∧ fd ∉ P) :
    Made t P (C \ childEnd p) (parentKeep kind p u).1 ∧
      (parentKeep kind p u).2 = p.map PipePair.parent := by
  cases p with
  | none =>
    have hk : kind ≠ .piped := hp.1 rfl
    simp only [parentKeep, if_neg hk, childEnd_none, Set.sdiff_empty]
    exact ⟨h, rfl⟩
  | some q =>
    have hk : kind = .piped := not_not.1 fun hk => absurd (hp.2 hk) (by simp)
    obtain ⟨hfree, hP⟩ := hchild q.child (by simp)
    have hclose := h.adds.close hfree
    simp only [parentKeep, if_pos hk, childEnd_some]
    rw [Set.union_sdiff_distrib, Set.sdiff_singleton_eq_self hP] at hclose
    exact ⟨⟨hclose, fun fd hfd hC => h.apart fd hfd hC.1⟩, rfl⟩

/-- Either a call of `pipe` fails, and the pipes made before it stay; or all pipes are made. -/
lemma openPipes_made (owner : ℕ) (io : Stdio) (f : Faults) (t : FdTable File) :
    (∃ u e S, openPipes owner io f t = (u, .error e) ∧ Adds t S u ∧
      (S = ∅ ↔ ¬ FailsLate io f)) ∨
    (∃ u p₁ p₂ p₃, openPipes owner io f t = (u, .ok ⟨p₁, p₂, p₃⟩) ∧ (∀ s, ¬ PipeFails io f s) ∧
      ((p₁ = none ↔ io.stdin ≠ .piped) ∧ (p₂ = none ↔ io.stdout ≠ .piped) ∧
        (p₃ = none ↔ io.stderr ≠ .piped)) ∧
      Made t (parentEnd p₁ ∪ parentEnd p₂ ∪ parentEnd p₃)
        (childEnd p₁ ∪ childEnd p₂ ∪ childEnd p₃) u) := by
  rcases makePipe_made (.refl t) owner .stdin io.stdin f.stdin with
    ⟨hfail₁, e, h₁⟩ | ⟨hok₁, u₁, p₁, h₁, hp₁, hmade₁⟩
  · have hstdin : PipeFails io f .stdin := hfail₁
    refine Or.inl ⟨t, e, ∅, by simp only [openPipes, h₁], .refl t, ?_⟩
    exact ⟨fun _ hlate => hlate.1 hstdin, fun _ => rfl⟩
  · have hstdin : ¬ PipeFails io f .stdin := hok₁
    rw [Set.empty_union, Set.empty_union] at hmade₁
    rcases makePipe_made hmade₁ owner .stdout io.stdout f.stdout with
      ⟨hfail₂, e, h₂⟩ | ⟨hok₂, u₂, p₂, h₂, hp₂, hmade₂⟩
    · have hstdout : PipeFails io f .stdout := hfail₂
      refine Or.inl ⟨u₁, e, _, by simp only [openPipes, h₁, h₂], hmade₁.adds, ?_⟩
      rw [ends_eq_empty_iff, hp₁, failsLate_stdout hstdin hstdout]
    · have hstdout : ¬ PipeFails io f .stdout := hok₂
      rcases makePipe_made hmade₂ owner .stderr io.stderr f.stderr with
        ⟨hfail₃, e, h₃⟩ | ⟨hok₃, u₃, p₃, h₃, hp₃, hmade₃⟩
      · have hstderr : PipeFails io f .stderr := hfail₃
        refine Or.inl ⟨u₂, e, _, by simp only [openPipes, h₁, h₂, h₃], hmade₂.adds, ?_⟩
        rw [Set.union_union_union_comm, Set.union_empty_iff, ends_eq_empty_iff, ends_eq_empty_iff,
          hp₁, hp₂, failsLate_stderr hstdin hstdout hstderr, not_or]
      · have hstderr : ¬ PipeFails io f .stderr := hok₃
        refine Or.inr ⟨u₃, p₁, p₂, p₃, by simp only [openPipes, h₁, h₂, h₃], ?_,
          ⟨hp₁, hp₂, hp₃⟩, hmade₃⟩
        intro s
        cases s <;> assumption

/-- The parent's side of a spawn whose pipes were made. -/
lemma parentTable_made {io : Stdio} {p₁ p₂ p₃ : Option PipePair}
    (hp₁ : p₁ = none ↔ io.stdin ≠ .piped) (hp₂ : p₂ = none ↔ io.stdout ≠ .piped)
    (hp₃ : p₃ = none ↔ io.stderr ≠ .piped)
    (h : Made t (parentEnd p₁ ∪ parentEnd p₂ ∪ parentEnd p₃)
      (childEnd p₁ ∪ childEnd p₂ ∪ childEnd p₃) u) :
    Adds t {fd | ∃ s, (parentTable io ⟨p₁, p₂, p₃⟩ u).2.handle s = some fd}
      (parentTable io ⟨p₁, p₂, p₃⟩ u).1 := by
  obtain ⟨hmade₁, hkeep₁⟩ := parentKeep_made h hp₁ fun fd hfd => h.child (Or.inl (Or.inl hfd))
  obtain ⟨hmade₂, hkeep₂⟩ := parentKeep_made hmade₁ hp₂ fun fd hfd =>
    h.child (Or.inl (Or.inr hfd))
  obtain ⟨hmade₃, hkeep₃⟩ := parentKeep_made hmade₂ hp₃ fun fd hfd => h.child (Or.inr hfd)
  have hclosed : (((childEnd p₁ ∪ childEnd p₂ ∪ childEnd p₃) \ childEnd p₁) \ childEnd p₂) \
      childEnd p₃ = ∅ := by
    rw [Set.sdiff_sdiff, Set.sdiff_sdiff, Set.union_assoc, Set.sdiff_self]
  have hhandle : (parentTable io ⟨p₁, p₂, p₃⟩ u).2 =
      ⟨p₁.map PipePair.parent, p₂.map PipePair.parent, p₃.map PipePair.parent⟩ := by
    simp only [parentTable, hkeep₁, hkeep₂, hkeep₃]
  have hhandles : {fd | ∃ s, (parentTable io ⟨p₁, p₂, p₃⟩ u).2.handle s = some fd} =
      parentEnd p₁ ∪ parentEnd p₂ ∪ parentEnd p₃ := by
    ext fd
    rw [hhandle]
    constructor
    · rintro ⟨s, hs⟩
      cases s with
      | stdin => exact Or.inl (Or.inl (Option.map_eq_some_iff.1 hs))
      | stdout => exact Or.inl (Or.inr (Option.map_eq_some_iff.1 hs))
      | stderr => exact Or.inr (Option.map_eq_some_iff.1 hs)
    · rintro ((hend | hend) | hend)
      · exact ⟨.stdin, Option.map_eq_some_iff.2 hend⟩
      · exact ⟨.stdout, Option.map_eq_some_iff.2 hend⟩
      · exact ⟨.stderr, Option.map_eq_some_iff.2 hend⟩
  have hadds := hmade₃.adds
  rw [hclosed, Set.union_empty] at hadds
  rw [hhandles]
  exact hadds

/-! ### The parent after a spawn -/

/-- A spawn that fails leaks what it has added. -/
lemma noLeak_error_iff {S : Set ℕ} (h : Adds t S u) (e : Io.ErrorKind) :
    NoLeak t ⟨u, none, .error e⟩ ↔ S = ∅ := by
  rw [← h.get_eq_iff]
  constructor
  · intro hleak
    exact hleak.failed e rfl
  · intro hsame
    exact ⟨fun _ _ => hsame, fun _ hok => by cases hok⟩

/-- A spawn leaks no descriptor if and only if no call fails after a pipe was made. -/
theorem spawn_noLeak_iff (owner : ℕ) (io : Stdio) (f : Faults) (t : FdTable File) :
    NoLeak t (spawn owner io f t) ↔ ¬ FailsLate io f := by
  rcases openPipes_made owner io f t with
    ⟨u, e, S, hopen, hadds, hlate⟩ | ⟨u, p₁, p₂, p₃, hopen, hfails, ⟨hp₁, hp₂, hp₃⟩, hmade⟩
  · have hspawn : spawn owner io f t = ⟨u, none, .error e⟩ := by simp only [spawn, hopen]
    rw [hspawn, noLeak_error_iff hadds, hlate]
  · cases hfork : f.fork with
    | some e =>
      have hspawn : spawn owner io f t = ⟨u, none, .error e⟩ := by
        simp only [spawn, hopen, hfork]
      -- all pipes are made when the fork fails
      have hpiped : (∃ s, io.kind s = .piped) ↔ ¬ (p₁ = none ∧ p₂ = none ∧ p₃ = none) := by
        rw [hp₁, hp₂, hp₃, ← not_forall_not]
        refine not_congr ⟨fun h => ⟨h .stdin, h .stdout, h .stderr⟩, fun ⟨h₁, h₂, h₃⟩ s => ?_⟩
        cases s <;> assumption
      rw [hspawn, noLeak_error_iff hmade.adds, failsLate_fork hfails, hfork, hpiped,
        Set.union_union_union_comm, Set.union_union_union_comm (parentEnd p₁),
        Set.union_empty_iff, Set.union_empty_iff, ends_eq_empty_iff, ends_eq_empty_iff,
        ends_eq_empty_iff, and_assoc]
      simp
    | none =>
      have hspawn : spawn owner io f t = ⟨(parentTable io ⟨p₁, p₂, p₃⟩ u).1,
          some (childTable io ⟨p₁, p₂, p₃⟩ f.devNull u),
          .ok (parentTable io ⟨p₁, p₂, p₃⟩ u).2⟩ := by
        simp only [spawn, hopen, hfork]
      have hnot : ¬ FailsLate io f := by simp [failsLate_fork hfails, hfork]
      rw [hspawn]
      refine ⟨fun _ => hnot, fun _ => ⟨?_, ?_⟩⟩
      · rintro e ⟨⟩
      · rintro c ⟨⟩
        exact parentTable_made hp₁ hp₂ hp₃ hmade

/-- All three streams are piped, and the second call of `pipe` fails. -/
def noSecondPipe : Faults := { Faults.none with stdout := some .other }

/-- The ends of the pipe for stdin stay open. -/
theorem spawn_leaks :
    (spawn 0 ⟨.piped, .piped, .piped⟩ noSecondPipe openTable).result = .error .other ∧
      openTable.get 3 = none ∧
      (spawn 0 ⟨.piped, .piped, .piped⟩ noSecondPipe openTable).parent.get 3 =
        some (.pipe 0 .stdin .read) ∧
      ¬ NoLeak openTable (spawn 0 ⟨.piped, .piped, .piped⟩ noSecondPipe openTable) := by
  refine ⟨rfl, rfl, rfl, fun h => ?_⟩
  have hsame := h.failed .other rfl 3
  exact absurd hsame (by decide)

end PureStd.Process
