/-
When `Command::output` and `Child::wait_with_output` deadlock with their child.

A deadlock is reached exactly if the child, run alone, can get to a point where it stalls
(`Stalls`).  One way, no step of the two processes turns a child that does not stall into one
that does, and in a deadlock the child stalls.  The other way, the child is run to the point
where it stalls, and the parent empties the pipe that it reads whenever the child needs room.
-/
import PureStd.Process.Output

namespace PureStd.Process.Output

variable {c : Config} {s s' : State} {p : Program} {held : Bool} {n : ℕ} {buf : List UInt8}
  {o : Sink} {b : UInt8}

/-! ### From a deadlock back to the start -/

/-- Once the parent has read to the end of a stream, the child has exited; and while it waits,
stdin is closed. -/
structure Inv (c : Config) (s : State) : Prop where
  stdout : s.phase = .stderr ∨ s.phase = .wait → c.Piped .stdout → ∃ st, s.child = .exited st
  stderr : s.phase = .wait → c.Piped .stderr → ∃ st, s.child = .exited st
  held : s.phase = .wait → s.held = false

lemma Inv.start (h : s.phase = .stdout) : Inv c s where
  stdout hphase := by simp [h] at hphase
  stderr hphase := by simp [h] at hphase
  held hphase := by simp [h] at hphase

/-- A step of the child keeps the invariant, since the child is running. -/
lemma Inv.child (h : Inv c s) (hrun : s.child = .running p) (hphase : s'.phase = s.phase)
    (hheld : s'.held = s.held) : Inv c s' where
  stdout hp hpiped := by
    obtain ⟨st, hst⟩ := h.stdout (by rwa [hphase] at hp) hpiped
    rw [hrun] at hst
    cases hst
  stderr hp hpiped := by
    obtain ⟨st, hst⟩ := h.stderr (by rwa [hphase] at hp) hpiped
    rw [hrun] at hst
    cases hst
  held hp := by rw [hheld, h.held (by rwa [hphase] at hp)]

lemma Inv.leave (r : Io.Result Output) : Inv c (s.leave r) where
  stdout hp := by simp [State.leave] at hp
  stderr hp := by simp [State.leave] at hp
  held _ := rfl

lemma Inv.step (h : Inv c s) (hstep : Step c s s') : Inv c s' := by
  cases hstep with
  | exit hrun => exact h.child hrun rfl rfl
  | write hrun =>
    rename_i o b p _ _ _
    cases o <;> exact h.child hrun rfl rfl
  | writeElsewhere hrun | writeBroken hrun | writeKilled _ hrun | read hrun =>
    exact h.child hrun rfl rfl
  | skipStdout hp hpiped => exact ⟨fun _ hp' => absurd hp' hpiped, nofun, nofun⟩
  | stdoutEof hp hpiped hbuf hchild => exact ⟨fun _ _ => ⟨_, hchild⟩, nofun, nofun⟩
  | readStdout | readStderr => exact ⟨h.stdout, h.stderr, h.held⟩
  | skipStderr hp hpiped =>
    exact ⟨fun _ => h.stdout (Or.inl hp), fun _ hp' => absurd hp' hpiped, fun _ => rfl⟩
  | stderrEof hp hpiped hbuf hchild =>
    exact ⟨fun _ _ => ⟨_, hchild⟩, fun _ _ => ⟨_, hchild⟩, fun _ => rfl⟩
  | reap | fails => exact .leave _
  | interrupted => exact h

/-- The parent still reads, and the child stalls. -/
def Doomed (c : Config) (s : State) : Prop :=
  (s.phase = .stdout ∨ s.phase = .stderr) ∧ ChildStalls c s

/-- The more there is in stderr, the sooner a child stalls. -/
lemma Stalls.mono {m : ℕ} (h : Stalls c held n buf p) (hnm : n ≤ m) : Stalls c held m buf p := by
  induction h generalizing m with
  | stderrFull hout herr hfull => exact .stderrFull hout herr (hfull.trans hnm)
  | stdinHeld hreads hstdin hheld hm => exact .stdinHeld hreads hstdin hheld hm
  | stdout _ ih => exact .stdout (ih hnm)
  | stderr _ ih => exact .stderr (ih (Nat.succ_le_succ hnm))
  | read hreads _ ih => exact .read hreads (ih hnm)

lemma Stalls.write (h : Stalls c held n buf p) (o : Sink) (b : UInt8) :
    Stalls c held n buf (.write o b p) := by
  cases o with
  | stdout => exact .stdout h
  | stderr => exact .stderr (h.mono (Nat.le_succ n))

/-- A child that stalls after a step did so before. -/
lemma Doomed.of_step (hstep : Step c s s') (h : Doomed c s') : Doomed c s := by
  obtain ⟨hphase, p', hp', hstalls⟩ := h
  cases hstep with
  | exit | writeKilled => cases hp'
  | write hrun =>
    rename_i o b p _ _ _
    cases o with
    | stdout =>
      obtain rfl := Proc.running.inj hp'
      exact ⟨hphase, _, hrun, .stdout hstalls⟩
    | stderr =>
      obtain rfl := Proc.running.inj hp'
      refine ⟨hphase, _, hrun, .stderr ?_⟩
      simpa [State.put] using hstalls
  | writeElsewhere hrun | writeBroken hrun =>
    obtain rfl := Proc.running.inj hp'
    exact ⟨hphase, _, hrun, hstalls.write _ _⟩
  | read hrun hreads =>
    obtain rfl := Proc.running.inj hp'
    exact ⟨hphase, _, hrun, .read hreads hstalls⟩
  | skipStdout hp | stdoutEof hp => exact ⟨Or.inl hp, p', hp', hstalls⟩
  | readStdout hp => exact ⟨Or.inl hp, p', hp', hstalls⟩
  | skipStderr | stderrEof => simp at hphase
  | readStderr hp hpiped hbuf =>
    refine ⟨Or.inr hp, p', hp', hstalls.mono ?_⟩
    simp [hbuf]
  | reap | fails => simp [State.leave] at hphase
  | interrupted => exact ⟨hphase, p', hp', hstalls⟩

/-- In a deadlock the child stalls. -/
lemma Deadlocked.doomed (h : Deadlocked c s) (hinv : Inv c s) : Doomed c s := by
  obtain ⟨⟨⟨p, hrun⟩, hparent⟩, hchild⟩ := h
  have hrunning {st : ℕ} : s.child ≠ .exited st := by simp [hrun]
  have hnotFull {buf : List UInt8} (hnil : buf = []) : ¬ c.capacity ≤ buf.length := by
    have := c.capacity_pos
    simp only [hnil, List.length_nil]
    omega
  rcases hchild with ⟨o, b, k, hwrite, hpiped, hfull⟩ | ⟨n, k, hread, hn, hstdin, hnil, hheld⟩
  · cases o with
    | stdout =>
      -- the parent reads a stdout that is not empty, or has read it to the end
      rcases hparent with ⟨-, -, hbuf⟩ | ⟨hp, -, -⟩ | hp
      · exact absurd hfull (hnotFull hbuf)
      · obtain ⟨st, hst⟩ := hinv.stdout (Or.inl hp) hpiped
        exact absurd hst hrunning
      · obtain ⟨st, hst⟩ := hinv.stdout (Or.inr hp) hpiped
        exact absurd hst hrunning
    | stderr =>
      rcases hparent with ⟨hp, hout, -⟩ | ⟨-, -, hbuf⟩ | hp
      · exact ⟨Or.inl hp, _, hwrite, .stderrFull hout hpiped hfull⟩
      · exact absurd hfull (hnotFull hbuf)
      · obtain ⟨st, hst⟩ := hinv.stderr hp hpiped
        exact absurd hst hrunning
  · have hstalls (hreads : c.Piped .stdout ∨ c.Piped .stderr) : ChildStalls c s := by
      refine ⟨_, hread, ?_⟩
      rw [hnil]
      exact .stdinHeld hreads hstdin hheld hn
    rcases hparent with ⟨hp, hout, -⟩ | ⟨hp, herr, -⟩ | hp
    · exact ⟨Or.inl hp, hstalls (Or.inl hout)⟩
    · exact ⟨Or.inr hp, hstalls (Or.inr herr)⟩
    · simp [hinv.held hp] at hheld

lemma Inv.run (h : Inv c s) (hrun : Relation.ReflTransGen (Step c) s s') : Inv c s' := by
  induction hrun with
  | refl => exact h
  | tail _ hstep ih => exact ih.step hstep

lemma Doomed.of_run (hrun : Relation.ReflTransGen (Step c) s s') (h : Doomed c s') :
    Doomed c s := by
  induction hrun using Relation.ReflTransGen.head_induction_on with
  | refl => exact h
  | head hstep _ ih => exact ih.of_step hstep

/-! ### From a child that stalls to a deadlock -/

/-- The parent reads a pipe, and did not read another one before. -/
structure Reading (c : Config) (s : State) (o : Sink) : Prop where
  phase : s.phase = match o with | .stdout => .stdout | .stderr => .stderr
  piped : c.Piped o
  first : o = .stderr → ¬ c.Piped .stdout

lemma Reading.eq_stdout (h : Reading c s o) (hout : c.Piped .stdout) : o = .stdout := by
  cases o with
  | stdout => rfl
  | stderr => exact absurd hout (h.first rfl)

lemma Reading.isOpen (h : Reading c s o) : s.phase.Open o := by
  rw [h.phase]
  cases o <;> trivial

lemma Reading.of_phase (h : Reading c s o) (hphase : s'.phase = s.phase) : Reading c s' o :=
  ⟨hphase.trans h.phase, h.piped, h.first⟩

/-- Nothing has changed on the side of the child and in the other pipes. -/
structure SameBut (o : Sink) (s s' : State) : Prop where
  held : s'.held = s.held
  stdin : s'.stdin = s.stdin
  pipe : ∀ o' ≠ o, s'.pipe o' = s.pipe o'

lemma SameBut.trans {s₁ s₂ s₃ : State} (h : SameBut o s₁ s₂) (h' : SameBut o s₂ s₃) :
    SameBut o s₁ s₃ where
  held := h'.held.trans h.held
  stdin := h'.stdin.trans h.stdin
  pipe o' ho' := (h'.pipe o' ho').trans (h.pipe o' ho')

/-- The parent reads a byte. -/
lemma Reading.take (h : Reading c s o) {rest : List UInt8} (hbuf : s.pipe o = b :: rest) :
    ∃ s₁, Step c s s₁ ∧ Reading c s₁ o ∧ s₁.pipe o = rest ∧ s₁.child = s.child ∧
      SameBut o s s₁ := by
  cases o with
  | stdout =>
    have hsplit : s.stdout = [b] ++ rest := hbuf
    refine ⟨{ s with stdout := rest, out := s.out ++ [b] },
      .readStdout h.phase h.piped hsplit (by simp) (by simp [chunk]), h.of_phase rfl, rfl, rfl,
      rfl, rfl, fun o' ho' => ?_⟩
    cases o' with
    | stdout => exact absurd rfl ho'
    | stderr => rfl
  | stderr =>
    have hsplit : s.stderr = [b] ++ rest := hbuf
    refine ⟨{ s with stderr := rest, err := s.err ++ [b] },
      .readStderr h.phase h.piped hsplit (by simp) (by simp [chunk]), h.of_phase rfl, rfl, rfl,
      rfl, rfl, fun o' ho' => ?_⟩
    cases o' with
    | stdout => rfl
    | stderr => exact absurd rfl ho'

/-- The parent may empty the pipe that it reads. -/
lemma Reading.drain (h : Reading c s o) :
    ∃ s₁, Relation.ReflTransGen (Step c) s s₁ ∧ Reading c s₁ o ∧ s₁.pipe o = [] ∧
      s₁.child = s.child ∧ SameBut o s s₁ := by
  generalize hbuf : s.pipe o = buf
  induction buf generalizing s with
  | nil => exact ⟨s, .refl, h, hbuf, rfl, rfl, rfl, fun _ _ => rfl⟩
  | cons b rest ih =>
    obtain ⟨s₁, hstep, h₁, hrest, hchild, hsame⟩ := h.take hbuf
    obtain ⟨s₂, hrun, h₂, hnil, hchild₂, hsame₂⟩ := ih h₁ hrest
    exact ⟨s₂, .head hstep hrun, h₂, hnil, hchild₂.trans hchild, hsame.trans hsame₂⟩

lemma sameBut_put (s : State) (o : Sink) (b : UInt8) (p : Program) : SameBut o s (s.put o b p) := by
  cases o with
  | stdout =>
    refine ⟨rfl, rfl, fun o' ho' => ?_⟩
    cases o' with
    | stdout => exact absurd rfl ho'
    | stderr => rfl
  | stderr =>
    refine ⟨rfl, rfl, fun o' ho' => ?_⟩
    cases o' with
    | stdout => rfl
    | stderr => exact absurd rfl ho'

@[simp] lemma put_phase (s : State) (o : Sink) (b : UInt8) (p : Program) :
    (s.put o b p).phase = s.phase := by
  cases o <;> rfl

@[simp] lemma put_child (s : State) (o : Sink) (b : UInt8) (p : Program) :
    (s.put o b p).child = .running p := by
  cases o <;> rfl

/-- A run to a deadlock. -/
def Deadlocks (c : Config) (s : State) : Prop :=
  ∃ s', Relation.ReflTransGen (Step c) s s' ∧ Deadlocked c s'

lemma Deadlocks.of_run (hrun : Relation.ReflTransGen (Step c) s s') (h : Deadlocks c s') :
    Deadlocks c s := by
  obtain ⟨t, ht, hdead⟩ := h
  exact ⟨t, hrun.trans ht, hdead⟩

lemma Reading.parentBlocked (h : Reading c s o) (hnil : s.pipe o = [])
    (hrun : s.child = .running p) : ParentBlocked c s := by
  refine ⟨⟨p, hrun⟩, ?_⟩
  cases o with
  | stdout => exact Or.inl ⟨h.phase, h.piped, hnil⟩
  | stderr => exact Or.inr (Or.inl ⟨h.phase, h.piped, hnil⟩)

lemma Reading.stderr_full (h : Reading c s .stdout) (herr : c.Piped .stderr)
    (hrun : s.child = .running (.write .stderr b p)) (hfull : c.capacity ≤ s.stderr.length) :
    Deadlocks c s := by
  obtain ⟨s₁, hdrain, h₁, hnil, hchild, hsame⟩ := h.drain
  refine ⟨s₁, hdrain, h₁.parentBlocked hnil (hchild.trans hrun), Or.inl ?_⟩
  refine ⟨.stderr, b, p, hchild.trans hrun, herr, ?_⟩
  rw [hsame.pipe .stderr (by decide)]
  exact hfull

lemma Reading.stdin_held (h : Reading c s o) {k : List UInt8 → Program}
    (hrun : s.child = .running (.read n k)) (hn : 0 < n) (hstdin : c.io.stdin = .piped)
    (hnil : s.stdin = []) (hheld : s.held = true) : Deadlocks c s := by
  obtain ⟨s₁, hdrain, h₁, hbuf, hchild, hsame⟩ := h.drain
  refine ⟨s₁, hdrain, h₁.parentBlocked hbuf (hchild.trans hrun), Or.inr ?_⟩
  exact ⟨n, k, hchild.trans hrun, hn, hstdin, hsame.stdin.trans hnil, hsame.held.trans hheld⟩

/-- The child writes into the pipe that the parent reads, which is emptied first. -/
lemma Reading.write (h : Reading c s o) (hrun : s.child = .running (.write o b p)) :
    ∃ s₁, Relation.ReflTransGen (Step c) s s₁ ∧ Reading c s₁ o ∧ s₁.child = .running p ∧
      SameBut o s s₁ := by
  obtain ⟨s₁, hdrain, h₁, hnil, hchild, hsame⟩ := h.drain
  have hroom : (s₁.pipe o).length < c.capacity := by
    rw [hnil]
    exact c.capacity_pos
  exact ⟨s₁.put o b p, hdrain.tail (.write (hchild.trans hrun) h.piped h₁.isOpen hroom),
    h₁.of_phase (put_phase ..), put_child .., hsame.trans (sameBut_put ..)⟩

/-- A child that stalls is run into a deadlock.  What is in stderr counts only while the parent
reads stdout. -/
lemma Stalls.deadlocks (h : Stalls c held n buf p) (hrun : s.child = .running p)
    (hheld : s.held = held) (hbuf : s.stdin = buf) (hr : Reading c s o)
    (hlen : o = .stdout → c.Piped .stderr → s.stderr.length = n) : Deadlocks c s := by
  induction h generalizing s with
  | stderrFull hout herr hfull =>
    obtain rfl := hr.eq_stdout hout
    exact hr.stderr_full herr hrun (by rwa [hlen rfl herr])
  | stdinHeld _ hstdin hheld' hm =>
    exact hr.stdin_held hrun hm hstdin hbuf (hheld.trans hheld')
  | stdout _ ih =>
    by_cases hout : c.Piped .stdout
    · obtain rfl := hr.eq_stdout hout
      obtain ⟨s₁, hsteps, h₁, hrun₁, hsame⟩ := hr.write hrun
      refine .of_run hsteps (ih hrun₁ (hsame.held.trans hheld) (hsame.stdin.trans hbuf) h₁ ?_)
      intro _ herr
      rw [← hlen rfl herr]
      exact congrArg List.length (hsame.pipe .stderr (by decide))
    · refine .of_run (.single (.writeElsewhere hrun hout)) ?_
      exact ih rfl hheld hbuf (hr.of_phase rfl) hlen
  | @stderr n buf b p _ ih =>
    by_cases herr : c.Piped .stderr
    · cases o with
      | stdout =>
        by_cases hfull : c.capacity ≤ s.stderr.length
        · exact hr.stderr_full herr hrun hfull
        · have hopen : s.phase.Open .stderr := by
            rw [hr.phase]
            trivial
          refine .of_run (.single (.write hrun herr hopen (not_le.1 hfull))) ?_
          refine ih rfl hheld hbuf (hr.of_phase rfl) fun _ _ => ?_
          rw [← hlen rfl herr]
          exact List.length_append
      | stderr =>
        obtain ⟨s₁, hsteps, h₁, hrun₁, hsame⟩ := hr.write hrun
        exact .of_run hsteps
          (ih hrun₁ (hsame.held.trans hheld) (hsame.stdin.trans hbuf) h₁ nofun)
    · refine .of_run (.single (.writeElsewhere hrun herr)) ?_
      exact ih rfl hheld hbuf (hr.of_phase rfl) fun _ herr' => absurd herr' herr
  | read hreads _ ih =>
    subst hbuf hheld
    exact .of_run (.single (.read hrun hreads)) (ih rfl rfl rfl (hr.of_phase rfl) hlen)

lemma Stalls.piped (h : Stalls c held n buf p) : c.Piped .stdout ∨ c.Piped .stderr := by
  induction h with
  | stderrFull hout => exact Or.inl hout
  | stdinHeld hreads => exact hreads
  | stdout _ ih | stderr _ ih | read _ _ ih => exact ih

lemma deadlocks_of_childStalls (hphase : s.phase = .stdout) (h : ChildStalls c s) :
    Deadlocks c s := by
  obtain ⟨p, hrun, hstalls⟩ := h
  by_cases hout : c.Piped .stdout
  · exact hstalls.deadlocks (o := .stdout) hrun rfl rfl ⟨hphase, hout, nofun⟩ fun _ _ => rfl
  · have herr : c.Piped .stderr := hstalls.piped.resolve_left hout
    refine .of_run (.single (.skipStdout hphase hout)) ?_
    exact hstalls.deadlocks (o := .stderr) hrun rfl rfl ⟨rfl, herr, fun _ => hout⟩ nofun

/-! ### Deadlocks of the two calls -/

lemma ParentBlocked.not_exited (h : ParentBlocked c s) (st : ℕ) : s.child ≠ .exited st := by
  obtain ⟨⟨p, hrun⟩, -⟩ := h
  simp [hrun]

/-- While the parent is blocked, it has its ends of the pipes open. -/
lemma ParentBlocked.isOpen (h : ParentBlocked c s) (hinv : Inv c s) (hpiped : c.Piped o) :
    s.phase.Open o := by
  have hexited : ¬ ∃ st, s.child = .exited st := fun ⟨st, hst⟩ => h.not_exited st hst
  rcases h.2 with ⟨hp, -⟩ | ⟨hp, -⟩ | hp
  · rw [hp]
    trivial
  · cases o with
    | stdout => exact absurd (hinv.stdout (Or.inl hp) hpiped) hexited
    | stderr =>
      rw [hp]
      trivial
  · cases o with
    | stdout => exact absurd (hinv.stdout (Or.inr hp) hpiped) hexited
    | stderr => exact absurd (hinv.stderr hp hpiped) hexited

lemma ChildBlocked.of_write (h : ChildBlocked c s) (hrun : s.child = .running (.write o b p)) :
    c.Piped o ∧ c.capacity ≤ (s.pipe o).length := by
  rcases h with ⟨o', b', p', hwrite, hfull⟩ | ⟨n, k, hread, -⟩
  · cases hrun.symm.trans hwrite
    exact hfull
  · cases hrun.symm.trans hread

lemma ChildBlocked.of_read (h : ChildBlocked c s) {k : List UInt8 → Program}
    (hrun : s.child = .running (.read n k)) :
    0 < n ∧ c.io.stdin = .piped ∧ s.stdin = [] ∧ s.held = true := by
  rcases h with ⟨o', b', p', hwrite, -⟩ | ⟨n', k', hread, hheld⟩
  · cases hrun.symm.trans hwrite
  · cases hrun.symm.trans hread
    exact hheld

lemma ChildBlocked.not_exit (h : ChildBlocked c s) (st : ℕ) : s.child ≠ .running (.exit st) := by
  rcases h with ⟨o, b, p, hwrite, -⟩ | ⟨n, k, hread, -⟩
  · simp [hwrite]
  · simp [hread]

/-- A blocked read returns nothing. -/
lemma Reads.not_blocked {kind : StdioKind} {bs rest : List UInt8}
    (h : Reads kind held n buf bs rest) : ¬ (0 < n ∧ kind = .piped ∧ buf = [] ∧ held = true) := by
  rintro ⟨hn, hkind, hbuf, hheld⟩
  cases h with
  | nothing => exact lt_irrefl 0 hn
  | elsewhere _ hkind' | null _ hkind' => simp [hkind] at hkind'
  | bytes _ _ hne => exact hne (List.append_eq_nil_iff.1 hbuf).1
  | eof _ hheld' => simp [hheld] at hheld'

/-- A deadlock stays: the system calls of the parent may be interrupted or fail, but neither
process gets on. -/
lemma Deadlocked.stuck (h : Deadlocked c s) (hinv : Inv c s) (hstep : Step c s s') :
    s' = s ∨ ∃ e, s' = s.leave (.error e) := by
  obtain ⟨hparent, hchild⟩ := h
  cases hstep with
  | interrupted => exact Or.inl rfl
  | fails => exact Or.inr ⟨_, rfl⟩
  | exit hrun => exact absurd hrun (hchild.not_exit _)
  | write hrun _ _ hroom => exact absurd hroom (not_lt.2 (hchild.of_write hrun).2)
  | writeElsewhere hrun hpiped => exact absurd (hchild.of_write hrun).1 hpiped
  | writeBroken _ hpiped hopen | writeKilled _ _ hpiped hopen =>
    exact absurd (hparent.isOpen hinv hpiped) hopen
  | read hrun hreads => exact absurd (hchild.of_read hrun) hreads.not_blocked
  | stdoutEof _ _ _ hexited | stderrEof _ _ _ hexited | reap _ hexited =>
    exact absurd hexited (hparent.not_exited _)
  | skipStdout hp hpiped =>
    rcases hparent.2 with ⟨-, hout, -⟩ | ⟨hp', -⟩ | hp'
    · exact absurd hout hpiped
    · simp [hp] at hp'
    · simp [hp] at hp'
  | readStdout hp _ hbuf hne =>
    rcases hparent.2 with ⟨-, -, hnil⟩ | ⟨hp', -⟩ | hp'
    · exact absurd (List.append_eq_nil_iff.1 (hbuf.symm.trans hnil)).1 hne
    · simp [hp] at hp'
    · simp [hp] at hp'
  | skipStderr hp hpiped =>
    rcases hparent.2 with ⟨hp', -⟩ | ⟨-, herr, -⟩ | hp'
    · simp [hp] at hp'
    · exact absurd herr hpiped
    · simp [hp] at hp'
  | readStderr hp _ hbuf hne =>
    rcases hparent.2 with ⟨hp', -⟩ | ⟨-, -, hnil⟩ | hp'
    · simp [hp] at hp'
    · exact absurd (List.append_eq_nil_iff.1 (hbuf.symm.trans hnil)).1 hne
    · simp [hp] at hp'

/-- The parent and the child deadlock in no run exactly if the child alone does not get to a point
where it stalls. -/
theorem neverDeadlocks_iff (h : Start c s) : NeverDeadlocks c s ↔ ¬ ChildStalls c s := by
  constructor
  · intro hnever hstalls
    obtain ⟨s', hrun, hdead⟩ := deadlocks_of_childStalls h.phase hstalls
    exact hnever s' ⟨s, rfl, hrun⟩ hdead
  · rintro hstalls s' ⟨s₀, rfl, hrun⟩ hdead
    exact hstalls ((hdead.doomed ((Inv.start h.phase).run hrun)).of_run hrun).2

/-- A call of `Command::output` is such a start. -/
lemma outputStart_start (cmd : Command) (p : Program) (capacity : ℕ) (h : 0 < capacity) :
    Start (outputConfig cmd capacity h) (outputStart cmd p) where
  phase := rfl
  room o _ := by cases o <;> exact Nat.zero_le _
  held hheld := of_decide_eq_true hheld

/-- A command with the name of a program. -/
def shell : Command := Command.new ⟨[115, 104], by decide⟩

/-- A child that writes to both pipes. -/
def chatter : Program := .write .stdout 111 (.write .stderr 101 (.write .stdout 107 (.exit 0)))

/-- `output` of such a child. -/
theorem neverDeadlocks_chatter :
    Start (outputConfig shell 65536 (by decide)) (outputStart shell chatter) ∧
    NeverDeadlocks (outputConfig shell 65536 (by decide)) (outputStart shell chatter) := by
  refine ⟨outputStart_start .., (neverDeadlocks_iff (outputStart_start ..)).2 ?_⟩
  rintro ⟨p, hrun, hstalls⟩
  obtain rfl := Proc.running.inj hrun
  obtain - | - | hstalls := hstalls
  obtain ⟨-, -, hfull⟩ | - | - | hstalls := hstalls
  · exact absurd hfull (by decide)
  · obtain - | - | hstalls := hstalls
    cases hstalls

/-- A child stalls if it writes more to stderr than there is room. -/
lemma stalls_writeAll {bytes : List UInt8} (hout : c.Piped .stdout) (herr : c.Piped .stderr)
    (hn : n ≤ c.capacity) (hlen : c.capacity < n + bytes.length) :
    Stalls c held n buf (.writeAll .stderr bytes p) := by
  induction bytes generalizing n with
  | nil => exact absurd hlen (not_lt.2 hn)
  | cons b bytes ih =>
    rw [List.length_cons] at hlen
    by_cases hfull : c.capacity ≤ n
    · exact .stderrFull hout herr hfull
    · exact .stderr (ih (by omega) (by omega))

/-- `output` deadlocks with a child that writes 65537 bytes to stderr, if a pipe has room for
65536; and if stdin is piped, with a child that reads from it. -/
theorem output_deadlocks :
    (∃ s, Reachable
        (· = outputStart shell (.writeAll .stderr (List.replicate 65537 0) (.exit 0)))
        (Step (outputConfig shell 65536 (by decide))) s ∧
      Deadlocked (outputConfig shell 65536 (by decide)) s) ∧
    ∃ s, Reachable (· = outputStart { shell with stdin := .piped } (.read 1 fun _ => .exit 0))
        (Step (outputConfig { shell with stdin := .piped } 65536 (by decide))) s ∧
      Deadlocked (outputConfig { shell with stdin := .piped } 65536 (by decide)) s := by
  constructor
  · have hstalls : ChildStalls (outputConfig shell 65536 (by decide))
        (outputStart shell (.writeAll .stderr (List.replicate 65537 0) (.exit 0))) := by
      refine ⟨_, rfl, stalls_writeAll rfl rfl (Nat.zero_le _) ?_⟩
      rw [List.length_replicate]
      decide
    obtain ⟨s, hrun, hdead⟩ := deadlocks_of_childStalls rfl hstalls
    exact ⟨s, ⟨_, rfl, hrun⟩, hdead⟩
  · have hstalls : ChildStalls (outputConfig { shell with stdin := .piped } 65536 (by decide))
        (outputStart { shell with stdin := .piped } (.read 1 fun _ => .exit 0)) :=
      ⟨_, rfl, .stdinHeld (Or.inl rfl) rfl (by decide) (by decide)⟩
    obtain ⟨s, hrun, hdead⟩ := deadlocks_of_childStalls rfl hstalls
    exact ⟨s, ⟨_, rfl, hrun⟩, hdead⟩

end PureStd.Process.Output
