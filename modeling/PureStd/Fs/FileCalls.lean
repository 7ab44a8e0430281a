/-
What the calls of `File` do, whatever happens at the system calls.

A call of `Fd::read` or `Fd::write` ends with the first system call that is not interrupted,
which has transferred some bytes, or has failed and changed nothing (`retry_cases`).
-/
import PureStd.Fs.File
import PureStd.Io.LoopRules

namespace PureStd.Fs

open Io ZeroFilled

variable {α : Type*} {s s' : Session} {d : Disk Path} {turns : List Transfer} {fd k i : ℕ}
  {f : Description} {buf buf' : List UInt8} {n : ℕ} {e : ErrorKind} {m : Machine} {p : Path}
  {P : Disk Path → Prop} {op : Disk Path → (ℕ → ℕ) → Except FileError (Disk Path × α)}

/-- No call fails but by a signal. -/
def Calm (turns : List Transfer) : Prop := ∀ e, .fail e ∈ turns → e = 4

/-- A transfer of some of the bytes. -/
def Cuts (cut : ℕ → ℕ) : Prop := ∀ n, cut n ≤ n ∧ (0 < n → 0 < cut n)

lemma cuts_id : Cuts id := fun _ => ⟨le_rfl, id⟩

lemma Transfer.cuts (turn : Transfer) (h : ∀ e, turn ≠ .fail e) : Cuts turn.cut := by
  intro n
  cases turn with
  | full => exact ⟨le_rfl, id⟩
  | short k => exact ⟨Nat.min_le_left _ _, fun hn => lt_min hn (Nat.succ_pos k)⟩
  | fail e => exact absurd rfl (h e)

/-- The loop ends with a failure that is not a signal, or with a transfer. -/
lemma retry_cases (op : Disk Path → (ℕ → ℕ) → Except FileError (Disk Path × α)) (d : Disk Path)
    (turns : List Transfer) :
    ∃ turns', turns' <:+ turns ∧ (turns ≠ [] → turns'.length < turns.length) ∧
      ((∃ e, e ≠ 4 ∧ .fail e ∈ turns ∧ Session.retry op d turns = (⟨d, turns'⟩, .error e)) ∨
        ∃ cut, Cuts cut ∧ Session.retry op d turns = Session.settle d turns' (op d cut)) := by
  induction turns with
  | nil => exact ⟨[], List.suffix_rfl, fun h => absurd rfl h, Or.inr ⟨id, cuts_id, rfl⟩⟩
  | cons turn turns ih =>
    cases turn with
    | fail e =>
      by_cases he : e = 4
      · obtain ⟨turns', hsuffix, -, hcases⟩ := ih
        have hretry : Session.retry op d (.fail e :: turns) = Session.retry op d turns := by
          rw [Session.retry, if_pos he]
        refine ⟨turns', hsuffix.trans (List.suffix_cons ..),
          fun _ => Nat.lt_succ_of_le hsuffix.length_le, ?_⟩
        rw [hretry]
        exact hcases.imp_left fun ⟨e', hne, hmem, h⟩ =>
          ⟨e', hne, List.mem_cons_of_mem _ hmem, h⟩
      · exact ⟨turns, List.suffix_cons .., fun _ => Nat.lt_succ_self _,
          Or.inl ⟨e, he, List.mem_cons_self .., by rw [Session.retry, if_neg he]⟩⟩
    | full =>
      exact ⟨turns, List.suffix_cons .., fun _ => Nat.lt_succ_self _,
        Or.inr ⟨_, Transfer.cuts .full (by simp), rfl⟩⟩
    | short n =>
      exact ⟨turns, List.suffix_cons .., fun _ => Nat.lt_succ_self _,
        Or.inr ⟨_, Transfer.cuts (.short n) (by simp), rfl⟩⟩

/-- What the call itself keeps is kept by its outcome. -/
lemma settle_keeps (hd : P d) {r : Except FileError (Disk Path × α)}
    (hr : ∀ d' a, r = .ok (d', a) → P d') : P (Session.settle d turns r).1.disk := by
  cases r with
  | error e => exact hd
  | ok x => exact hr x.1 x.2 rfl

/-- What a system call keeps is kept when it is called again after signals. -/
lemma retry_keeps (op : Disk Path → (ℕ → ℕ) → Except FileError (Disk Path × α))
    (turns : List Transfer) (hd : P d) (hop : ∀ cut d' a, op d cut = .ok (d', a) → P d') :
    P (Session.retry op d turns).1.disk := by
  obtain ⟨turns', -, -, hcases⟩ := retry_cases op d turns
  rcases hcases with ⟨e, -, -, hretry⟩ | ⟨cut, -, hretry⟩
  · rw [hretry]
    exact hd
  · rw [hretry]
    exact settle_keeps hd (hop cut)

lemma errno_ne_interrupted (e : FileError) : errno e ≠ 4 := by cases e <;> decide

lemma kind_ne_interrupted {e : Errno} (h : e ≠ 4) : Errno.kind e ≠ .interrupted := by
  unfold Errno.kind
  split <;> first | exact absurd rfl h | simp

/-- The loop does not end with a signal. -/
lemma kind_of_retry {err : Errno} (h : Session.retry op d turns = (s, .error err)) :
    err.kind ≠ .interrupted := by
  obtain ⟨turns', -, -, hcases⟩ := retry_cases op d turns
  rcases hcases with ⟨e, hne, -, hretry⟩ | ⟨cut, -, hretry⟩
  · cases hretry.symm.trans h
    exact kind_ne_interrupted hne
  · rw [hretry] at h
    cases hop : op d cut with
    | ok r =>
      rw [hop] at h
      cases (Prod.mk.inj h).2
    | error e =>
      rw [hop] at h
      cases h
      exact kind_ne_interrupted (errno_ne_interrupted e)

/-! ### `Fd::write` -/

/-- A call of `Fd::write` on a descriptor. -/
structure Wrote (s s' : Session) (k : ℕ) (f : Description) (buf : List UInt8) (r : Result ℕ) :
    Prop where
  turns : s'.turns <:+ s.turns
  writable : ∀ n, r = .ok n → f.mode.writable = true
  ok : ∀ n, r = .ok n → n ≤ buf.length ∧ (buf ≠ [] → 0 < n) ∧
    s'.disk = if n = 0 then s.disk else s.disk.put k f (buf.take n)
  error : ∀ e, r = .error e → s'.disk = s.disk ∧ e ≠ .interrupted ∧
    (Calm s.turns → f.mode.writable = false ∨ f.mode.limit ≤ s.disk.writePos f)

lemma fdWrite_spec (h : s.disk.desc fd = some (k, f)) (buf : List UInt8) :
    Wrote s (fdWrite fd s buf).1 k f buf (fdWrite fd s buf).2 := by
  obtain ⟨turns', hsuffix, -, hcases⟩ :=
    retry_cases (fun d cut => d.write fd (buf.take (cut buf.length))) s.disk s.turns
  rcases hcases with ⟨e, hne, hmem, hretry⟩ | ⟨cut, hcut, hretry⟩
  · simp only [fdWrite, hretry]
    exact ⟨hsuffix, fun n hn => (by cases hn), fun n hn => (by cases hn),
      fun e' he => ⟨rfl, by cases he; exact kind_ne_interrupted hne,
        fun hcalm => absurd (hcalm e hmem) hne⟩⟩
  · cases hwrite : s.disk.write fd (buf.take (cut buf.length)) with
    | error e =>
      simp only [fdWrite, hretry, hwrite, Session.settle]
      refine ⟨hsuffix, fun n hn => (by cases hn), fun n hn => (by cases hn),
        fun e' he => ⟨rfl, ?_, fun _ => ?_⟩⟩
      · cases he
        exact kind_ne_interrupted (errno_ne_interrupted e)
      · simp only [Disk.write, h] at hwrite
        split_ifs at hwrite with hw hnil hlim
        · exact Or.inl hw
        · exact Or.inr hlim
    | ok r =>
      obtain ⟨d', n⟩ := r
      simp only [fdWrite, hretry, hwrite, Session.settle]
      refine ⟨hsuffix, fun _ _ => Disk.writable_of_write h hwrite, fun n' hn => ?_,
        fun e he => (by cases he)⟩
      cases hn
      obtain ⟨hle, hpos⟩ := hcut buf.length
      rcases Disk.write_ok h hwrite with ⟨hnil, rfl, rfl⟩ | ⟨hpos', hn, -, rfl⟩
      · refine ⟨Nat.zero_le _, fun hbuf => ?_, by simp⟩
        have := hpos (List.length_pos_iff.2 hbuf)
        rw [List.take_eq_nil_iff] at hnil
        rcases hnil with hzero | hbuf'
        · omega
        · exact absurd hbuf' hbuf
      · rw [List.length_take] at hn
        have hmin : min n buf.length = n := by omega
        rw [hmin, if_neg (by omega), List.take_take, show min n (cut buf.length) = n by omega]
        exact ⟨by omega, fun _ => hpos', rfl⟩

/-- A descriptor does not report interruptions. -/
lemma fdWriter_patient (fd : ℕ) : (fdWriter fd).Patient := by
  refine ⟨fun s => ⟨s, ?_⟩⟩
  rintro s' ⟨buf, hwrite⟩
  have hw : fdWrite fd s buf = (s', .error .interrupted) := hwrite
  rw [fdWrite] at hw
  split at hw <;> rename_i hretry
  · cases hw
  · exact absurd (Except.error.inj (Prod.mk.inj hw).2) (kind_of_retry hretry)

/-! ### `Fd::read` -/

/-- A call of `Fd::read` on a descriptor that may be read. -/
structure Got (s s' : Session) (k : ℕ) (f : Description) (buf buf' : List UInt8)
    (r : Result ℕ) : Prop where
  turns : s'.turns <:+ s.turns
  ok : ∀ n, r = .ok n → ∃ cut, Cuts cut ∧
    buf'.take n = ((s.disk.data f.ino).drop f.pos).take (cut buf.length) ∧
    s'.disk = s.disk.seekTo k (f.pos + n)
  error : ∀ e, r = .error e → s'.disk = s.disk ∧ s'.turns.length < s.turns.length ∧
    ¬ Calm s.turns

lemma fdRead_spec (h : s.disk.desc fd = some (k, f)) (hr : f.mode.readable = true)
    (buf : List UInt8) :
    Got s (fdRead fd s buf).1 k f buf (fdRead fd s buf).2.1 (fdRead fd s buf).2.2 := by
  obtain ⟨turns', hsuffix, hshort, hcases⟩ :=
    retry_cases (fun d cut => d.read fd (cut buf.length)) s.disk s.turns
  rcases hcases with ⟨e, hne, hmem, hretry⟩ | ⟨cut, hcut, hretry⟩
  · simp only [fdRead, hretry]
    exact ⟨hsuffix, nofun, fun e' _ => ⟨rfl, hshort (List.ne_nil_of_mem hmem),
      fun hcalm => hne (hcalm e hmem)⟩⟩
  · rw [Disk.read_of_readable h hr] at hretry
    have hlen : (((s.disk.data f.ino).drop f.pos).take (cut buf.length)).length ≤ buf.length :=
      (List.length_take_le ..).trans (hcut buf.length).1
    simp only [fdRead, hretry, Session.settle, Nat.min_eq_left hlen]
    refine ⟨hsuffix, fun n hn => ?_, nofun⟩
    cases hn
    refine ⟨cut, hcut, ?_, rfl⟩
    rw [List.take_of_length_le hlen, List.take_left]

lemma fdRead_ne_interrupted {r : List UInt8 × Result ℕ} (h : fdRead fd s buf = (s', r)) :
    r.2 ≠ .error .interrupted := by
  rw [fdRead] at h
  split at h <;> rename_i hretry <;> cases h
  · simp
  · exact fun he => kind_of_retry hretry (Except.error.inj he)

/-! ### `OpenOptions::open` -/

/-- The files when the one that `p` names is about to be opened: it is there, made or truncated if
that was asked for. -/
structure Prepared (d d₀ : Disk Path) (p : Path) (i : ℕ) (m : Mode) : Prop where
  fds : d₀.fds = d.fds
  opened : d₀.opened = d.opened
  name : d₀.names p = some i
  names : ∀ q, q ≠ p → d₀.names q = d.names q
  old : d.names p = some i ∨ d.names p = none ∧ i = d.inodes ∧ m.create = true
  truncated : m.truncate = true → d₀.data i = []
  kept : m.truncate = false → d.names p = some i → d₀.data i = d.data i
  others : ∀ j, j ≠ i → d₀.data j = d.data j
  size : (d₀.data i).length ≤ m.limit
  inodes : d.inodes ≤ d₀.inodes

/-- A file that is opened to be read is as it was. -/
lemma Prepared.of_reading {d d₀ : Disk Path} (h : Prepared d d₀ p i (File.reading.mode m)) :
    d.names p = some i ∧ d₀.names = d.names ∧ d₀.data = d.data := by
  have hold : d.names p = some i := h.old.resolve_right fun h => by cases h.2.2
  refine ⟨hold, funext fun q => ?_, funext fun j => ?_⟩
  · by_cases hq : q = p
    · rw [hq, h.name, hold]
    · exact h.names q hq
  · by_cases hj : j = i
    · rw [hj]
      exact h.kept rfl hold
    · exact h.others j hj

/-- A file was opened. -/
def HasOpened (s s' : Session) (p : Path) (m : Mode) (fd : ℕ) : Prop :=
  ∃ i d₀, Prepared s.disk d₀ p i m ∧ s'.disk = (d₀.openAt i m).1 ∧ fd = (d₀.openAt i m).2

lemma prepared_of_openFile {m : Mode} {d' : Disk Path} (h : d.openFile p m = .ok (d', fd)) :
    ∃ i d₀, Prepared d d₀ p i m ∧ d' = (d₀.openAt i m).1 ∧ fd = (d₀.openAt i m).2 := by
  unfold Disk.openFile at h
  split at h
  · rename_i i hi
    split_ifs at h with hsize htrunc
    · cases h
      refine ⟨i, d.setData i [], ⟨rfl, rfl, hi, fun _ _ => rfl, Or.inl hi, fun _ => ?_, ?_, ?_, ?_,
        le_rfl⟩, rfl, rfl⟩
      · exact Function.update_self ..
      · intro hno
        rw [htrunc] at hno
        cases hno
      · exact fun j hj => Function.update_of_ne hj ..
      · simp [Disk.setData]
    · cases h
      exact ⟨i, d, ⟨rfl, rfl, hi, fun _ _ => rfl, Or.inl hi, fun h => absurd h htrunc,
        fun _ _ => rfl, fun _ _ => rfl, Nat.not_lt.1 hsize, le_rfl⟩, rfl, rfl⟩
  · rename_i hnone
    split_ifs at h with hcreate
    cases h
    refine ⟨d.inodes, d.create p, ⟨rfl, rfl, Function.update_self .., fun q hq => ?_,
      Or.inr ⟨hnone, rfl, hcreate⟩, fun _ => ?_, fun _ hsome => ?_, fun j hj => ?_, ?_,
      Nat.le_succ _⟩, rfl, rfl⟩
    · exact Function.update_of_ne hq ..
    · exact Function.update_self ..
    · rw [hnone] at hsome
      cases hsome
    · exact Function.update_of_ne hj ..
    · simp [Disk.create]

/-- The target can open the file that `p` names, if there is one. -/
def Openable (m : Machine) (d : Disk Path) (p : Path) : Prop :=
  0 ∉ p ∧ ∀ i, d.names p = some i → (d.data i).length ≤ sizeLimit m

lemma Openable.error {o : OpenOptions} {e : FileError} (hp : Openable m d p)
    (h : d.openFile p (o.mode m) = .error e) : d.names p = none ∧ o.create = false := by
  unfold Disk.openFile at h
  split at h
  · rename_i i hi
    split_ifs at h with hsize
    exact absurd (hp.2 i hi) (Nat.not_le.2 hsize)
  · rename_i hnone
    split_ifs at h with hcreate
    exact ⟨hnone, eq_false_of_ne_true hcreate⟩

/-- One system call ends with a failure, or does what it does. -/
lemma call_cases (s : Session) (op : Disk Path → (ℕ → ℕ) → Except FileError (Disk Path × α)) :
    ∃ turns', turns' <:+ s.turns ∧
      ((∃ e, s.turns.head? = some (.fail e) ∧ s.call op = (⟨s.disk, turns'⟩, .error e)) ∨
        ∃ cut, s.call op = Session.settle s.disk turns' (op s.disk cut)) := by
  obtain ⟨d, turns⟩ := s
  cases turns with
  | nil => exact ⟨[], List.suffix_rfl, Or.inr ⟨id, rfl⟩⟩
  | cons turn turns =>
    refine ⟨turns, List.suffix_cons .., ?_⟩
    cases turn with
    | fail e => exact Or.inl ⟨e, rfl, rfl⟩
    | full | short => exact Or.inr ⟨_, rfl⟩

lemma call_keeps (op : Disk Path → (ℕ → ℕ) → Except FileError (Disk Path × α)) (hs : P s.disk)
    (hop : ∀ cut d' a, op s.disk cut = .ok (d', a) → P d') : P (s.call op).1.disk := by
  obtain ⟨turns', -, hcases⟩ := call_cases s op
  rcases hcases with ⟨e, -, hcall⟩ | ⟨cut, hcall⟩
  · rw [hcall]
    exact hs
  · rw [hcall]
    exact settle_keeps hs (hop cut)

/-- `OpenOptions::open` fails and changes nothing, or has opened the file.  If the target can open
the file and the call itself does not fail, there was none. -/
lemma openFile_cases (o : OpenOptions) (m : Machine) (s : Session) (p : Path) :
    ∃ s', s'.turns <:+ s.turns ∧
      ((∃ e, o.openFile m s p = (s', .error e) ∧ s'.disk = s.disk ∧
          (Openable m s.disk p → (∀ e, s.turns.head? ≠ some (.fail e)) →
            s.disk.names p = none ∧ o.create = false)) ∨
        ∃ fd, o.openFile m s p = (s', .ok fd) ∧ HasOpened s s' p (o.mode m) fd) := by
  by_cases hnul : 0 ∈ p
  · refine ⟨s, List.suffix_rfl, Or.inl ⟨.invalidInput, ?_, rfl, fun h => absurd hnul h.1⟩⟩
    simp [OpenOptions.openFile, Env.CString.new, hnul]
  · have hnew : Env.CString.new p = some ⟨p, hnul⟩ := dif_neg hnul
    obtain ⟨turns', hsuffix, hcases⟩ := call_cases s fun d _ => d.openFile p (o.mode m)
    rcases hcases with ⟨e, hhead, hcall⟩ | ⟨cut, hcall⟩
    · refine ⟨⟨s.disk, turns'⟩, hsuffix, Or.inl ⟨e.kind, ?_, rfl, ?_⟩⟩
      · simp only [OpenOptions.openFile, hnew, hcall]
      · exact fun _ hno => absurd hhead (hno e)
    · cases hfile : s.disk.openFile p (o.mode m) with
      | error e =>
        simp only [hfile, Session.settle] at hcall
        refine ⟨⟨s.disk, turns'⟩, hsuffix,
          Or.inl ⟨(errno e).kind, ?_, rfl, fun hp _ => hp.error hfile⟩⟩
        simp only [OpenOptions.openFile, hnew, hcall]
      | ok r =>
        obtain ⟨d', fd⟩ := r
        simp only [hfile, Session.settle] at hcall
        refine ⟨⟨d', turns'⟩, hsuffix, Or.inr ⟨fd, ?_, prepared_of_openFile hfile⟩⟩
        simp only [OpenOptions.openFile, hnew, hcall]

/-! ### What the functions keep

What the system calls of a function keep is kept by the function, whatever happens at them. -/

section Keeps

variable (hs : P s.disk)
include hs

lemma fdRead_keeps (hread : ∀ n d' bytes, s.disk.read fd n = .ok (d', bytes) → P d') :
    P (fdRead fd s buf).1.disk := by
  have hkeeps := retry_keeps (fun d cut => d.read fd (cut buf.length)) s.turns hs
    fun cut => hread _
  rw [fdRead]
  split <;> rename_i heq <;> rwa [heq] at hkeeps

lemma fdWrite_keeps (hwrite : ∀ bytes d' n, s.disk.write fd bytes = .ok (d', n) → P d') :
    P (fdWrite fd s buf).1.disk := by
  have hkeeps := retry_keeps (fun d cut => d.write fd (buf.take (cut buf.length))) s.turns hs
    fun cut => hwrite _
  rw [fdWrite]
  split <;> rename_i heq <;> rwa [heq] at hkeeps

lemma fdSeek_keeps (pos : SeekFrom)
    (hseek : ∀ whence off d' n, s.disk.seek fd whence off = .ok (d', n) → P d') :
    P (fdSeek fd m s pos).1.disk := by
  have hkeeps (whence : Whence) (off : ℤ) :=
    call_keeps (fun d _ => d.seek fd whence off) hs fun _ => hseek whence off
  unfold fdSeek
  dsimp only
  split
  · rename_i heq
    exact (congrArg (fun r => r.1.disk) heq) ▸ hkeeps _ _
  · rename_i heq
    exact (congrArg (fun r => r.1.disk) heq) ▸ hkeeps _ _

lemma setLen_keeps (size : UInt64)
    (htruncate : ∀ len d', s.disk.truncate fd len = .ok d' → P d') :
    P (File.setLen m s fd size).1.disk := by
  have hkeeps := call_keeps (fun d _ =>
    (d.truncate fd (kernelLength m (ftruncateArgs m size))).map fun d => (d, ())) hs ?_
  · rw [File.setLen]
    split <;> rename_i heq <;> rwa [heq] at hkeeps
  · intro _ d' _ hcut
    cases hcall : s.disk.truncate fd (kernelLength m (ftruncateArgs m size)) with
    | error e =>
      simp only [hcall] at hcut
      cases hcut
    | ok d'' =>
      simp only [hcall] at hcut
      cases hcut
      exact htruncate _ _ hcall

lemma openFile_keeps (o : OpenOptions)
    (hopen : ∀ d' fd, s.disk.openFile p (o.mode m) = .ok (d', fd) → P d') :
    P (o.openFile m s p).1.disk := by
  rw [OpenOptions.openFile, Env.CString.new]
  by_cases hnul : 0 ∈ p
  · rw [dif_pos hnul]
    exact hs
  · rw [dif_neg hnul]
    have hkeeps := call_keeps (fun d _ => d.openFile p (o.mode m)) hs fun _ => hopen
    dsimp only
    split <;> rename_i heq <;> rwa [heq] at hkeeps

end Keeps

end PureStd.Fs
