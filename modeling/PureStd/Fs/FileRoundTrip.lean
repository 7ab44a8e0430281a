/-
`fs::write` and `fs::read`.

Whatever happens at the system calls, `write` returns, closes the file, and leaves the beginning
of the contents in it, all of them if it returns `Ok` (`write_spec`); and `read` returns all bytes
of the file or an error (`read_spec`).  So what was written is what is read, through every name of
the file (`write_read`).
-/
import PureStd.Fs.FileCalls

namespace PureStd.Fs

open Io Fuel ZeroFilled

variable {s s' : Session} {m : Machine} {p q : Path} {contents : List UInt8} {fd k i : ℕ}

/-- Nothing happens at the next calls but short transfers and signals, and no signal at the first
one. -/
def Smooth (turns : List Transfer) : Prop := Calm turns ∧ ∀ e, turns.head? ≠ some (.fail e)

/-! ### Writing -/

/-- A file that is being written: the bytes so far are `done`. -/
structure Writing (d₀ : Disk Path) (turns : List Transfer) (fd k i : ℕ) (mode : Mode)
    (s : Session) (done : List UInt8) : Prop where
  turns : s.turns <:+ turns
  desc : s.disk.desc fd = some (k, ⟨i, done.length, mode⟩)
  data : s.disk.data i = done
  others : ∀ j, j ≠ i → s.disk.data j = d₀.data j
  names : s.disk.names = d₀.names
  fds : s.disk.fds = d₀.fds
  opened : ∀ k', k' ≠ k → s.disk.opened[k']? = d₀.opened[k']?

variable {d₀ : Disk Path} {turns : List Transfer} {mode : Mode} {done buf : List UInt8}

/-- A call of `Fd::write` writes some more bytes. -/
lemma Writing.write (h : Writing d₀ turns fd k i mode s done) (happend : mode.append = false)
    {r : Result ℕ} (hw : fdWrite fd s buf = (s', r)) :
    (∀ n, r = .ok n → n ≤ buf.length ∧ (buf ≠ [] → 0 < n) ∧
      Writing d₀ turns fd k i mode s' (done ++ buf.take n)) ∧
    ∀ e, r = .error e → Writing d₀ turns fd k i mode s' done ∧
      (Calm turns → mode.writable = true → mode.limit ≤ done.length) := by
  obtain ⟨d', turns'⟩ := s'
  have hspec := fdWrite_spec h.desc buf
  rw [hw] at hspec
  have hpos : s.disk.writePos ⟨i, done.length, mode⟩ = done.length := by
    simp [Disk.writePos, happend]
  have hturns := hspec.turns.trans h.turns
  refine ⟨fun n hn => ?_, fun e he => ?_⟩
  · obtain ⟨hle, hprogress, hdisk⟩ := hspec.ok n hn
    refine ⟨hle, hprogress, ?_⟩
    dsimp only at hdisk
    split_ifs at hdisk with hzero <;> subst hdisk
    · rw [hzero, List.take_zero, List.append_nil]
      exact { h with turns := hturns }
    · refine ⟨hturns, ?_, ?_, fun j hj => ?_, h.names, h.fds, fun k' hk => ?_⟩
      · rw [Disk.desc_put h.desc, hpos, List.length_append]
      · rw [Disk.data_put, Function.update_self, hpos, h.data, store_length]
      · rw [Disk.data_put, Function.update_of_ne hj, h.others j hj]
      · exact (Disk.getElem?_seekTo hk ..).trans (h.opened k' hk)
  · obtain ⟨hdisk, -, hwhy⟩ := hspec.error e he
    dsimp only at hdisk
    subst hdisk
    refine ⟨{ h with turns := hturns }, fun hcalm hwritable => ?_⟩
    rcases hwhy fun e he => hcalm e (h.turns.subset he) with hno | hlim
    · exact absurd (hwritable.symm.trans hno) (by decide)
    · rwa [hpos] at hlim

/-- What `write_all` does at the end of a file. -/
lemma Writing.all (h : Writing d₀ turns fd k i mode s done) (happend : mode.append = false)
    (buf : List UInt8) : ∃ s' r,
    Returns (fun fuel => writeAll (fun s buf => some (fdWrite fd s buf)) fuel s buf) (s', r) ∧
    (∃ n, Writing d₀ turns fd k i mode s' (done ++ buf.take n) ∧ (r = .ok () → buf.length ≤ n)) ∧
    (Calm turns → mode.writable = true → done.length + buf.length ≤ mode.limit → r = .ok ()) := by
  obtain ⟨⟨s', r⟩, hret⟩ := writeAll_terminates (fdWriter_patient fd) s buf
  obtain ⟨fuel, hrun⟩ := hret.exists_fuel
  -- what was written and what is left is all of it
  let P : Session → List UInt8 → Prop := fun s rest =>
    ∃ n, rest = buf.drop n ∧ Writing d₀ turns fd k i mode s (done ++ buf.take n)
  have hok : ∀ s rest s' n, P s rest → some (fdWrite fd s rest) = some (s', .ok n) →
      P s' (rest.drop n) := by
    rintro s rest s' n ⟨j, rfl, hwriting⟩ hw
    obtain ⟨-, -, hnext⟩ := (hwriting.write happend (Option.some.inj hw)).1 n rfl
    exact ⟨j + n, List.drop_drop, by rwa [List.take_add, ← List.append_assoc]⟩
  have herror : ∀ s rest s' e, P s rest → some (fdWrite fd s rest) = some (s', .error e) →
      P s' rest := by
    rintro s rest s' e ⟨j, rfl, hwriting⟩ hw
    exact ⟨j, rfl, ((hwriting.write happend (Option.some.inj hw)).2 e rfl).1⟩
  have hP : P s buf := ⟨0, rfl, by simpa using h⟩
  refine ⟨s', r, hret, ?_, fun hcalm hwritable hsize => ?_⟩
  · obtain ⟨rest, ⟨n, hrest, hwriting⟩, hall⟩ := writeAll_rule hok herror hP hrun
    exact ⟨n, hwriting, fun hr => List.drop_eq_nil_iff.1 (hrest ▸ hall hr)⟩
  · cases r with
    | ok u => rfl
    | error e =>
      exfalso
      obtain ⟨s₀, rest, ⟨n, rfl, hwriting⟩, hnil, hfail⟩ := writeAll_error hok herror hP hrun
      have hlt : n < buf.length := by
        by_contra hge
        exact hnil (List.drop_eq_nil_iff.2 (Nat.not_lt.1 hge))
      rcases hfail with hfail | hfail
      · have hlim := ((hwriting.write happend (Option.some.inj hfail)).2 e rfl).2 hcalm hwritable
        rw [List.length_append, List.length_take, Nat.min_eq_left hlt.le] at hlim
        omega
      · have hpos := ((hwriting.write happend (Option.some.inj hfail)).1 0 rfl).2.1 hnil
        omega

/-- A call of `fs::write`. -/
structure Written (s s' : Session) (p : Path) (contents : List UInt8) (r : Result Unit) : Prop where
  turns : s'.turns <:+ s.turns
  /-- The file is closed again. -/
  fds : ∀ j, s'.disk.fds.get j = s.disk.fds.get j
  /-- The file was not opened, or it has the beginning of the contents. -/
  file : (s'.disk.names = s.disk.names ∧ s'.disk.data = s.disk.data ∧ r ≠ .ok ()) ∨
    ∃ i n, s'.disk.names p = some i ∧ (∀ q, q ≠ p → s'.disk.names q = s.disk.names q) ∧
      s'.disk.data i = contents.take n ∧ (r = .ok () → contents.length ≤ n) ∧
      ∀ j, j ≠ i → s'.disk.data j = s.disk.data j

lemma write_spec (m : Machine) (s : Session) (p : Path) (contents : List UInt8) :
    ∃ s' r, Returns (fun fuel => write m fuel s p contents) (s', r) ∧ Written s s' p contents r ∧
      (Smooth s.turns → Openable m s.disk p → contents.length ≤ sizeLimit m → r = .ok ()) := by
  obtain ⟨s₁, hturns, hcases⟩ := openFile_cases File.creating m s p
  rcases hcases with ⟨e, hopen, hdisk, hwhy⟩ | ⟨fd, hopen, i, d₀, hprep, hdisk, rfl⟩
  · refine ⟨s₁, .error e, ⟨0, fun fuel _ => by simp only [write, File.create, hopen]⟩,
      ⟨hturns, fun j => by rw [hdisk],
        Or.inl ⟨by rw [hdisk], by rw [hdisk], fun h => (by cases h)⟩⟩,
      fun hsmooth hp _ => ?_⟩
    cases (hwhy hp hsmooth.2).2
  · set mode := File.creating.mode m with hmode
    have hstart : Writing s₁.disk s₁.turns (d₀.openAt i mode).2 d₀.opened.length i mode s₁ [] := by
      refine ⟨List.suffix_rfl, ?_, ?_, fun _ _ => rfl, rfl, rfl, fun _ _ => rfl⟩
      · rw [hdisk]
        exact Disk.desc_openAt ..
      · rw [hdisk]
        exact hprep.truncated rfl
    obtain ⟨s', r, hret, ⟨n, hwriting, hn⟩, hall⟩ := hstart.all rfl contents
    refine ⟨File.drop s' (d₀.openAt i mode).2, r, ?_, ⟨hwriting.turns.trans hturns, fun j => ?_,
      Or.inr ⟨i, n, ?_, fun q hq => ?_, hwriting.data, hn, fun j hj => ?_⟩⟩,
      fun hsmooth _ hsize => hall (fun e he => hsmooth.1 e (hturns.subset he)) rfl (by simpa)⟩
    · obtain ⟨k, hk⟩ := hret
      refine ⟨k, fun fuel hfuel => ?_⟩
      simp only [write, File.create, hopen, hk fuel hfuel, Option.map_some]
    · exact (Disk.get_close_openAt i mode s'.disk (fun j => by rw [hwriting.fds, hdisk]) j).trans
        (by rw [hprep.fds])
    · show s'.disk.names p = some i
      rw [hwriting.names, hdisk]
      exact hprep.name
    · show s'.disk.names q = _
      rw [hwriting.names, hdisk]
      exact hprep.names q hq
    · show s'.disk.data j = _
      rw [hwriting.others j hj, hdisk]
      exact hprep.others j hj

/-! ### Reading -/

/-- A file that is being read: `pos` bytes were read so far. -/
structure Reading (d₀ : Disk Path) (turns : List Transfer) (fd k i : ℕ) (mode : Mode)
    (s : Session) (pos : ℕ) : Prop where
  turns : s.turns <:+ turns
  desc : s.disk.desc fd = some (k, ⟨i, pos, mode⟩)
  data : s.disk.data = d₀.data
  names : s.disk.names = d₀.names
  fds : s.disk.fds = d₀.fds
  opened : ∀ k', k' ≠ k → s.disk.opened[k']? = d₀.opened[k']?

/-- A call of `Fd::read` reads the next bytes. -/
lemma Reading.read {pos : ℕ} (h : Reading d₀ turns fd k i mode s pos)
    (hmode : mode.readable = true) {buf' : List UInt8} {r : Result ℕ}
    (hread : fdRead fd s buf = (s', buf', r)) :
    (∀ n, r = .ok n → Reading d₀ turns fd k i mode s' (pos + n) ∧
      n ≤ (d₀.data i).length - pos ∧ buf'.take n = ((d₀.data i).drop pos).take n ∧
      (buf ≠ [] → n = 0 → (d₀.data i).length ≤ pos)) ∧
    ∀ e, r = .error e → Reading d₀ turns fd k i mode s' pos ∧
      s'.turns.length < s.turns.length ∧ ¬ Calm turns := by
  obtain ⟨d', turns'⟩ := s'
  have hspec := fdRead_spec h.desc hmode buf
  have hle := (fdReader fd).read_le s buf
  have hlen := (fdReader fd).read_length s buf
  change ∀ n, (fdRead fd s buf).2.2 = .ok n → n ≤ buf.length at hle
  change (fdRead fd s buf).2.1.length = buf.length at hlen
  rw [hread] at hspec hle hlen
  have hturns := hspec.turns.trans h.turns
  refine ⟨fun n hn => ?_, fun e he => ?_⟩
  · obtain ⟨cut, hcut, htake, hdisk⟩ := hspec.ok n hn
    dsimp only at htake hdisk hlen
    subst hdisk
    have hcount : n = min (cut buf.length) ((d₀.data i).length - pos) := by
      have hlens := congrArg List.length htake
      rw [List.length_take, List.length_take, List.length_drop, h.data] at hlens
      have := hle n hn
      omega
    refine ⟨⟨hturns, Disk.desc_seekTo h.desc _, h.data, h.names, h.fds, fun k' hk => ?_⟩, by omega,
      ?_, fun hbuf hzero => ?_⟩
    · exact (Disk.getElem?_seekTo hk ..).trans (h.opened k' hk)
    · rw [htake, h.data, hcount, List.take_eq_take_iff, List.length_drop]
      omega
    · have := (hcut buf.length).2 (List.length_pos_iff.2 hbuf)
      omega
  · obtain ⟨hdisk, hless, hcalm⟩ := hspec.error e he
    dsimp only at hdisk
    subst hdisk
    exact ⟨{ h with turns := hturns }, hless, fun hc => hcalm fun e he => hc e (h.turns.subset he)⟩

/-- The bytes of the file that are still to come. -/
def readingStream (d₀ : Disk Path) (turns : List Transfer) (fd k i : ℕ) (mode : Mode)
    (hmode : mode.readable = true) : Stream (fdReader fd) fun _ => True where
  Good s := ∃ pos, Reading d₀ turns fd k i mode s pos
  rest s := match s.disk.desc fd with
    | some (_, f) => (d₀.data i).drop f.pos
    | none => []
  delay s := s.turns.length
  read_ok {s s' buf buf' n} := by
    rintro ⟨pos, hs⟩ hbuf hread
    obtain ⟨hs', -, htake, hend⟩ := (hs.read hmode hread).1 n rfl
    refine ⟨⟨_, hs'⟩, ?_, fun hzero => ?_⟩
    · simp only [hs.desc, hs'.desc, htake]
      rw [← List.drop_drop, List.take_append_drop]
    · simp only [hs.desc]
      exact List.drop_eq_nil_iff.2 (hend hbuf hzero)
  read_error {s s' buf buf' e} := by
    rintro ⟨pos, hs⟩ - hread
    obtain ⟨hs', hless, -⟩ := (hs.read hmode hread).2 e rfl
    exact ⟨trivial, ⟨_, hs'⟩, by simp only [hs.desc, hs'.desc], hless⟩

/-- What `read_to_end` does from the beginning of a file. -/
lemma Reading.all (h : Reading d₀ turns fd k i mode s 0) (hmode : mode.readable = true) :
    ∃ s' delivered buf r,
      Returns (fun fuel => readToEnd (fdReader fd) fuel ⟨s, []⟩ []) (⟨s', delivered⟩, buf, r) ∧
      (∃ pos, Reading d₀ turns fd k i mode s' pos) ∧ (∀ n, r = .ok n → buf = d₀.data i) ∧
      (Calm turns → ∃ n, r = .ok n) := by
  have htmp : List.replicate 4096 (0 : UInt8) ≠ [] :=
    List.ne_nil_of_length_eq_add_one List.length_replicate
  obtain ⟨⟨⟨s', delivered⟩, buf, r⟩, hret⟩ := readToEndLoop_terminates
    ((readingStream d₀ turns fd k i mode hmode).ends (s := s) ⟨0, h⟩) htmp (i := ⟨s, []⟩) []
  obtain ⟨fuel, hrun⟩ := hret.exists_fuel
  -- the buffer has what was read so far
  let P : Source Session → List UInt8 → Prop := fun i' buf =>
    Reading d₀ turns fd k i mode i'.state buf.length ∧ buf = (d₀.data i).take buf.length
  have hok : ∀ i' tmp i'' tmp' n buf, P i' buf → tmp ≠ [] →
      (fdReader fd).get i' tmp = (i'', tmp', .ok n) → P i'' (buf ++ tmp'.take n) := by
    rintro i' tmp i'' tmp' n buf ⟨hreading, hbuf⟩ - hget
    obtain ⟨hnext, -, htake, -⟩ := (hreading.read hmode (Reader.read_of_get hget)).1 n rfl
    obtain ⟨hle, hlen, -⟩ := Reader.get_ok hget
    have hsum : (buf ++ tmp'.take n).length = buf.length + n := by
      rw [List.length_append, List.length_take]
      omega
    refine ⟨by rwa [hsum], ?_⟩
    rw [hsum, List.take_add, ← hbuf, htake]
  have herror : ∀ i' tmp i'' tmp' e buf, P i' buf → tmp ≠ [] →
      (fdReader fd).get i' tmp = (i'', tmp', .error e) → P i'' buf := by
    rintro i' tmp i'' tmp' e buf ⟨hreading, hbuf⟩ - hget
    exact ⟨((hreading.read hmode (Reader.read_of_get hget)).2 e rfl).1, hbuf⟩
  obtain ⟨⟨hreading, hbuf⟩, i₀, tmp₀, tmp₁, htmp₀, ⟨hread₀, -⟩, hget⟩ :=
    readToEndLoop_rule hok herror htmp ⟨h, rfl⟩ hrun
  have hlast := hread₀.read hmode (Reader.read_of_get hget)
  refine ⟨s', delivered, buf, r.map fun _ => buf.length, hret.map, ⟨_, hreading⟩, fun n hn => ?_,
    fun hcalm => ?_⟩
  · cases r with
    | error e => cases hn
    | ok u => rw [hbuf, List.take_of_length_le ((hlast.1 0 rfl).2.2.2 htmp₀ rfl)]
  · cases r with
    | error e => exact absurd hcalm (hlast.2 e rfl).2.2
    | ok u => exact ⟨_, rfl⟩

/-- A call of `fs::read`: the file is closed again, nothing is changed, and the result is all of
the file or an error. -/
structure WasRead (s s' : Session) (q : Path) (r : Result (List UInt8)) : Prop where
  turns : s'.turns <:+ s.turns
  fds : ∀ j, s'.disk.fds.get j = s.disk.fds.get j
  names : s'.disk.names = s.disk.names
  data : s'.disk.data = s.disk.data
  all : ∀ bytes, r = .ok bytes → ∃ i, s.disk.names q = some i ∧ bytes = s.disk.data i

lemma read_spec (m : Machine) (s : Session) (q : Path) :
    ∃ s' r, Returns (fun fuel => read m fuel s q) (s', r) ∧ WasRead s s' q r ∧
      (Smooth s.turns → Openable m s.disk q → s.disk.names q ≠ none → ∃ bytes, r = .ok bytes) := by
  obtain ⟨s₁, hturns, hcases⟩ := openFile_cases File.reading m s q
  rcases hcases with ⟨e, hopen, hdisk, hwhy⟩ | ⟨fd, hopen, i, d₀, hprep, hdisk, rfl⟩
  · refine ⟨s₁, .error e, ⟨0, fun fuel _ => by simp only [read, File.open_, hopen]⟩,
      ⟨hturns, fun j => by rw [hdisk], by rw [hdisk], by rw [hdisk], fun _ h => (by cases h)⟩,
      fun hsmooth hq hname => absurd (hwhy hq hsmooth.2).1 hname⟩
  · obtain ⟨hold, hnames, hdata⟩ := hprep.of_reading
    set mode := File.reading.mode m with hmode
    have hstart : Reading s₁.disk s₁.turns (d₀.openAt i mode).2 d₀.opened.length i mode s₁ 0 := by
      refine ⟨List.suffix_rfl, ?_, rfl, rfl, rfl, fun _ _ => rfl⟩
      rw [hdisk]
      exact Disk.desc_openAt ..
    obtain ⟨s', delivered, buf, r, hret, ⟨pos, hreading⟩, hall, hcalm⟩ := hstart.all rfl
    refine ⟨File.drop s' (d₀.openAt i mode).2, r.map fun _ => buf, ?_,
      ⟨hreading.turns.trans hturns, fun j => ?_, ?_, ?_, fun bytes hbytes => ⟨i, hold, ?_⟩⟩,
      fun hsmooth _ _ => ?_⟩
    · obtain ⟨n, hn⟩ := hret
      refine ⟨n, fun fuel hfuel => ?_⟩
      simp only [read, File.open_, hopen, hn fuel hfuel, Option.map_some]
    · exact (Disk.get_close_openAt i mode s'.disk (fun j => by rw [hreading.fds, hdisk]) j).trans
        (by rw [hprep.fds])
    · show s'.disk.names = _
      rw [hreading.names, hdisk]
      exact hnames
    · show s'.disk.data = _
      rw [hreading.data, hdisk]
      exact hdata
    · cases r with
      | error e => cases hbytes
      | ok n =>
        cases hbytes
        rw [hall n rfl, hdisk, ← hdata]
        rfl
    · obtain ⟨n, rfl⟩ := hcalm fun e he => hsmooth.1 e (hturns.subset he)
      exact ⟨buf, rfl⟩

/-- Whatever happens at the system calls, `write` returns, the descriptors are what they were, no
other file is changed, and a file that was opened has the beginning of the contents.  If it returns
`Ok`, a call of `read` by any name of the file returns the contents, or an error.  If there are
only short transfers and signals, no signal when the file is opened (`open` does not try again), and
the sizes are within the limit of the target, both succeed. -/
theorem write_read (m : Machine) (s : Session) (p q : Path) (contents : List UInt8) :
    ∃ s₁ r₁ s₂ r₂, Returns (fun fuel => write m fuel s p contents) (s₁, r₁) ∧
      Written s s₁ p contents r₁ ∧ Returns (fun fuel => read m fuel s₁ q) (s₂, r₂) ∧
      WasRead s₁ s₂ q r₂ ∧
      (r₁ = .ok () → s₁.disk.names q = s₁.disk.names p → ∀ bytes, r₂ = .ok bytes →
        bytes = contents) ∧
      (Smooth s.turns → Openable m s.disk p → contents.length ≤ sizeLimit m → r₁ = .ok ()) ∧
      (r₁ = .ok () → Smooth s₁.turns → 0 ∉ q → s₁.disk.names q = s₁.disk.names p →
        contents.length ≤ sizeLimit m → r₂ = .ok contents) := by
  obtain ⟨s₁, r₁, hret₁, hwritten, hgo₁⟩ := write_spec m s p contents
  obtain ⟨s₂, r₂, hret₂, hread, hgo₂⟩ := read_spec m s₁ q
  -- the file under both names
  have hfile : r₁ = .ok () → ∃ i, s₁.disk.names p = some i ∧ s₁.disk.data i = contents := by
    intro hr
    rcases hwritten.file with ⟨-, -, hno⟩ | ⟨i, n, hi, -, hdata, hn, -⟩
    · exact absurd hr hno
    · exact ⟨i, hi, by rw [hdata, List.take_of_length_le (hn hr)]⟩
  have hsame : r₁ = .ok () → s₁.disk.names q = s₁.disk.names p → ∀ bytes, r₂ = .ok bytes →
      bytes = contents := by
    intro hr hname bytes hbytes
    obtain ⟨i, hi, hdata⟩ := hfile hr
    obtain ⟨j, hj, rfl⟩ := hread.all bytes hbytes
    rw [hname, hi] at hj
    rw [← Option.some.inj hj, hdata]
  refine ⟨s₁, r₁, s₂, r₂, hret₁, hwritten, hret₂, hread, hsame, hgo₁, ?_⟩
  intro hr hsmooth hnul hname hsize
  obtain ⟨i, hi, hdata⟩ := hfile hr
  have hq : s₁.disk.names q = some i := hname.trans hi
  obtain ⟨bytes, hbytes⟩ := hgo₂ hsmooth
    ⟨hnul, fun j hj => by rw [← Option.some.inj (hq.symm.trans hj), hdata]; exact hsize⟩
    (by simp [hq])
  rw [hbytes, hsame hr hname bytes hbytes]

end PureStd.Fs
