/-
`fs::copy`.

Between two turns of the loop the destination has the bytes of the source up to the position, so
in the end it has all of them.  If the two paths name one file, opening the destination has
truncated the source, and there is nothing to copy (`copy_file`).
-/
import PureStd.Fs.FileRoundTrip

namespace PureStd.Fs

open Io Fuel

/-- Two files that are open: the one under `src` is copied to the one under `dst`. -/
structure Pair where
  src : ℕ
  dst : ℕ
  /-- The descriptions. -/
  ks : ℕ
  kd : ℕ
  /-- The files. -/
  i : ℕ
  j : ℕ
  modeS : Mode
  modeD : Mode
  ks_ne_kd : ks ≠ kd
  readable : modeS.readable = true
  no_append : modeD.append = false

variable {c : Pair} {d₀ : Disk Path} {turns : List Transfer} {s s' : Session} {n : ℕ}
  {full buf : List UInt8}

/-- The files that are not touched. -/
structure Pair.Around (c : Pair) (d₀ : Disk Path) (turns : List Transfer) (full : List UInt8)
    (s : Session) : Prop where
  turns : s.turns <:+ turns
  data : s.disk.data c.i = full
  others : ∀ l, l ≠ c.j → s.disk.data l = d₀.data l
  names : s.disk.names = d₀.names
  fds : s.disk.fds = d₀.fds

/-- Between two turns of the loop, when `n` bytes were copied. -/
structure Pair.At (c : Pair) (d₀ : Disk Path) (turns : List Transfer) (full : List UInt8)
    (s : Session) (n : ℕ) : Prop extends c.Around d₀ turns full s where
  src : s.disk.desc c.src = some (c.ks, ⟨c.i, n, c.modeS⟩)
  dst : s.disk.desc c.dst = some (c.kd, ⟨c.j, n, c.modeD⟩)
  le : n ≤ full.length
  copied : s.disk.data c.j = full.take n

/-- A turn of the loop has read a chunk. -/
lemma Pair.At.read (h : c.At d₀ turns full s n) {buf' : List UInt8} {r : Result ℕ}
    (hread : fdRead c.src s buf = (s', buf', r)) :
    (∀ a, r = .ok a → Reading s.disk s.turns c.src c.ks c.i c.modeS s' (n + a) ∧
      a ≤ full.length - n ∧ buf'.take a = (full.drop n).take a ∧
      (buf ≠ [] → a = 0 → full.length ≤ n)) ∧
    ∀ e, r = .error e → Reading s.disk s.turns c.src c.ks c.i c.modeS s' n ∧ ¬ Calm turns := by
  have hreading : Reading s.disk s.turns c.src c.ks c.i c.modeS s n :=
    ⟨List.suffix_rfl, h.src, rfl, rfl, rfl, fun _ _ => rfl⟩
  obtain ⟨hok, herror⟩ := hreading.read c.readable hread
  rw [h.data] at hok
  exact ⟨hok, fun e he => ⟨(herror e he).1, fun hcalm =>
    (herror e he).2.2 fun e' he' => hcalm e' (h.turns.subset he')⟩⟩

/-- A read leaves the other files and descriptions as they are. -/
lemma Pair.At.after_read (h : c.At d₀ turns full s n) {pos : ℕ}
    (hread : Reading s.disk s.turns c.src c.ks c.i c.modeS s' pos) :
    c.Around d₀ turns full s' ∧ s'.disk.data c.j = full.take n ∧
      s'.disk.desc c.dst = some (c.kd, ⟨c.j, n, c.modeD⟩) := by
  refine ⟨⟨hread.turns.trans h.turns, by rw [hread.data, h.data], fun l hl => ?_,
    hread.names.trans h.names, hread.fds.trans h.fds⟩, by rw [hread.data, h.copied], ?_⟩
  · rw [hread.data, h.others l hl]
  · obtain ⟨hfd, hk⟩ := Disk.desc_eq_some.1 h.dst
    exact Disk.desc_eq_some.2 ⟨by rw [hread.fds, hfd],
      (hread.opened c.kd c.ks_ne_kd.symm).trans hk⟩

/-- A turn of the loop writes the chunk that it has read. -/
lemma Pair.At.write (hij : c.i ≠ c.j) (h : c.At d₀ turns full s n) {a : ℕ} {chunk : List UInt8}
    (hread : Reading s.disk s.turns c.src c.ks c.i c.modeS s' (n + a)) (ha : a ≤ full.length - n)
    (hchunk : chunk = (full.drop n).take a) :
    ∃ s₂ r, Returns (fun fuel =>
        writeAll (fun s buf => some (fdWrite c.dst s buf)) fuel s' chunk) (s₂, r) ∧
      c.Around d₀ turns full s₂ ∧ (∃ l, s₂.disk.data c.j = full.take l) ∧
      (r = .ok () → c.At d₀ turns full s₂ (n + a)) ∧
      (Calm turns → c.modeD.writable = true → full.length ≤ c.modeD.limit → r = .ok ()) := by
  obtain ⟨haround, hcopied, hdst⟩ := h.after_read hread
  have hn := h.le
  have hlen : (full.take n).length = n := by rw [List.length_take, Nat.min_eq_left hn]
  have hchunk_len : chunk.length = a := by
    rw [hchunk, List.length_take, List.length_drop]
    omega
  have hstart : Writing s'.disk s'.turns c.dst c.kd c.j c.modeD s' (full.take n) :=
    ⟨List.suffix_rfl, by rw [hlen, hdst], hcopied, fun _ _ => rfl, rfl, rfl, fun _ _ => rfl⟩
  obtain ⟨s₂, r, hret, ⟨l, hwriting, hl⟩, hgo⟩ := hstart.all c.no_append chunk
  have hdata : s₂.disk.data c.j = full.take (n + min l a) := by
    rw [hwriting.data, hchunk, List.take_take, ← List.take_add]
  have haround₂ : c.Around d₀ turns full s₂ :=
    ⟨hwriting.turns.trans haround.turns, by rw [hwriting.others c.i hij, haround.data],
      fun l hl => by rw [hwriting.others l hl, haround.others l hl],
      hwriting.names.trans haround.names, hwriting.fds.trans haround.fds⟩
  refine ⟨s₂, r, hret, haround₂, ⟨_, hdata⟩, fun hr => ?_, fun hcalm hw hlim => ?_⟩
  · have hl := hl hr
    rw [hchunk_len] at hl
    rw [Nat.min_eq_right hl] at hdata
    refine ⟨haround₂, ?_, ?_, by omega, hdata⟩
    · obtain ⟨hfd, hk⟩ := Disk.desc_eq_some.1 hread.desc
      exact Disk.desc_eq_some.2 ⟨by rw [hwriting.fds, hfd],
        (hwriting.opened c.ks c.ks_ne_kd).trans hk⟩
    · rw [hwriting.desc, List.length_append, hlen,
        List.take_of_length_le (hchunk_len.trans_le hl), hchunk_len]
  · refine hgo (fun e he => hcalm e (haround.turns.subset he)) hw ?_
    rw [hlen, hchunk_len]
    omega

/-- The end of the loop. -/
structure Pair.Ends (c : Pair) (d₀ : Disk Path) (turns : List Transfer) (full : List UInt8)
    (s : Session) (r : Result UInt64) : Prop extends c.Around d₀ turns full s where
  copied : ∃ n, s.disk.data c.j = full.take n ∧
    ∀ total, r = .ok total → full.length ≤ n ∧ total = UInt64.ofNat full.length

/-- What a turn of the loop does after `write_all`. -/
def afterWrite (src dst : ℕ) (buf : List UInt8) (total : UInt64) (fuel : ℕ) :
    Session × Result Unit → Option (Session × Result UInt64)
  | (s, .ok ()) => copyLoop src dst fuel s buf total
  | (s, .error e) => some (s, .error e)

/-- The loop.  If the files are one file, there is nothing to copy. -/
lemma Pair.At.loop (hij : c.i = c.j → full = []) (h : c.At d₀ turns full s n) (hbuf : buf ≠ []) :
    ∃ s' r, Returns (fun fuel => copyLoop c.src c.dst fuel s buf (UInt64.ofNat n)) (s', r) ∧
      c.Ends d₀ turns full s' r ∧
      (Calm turns → c.modeD.writable = true → full.length ≤ c.modeD.limit →
        r = .ok (UInt64.ofNat full.length)) := by
  -- on the bytes that are left
  induction hleft : full.length - n using Nat.strong_induction_on generalizing s n buf with
  | _ left ih =>
    cases hread : fdRead c.src s buf with
    | mk s₁ rest =>
      obtain ⟨buf₁, r⟩ := rest
      obtain ⟨hok, herror⟩ := h.read hread
      cases r with
      | error e =>
        obtain ⟨hreading, hcalm⟩ := herror e rfl
        obtain ⟨haround, hcopied, -⟩ := h.after_read hreading
        refine ⟨s₁, .error e, .now fun fuel => ?_, ⟨haround, n, hcopied, nofun⟩,
          fun hc => absurd hc hcalm⟩
        have hne := fdRead_ne_interrupted hread
        simp only [copyLoop, hread]
        cases e <;> first | exact absurd rfl hne | rfl
      | ok a =>
        obtain ⟨hreading, ha, hchunk, hend⟩ := hok a rfl
        cases a with
        | zero =>
          obtain ⟨haround, hcopied, -⟩ := h.after_read hreading
          have hfull : full.length = n := Nat.le_antisymm (hend hbuf rfl) h.le
          refine ⟨s₁, .ok (UInt64.ofNat n), .now fun fuel => by simp only [copyLoop, hread],
            ⟨haround, n, hcopied, fun total htotal => ⟨hfull.le, ?_⟩⟩, fun _ _ _ => ?_⟩
          · rw [hfull]
            exact (Except.ok.inj htotal).symm
          · rw [hfull]
        | succ a =>
          have hne : c.i ≠ c.j := by
            intro heq
            rw [hij heq, List.length_nil, Nat.zero_sub] at ha
            exact absurd ha (Nat.not_succ_le_zero a)
          obtain ⟨s₂, r, hret, haround, ⟨l, hdata⟩, hnext, hgo⟩ :=
            h.write hne hreading ha hchunk
          have hsum : UInt64.ofNat n + UInt64.ofNat (a + 1) = UInt64.ofNat (n + (a + 1)) :=
            (UInt64.ofNat_add ..).symm
          have hturn : ∀ fuel, copyLoop c.src c.dst (fuel + 1) s buf (UInt64.ofNat n) =
              (writeAll (fun s buf => some (fdWrite c.dst s buf)) fuel s₁
                (buf₁.take (a + 1))).bind
                (afterWrite c.src c.dst buf₁ (UInt64.ofNat (n + (a + 1))) fuel) := by
            intro fuel
            rw [← hsum]
            simp only [copyLoop, hread]
            rfl
          cases r with
          | error e =>
            refine ⟨s₂, .error e, Returns.step hturn (hret.bind ?_),
              ⟨haround, l, hdata, nofun⟩, fun hc hw hl => absurd (hgo hc hw hl) nofun⟩
            exact ⟨0, fun _ _ => rfl⟩
          | ok u =>
            have hbuf₁ : buf₁ ≠ [] := by
              rintro rfl
              have hlens := congrArg List.length hchunk
              rw [List.take_nil, List.length_nil, List.length_take,
                List.length_drop] at hlens
              omega
            obtain ⟨s', r, hret', hends, hgo'⟩ := ih _ (by omega) (hnext rfl) hbuf₁ rfl
            exact ⟨s', r, Returns.step hturn (hret.bind hret'), hends, hgo'⟩

/-- What `fs::copy` has done to the files. -/
structure CopiedFile (s s' : Session) (src dst : Path) (r : Result UInt64) (i j : ℕ) : Prop where
  source : s.disk.names src = some i
  dest : s'.disk.names dst = some j
  names : ∀ q, q ≠ dst → s'.disk.names q = s.disk.names q
  others : ∀ l, l ≠ j → s'.disk.data l = s.disk.data l
  /-- The source is truncated. -/
  same : i = j → s'.disk.data i = [] ∧ ∀ n, r = .ok n → n = 0
  /-- The destination has the beginning of the source, and all of it if `copy` returns `Ok`. -/
  differ : i ≠ j → ∃ n, s'.disk.data j = (s.disk.data i).take n ∧ ∀ total, r = .ok total →
    (s.disk.data i).length ≤ n ∧ total = UInt64.ofNat (s.disk.data i).length

/-- Two files are open. -/
lemma copy_opened {m : Machine} {s s₁ s₂ : Session} {src dst : Path} {fd fd' : ℕ}
    (hsrc : HasOpened s s₁ src (File.reading.mode m) fd)
    (hdst : HasOpened s₁ s₂ dst (File.creating.mode m) fd')
    (hturns : s₂.turns <:+ s.turns) :
    ∃ s' r, Returns (fun fuel => copyLoop fd fd' fuel s₂ (List.replicate 8192 0) 0) (s', r) ∧
      (∃ i j, CopiedFile s s' src dst r i j) ∧
      (∀ l, ((s'.disk.fds.close fd').close fd).get l = s.disk.fds.get l) ∧
      (Calm s.turns → (∀ i, s.disk.names src = some i → (s.disk.data i).length ≤ sizeLimit m) →
        ∃ n, r = .ok n) := by
  obtain ⟨i, d₀, hp, hs₁, rfl⟩ := hsrc
  obtain ⟨j, d₁, hq, hs₂, rfl⟩ := hdst
  obtain ⟨hold, hkeptNames, hkept⟩ := hp.of_reading
  set modeS := File.reading.mode m with hmodeS
  set modeD := File.creating.mode m with hmodeD
  -- the source under its descriptor
  have hsrc : s₂.disk.desc (d₀.openAt i modeS).2 = some (d₀.opened.length, ⟨i, 0, modeS⟩) := by
    rw [hs₂]
    refine Disk.desc_openAt_of_desc ?_ j modeD
    rw [Disk.desc_congr hq.fds hq.opened, hs₁]
    exact Disk.desc_openAt ..
  have hdst : s₂.disk.desc (d₁.openAt j modeD).2 = some (d₁.opened.length, ⟨j, 0, modeD⟩) := by
    rw [hs₂]
    exact Disk.desc_openAt ..
  have hne : d₀.opened.length ≠ d₁.opened.length := by
    have : d₁.opened.length = d₀.opened.length + 1 := by
      rw [hq.opened, hs₁]
      simp [Disk.openAt]
    omega
  let c : Pair := ⟨(d₀.openAt i modeS).2, (d₁.openAt j modeD).2, d₀.opened.length,
    d₁.opened.length, i, j, modeS, modeD, hne, rfl, rfl⟩
  have hempty : s₂.disk.data j = [] := by
    rw [hs₂]
    exact hq.truncated rfl
  have hothers : ∀ l, l ≠ j → s₂.disk.data l = s.disk.data l := by
    intro l hl
    rw [← hkept, hs₂]
    exact (hq.others l hl).trans (by rw [hs₁]; rfl)
  have hnames : s₂.disk.names dst = some j ∧ ∀ q, q ≠ dst → s₂.disk.names q = s.disk.names q := by
    rw [hs₂]
    refine ⟨hq.name, fun q hqd => (hq.names q hqd).trans ?_⟩
    rw [hs₁, ← hkeptNames]
    rfl
  -- both files are closed again
  have hclose : ∀ t : FdTable ℕ, t = s₂.disk.fds → ∀ l,
      ((t.close (d₁.openAt j modeD).2).close (d₀.openAt i modeS).2).get l = s.disk.fds.get l := by
    rintro t rfl l
    have hinner : ∀ l, ((s₂.disk.fds).close (d₁.openAt j modeD).2).get l = s₁.disk.fds.get l :=
      fun l => (Disk.get_close_openAt j modeD s₂.disk (fun l => by rw [hs₂]) l).trans
        (by rw [hq.fds])
    refine (Disk.get_close_openAt i modeS (s₂.disk.close (d₁.openAt j modeD).2)
      (fun l => ?_) l).trans (by rw [hp.fds])
    rw [← hs₁]
    exact hinner l
  have hbuf : List.replicate 8192 (0 : UInt8) ≠ [] :=
    List.ne_nil_of_length_eq_add_one List.length_replicate
  have hat : c.At s₂.disk s.turns (s₂.disk.data i) s₂ 0 :=
    ⟨⟨hturns, rfl, fun _ _ => rfl, rfl, rfl⟩, hsrc, hdst, Nat.zero_le _, hempty⟩
  have hij : i = j → s₂.disk.data i = [] := fun heq => heq ▸ hempty
  obtain ⟨s', r, hret, hends, hgo⟩ := hat.loop hij hbuf
  refine ⟨s', r, hret, ⟨i, j, hold, by rw [hends.names, hnames.1], fun q hq => ?_, fun l hl => ?_,
    fun heq => ?_, fun hne => hothers i hne ▸ hends.copied⟩, hclose _ hends.fds,
    fun hcalm hsize => ⟨_, hgo hcalm rfl ?_⟩⟩
  · rw [hends.names, hnames.2 q hq]
  · rw [hends.others l hl, hothers l hl]
  · obtain ⟨n, hn, htotal⟩ := hends.copied
    rw [hij heq] at hn htotal
    exact ⟨by rw [heq, hn, List.take_nil], fun total h => (htotal total h).2⟩
  · by_cases heq : i = j
    · rw [hij heq]
      exact Nat.zero_le _
    · rw [hothers i heq]
      exact hsize i hold

/-- Whatever happens at the system calls, `copy` returns, and the descriptors are what they were.
If it has opened both files, no other file is changed.  The destination then has the beginning of
the source, and all of it, with its length as the result, if `copy` returns `Ok`; unless both paths
name one file, which is truncated.  If there are only short transfers, and the files are within the
limit of the target, it succeeds. -/
theorem copy_file (m : Machine) (s : Session) (src dst : Path) :
    ∃ s' r, Returns (fun fuel => copy m fuel s src dst) (s', r) ∧
      (∀ l, s'.disk.fds.get l = s.disk.fds.get l) ∧
      ((s'.disk.names = s.disk.names ∧ s'.disk.data = s.disk.data ∧ ∃ e, r = .error e) ∨
        ∃ i j, CopiedFile s s' src dst r i j) ∧
      ((∀ e, .fail e ∉ s.turns) → Openable m s.disk src → Openable m s.disk dst →
        s.disk.names src ≠ none → ∃ n, r = .ok n) := by
  obtain ⟨s₁, hturns₁, hcases₁⟩ := openFile_cases File.reading m s src
  have hhead : ∀ {s : Session}, (∀ e, .fail e ∉ s.turns) → ∀ e, s.turns.head? ≠ some (.fail e) :=
    fun h e he => h e (List.mem_of_head? he)
  rcases hcases₁ with ⟨e, hopen, hdisk, hwhy⟩ | ⟨fd, hopen, hopened⟩
  · refine ⟨s₁, .error e, ⟨0, fun fuel _ => by simp only [copy, File.open_, hopen]⟩,
      fun l => by rw [hdisk], Or.inl ⟨by rw [hdisk], by rw [hdisk], e, rfl⟩,
      fun hno hsrc _ hname => absurd (hwhy hsrc (hhead hno)).1 hname⟩
  · obtain ⟨s₂, hturns₂, hcases₂⟩ := openFile_cases File.creating m s₁ dst
    rcases hcases₂ with ⟨e, hcreate, hdisk, hwhy⟩ | ⟨fd', hcreate, hopened'⟩
    · obtain ⟨i, d₀, hp, hs₁, rfl⟩ := hopened
      obtain ⟨-, hnames, hdata⟩ := hp.of_reading
      have hnames₁ : s₁.disk.names = s.disk.names := by rw [hs₁, ← hnames]; rfl
      have hdata₁ : s₁.disk.data = s.disk.data := by rw [hs₁, ← hdata]; rfl
      refine ⟨File.drop s₂ (d₀.openAt i (File.reading.mode m)).2, .error e,
        ⟨0, fun fuel _ => by simp only [copy, File.open_, hopen, File.create, hcreate]⟩,
        fun l => ?_, Or.inl ⟨?_, ?_, e, rfl⟩, fun hno _ hdst _ => ?_⟩
      · exact (Disk.get_close_openAt i _ s₂.disk (fun l => by rw [hdisk, hs₁]) l).trans
          (by rw [hp.fds])
      · show s₂.disk.names = _
        rw [hdisk, hnames₁]
      · show s₂.disk.data = _
        rw [hdisk, hdata₁]
      · rw [Openable, ← hnames₁, ← hdata₁] at hdst
        cases (hwhy hdst (hhead fun e he => hno e (hturns₁.subset he))).2
    · obtain ⟨s', r, hret, hcopied, hclose, hgo⟩ :=
        copy_opened hopened hopened' (hturns₂.trans hturns₁)
      obtain ⟨n, hn⟩ := hret
      have hcopy : Returns (fun fuel => copy m fuel s src dst)
          (File.drop (File.drop s' fd') fd, r) := by
        refine ⟨n, fun fuel hfuel => ?_⟩
        simp only [copy, File.open_, hopen, File.create, hcreate, hn fuel hfuel, Option.map_some]
      obtain ⟨i, j, hcopied⟩ := hcopied
      refine ⟨File.drop (File.drop s' fd') fd, r, hcopy, hclose,
        Or.inr ⟨i, j, { hcopied with }⟩, fun hno hsrc _ _ => ?_⟩
      exact hgo (fun e he => absurd he (hno e)) hsrc.2

end PureStd.Fs
