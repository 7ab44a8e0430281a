/-
Vectored input and output on WASI: `readv` and `writev` of `src/syscall_wasi.rs`.

The two functions make one call of the host for each buffer, until a buffer is not transferred in
full.  They give up with the error of a call even if earlier calls have transferred bytes, and
`readv` takes the answer to an empty buffer for the end of the input (`readv_iff`).  `writev` skips
empty buffers; the buffers that it is given may share their bytes, so the count of the bytes may
wrap around (`writev_iff`).

The host is any function that transfers the next bytes, as many as it likes, or fails.
-/
import Mathlib.Data.List.Flatten
import Mathlib.Tactic

namespace PureStd.Io.Wasi

/-! ### The host -/

/-- A host with an input. -/
structure Input (σ : Type*) where
  /-- `fd_read` for one buffer of the given length: the errno of WASI and the bytes. -/
  fdRead : σ → ℕ → σ × UInt16 × List UInt8
  /-- The bytes that are still to come. -/
  rest : σ → List UInt8
  read_ok : ∀ s len s' bs, fdRead s len = (s', 0, bs) →
    bs.length ≤ len ∧ rest s = bs ++ rest s' ∧ (bs = [] → len = 0 ∨ rest s = [])
  read_error : ∀ s len s' e bs, fdRead s len = (s', e, bs) → e ≠ 0 → rest s' = rest s

/-- A host with an output. -/
structure Output (σ : Type*) where
  /-- `fd_write` for one buffer: the errno of WASI and the number of bytes. -/
  fdWrite : σ → List UInt8 → σ × UInt16 × ℕ
  /-- The bytes that were written. -/
  written : σ → List UInt8
  write_ok : ∀ s buf s' n, fdWrite s buf = (s', 0, n) →
    n ≤ buf.length ∧ written s' = written s ++ buf.take n
  write_error : ∀ s buf s' e n, fdWrite s buf = (s', e, n) → e ≠ 0 → written s' = written s

/-! ### The code -/

/-- `wasi_to_linux`. -/
def wasiToLinux (e : UInt16) : ℤ :=
  match e.toNat with
  | 0 => 0
  | 2 => 13
  | 8 => 9
  | 20 => 17
  | 28 => 22
  | 44 => 2
  | 52 => 38
  | _ => 5

/-- `check`. -/
def check (e : UInt16) : Except ℤ Unit := if e = 0 then .ok () else .error (wasiToLinux e)

variable {σ : Type*} {h : Input σ} {s s' : σ} {b : List UInt8} {bufs pre : List (List UInt8)}

/-- `wasi::read`, with the buffer as it is afterwards. -/
def read (h : Input σ) (s : σ) (buf : List UInt8) : σ × List UInt8 × Except ℤ ℕ :=
  match h.fdRead s buf.length with
  | (s, e, bs) =>
    match check e with
    | .ok () => (s, bs ++ buf.drop bs.length, .ok bs.length)
    | .error e => (s, buf, .error e)

/-- `wasi::write`. -/
def write (h : Output σ) (s : σ) (buf : List UInt8) : σ × Except ℤ ℕ :=
  match h.fdWrite s buf with
  | (s, e, n) => (s, (check e).map fun _ => n)

/-- What a call of `readv` leaves: the host, the buffers and the result. -/
structure ReadOutcome (σ : Type*) where
  state : σ
  bufs : List (List UInt8)
  result : Except ℤ ℕ

/-- The loop of `readv`.  The buffers do not overlap, so the count does not wrap around. -/
def readvFrom (h : Input σ) (total : ℕ) : σ → List (List UInt8) → ReadOutcome σ
  | s, [] => ⟨s, [], .ok total⟩
  | s, b :: bufs =>
    match read h s b with
    | (s, b', .error e) => ⟨s, b' :: bufs, .error e⟩
    | (s, b', .ok n) =>
      if n = 0 then ⟨s, b' :: bufs, .ok total⟩
      else if n < b.length then ⟨s, b' :: bufs, .ok (total + n)⟩
      else
        let o := readvFrom h (total + n) s bufs
        { o with bufs := b' :: o.bufs }

/-- `readv`. -/
def readv (h : Input σ) (s : σ) (bufs : List (List UInt8)) : ReadOutcome σ := readvFrom h 0 s bufs

/-- What a call of `writev` leaves: the host and the result. -/
structure WriteOutcome (σ : Type*) where
  state : σ
  result : Except ℤ ℕ

/-- The loop of `writev`, where `usize` has 32 bits. -/
def writevFrom (h : Output σ) (total : ℕ) : σ → List (List UInt8) → WriteOutcome σ
  | s, [] => ⟨s, .ok total⟩
  | s, b :: bufs =>
    match write h s b with
    | (s, .error e) => ⟨s, .error e⟩
    | (s, .ok n) =>
      let total := (total + n) % 2 ^ 32
      if n < b.length then ⟨s, .ok total⟩ else writevFrom h total s bufs

/-- `writev`. -/
def writev (h : Output σ) (s : σ) (bufs : List (List UInt8)) : WriteOutcome σ :=
  writevFrom h 0 s bufs

/-- `Fd::read_vectored`, which tries again on `EINTR`; `none` is not enough fuel. -/
def readVectored (h : Input σ) : ℕ → σ → List (List UInt8) → Option (ReadOutcome σ)
  | 0, _, _ => none
  | fuel + 1, s, bufs =>
    let o := readv h s bufs
    match o.result with
    | .error 4 => readVectored h fuel o.state o.bufs
    | _ => some o

/-- `Fd::write_vectored`. -/
def writeVectored (h : Output σ) (bufs : List (List UInt8)) : ℕ → σ → Option (WriteOutcome σ)
  | 0, _ => none
  | fuel + 1, s =>
    let o := writev h s bufs
    match o.result with
    | .error 4 => writeVectored h bufs fuel o.state
    | _ => some o

/-! ### What is to hold -/

/-- One vectored read: the buffers begin with the next bytes of the input, `Ok` tells how many, an
error is returned only if there are none, and `Ok(0)` only at the end of the input or without any
room. -/
def ReadsAsOne (h : Input σ) (s : σ) (bufs : List (List UInt8)) (o : ReadOutcome σ) : Prop :=
  ∃ bs, h.rest s = bs ++ h.rest o.state ∧
    o.bufs.map List.length = bufs.map List.length ∧
    o.bufs.flatten = bs ++ bufs.flatten.drop bs.length ∧
    (∀ n, o.result = .ok n → n = bs.length) ∧
    (∀ e, o.result = .error e → bs = []) ∧
    (o.result = .ok 0 → h.rest s = [] ∨ bufs.flatten = [])

/-- One vectored write: the beginning of the bytes is written, `Ok` tells how many they are, and an
error is returned only if there are none. -/
def WritesAsOne (h : Output σ) (s : σ) (bufs : List (List UInt8)) (o : WriteOutcome σ) : Prop :=
  ∃ k ≤ bufs.flatten.length, h.written o.state = h.written s ++ bufs.flatten.take k ∧
    (∀ n, o.result = .ok n → n = k) ∧ ∀ e, o.result = .error e → k = 0

/-! ### What the host may do -/

/-- The host fills the buffers `pre`, none of which is empty, and fails at the next one. -/
inductive ReadFails (h : Input σ) : σ → List (List UInt8) → List (List UInt8) → Prop
  | here {s : σ} {b : List UInt8} {bufs : List (List UInt8)}
      (herr : (h.fdRead s b.length).2.1 ≠ 0) : ReadFails h s (b :: bufs) []
  | later {s s' : σ} {b bs : List UInt8} {bufs pre : List (List UInt8)} (hb : b ≠ [])
      (hread : h.fdRead s b.length = (s', 0, bs)) (hfull : bs.length = b.length)
      (hrest : ReadFails h s' bufs pre) : ReadFails h s (b :: bufs) (b :: pre)

/-- The host takes the buffers `pre` and fails at the next one. -/
inductive WriteFails (h : Output σ) : σ → List (List UInt8) → List (List UInt8) → Prop
  | here {s : σ} {b : List UInt8} {bufs : List (List UInt8)}
      (herr : (h.fdWrite s b).2.1 ≠ 0) : WriteFails h s (b :: bufs) []
  | later {s s' : σ} {b : List UInt8} {bufs pre : List (List UInt8)}
      (hwrite : h.fdWrite s b = (s', 0, b.length)) (hrest : WriteFails h s' bufs pre) :
      WriteFails h s (b :: bufs) (b :: pre)

/-- The host takes some of the buffers in full, and of the next one so much that these are `m`
bytes. -/
inductive Takes (h : Output σ) : σ → List (List UInt8) → ℕ → Prop
  | here {s s' : σ} {b : List UInt8} {bufs : List (List UInt8)} {n : ℕ}
      (hwrite : h.fdWrite s b = (s', 0, n)) : Takes h s (b :: bufs) n
  | later {s s' : σ} {b : List UInt8} {bufs : List (List UInt8)} {m : ℕ}
      (hwrite : h.fdWrite s b = (s', 0, b.length)) (hrest : Takes h s' bufs m) :
      Takes h s (b :: bufs) (b.length + m)

/-- The first buffer is not empty, or the first call fails; or there is no room at all, or no
input. -/
def StartsWithRoom (h : Input σ) (s : σ) (bufs : List (List UInt8)) : Prop :=
  (∃ b rest, bufs = b :: rest ∧ (b ≠ [] ∨ (h.fdRead s b.length).2.1 ≠ 0)) ∨
    bufs.flatten = [] ∨ h.rest s = []

/-- A host that answers is not one that fails. -/
lemma ReadFails.of_answer {bs : List UInt8} (hfails : ReadFails h s (b :: bufs) pre)
    (hread : h.fdRead s b.length = (s', 0, bs)) :
    ∃ pre', pre = b :: pre' ∧ b ≠ [] ∧ bs.length = b.length ∧ ReadFails h s' bufs pre' := by
  cases hfails with
  | here herr => exact absurd (by rw [hread]) herr
  | later hb hread' hfull hrest =>
    cases hread.symm.trans hread'
    exact ⟨_, rfl, hb, hfull, hrest⟩

lemma WriteFails.of_answer {h : Output σ} {n : ℕ} (hfails : WriteFails h s (b :: bufs) pre)
    (hwrite : h.fdWrite s b = (s', 0, n)) :
    ∃ pre', pre = b :: pre' ∧ n = b.length ∧ WriteFails h s' bufs pre' := by
  cases hfails with
  | here herr => exact absurd (by rw [hwrite]) herr
  | later hwrite' hrest =>
    cases hwrite.symm.trans hwrite'
    exact ⟨_, rfl, rfl, hrest⟩

lemma ReadFails.unique {pre' : List (List UInt8)} (hfails : ReadFails h s bufs pre)
    (hfails' : ReadFails h s bufs pre') : pre' = pre := by
  induction hfails generalizing pre' with
  | here herr =>
    cases hfails' with
    | here => rfl
    | later _ hread => exact absurd (by rw [hread]) herr
  | later hb hread hfull _ ih =>
    obtain ⟨pre₁, rfl, -, -, hrest⟩ := hfails'.of_answer hread
    rw [ih hrest]

lemma WriteFails.unique {h : Output σ} {pre' : List (List UInt8)} (hfails : WriteFails h s bufs pre)
    (hfails' : WriteFails h s bufs pre') : pre' = pre := by
  induction hfails generalizing pre' with
  | here herr =>
    cases hfails' with
    | here => rfl
    | later hwrite => exact absurd (by rw [hwrite]) herr
  | later hwrite _ ih =>
    obtain ⟨pre₁, rfl, -, hrest⟩ := hfails'.of_answer hwrite
    rw [ih hrest]

/-- Buffers that are filled before the host fails hold bytes. -/
lemma ReadFails.eq_nil (hfails : ReadFails h s bufs pre) (hpre : pre.flatten = []) : pre = [] := by
  cases hfails with
  | here => rfl
  | later hb => exact absurd (List.append_eq_nil_iff.1 hpre).1 hb

/-! ### One call of the host -/

/-- The errors that are returned make nobody try again. -/
lemma wasiToLinux_ne (e : UInt16) : wasiToLinux e ≠ 4 := by
  rw [wasiToLinux]
  split <;> decide

lemma read_cases {b' : List UInt8} {r : Except ℤ ℕ} (heq : read h s b = (s', b', r)) :
    (∃ e, r = .error e ∧ e ≠ 4 ∧ b' = b ∧ h.rest s' = h.rest s ∧
      (h.fdRead s b.length).2.1 ≠ 0) ∨
      ∃ bs, r = .ok bs.length ∧ bs.length ≤ b.length ∧ b' = bs ++ b.drop bs.length ∧
        h.rest s = bs ++ h.rest s' ∧ (bs = [] → b = [] ∨ h.rest s = []) ∧
        h.fdRead s b.length = (s', 0, bs) := by
  rw [read] at heq
  rcases hfd : h.fdRead s b.length with ⟨s₁, e, bs⟩
  rw [hfd] at heq
  by_cases he : e = 0
  · subst he
    obtain ⟨hlen, hrest, hempty⟩ := h.read_ok s b.length s₁ bs hfd
    cases heq
    refine Or.inr ⟨bs, rfl, hlen, rfl, hrest, fun hnil => ?_, rfl⟩
    exact (hempty hnil).imp_left List.length_eq_zero_iff.1
  · have hcheck : check e = .error (wasiToLinux e) := if_neg he
    simp only [hcheck] at heq
    cases heq
    exact Or.inl ⟨_, rfl, wasiToLinux_ne e, rfl, h.read_error s _ _ e bs hfd he, he⟩

lemma write_cases {h : Output σ} {r : Except ℤ ℕ} (heq : write h s b = (s', r)) :
    (∃ e, r = .error e ∧ e ≠ 4 ∧ h.written s' = h.written s ∧ (h.fdWrite s b).2.1 ≠ 0) ∨
      ∃ n ≤ b.length, r = .ok n ∧ h.written s' = h.written s ++ b.take n ∧
        h.fdWrite s b = (s', 0, n) := by
  rw [write] at heq
  rcases hfd : h.fdWrite s b with ⟨s₁, e, n⟩
  rw [hfd] at heq
  by_cases he : e = 0
  · subst he
    obtain ⟨hlen, hwritten⟩ := h.write_ok s b s₁ n hfd
    cases heq
    exact Or.inr ⟨n, hlen, rfl, hwritten, rfl⟩
  · have hcheck : check e = .error (wasiToLinux e) := if_neg he
    simp only [hcheck] at heq
    cases heq
    exact Or.inl ⟨_, rfl, wasiToLinux_ne e, h.write_error s b _ e n hfd he, he⟩

/-! ### Reading -/

/-- What `readv` does with its first buffer: it gives up, it takes the answer for the end of the
input, it stops in the buffer, or it goes on with the next one. -/
lemma readvFrom_cons (h : Input σ) (total : ℕ) (s : σ) (b : List UInt8) (bufs : List (List UInt8)) :
    (∃ s' e, (h.fdRead s b.length).2.1 ≠ 0 ∧ e ≠ 4 ∧ h.rest s = h.rest s' ∧
      readvFrom h total s (b :: bufs) = ⟨s', b :: bufs, .error e⟩) ∨
    (∃ s', h.fdRead s b.length = (s', 0, []) ∧ (b = [] ∨ h.rest s = []) ∧ h.rest s = h.rest s' ∧
      readvFrom h total s (b :: bufs) = ⟨s', b :: bufs, .ok total⟩) ∨
    (∃ s' bs, h.fdRead s b.length = (s', 0, bs) ∧ bs ≠ [] ∧ bs.length < b.length ∧
      h.rest s = bs ++ h.rest s' ∧ readvFrom h total s (b :: bufs) =
        ⟨s', (bs ++ b.drop bs.length) :: bufs, .ok (total + bs.length)⟩) ∨
    ∃ s' bs, h.fdRead s b.length = (s', 0, bs) ∧ bs ≠ [] ∧ bs.length = b.length ∧
      h.rest s = bs ++ h.rest s' ∧ readvFrom h total s (b :: bufs) =
        { readvFrom h (total + bs.length) s' bufs with
          bufs := bs :: (readvFrom h (total + bs.length) s' bufs).bufs } := by
  rcases hread : read h s b with ⟨s', b', r⟩
  rcases read_cases hread with ⟨e, rfl, he, rfl, hrest, herr⟩ |
    ⟨bs, rfl, hlen, rfl, hrest, hempty, hfd⟩
  · exact Or.inl ⟨s', e, herr, he, hrest.symm, by simp only [readvFrom, hread]⟩
  · by_cases hnil : bs = []
    · subst hnil
      exact Or.inr (Or.inl ⟨s', hfd, hempty rfl, hrest, by simp [readvFrom, hread]⟩)
    · have hne : bs.length ≠ 0 := fun hzero => hnil (List.length_eq_zero_iff.1 hzero)
      by_cases hshort : bs.length < b.length
      · refine Or.inr (Or.inr (Or.inl ⟨s', bs, hfd, hnil, hshort, hrest, ?_⟩))
        simp only [readvFrom, hread, if_neg hne, if_pos hshort]
      · have hfull : b.drop bs.length = [] := List.drop_eq_nil_of_le (by omega)
        refine Or.inr (Or.inr (Or.inr ⟨s', bs, hfd, hnil, by omega, hrest, ?_⟩))
        simp only [readvFrom, hread, if_neg hne, if_neg hshort, hfull, List.append_nil]

/-- The bytes that are read are the next ones and fill the buffers in order.  If the host fails,
they are those of the buffers before; otherwise the result is their number. -/
lemma readvFrom_spec (h : Input σ) (total : ℕ) (s : σ) (bufs : List (List UInt8)) :
    ∃ bs, h.rest s = bs ++ h.rest (readvFrom h total s bufs).state ∧
      (readvFrom h total s bufs).bufs.map List.length = bufs.map List.length ∧
      (readvFrom h total s bufs).bufs.flatten = bs ++ bufs.flatten.drop bs.length ∧
      ((∃ pre e, ReadFails h s bufs pre ∧ bs.length = pre.flatten.length ∧ e ≠ 4 ∧
          (readvFrom h total s bufs).result = .error e) ∨
        (∀ pre, ¬ ReadFails h s bufs pre) ∧
          (readvFrom h total s bufs).result = .ok (total + bs.length)) := by
  induction bufs generalizing total s with
  | nil => exact ⟨[], rfl, rfl, rfl, Or.inr ⟨fun pre hfails => (by cases hfails), rfl⟩⟩
  | cons b bufs ih =>
    rcases readvFrom_cons h total s b bufs with ⟨s', e, herr, he, hrest, hrun⟩ |
      ⟨s', hfd, -, hrest, hrun⟩ | ⟨s', bs, hfd, -, hshort, hrest, hrun⟩ |
      ⟨s', bs, hfd, hne, hfull, hrest, hrun⟩ <;> rw [hrun]
    · exact ⟨[], hrest, rfl, rfl, Or.inl ⟨[], e, .here herr, rfl, he, rfl⟩⟩
    · refine ⟨[], hrest, rfl, rfl, Or.inr ⟨fun pre hfails => ?_, rfl⟩⟩
      obtain ⟨pre', -, hb, hlen, -⟩ := hfails.of_answer hfd
      exact hb (List.length_eq_zero_iff.1 hlen.symm)
    · refine ⟨bs, hrest, ?_, ?_, Or.inr ⟨fun pre hfails => ?_, rfl⟩⟩
      · rw [List.map_cons, List.map_cons, List.length_append, List.length_drop,
          Nat.add_sub_cancel' hshort.le]
      · rw [List.flatten_cons, List.flatten_cons, List.drop_append_of_le_length hshort.le,
          List.append_assoc]
      · obtain ⟨pre', -, -, hlen, -⟩ := hfails.of_answer hfd
        exact hshort.ne hlen
    · obtain ⟨bs', hrest', hmap, hflat, hresult⟩ := ih (total + bs.length) s'
      refine ⟨bs ++ bs', ?_, ?_, ?_, ?_⟩
      · rw [hrest, hrest', List.append_assoc]
      · rw [List.map_cons, List.map_cons, hmap, hfull]
      · rw [List.flatten_cons, List.flatten_cons, hflat, List.length_append, ← List.drop_drop,
          List.drop_left' hfull.symm, List.append_assoc]
      · rcases hresult with ⟨pre, e, hfails, hlen, he, herror⟩ | ⟨hno, hok⟩
        · have hb : b ≠ [] := by
            rintro rfl
            exact hne (List.length_eq_zero_iff.1 hfull)
          refine Or.inl ⟨b :: pre, e, .later hb hfd hfull hfails, ?_, he, herror⟩
          rw [List.length_append, List.flatten_cons, List.length_append, hfull, hlen]
        · refine Or.inr ⟨fun pre hfails => ?_, ?_⟩
          · obtain ⟨pre', -, -, -, hfails'⟩ := hfails.of_answer hfd
            exact hno pre' hfails'
          · rw [List.length_append, ← Nat.add_assoc]
            exact hok

/-- From a first buffer with room, `Ok(0)` means that there is no input. -/
lemma rest_of_readv_zero (hb : b ≠ []) (hzero : (readv h s (b :: bufs)).result = .ok 0) :
    h.rest s = [] := by
  obtain ⟨bs, hrest, -, -, hresult⟩ := readvFrom_spec h 0 s (b :: bufs)
  rw [← readv] at hrest hresult
  rcases hresult with ⟨pre, e, -, -, -, herror⟩ | ⟨hno, hok⟩
  · cases herror.symm.trans hzero
  obtain rfl : bs = [] := by
    have hlen := hok.symm.trans hzero
    rw [Except.ok.injEq, Nat.zero_add] at hlen
    exact List.length_eq_zero_iff.1 hlen
  rw [List.nil_append, readv] at hrest
  rcases readvFrom_cons h 0 s b bufs with ⟨s', e, herr, -⟩ | ⟨s', -, hend, -⟩ |
    ⟨s', bs, -, hne, -, hrest', hrun⟩ | ⟨s', bs, hfd, hne, hfull, hrest', hrun⟩
  · exact absurd (.here herr) (hno [])
  · exact hend.resolve_left hb
  · -- bytes have left the input
    rw [hrun, hrest'] at hrest
    exact absurd (List.append_left_eq_self.1 hrest) hne
  · obtain ⟨bs', hrest'', -⟩ := readvFrom_spec h (0 + bs.length) s' bufs
    rw [hrun, hrest', hrest'', ← List.append_assoc] at hrest
    exact absurd (List.append_eq_nil_iff.1 (List.append_left_eq_self.1 hrest)).1 hne

/-- A successful transfer into an empty first buffer ends `readv` with `Ok(0)`. -/
lemma readv_nil_cons (h : Input σ) (s : σ) (bufs : List (List UInt8)) :
    (h.fdRead s 0).2.1 ≠ 0 ∨ (readv h s ([] :: bufs)).result = .ok 0 := by
  rw [readv]
  rcases readvFrom_cons h 0 s [] bufs with ⟨s', e, herr, -⟩ | ⟨s', -, -, -, hrun⟩ |
    ⟨s', bs, -, -, hshort, -⟩ | ⟨s', bs, -, hne, hfull, -⟩
  · exact Or.inl herr
  · exact Or.inr (by rw [hrun])
  · exact absurd hshort (Nat.not_lt_zero _)
  · exact absurd (List.length_eq_zero_iff.1 hfull) hne

lemma readv_iff (h : Input σ) (s : σ) (bufs : List (List UInt8)) :
    ReadsAsOne h s bufs (readv h s bufs) ↔
      (∀ pre, ReadFails h s bufs pre → pre = []) ∧ StartsWithRoom h s bufs := by
  obtain ⟨bs, hrest, hmap, hflat, hresult⟩ := readvFrom_spec h 0 s bufs
  rw [← readv] at hrest hmap hflat hresult
  constructor
  · rintro ⟨bs', hrest', -, -, -, herror, hzero⟩
    obtain rfl : bs' = bs := List.append_cancel_right (hrest'.symm.trans hrest)
    refine ⟨fun pre hpre => ?_, ?_⟩
    · rcases hresult with ⟨pre', e, hfails, hlen, -, he⟩ | ⟨hno, -⟩
      · rw [herror e he] at hlen
        exact (hfails.unique hpre).trans (hfails.eq_nil (List.length_eq_zero_iff.1 hlen.symm))
      · exact absurd hpre (hno pre)
    · cases bufs with
      | nil => exact Or.inr (Or.inl rfl)
      | cons b bufs =>
        by_cases hb : b = []
        · subst hb
          rcases readv_nil_cons h s bufs with herr | hok
          · exact Or.inl ⟨[], bufs, rfl, Or.inr herr⟩
          · exact Or.inr (hzero hok).symm
        · exact Or.inl ⟨b, bufs, rfl, Or.inl hb⟩
  · rintro ⟨hlate, hroom⟩
    rcases hresult with ⟨pre, e, hfails, hlen, -, he⟩ | ⟨hno, hok⟩
    · rw [hlate pre hfails] at hlen
      exact ⟨bs, hrest, hmap, hflat, fun n hn => absurd (he.symm.trans hn) (by simp),
        fun _ _ => List.length_eq_zero_iff.1 hlen,
        fun hzero => absurd (he.symm.trans hzero) (by simp)⟩
    · refine ⟨bs, hrest, hmap, hflat, fun n hn => ?_, fun e he => ?_, fun hzero => ?_⟩
      · rw [hok, Except.ok.injEq, Nat.zero_add] at hn
        exact hn.symm
      · cases hok.symm.trans he
      · rcases hroom with ⟨b, rest, rfl, hb | herr⟩ | hempty | hend
        · exact Or.inl (rest_of_readv_zero hb hzero)
        · exact absurd (.here herr) (hno [])
        · exact Or.inr hempty
        · exact Or.inl hend

/-! ### Writing -/

/-- What `writev` does with its first buffer: it gives up, it stops in the buffer, or it goes on
with the next one. -/
lemma writevFrom_cons (h : Output σ) (total : ℕ) (s : σ) (b : List UInt8)
    (bufs : List (List UInt8)) :
    (∃ s' e, (h.fdWrite s b).2.1 ≠ 0 ∧ e ≠ 4 ∧ h.written s' = h.written s ∧
      writevFrom h total s (b :: bufs) = ⟨s', .error e⟩) ∨
    (∃ s' n, h.fdWrite s b = (s', 0, n) ∧ n < b.length ∧ h.written s' = h.written s ++ b.take n ∧
      writevFrom h total s (b :: bufs) = ⟨s', .ok ((total + n) % 2 ^ 32)⟩) ∨
    ∃ s', h.fdWrite s b = (s', 0, b.length) ∧ h.written s' = h.written s ++ b ∧
      writevFrom h total s (b :: bufs) = writevFrom h ((total + b.length) % 2 ^ 32) s' bufs := by
  rcases hwrite : write h s b with ⟨s', r⟩
  rcases write_cases hwrite with ⟨e, rfl, he, hwritten, herr⟩ | ⟨n, hle, rfl, hwritten, hfd⟩
  · exact Or.inl ⟨s', e, herr, he, hwritten, by simp only [writevFrom, hwrite]⟩
  · by_cases hshort : n < b.length
    · refine Or.inr (Or.inl ⟨s', n, hfd, hshort, hwritten, ?_⟩)
      simp only [writevFrom, hwrite, if_pos hshort]
    · obtain rfl : n = b.length := by omega
      rw [List.take_length] at hwritten
      refine Or.inr (Or.inr ⟨s', hfd, hwritten, ?_⟩)
      simp only [writevFrom, hwrite, if_neg hshort]

/-- The bytes that are written are the beginning of the buffers' bytes, as many as the host takes.
If the host fails, they are those of the buffers before; otherwise the result is their number
modulo 2^32. -/
lemma writevFrom_spec (h : Output σ) (total : ℕ) (s : σ) (bufs : List (List UInt8))
    (htotal : total < 2 ^ 32) :
    ∃ k ≤ bufs.flatten.length,
      h.written (writevFrom h total s bufs).state = h.written s ++ bufs.flatten.take k ∧
      (∀ m, Takes h s bufs m → m ≤ k) ∧ (k = 0 ∨ Takes h s bufs k) ∧
      ((∃ pre e, WriteFails h s bufs pre ∧ k = pre.flatten.length ∧ e ≠ 4 ∧
          (writevFrom h total s bufs).result = .error e) ∨
        (∀ pre, ¬ WriteFails h s bufs pre) ∧
          (writevFrom h total s bufs).result = .ok ((total + k) % 2 ^ 32)) := by
  induction bufs generalizing total s with
  | nil =>
    refine ⟨0, Nat.le_refl _, (List.append_nil _).symm, fun m hm => (by cases hm), Or.inl rfl,
      Or.inr ⟨fun pre hfails => (by cases hfails), ?_⟩⟩
    rw [Nat.add_zero, Nat.mod_eq_of_lt htotal, writevFrom]
  | cons b bufs ih =>
    rcases writevFrom_cons h total s b bufs with ⟨s', e, herr, he, hwritten, hrun⟩ |
      ⟨s', n, hfd, hshort, hwritten, hrun⟩ | ⟨s', hfd, hwritten, hrun⟩ <;> rw [hrun]
    · refine ⟨0, Nat.zero_le _, by simpa using hwritten, fun m hm => ?_, Or.inl rfl,
        Or.inl ⟨[], e, .here herr, rfl, he, rfl⟩⟩
      cases hm with
      | here hfd | later hfd => exact absurd (by rw [hfd]) herr
    · refine ⟨n, ?_, ?_, fun m hm => ?_, Or.inr (.here hfd), Or.inr ⟨fun pre hfails => ?_, rfl⟩⟩
      · rw [List.flatten_cons, List.length_append]
        omega
      · rw [hwritten, List.flatten_cons, List.take_append_of_le_length hshort.le]
      · cases hm with
        | here hfd' =>
          cases hfd.symm.trans hfd'
          exact Nat.le_refl _
        | later hfd' =>
          cases hfd.symm.trans hfd'
          exact absurd hshort (Nat.lt_irrefl _)
      · obtain ⟨pre', -, hlen, -⟩ := hfails.of_answer hfd
        exact hshort.ne hlen
    · obtain ⟨k, hk, hwritten', hle, hmax, hresult⟩ :=
        ih ((total + b.length) % 2 ^ 32) s' (Nat.mod_lt _ (by decide))
      refine ⟨b.length + k, ?_, ?_, fun m hm => ?_, Or.inr ?_, ?_⟩
      · rw [List.flatten_cons, List.length_append]
        omega
      · rw [hwritten', hwritten, List.flatten_cons, List.take_length_add_append,
          List.append_assoc]
      · cases hm with
        | here hfd' =>
          cases hfd.symm.trans hfd'
          exact Nat.le_add_right ..
        | later hfd' hrest =>
          cases hfd.symm.trans hfd'
          exact Nat.add_le_add_left (hle _ hrest) _
      · rcases hmax with rfl | htakes
        · exact .here hfd
        · exact .later hfd htakes
      · rcases hresult with ⟨pre, e, hfails, rfl, he, herror⟩ | ⟨hno, hok⟩
        · refine Or.inl ⟨b :: pre, e, .later hfd hfails, ?_, he, herror⟩
          rw [List.flatten_cons, List.length_append]
        · refine Or.inr ⟨fun pre hfails => ?_, ?_⟩
          · obtain ⟨pre', -, -, hfails'⟩ := hfails.of_answer hfd
            exact hno pre' hfails'
          · rw [← Nat.add_assoc, ← Nat.mod_add_mod (total + b.length)]
            exact hok

lemma writev_iff (h : Output σ) (s : σ) (bufs : List (List UInt8)) :
    WritesAsOne h s bufs (writev h s bufs) ↔
      (∀ pre, WriteFails h s bufs pre → pre.flatten = []) ∧ ∀ m, Takes h s bufs m → m < 2 ^ 32 := by
  obtain ⟨k, hk, hwritten, hle, hmax, hresult⟩ := writevFrom_spec h 0 s bufs (by decide)
  rw [← writev, Nat.zero_add] at hresult
  rw [← writev] at hwritten
  constructor
  · rintro ⟨k', hk', hwritten', hn, herror⟩
    -- the bytes that were written tell how many they are
    obtain rfl : k' = k := by
      have htake := congrArg List.length (List.append_cancel_left (hwritten'.symm.trans hwritten))
      rwa [List.length_take_of_le hk', List.length_take_of_le hk] at htake
    rcases hresult with ⟨pre, e, hfails, hlen, -, he⟩ | ⟨hno, hok⟩
    · have hzero := herror e he
      refine ⟨fun pre' hpre' => ?_, fun m hm => (hle m hm).trans_lt (by rw [hzero]; decide)⟩
      rw [hfails.unique hpre']
      exact List.length_eq_zero_iff.1 (hlen.symm.trans hzero)
    · refine ⟨fun pre hpre => absurd hpre (hno pre), fun m hm => (hle m hm).trans_lt ?_⟩
      rw [← hn _ hok]
      exact Nat.mod_lt _ (by decide)
  · rintro ⟨hlate, hfits⟩
    rcases hresult with ⟨pre, e, hfails, hlen, -, he⟩ | ⟨hno, hok⟩
    · rw [hlate pre hfails] at hlen
      exact ⟨k, hk, hwritten, fun n hn => absurd (he.symm.trans hn) (by simp), fun _ _ => hlen⟩
    · refine ⟨k, hk, hwritten, fun n hn => ?_, fun e he => ?_⟩
      · have hlt : k < 2 ^ 32 := by
          rcases hmax with rfl | htakes
          · decide
          · exact hfits k htakes
        rw [hok, Except.ok.injEq, Nat.mod_eq_of_lt hlt] at hn
        exact hn.symm
      · cases hok.symm.trans he

/-! ### The methods of `Fd` -/

lemma readVectored_succ (h : Input σ) (fuel : ℕ) (s : σ) (bufs : List (List UInt8)) :
    readVectored h (fuel + 1) s bufs = some (readv h s bufs) := by
  obtain ⟨bs, -, -, -, hresult⟩ := readvFrom_spec h 0 s bufs
  rw [← readv] at hresult
  have hne : (readv h s bufs).result ≠ .error 4 := by
    rcases hresult with ⟨-, e, -, -, he, hresult⟩ | ⟨-, hresult⟩
    · rw [hresult]
      exact fun heq => he (Except.error.inj heq)
    · rw [hresult]
      simp
  rw [readVectored]
  split
  · contradiction
  · rfl

lemma writeVectored_succ (h : Output σ) (bufs : List (List UInt8)) (fuel : ℕ) (s : σ) :
    writeVectored h bufs (fuel + 1) s = some (writev h s bufs) := by
  obtain ⟨k, -, -, -, -, hresult⟩ := writevFrom_spec h 0 s bufs (by decide)
  rw [← writev] at hresult
  have hne : (writev h s bufs).result ≠ .error 4 := by
    rcases hresult with ⟨-, e, -, -, he, hresult⟩ | ⟨-, hresult⟩
    · rw [hresult]
      exact fun heq => he (Except.error.inj heq)
    · rw [hresult]
      simp
  rw [writeVectored]
  split
  · contradiction
  · rfl

/-- `readv` is one vectored read exactly if the host does not fill some buffers and then fail, and
the first buffer is not an empty one before one with room, as long as there is input and the host
does not fail at it.  `writev` is one vectored write exactly if the host does not take bytes and
then fail, and takes fewer than 2^32.  The methods of `Fd` return what the first call returns. -/
theorem vectored_iff {τ : Type*} (i : Input σ) (o : Output τ) (s : σ) (t : τ)
    (bufs : List (List UInt8)) :
    (ReadsAsOne i s bufs (readv i s bufs) ↔
        (∀ pre, ReadFails i s bufs pre → pre = []) ∧ StartsWithRoom i s bufs) ∧
      (WritesAsOne o t bufs (writev o t bufs) ↔
        (∀ pre, WriteFails o t bufs pre → pre.flatten = []) ∧
          ∀ m, Takes o t bufs m → m < 2 ^ 32) ∧
      ∀ fuel, readVectored i (fuel + 1) s bufs = some (readv i s bufs) ∧
        writeVectored o bufs (fuel + 1) t = some (writev o t bufs) :=
  ⟨readv_iff i s bufs, writev_iff o t bufs,
    fun fuel => ⟨readVectored_succ i fuel s bufs, writeVectored_succ o bufs fuel t⟩⟩

/-! ### A host that fails by a script -/

/-- The bytes that are still to come or were written, and the errnos of the next calls. -/
structure Script where
  bytes : List UInt8
  errnos : List UInt16

/-- A call without an errno delivers all that there is room for. -/
def Script.input : Input Script where
  fdRead s len :=
    if s.errnos.headD 0 = 0 then (⟨s.bytes.drop len, s.errnos.tail⟩, 0, s.bytes.take len)
    else (⟨s.bytes, s.errnos.tail⟩, s.errnos.headD 0, [])
  rest := bytes
  read_ok s len s' bs h := by
    split at h
    · cases h
      refine ⟨List.length_take_le _ _, (List.take_append_drop _ _).symm, fun hnil => ?_⟩
      exact List.take_eq_nil_iff.1 hnil
    · rename_i hne
      exact absurd (congrArg (fun r => r.2.1) h) hne
  read_error s len s' e bs h he := by
    split at h
    · cases h
      contradiction
    · cases h
      rfl

/-- A call without an errno takes everything. -/
def Script.output : Output Script where
  fdWrite s buf :=
    if s.errnos.headD 0 = 0 then (⟨s.bytes ++ buf, s.errnos.tail⟩, 0, buf.length)
    else (⟨s.bytes, s.errnos.tail⟩, s.errnos.headD 0, 0)
  written := bytes
  write_ok s buf s' n h := by
    split at h
    · cases h
      exact ⟨Nat.le_refl _, by rw [List.take_length]⟩
    · rename_i hne
      exact absurd (congrArg (fun r => r.2.1) h) hne
  write_error s buf s' e n h he := by
    split at h
    · cases h
      contradiction
    · cases h
      rfl

/-- The input is not at its end, and `Ok(0)` is returned for an empty buffer before one with room;
a byte is read, or written, and the error of the next call is returned. -/
theorem vectored_differs :
    ((readv Script.input ⟨[97, 98], []⟩ [[], [0, 0]]).result = .ok 0 ∧
      ¬ ReadsAsOne Script.input ⟨[97, 98], []⟩ [[], [0, 0]]
        (readv Script.input ⟨[97, 98], []⟩ [[], [0, 0]])) ∧
    ((readv Script.input ⟨[97, 98], [0, 29]⟩ [[0], [0]]).result = .error 5 ∧
      ¬ ReadsAsOne Script.input ⟨[97, 98], [0, 29]⟩ [[0], [0]]
        (readv Script.input ⟨[97, 98], [0, 29]⟩ [[0], [0]])) ∧
    ((writev Script.output ⟨[], [0, 29]⟩ [[97], [98]]).result = .error 5 ∧
      ¬ WritesAsOne Script.output ⟨[], [0, 29]⟩ [[97], [98]]
        (writev Script.output ⟨[], [0, 29]⟩ [[97], [98]])) := by
  refine ⟨⟨rfl, ?_⟩, ⟨rfl, ?_⟩, rfl, ?_⟩
  · rintro ⟨bs, -, -, -, -, -, hzero⟩
    rcases hzero rfl with hend | hempty
    · cases hend
    · cases hempty
  · rw [readv_iff]
    rintro ⟨hlate, -⟩
    exact absurd (hlate [[0]] (.later (by decide) rfl rfl (.here (by decide)))) (by decide)
  · rw [writev_iff]
    rintro ⟨hlate, -⟩
    exact absurd (hlate [[97]] (.later rfl (.here (by decide)))) (by decide)

end PureStd.Io.Wasi
