/-
The batches on which `ReadDir::next` panics.

`next` trusts the kernel: it reads the length of a record, and on macOS that of the name, without
a look at how many bytes there are.  This file says for which answers of the kernel no access is
out of range.  The kernel is any reader at all, and it need not come to an end.

What the kernel is asked does not depend on what `next` makes of the answers, so the answers can
be listed in advance (`batch`).  The iterator is safe, and gets from each answer to the next one,
exactly if all of them are `Sound` (`total_iff_sound`).
-/
import PureStd.Fs.ReadDir

namespace PureStd.Fs.Dirent

open Slice Utf8 LittleEndian

/-! ### Sound batches -/

/-- The name of the first record lies where `next` may look for it: on Linux behind the header
of the record, on macOS in the batch, be it in the record or not. -/
def Fits : Os → List UInt8 → Prop
  | .linux, rec => 19 ≤ field rec 16
  | .macos, rec => 21 + field rec 18 ≤ rec.length

/-- From record to record there are always 18 bytes and a name, up to the end of the batch or to
a length that makes `next` drop the rest. -/
inductive Sound (os : Os) : List UInt8 → Prop
  | nil : Sound os []
  | stop {rec : List UInt8} (hheader : 18 ≤ rec.length)
      (hstop : field rec 16 = 0 ∨ rec.length < field rec 16) : Sound os rec
  | record {rec : List UInt8} (hheader : 18 ≤ rec.length) (hpos : field rec 16 ≠ 0)
      (hle : field rec 16 ≤ rec.length) (hfits : Fits os rec)
      (hrest : Sound os (rec.drop (field rec 16))) : Sound os rec

section entry

variable {os : Os} {rec : List UInt8}

lemma recordName_ok_iff (hle : field rec 16 ≤ rec.length) :
    (∃ x, recordName os rec (field rec 16) = .ok x) ↔ Fits os rec := by
  constructor
  · rintro ⟨x, hx⟩
    by_contra hfits
    obtain ⟨p, hp⟩ : ∃ p, recordName os rec (field rec 16) = .error p := by
      cases os with
      | linux => exact recordName_linux_of_lt (Nat.not_le.1 hfits)
      | macos => exact recordName_macos_of_lt _ (Nat.not_le.1 hfits)
    rw [hp] at hx
    cases hx
  · intro hfits
    cases os with
    | linux =>
      obtain ⟨_, hname⟩ := recordName_linux hfits hle
      exact ⟨_, hname⟩
    | macos =>
      obtain ⟨_, hname⟩ := recordName_macos (field rec 16) hfits
      exact ⟨_, hname⟩

/-- A record that was read has a header and a name. -/
lemma entry_ok {r : Option (ℕ × Str × UInt8)} (h : entry os rec = .ok r) :
    18 ≤ rec.length ∧
      ((field rec 16 = 0 ∨ rec.length < field rec 16) ∧ r = none ∨
        (field rec 16 ≠ 0 ∧ field rec 16 ≤ rec.length) ∧ Fits os rec ∧
          ∃ name dType, r = some (field rec 16, name, dType)) := by
  have hheader : 18 ≤ rec.length := by
    by_contra hlt
    obtain ⟨p, hp⟩ := recordLength_of_lt (Nat.not_le.1 hlt)
    rw [entry, hp] at h
    cases h
  refine ⟨hheader, ?_⟩
  rw [entry, recordLength_of_le hheader, ok_bind] at h
  split_ifs at h with hstop
  · cases h
    exact Or.inl ⟨hstop, rfl⟩
  · have hlen : field rec 16 ≠ 0 ∧ field rec 16 ≤ rec.length := by omega
    cases hname : recordName os rec (field rec 16) with
    | error p =>
      rw [hname] at h
      cases h
    | ok x =>
      rw [hname] at h
      cases h
      exact Or.inr ⟨hlen, (recordName_ok_iff hlen.2).1 ⟨x, hname⟩, _, _, rfl⟩

/-- The first record of a sound batch is read. -/
lemma Sound.entry (h : Sound os rec) (hrec : rec ≠ []) : ∃ r, Dirent.entry os rec = .ok r := by
  cases h with
  | nil => exact absurd rfl hrec
  | stop hheader hstop =>
    rw [Dirent.entry, recordLength_of_le hheader, ok_bind, if_pos hstop]
    exact ⟨_, rfl⟩
  | record hheader hpos hle hfits hrest =>
    obtain ⟨x, hname⟩ := (recordName_ok_iff hle).2 hfits
    rw [Dirent.entry, recordLength_of_le hheader, ok_bind, if_neg (by omega), hname]
    exact ⟨_, rfl⟩

lemma sound_of_none (h : entry os rec = .ok none) : Sound os rec := by
  obtain ⟨hheader, ⟨hstop, -⟩ | ⟨-, -, name, dType, hr⟩⟩ := entry_ok h
  · exact .stop hheader hstop
  · cases hr

lemma sound_drop_iff {reclen : ℕ} {name : Str} {dType : UInt8}
    (h : entry os rec = .ok (some (reclen, name, dType))) :
    Sound os (rec.drop reclen) ↔ Sound os rec := by
  obtain ⟨hheader, ⟨-, hr⟩ | ⟨⟨hpos, hle⟩, hfits, name', dType', hr⟩⟩ := entry_ok h
  · cases hr
  · cases hr
    constructor
    · exact .record hheader hpos hle hfits
    · intro hsound
      cases hsound with
      | nil => simp at hheader
      | stop _ hstop => omega
      | record _ _ _ _ hrest => exact hrest

end entry

/-! ### The answers of the kernel -/

section kernel

variable {κ : Type}

/-- Turns of the loop of `next`, in one call of it after another. -/
def turns (os : Os) (k : Io.Reader κ) : ℕ → ReadDir κ → Checked (ReadDir κ)
  | 0, d => .ok d
  | n + 1, d => do
    let (d, _) ← turn os k d
    turns os k n d

/-- The state of the kernel and the buffer after some calls. -/
def calls (k : Io.Reader κ) (s : κ) : ℕ → κ × List UInt8
  | 0 => (s, List.replicate 4096 0)
  | i + 1 =>
    let r := k.read (calls k s i).1 (calls k s i).2
    (r.1, r.2.1)

/-- The bytes that a call announces; a call that fails announces none. -/
def batch (k : Io.Reader κ) (s : κ) (i : ℕ) : List UInt8 :=
  match k.read (calls k s i).1 (calls k s i).2 with
  | (_, buf, .ok n) => buf.take n
  | (_, _, .error _) => []

/-- `next` can be called again and again. -/
structure Total (os : Os) (k : Io.Reader κ) (d : ReadDir κ) : Prop where
  /-- No access is out of range. -/
  safe : ∀ n d', turns os k n d = .ok d' → ∀ fuel p, next os k fuel d' ≠ some (.error p)
  /-- From everywhere the iterator gets to the end of the batch, where the kernel is called. -/
  progress : ∀ n d', turns os k n d = .ok d' →
    ∃ m d'', turns os k m d' = .ok d'' ∧ d''.cap ≤ d''.pos

/-- The iterator after so many calls of the kernel. -/
structure At (k : Io.Reader κ) (s : κ) (i : ℕ) (d : ReadDir κ) : Prop where
  calls_eq : calls k s i = (d.fd, d.buf)
  cap_le : d.cap ≤ d.buf.length

/-- No turn ends the program. -/
def Safe (os : Os) (k : Io.Reader κ) (d : ReadDir κ) : Prop :=
  ∀ n d', turns os k n d = .ok d' → ∃ x, turn os k d' = .ok x

variable {os : Os} {k : Io.Reader κ} {s : κ} {i : ℕ} {d d' : ReadDir κ}

lemma turns_succ {r : Option (Option (Io.Result DirEntry))} (h : turn os k d = .ok (d', r))
    (n : ℕ) : turns os k (n + 1) d = turns os k n d' := by
  rw [turns, h]
  rfl

lemma turns_add {n : ℕ} (h : turns os k n d = .ok d') (m : ℕ) :
    turns os k (n + m) d = turns os k m d' := by
  induction n generalizing d with
  | zero =>
    cases h
    rw [Nat.zero_add]
  | succ n ih =>
    cases hturn : turn os k d with
    | error p =>
      rw [turns, hturn] at h
      cases h
    | ok x =>
      rw [turns_succ hturn] at h
      rw [Nat.add_right_comm, turns_succ hturn]
      exact ih h

lemma Safe.after {n : ℕ} (hsafe : Safe os k d) (h : turns os k n d = .ok d') : Safe os k d' :=
  fun m d'' hm => hsafe (n + m) d'' ((turns_add h m).trans hm)

/-- A call of `next` is some of the turns. -/
lemma Safe.next (hsafe : Safe os k d) (fuel : ℕ) (p : Panic) :
    Dirent.next os k fuel d ≠ some (.error p) := by
  induction fuel generalizing d with
  | zero => simp [Dirent.next]
  | succ fuel ih =>
    obtain ⟨⟨d', r⟩, hturn⟩ := hsafe 0 d rfl
    rw [Dirent.next, hturn]
    cases r with
    | none => exact ih (hsafe.after (turns_succ hturn 0))
    | some item => simp

lemma safe_of_next
    (h : ∀ n d', turns os k n d = .ok d' → ∀ fuel p, next os k fuel d' ≠ some (.error p)) :
    Safe os k d := by
  intro n d' hn
  cases hturn : turn os k d' with
  | error p =>
    refine absurd ?_ (h n d' hn 1 p)
    rw [next, hturn]
  | ok x => exact ⟨x, rfl⟩

lemma At.readDir (k : Io.Reader κ) (s : κ) (parent : Path) : At k s 0 (readDir parent s) :=
  ⟨rfl, Nat.zero_le _⟩

/-- The kernel is called at the end of a batch: either there is nothing to look at, and `next`
returns, or the window shows what the kernel announced. -/
lemma At.refill (h : At k s i d) (hcap : d.cap ≤ d.pos) :
    (∃ d' r, refill k d = (d', some r) ∧ At k s (i + 1) d' ∧ d'.cap ≤ d'.pos ∧
        batch k s i = []) ∨
      ∃ d', refill k d = (d', none) ∧ At k s (i + 1) d' ∧ d'.pos < d'.cap ∧
        d'.window = batch k s i := by
  have hread_le := k.read_le d.fd d.buf
  have hread_length := k.read_length d.fd d.buf
  have hcalls : calls k s (i + 1) = ((k.read d.fd d.buf).1, (k.read d.fd d.buf).2.1) := by
    rw [calls, h.calls_eq]
  rw [Dirent.refill, if_pos hcap, batch, h.calls_eq]
  rcases hread : k.read d.fd d.buf with ⟨fd, buf, _ | _ | n⟩ <;>
    rw [hread] at hcalls hread_le hread_length
  · have hcap_le : d.cap ≤ buf.length := h.cap_le.trans_eq hread_length.symm
    exact Or.inl ⟨_, _, rfl, ⟨hcalls, hcap_le⟩, hcap, rfl⟩
  · have hcap_le : d.cap ≤ buf.length := h.cap_le.trans_eq hread_length.symm
    exact Or.inl ⟨_, _, rfl, ⟨hcalls, hcap_le⟩, hcap, rfl⟩
  · have hcap_le : n + 1 ≤ buf.length := (hread_le _ rfl).trans_eq hread_length.symm
    exact Or.inr ⟨_, rfl, ⟨hcalls, hcap_le⟩, Nat.succ_pos n, rfl⟩

/-- A turn that has bytes to look at panics or passes a record. -/
lemma At.turn {d₀ : ReadDir κ} (os : Os) (h : At k s i d) (hpos : d.pos < d.cap)
    (hrefill : Dirent.refill k d₀ = (d, none)) :
    ((∃ x, turn os k d₀ = .ok x) ↔ ∃ r, entry os d.window = .ok r) ∧
      ∀ d' x, turn os k d₀ = .ok (d', x) →
        At k s i d' ∧ d'.window.length < d.window.length ∧
          (Sound os d'.window ↔ Sound os d.window) := by
  have hlength := length_window h.cap_le
  rw [Dirent.turn, hrefill]
  simp only [parse_eq hpos h.cap_le]
  rcases hentry : entry os d.window with p | (_ | ⟨reclen, name, dType⟩)
  · constructor
    · simp [Except.map]
    · rintro d' x ⟨⟩
  · constructor
    · simp [Except.map]
    · rintro d' x ⟨⟩
      have hnil : ({ d with pos := d.cap } : ReadDir κ).window = [] := window_eq_nil le_rfl
      refine ⟨⟨h.calls_eq, h.cap_le⟩, ?_, ?_⟩
      · rw [hnil, List.length_nil]
        omega
      · rw [hnil]
        exact iff_of_true .nil (sound_of_none hentry)
  · constructor
    · simp [Except.map]
    · rintro d' x ⟨⟩
      obtain ⟨hreclen, hle⟩ := entry_some hentry
      have hadvance := window_advance (d := d) reclen
      refine ⟨⟨h.calls_eq, h.cap_le⟩, ?_, ?_⟩
      · rw [hadvance, List.length_drop]
        omega
      · rw [hadvance]
        exact sound_drop_iff hentry

/-! ### Safe iterators have sound answers -/

/-- A safe iterator gets to the end of the batch, so what was left of the batch is sound. -/
lemma Safe.window (hsafe : Safe os k d) (h : At k s i d) :
    Sound os d.window ∧ ∃ n d', turns os k n d = .ok d' ∧ At k s i d' ∧ d'.cap ≤ d'.pos := by
  -- on what is left of the batch; soundness is carried back from the end
  induction hw : d.window.length using Nat.strong_induction_on generalizing d with
  | _ w ih =>
    subst hw
    by_cases hpos : d.pos < d.cap
    · obtain ⟨⟨d₁, x⟩, hturn⟩ := hsafe 0 d rfl
      obtain ⟨-, hstep⟩ := h.turn os hpos (refill_of_lt hpos)
      obtain ⟨h₁, hshorter, hsound⟩ := hstep d₁ x hturn
      have hturns := turns_succ hturn
      obtain ⟨hsound₁, n, d', hn, hd'⟩ := ih _ hshorter (hsafe.after (hturns 0)) h₁ rfl
      exact ⟨hsound.1 hsound₁, n + 1, d', (hturns n).trans hn, hd'⟩
    · have hcap := Nat.not_lt.1 hpos
      rw [window_eq_nil hcap]
      exact ⟨.nil, 0, d, rfl, h, hcap⟩

/-- From the end of a batch a safe iterator gets to the end of the next one. -/
lemma Safe.batch (hsafe : Safe os k d) (h : At k s i d) (hcap : d.cap ≤ d.pos) :
    Sound os (batch k s i) ∧
      ∃ n d', turns os k n d = .ok d' ∧ At k s (i + 1) d' ∧ d'.cap ≤ d'.pos := by
  obtain ⟨⟨d₁, x⟩, hturn⟩ := hsafe 0 d rfl
  have hturns := turns_succ hturn
  rcases h.refill hcap with ⟨d', r, hrefill, h', hcap', hbatch⟩ | ⟨d', hrefill, h', hpos, hwindow⟩
  · rw [turn, hrefill] at hturn
    cases hturn
    rw [hbatch]
    exact ⟨.nil, 1, _, hturns 0, h', hcap'⟩
  · obtain ⟨-, hstep⟩ := h'.turn os hpos hrefill
    obtain ⟨h₁, -, hsound⟩ := hstep d₁ x hturn
    obtain ⟨hsound₁, n, d'', hn, hd''⟩ := (hsafe.after (hturns 0)).window h₁
    rw [← hwindow]
    exact ⟨hsound.1 hsound₁, n + 1, d'', (hturns n).trans hn, hd''⟩

/-- Every call of the kernel comes to pass. -/
lemma Safe.reaches (hsafe : Safe os k d) (h : At k s 0 d) (hcap : d.cap ≤ d.pos) (i : ℕ) :
    ∃ n d', turns os k n d = .ok d' ∧ At k s i d' ∧ d'.cap ≤ d'.pos := by
  induction i with
  | zero => exact ⟨0, d, rfl, h, hcap⟩
  | succ i ih =>
    obtain ⟨n, d₁, hn, h₁, hcap₁⟩ := ih
    obtain ⟨-, m, d', hm, hd'⟩ := (hsafe.after hn).batch h₁ hcap₁
    exact ⟨n + m, d', (turns_add hn m).trans hm, hd'⟩

/-! ### Sound answers keep the iterator safe -/

lemma turn_of_sound (hbatch : ∀ j, Sound os (batch k s j)) (h : At k s i d)
    (hsound : Sound os d.window) :
    ∃ d' x, turn os k d = .ok (d', x) ∧ ∃ j, At k s j d' ∧ Sound os d'.window := by
  by_cases hpos : d.pos < d.cap
  · obtain ⟨hok, hstep⟩ := h.turn os hpos (refill_of_lt hpos)
    obtain ⟨⟨d', x⟩, hturn⟩ := hok.2 (hsound.entry (window_ne_nil h.cap_le hpos))
    obtain ⟨h', -, hiff⟩ := hstep d' x hturn
    exact ⟨d', x, hturn, i, h', hiff.2 hsound⟩
  · rcases h.refill (Nat.not_lt.1 hpos) with
      ⟨d', r, hrefill, h', hcap', -⟩ | ⟨d₁, hrefill, h₁, hpos₁, hwindow⟩
    · refine ⟨d', some r, ?_, i + 1, h', ?_⟩
      · rw [turn, hrefill]
      · rw [window_eq_nil hcap']
        exact .nil
    · obtain ⟨hok, hstep⟩ := h₁.turn os hpos₁ hrefill
      have hsound₁ : Sound os d₁.window := hwindow ▸ hbatch i
      obtain ⟨⟨d', x⟩, hturn⟩ := hok.2 (hsound₁.entry (window_ne_nil h₁.cap_le hpos₁))
      obtain ⟨h', -, hiff⟩ := hstep d' x hturn
      exact ⟨d', x, hturn, i + 1, h', hiff.2 hsound₁⟩

/-- The turns keep that the window is sound. -/
lemma turns_of_sound (hbatch : ∀ j, Sound os (batch k s j)) {n : ℕ} (h : At k s i d)
    (hsound : Sound os d.window) (hn : turns os k n d = .ok d') :
    ∃ j, At k s j d' ∧ Sound os d'.window := by
  induction n generalizing d i with
  | zero =>
    cases hn
    exact ⟨i, h, hsound⟩
  | succ n ih =>
    obtain ⟨d₁, x, hturn, j, h₁, hsound₁⟩ := turn_of_sound hbatch h hsound
    rw [turns_succ hturn] at hn
    exact ih h₁ hsound₁ hn

/-- Whatever the kernel answers and for however long, `next` stays in range and gets from each
answer to the next call exactly if every answer is sound. -/
theorem total_iff_sound (os : Os) (k : Io.Reader κ) (parent : Path) (s : κ) :
    Total os k (readDir parent s) ↔ ∀ i, Sound os (batch k s i) := by
  have hstart := At.readDir k s parent
  constructor
  · -- the iterator gets to each call, and behind it through the batch
    intro htotal i
    have hsafe := safe_of_next htotal.safe
    obtain ⟨n, d, hn, hd, hcap⟩ := hsafe.reaches hstart le_rfl i
    exact ((hsafe.after hn).batch hd hcap).1
  · -- the window is sound in every state that the iterator gets to
    intro hbatch
    have hreached {n : ℕ} {d : ReadDir κ} (hn : turns os k n (readDir parent s) = .ok d) :
        ∃ j, At k s j d ∧ Sound os d.window := by
      refine turns_of_sound hbatch hstart ?_ hn
      rw [window_eq_nil le_rfl]
      exact .nil
    have hsafe : Safe os k (readDir parent s) := by
      intro n d hn
      obtain ⟨j, hd, hsound⟩ := hreached hn
      obtain ⟨d', x, hturn, -⟩ := turn_of_sound hbatch hd hsound
      exact ⟨_, hturn⟩
    constructor
    · intro n d hn
      exact (hsafe.after hn).next
    · intro n d hn
      obtain ⟨j, hd, -⟩ := hreached hn
      obtain ⟨-, m, d', hm, -, hcap⟩ := (hsafe.after hn).window hd
      exact ⟨m, d', hm, hcap⟩

end kernel

lemma next_of_entry {os : Os} {chunk : List UInt8} {p : Panic} (parent : Path) (hne : chunk ≠ [])
    (hle : chunk.length ≤ 4096) (h : entry os chunk = .error p) :
    next os Io.chunked 1 (readDir parent [.ok chunk]) = some (.error p) := by
  have hbatch : batch Io.chunked [.ok chunk] 0 = chunk := by
    have htake := Io.take_chunk chunk (List.replicate 4096 0)
    rw [List.length_replicate, List.take_of_length_le hle] at htake
    rw [batch, calls, Io.chunked]
    simpa only [List.length_replicate, List.take_of_length_le hle] using htake
  rcases (At.readDir Io.chunked [.ok chunk] parent).refill le_rfl with
    ⟨_, _, -, -, -, hnil⟩ | ⟨d, hrefill, hd, hpos, hwindow⟩
  · exact absurd (hbatch.symm.trans hnil) hne
  · rw [hbatch] at hwindow
    rw [next, turn, hrefill]
    simp only [parse_eq hpos hd.cap_le, hwindow, h, Except.map]

/-- Batches of ten bytes; on Linux a record of four bytes; on macOS a name of 255 bytes in a
record of 24. -/
theorem next_out_of_range :
    next .linux Io.chunked 1 (readDir [] [.ok (List.replicate 10 0)]) =
        some (.error (.index 16 10)) ∧
      next .linux Io.chunked 1 (readDir [] [.ok (List.replicate 16 0 ++ [4, 0] ++
        List.replicate 6 0)]) = some (.error (.range 19 4 24)) ∧
      next .macos Io.chunked 1 (readDir [] [.ok (List.replicate 16 0 ++ [24, 0, 255, 0] ++
        List.replicate 4 0)]) = some (.error (.range 21 276 24)) :=
  ⟨next_of_entry [] (by decide) (by decide) rfl, next_of_entry [] (by decide) (by decide) rfl,
    next_of_entry [] (by decide) (by decide) rfl⟩

end PureStd.Fs.Dirent
