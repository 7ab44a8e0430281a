/-
The directories of `Fs/Dirs` and the records of `Fs/ReadDir`.

`remove_dir_all` goes over the entries that `ReadDir` yields.  `Fs/Dirs` takes them from the
listing of the directory, and `Fs/ReadDir` from the bytes that the kernel writes.  If the kernel
writes the records of the directory, these are the same entries, whatever the names are and
however the records are cut into batches (`readDir_drain`).
-/
import PureStd.Fs.DirRecords
import PureStd.Fs.RemoveDirAll

namespace PureStd.Fs

open FileTree Dirent Fuel

variable {os : Os} {t : Tree} {l : Loc FileName} {p : Path} {typed : Loc FileName → Bool}

/-- The type in a record: `DT_DIR`, `DT_REG` and `DT_LNK` of `DirEntry::file_type`. -/
def recordType : UInt8 → Option FileType
  | 4 => some .dir
  | 8 => some .file
  | 10 => some .symlink
  | _ => none

/-- An entry of the iterator, as far as `remove_dir_all` looks at it. -/
def seen (e : Dirent.DirEntry) : DirEntry where
  name := e.name.bytes
  dType := recordType e.dType
  parent := e.parent

/-- The record has the name of an entry, and its type if the file system tells it. -/
def Describes (typed : Loc FileName → Bool) (l : Loc FileName)
    (e : FileName × Node FileName (List UInt8)) (r : RawRecord os) : Prop :=
  r.name = e.1.bytes ∧
    recordType r.dType = if typed (e.1 :: l) then some (nodeType e.2) else none

/-- The records of a directory: one for each entry, in order, and any number for `.` and `..`. -/
def Lists (typed : Loc FileName → Bool) (t : Tree) (l : Loc FileName) (rs : List (RawRecord os)) :
    Prop :=
  List.Forall₂ (Describes typed l) (t.listing l)
    (rs.filter fun r => ¬ (r.name = dot ∨ r.name = dotdot))

/-- `from_utf8_lossy` does not make `.` or `..` of another name. -/
lemma isDot_lossy (bs : List UInt8) :
    IsDot (Utf8.Str.fromUtf8Lossy bs) ↔ bs = dot ∨ bs = dotdot := by
  have hplain {bs' : List UInt8} (hvalid : Utf8.Valid bs') (hmem : 0xef ∉ bs') :
      Utf8.lossy bs = bs' ↔ bs = bs' := by
    constructor
    · rintro rfl
      exact (Utf8.lossy_eq_of_not_mem hmem).symm
    · rintro rfl
      exact Utf8.lossy_of_valid hvalid
  exact or_congr (hplain (by decide) (by decide)) (hplain (by decide) (by decide))

/-- A record of an entry is seen as the entry. -/
lemma Describes.seen {e : FileName × Node FileName (List UInt8)} {r : RawRecord os}
    (h : Describes typed l e r) : Fs.seen ⟨r.str, r.dType, p⟩ = dirEntry typed p l e := by
  obtain ⟨hname, htype⟩ := h
  have hbytes : r.str.bytes = Utf8.lossy e.1.bytes := congrArg Utf8.lossy hname
  rw [Fs.seen, dirEntry, hbytes, htype]

lemma Lists.seen {rs : List (RawRecord os)} (h : Lists typed t l rs) :
    (rs.filter fun r => ¬ IsDot r.str).map (fun r => Fs.seen ⟨r.str, r.dType, p⟩) =
      (t.listing l).map (dirEntry typed p l) := by
  have hfilter : (rs.filter fun r => ¬ IsDot r.str) =
      rs.filter fun r => ¬ (r.name = dot ∨ r.name = dotdot) :=
    List.filter_congr fun r _ => decide_eq_decide.2 (not_congr (isDot_lossy r.name))
  rw [hfilter]
  unfold Lists at h
  generalize t.listing l = es at h
  generalize (rs.filter fun r => ¬ (r.name = dot ∨ r.name = dotdot)) = rs' at h
  induction h with
  | nil => rfl
  | cons hd _ ih => rw [List.map_cons, List.map_cons, hd.seen, ih]

/-- `read_dir` opens a directory, and the iterator yields the entries of its listing. -/
theorem readDir_drain {w w' : World} {es : List DirEntry} (hread : readDir p w = (w', .ok es)) :
    ∃ l, lookup w'.tree true p = .ok l ∧
      ∀ {κ : Type} (k : Io.Reader κ) (s : κ) (bs : List (RawRecords os)),
        Lists w.typed w'.tree l (bs.flatMap RawRecords.records) →
        Delivers k s (bs.map fun b => .ok b.batch) →
        ∃ items, Returns (fun fuel => drain os k fuel (Dirent.readDir p s)) (.ok items) ∧
          items.map (Except.map Fs.seen) = es.map .ok := by
  have hcases := sys_cases p
    (fun t c => (opendir t c).map fun d => (t, d.2.map (dirEntry w.typed p d.1))) w
  rw [show sys p _ w = (w', .ok es) from hread] at hcases
  generalize hr : (w', (Except.ok es : Io.Result (List DirEntry))) = r at hcases
  cases hcases with
  | nul | fault | error => cases hr
  | ok _ _ hop =>
    cases hr
    obtain ⟨rfl, ⟨l, listed⟩, hopen, rfl⟩ := map_eq_ok hop
    obtain ⟨hopens, rfl⟩ := opendir_eq_ok hopen
    refine ⟨l, hopens.1, fun k s bs hlists hdelivers => ⟨_, drain_raw k s p bs hdelivers, ?_⟩⟩
    rw [List.map_map, ← hlists.seen (p := p), List.map_map]
    rfl

end PureStd.Fs
