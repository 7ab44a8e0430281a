/-
The tree of `Fs/Kernel` and the disk of `Lib/OpenFiles`.

The calls on paths walk through a tree, where a file has its contents.  The calls on descriptors
work on a disk, where names lead to numbered files.  A volume has both.  The disk shows the tree
if its names lead to the same files there, with the same contents; a file that is made under one
path may have other paths, too, which the disk does not know.

The calls of `File` keep this: the tree then has the contents that the disk has, the walks through
it lead where they led, and a file that was made is where its path leads (`shows_run`).  So
`fs::read` returns what the tree has (`read_shows`).
-/
import PureStd.Fs.AppendOnly
import PureStd.Fs.FileRoundTrip
import PureStd.Fs.Lookup

namespace PureStd.Fs

open FileTree Io Fuel

variable {m : Machine} {ino : Loc FileName → ℕ} {t : Tree} {d d' : Disk Path} {p : Path}
  {l : Loc FileName} {n : FileName} {s : Session}

/-- The names of the disk lead to files of the tree, of which no two have one number. -/
structure Shows (ino : Loc FileName → ℕ) (t : Tree) (d : Disk Path) : Prop where
  names : ∀ p i, d.names p = some i →
    ∃ l bytes, lookup t true p = .ok l ∧ t.get l = some (.file bytes) ∧ ino l = i
  files : ∀ l bytes, t.get l = some (.file bytes) → ino l < d.inodes ∧ d.data (ino l) = bytes
  inj : ∀ l l' bytes bytes', t.get l = some (.file bytes) → t.get l' = some (.file bytes') →
    ino l = ino l' → l = l'

structure Volume where
  tree : Tree
  /-- The number of the file at a location. -/
  ino : Loc FileName → ℕ
  session : Session

def Volume.Coherent (v : Volume) : Prop := Shows v.ino v.tree v.session.disk

/-- The files of the tree after a call, with their numbers: a file that `open` has made is in the
directory that its path leads to. -/
def Volume.made (v : Volume) (s : Session) : Call → (Loc FileName → ℕ) × Tree
  | .openFile _ p =>
    match v.session.disk.names p, s.disk.names p, lookupParent v.tree p with
    | none, some i, .ok (.entry l n) =>
      (Function.update v.ino (n :: l) i, v.tree.make n l (.file []))
    | _, _, _ => (v.ino, v.tree)
  | _ => (v.ino, v.tree)

/-- A call on descriptors. -/
def Volume.call (m : Machine) (v : Volume) (call : Call) : Volume :=
  let s := call.session m v.session
  let files := v.made s call
  { tree := files.2.fill fun l => s.disk.data (files.1 l), ino := files.1, session := s }

/-- Where `open` is to make a file, the path leads to a directory with room for it. -/
def Call.HasRoom (v : Volume) : Call → Prop
  | .openFile o p => o.create = true → v.session.disk.names p = none →
      p.getLast? ≠ some Path.sep ∧
        ∃ l n, lookupParent v.tree p = .ok (.entry l n) ∧ v.tree.Room n l (.file [])
  | _ => True

/-- Every call of a sequence is such a call. -/
def AllHaveRoom (m : Machine) : Volume → List Call → Prop
  | _, [] => True
  | v, call :: calls => call.HasRoom v ∧ AllHaveRoom m (v.call m call) calls

/-! ### Changes of the disk -/

lemma get_fill_file {f : Loc FileName → List UInt8} {bytes : List UInt8} :
    (t.fill f).get l = some (.file bytes) ↔
      bytes = f l ∧ ∃ old, t.get l = some (.file old) := by
  rw [get_fill]
  cases t.get l with
  | none => simp
  | some x => cases x <;> simp [Node.fill, eq_comm]

/-- The disk shows the tree with the contents that it has itself. -/
lemma Shows.fill (h : Shows ino t d) (hnames : d'.names = d.names)
    (hinodes : d'.inodes = d.inodes) : Shows ino (t.fill fun l => d'.data (ino l)) d' where
  names p i hi := by
    rw [hnames] at hi
    obtain ⟨l, bytes, hl, hfile, hino⟩ := h.names p i hi
    exact ⟨l, _, lookup_grows hl (grows_fill ..), get_fill_file.2 ⟨rfl, bytes, hfile⟩, hino⟩
  files l bytes hfile := by
    obtain ⟨rfl, old, hold⟩ := get_fill_file.1 hfile
    exact ⟨hinodes ▸ (h.files l old hold).1, rfl⟩
  inj l l' bytes bytes' hfile hfile' := by
    obtain ⟨-, old, hold⟩ := get_fill_file.1 hfile
    obtain ⟨-, old', hold'⟩ := get_fill_file.1 hfile'
    exact h.inj l l' old old' hold hold'

/-- A path leads to the file that is made under it. -/
lemma lookup_make (hp : p.getLast? ≠ some Path.sep) (hentry : lookupParent t p = .ok (.entry l n))
    (hroom : t.Room n l (.file [])) : lookup (t.make n l (.file [])) true p = .ok (n :: l) := by
  obtain ⟨cs, k, hcs, hwalk, hl⟩ := lookupParent_entry.1 hentry
  have hsub := sub_make t n l (.file [])
  have hget : (t.make n l (.file [])).get (n :: l) = some (.file []) := by
    rw [get_make hroom, if_pos rfl]
  have hne : p ≠ [] := by
    rintro rfl
    simp [comps, Path.pieces] at hcs
  refine lookup_eq_ok.2 ⟨hne, k, reaches_true.2 ⟨?_, fun h => absurd h hp⟩⟩
  rw [hcs, start_of_sub hsub]
  exact (hwalk.mono hsub).append (.entry (hl.mono hsub) hget (by simp) (.done _ _)) (by simp)

/-- A new file. -/
lemma Shows.create (h : Shows ino t d) (hp : p.getLast? ≠ some Path.sep)
    (hentry : lookupParent t p = .ok (.entry l n)) (hroom : t.Room n l (.file [])) :
    Shows (Function.update ino (n :: l) d.inodes) (t.make n l (.file [])) (d.create p) := by
  have hcases {k : Loc FileName} {bytes : List UInt8}
      (hk : (t.make n l (.file [])).get k = some (.file bytes)) :
      (k = n :: l ∧ bytes = []) ∨ (k ≠ n :: l ∧ t.get k = some (.file bytes)) := by
    rw [get_make hroom] at hk
    split at hk
    · cases hk
      exact Or.inl ⟨‹_›, rfl⟩
    · exact Or.inr ⟨‹_›, hk⟩
  refine ⟨fun q i hi => ?_, fun k bytes hk => ?_, fun k k' bytes bytes' hk hk' heq => ?_⟩
  · by_cases hq : q = p
    · subst hq
      have hnew : (d.create q).names q = some d.inodes := Function.update_self ..
      obtain rfl : d.inodes = i := Option.some.inj (hnew.symm.trans hi)
      exact ⟨n :: l, [], lookup_make hp hentry hroom, by rw [get_make hroom, if_pos rfl],
        Function.update_self ..⟩
    · have hold : (d.create p).names q = d.names q := Function.update_of_ne hq ..
      obtain ⟨k, bytes, hk, hfile, rfl⟩ := h.names q i (hold.symm.trans hi)
      have hne : k ≠ n :: l := by
        rintro rfl
        rw [hroom.2.1] at hfile
        cases hfile
      exact ⟨k, bytes, lookup_grows hk (sub_make ..).grows, (sub_make ..).get k _ hfile,
        Function.update_of_ne hne ..⟩
  · rcases hcases hk with ⟨rfl, rfl⟩ | ⟨hne, hold⟩
    · rw [Function.update_self]
      exact ⟨Nat.lt_succ_self _, Function.update_self ..⟩
    · obtain ⟨hlt, hdata⟩ := h.files k bytes hold
      rw [Function.update_of_ne hne]
      exact ⟨Nat.lt_succ_of_lt hlt, (Function.update_of_ne hlt.ne ..).trans hdata⟩
  · rcases hcases hk with ⟨hnew, -⟩ | ⟨hne, hold⟩ <;>
      rcases hcases hk' with ⟨hnew', -⟩ | ⟨hne', hold'⟩
    · rw [hnew, hnew']
    · rw [hnew, Function.update_self, Function.update_of_ne hne'] at heq
      exact absurd heq (h.files k' bytes' hold').1.ne'
    · rw [hnew', Function.update_self, Function.update_of_ne hne] at heq
      exact absurd heq (h.files k bytes hold).1.ne
    · rw [Function.update_of_ne hne, Function.update_of_ne hne'] at heq
      exact h.inj k k' bytes bytes' hold hold' heq

/-! ### Calls -/

/-- The names and the number of files are as they were. -/
def SameNames (d d' : Disk Path) : Prop := d'.names = d.names ∧ d'.inodes = d.inodes

/-- A call leaves the names, or `open` has made a file. -/
lemma session_names (call : Call) (s : Session) : SameNames s.disk (call.session m s).disk ∨
    ∃ o p, call = .openFile o p ∧ o.create = true ∧ s.disk.names p = none ∧
      SameNames (s.disk.create p) (call.session m s).disk := by
  have hs : SameNames s.disk s.disk := ⟨rfl, rfl⟩
  cases call with
  | openFile o p =>
    refine openFile_keeps (P := fun d => SameNames s.disk d ∨ ∃ o' p', Call.openFile o p =
      .openFile o' p' ∧ o'.create = true ∧ s.disk.names p' = none ∧
        SameNames (s.disk.create p') d) (Or.inl hs) o fun d' fd hopen => ?_
    unfold Disk.openFile at hopen
    split at hopen
    · split_ifs at hopen
      all_goals
        cases hopen
        exact Or.inl ⟨rfl, rfl⟩
    · rename_i hnone
      split_ifs at hopen with hcreate
      cases hopen
      exact Or.inr ⟨o, p, rfl, hcreate, hnone, rfl, rfl⟩
  | read fd buf =>
    refine Or.inl (fdRead_keeps (P := SameNames s.disk) hs fun n d' bytes hread => ?_)
    obtain ⟨k, f, -, -, rfl⟩ := Disk.read_ok hread
    exact ⟨rfl, rfl⟩
  | write fd buf =>
    refine Or.inl (fdWrite_keeps (P := SameNames s.disk) hs fun bytes d' n hwrite => ?_)
    unfold Disk.write at hwrite
    split at hwrite
    · split_ifs at hwrite
      all_goals
        cases hwrite
        exact ⟨rfl, rfl⟩
    · cases hwrite
  | seek fd pos =>
    refine Or.inl (fdSeek_keeps (P := SameNames s.disk) hs pos fun whence off d' n hseek => ?_)
    obtain ⟨k, pos', rfl⟩ := Disk.exists_seekTo_of_seek hseek
    exact ⟨rfl, rfl⟩
  | setLen fd size =>
    refine Or.inl (setLen_keeps (P := SameNames s.disk) hs size fun len d' htruncate => ?_)
    obtain ⟨k, f, bytes, -, rfl⟩ := Disk.exists_setData_of_truncate htruncate
    exact ⟨rfl, rfl⟩
  | dup fd =>
    refine Or.inl (fdDup_keeps (P := SameNames s.disk) hs fun d' fd' hdup => ?_)
    obtain ⟨fds, rfl⟩ := Disk.exists_fds_of_dup hdup
    exact ⟨rfl, rfl⟩
  | drop fd => exact Or.inl ⟨rfl, rfl⟩

variable {v : Volume}

/-- Nothing was made. -/
lemma made_of_same (call : Call) (h : s.disk.names = v.session.disk.names) :
    v.made s call = (v.ino, v.tree) := by
  cases call with
  | openFile o p =>
    rw [Volume.made, h]
    cases v.session.disk.names p <;> rfl
  | _ => rfl

lemma Volume.Coherent.call (h : v.Coherent) {call : Call} (hroom : call.HasRoom v) :
    (v.call m call).Coherent := by
  rcases session_names (m := m) call v.session with hsame | ⟨o, p, rfl, hcreate, hnone, hmade⟩
  · have hfiles := made_of_same (v := v) call hsame.1
    rw [Volume.call, hfiles]
    exact Shows.fill h hsame.1 hsame.2
  · obtain ⟨hp, l, n, hentry, hfree⟩ := hroom hcreate hnone
    have hname : (Call.session m v.session (.openFile o p)).disk.names p =
        some v.session.disk.inodes := by
      rw [hmade.1]
      exact Function.update_self ..
    have hfiles : v.made (Call.session m v.session (.openFile o p)) (.openFile o p) =
        (Function.update v.ino (n :: l) v.session.disk.inodes, v.tree.make n l (.file [])) := by
      rw [Volume.made, hnone, hname, hentry]
    rw [Volume.call, hfiles]
    exact (Shows.create h hp hentry hfree).fill hmade.1 hmade.2

/-- Whatever is called, and whatever happens at the calls, the disk shows the tree. -/
theorem shows_run (m : Machine) (v : Volume) (calls : List Call) (h : v.Coherent)
    (hroom : AllHaveRoom m v calls) : (calls.foldl (Volume.call m) v).Coherent := by
  induction calls generalizing v with
  | nil => exact h
  | cons call calls ih => exact ih _ (h.call hroom.1) hroom.2

/-- The file "f" is made in the empty root, and then written. -/
example :
    let empty : Volume := ⟨.ofEntries [] (by simp) (by simp), fun _ => 0,
      ⟨⟨fun _ => none, fun _ => [], 0, [], ⟨[]⟩⟩, []⟩⟩
    let v := [.openFile File.creating [102], .write 0 [1, 2]].foldl (Volume.call .wide) empty
    v.tree.get [⟨[102], by decide⟩] = some (.file [1, 2]) := by
  decide

/-- What `fs::read` returns is in the file that the path leads to. -/
theorem read_shows (m : Machine) (h : v.Coherent) (q : Path) :
    ∃ s' r, Returns (fun fuel => read m fuel v.session q) (s', r) ∧
      ∀ bytes, r = .ok bytes →
        ∃ l, lookup v.tree true q = .ok l ∧ v.tree.get l = some (.file bytes) := by
  obtain ⟨s', r, hret, hread, -⟩ := read_spec m v.session q
  refine ⟨s', r, hret, fun bytes hbytes => ?_⟩
  obtain ⟨i, hi, rfl⟩ := hread.all bytes hbytes
  obtain ⟨l, bytes, hl, hfile, rfl⟩ := h.names q i hi
  refine ⟨l, hl, ?_⟩
  rw [(h.files l bytes hfile).2]
  exact hfile

end PureStd.Fs
