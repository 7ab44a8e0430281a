/-
The records of a directory, as the kernel writes them, and what `ReadDir` makes of them.

`RawRecord` is a `dirent64` of Linux or a `dirent` of macOS, with any name, and `Record` is one
whose name is UTF-8.  The fields that `ReadDir` does not look at are arbitrary bytes, and so is the
padding.  A listing that comes in any number of batches is read back entry by entry
(`drain_raw`, and `drain_records` where the names are UTF-8).
-/
import PureStd.Fs.ReadDir

namespace PureStd.Fs.Dirent

open Slice Utf8 LittleEndian Fuel

/-- A record of the kernel. -/
structure RawRecord (os : Os) where
  /-- `d_ino` and `d_off`, or `d_ino` and `d_seekoff`. -/
  fixed : Vector UInt8 16
  name : List UInt8
  dType : UInt8
  /-- The bytes behind the name, on Linux behind its NUL. -/
  pad : List UInt8
  nul_not_mem : os = .linux → 0 ∉ name

namespace RawRecord

variable {os : Os}

/-- The part of the record behind `d_reclen`. -/
def body (r : RawRecord os) : List UInt8 :=
  match os with
  | .linux => r.dType :: r.name ++ 0 :: r.pad
  | .macos => leBytes 2 r.name.length ++ r.dType :: r.name ++ r.pad

/-- `d_reclen`. -/
def size (r : RawRecord os) : ℕ := 18 + r.body.length

def encode (r : RawRecord os) : List UInt8 :=
  r.fixed.toList ++ leBytes 2 r.size ++ r.body

lemma length_encode (r : RawRecord os) : r.encode.length = r.size := by
  simp only [encode, size, List.length_append, Vector.length_toList, length_leBytes]

variable {r : RawRecord os} (rest : List UInt8)

lemma field_size (h : r.size ≤ 4096) : field (r.encode ++ rest) 16 = r.size := by
  have hdrop : (r.encode ++ rest).drop 16 = leBytes 2 r.size ++ (r.body ++ rest) := by
    rw [encode, List.append_assoc, List.append_assoc]
    exact List.drop_left' r.fixed.length_toList
  rw [field, hdrop, List.take_left' (length_leBytes 2 _), leNat_leBytes_of_lt (by omega)]

lemma drop_header : (r.encode ++ rest).drop 18 = r.body ++ rest := by
  rw [encode, List.append_assoc]
  refine List.drop_left' ?_
  rw [List.length_append, Vector.length_toList, length_leBytes]

lemma recordName_encode_linux (r : RawRecord .linux) :
    recordName .linux (r.encode ++ rest) r.size = .ok (r.name, r.dType) := by
  have hbody : r.body = r.dType :: (r.name ++ 0 :: r.pad) := rfl
  have hsize : r.size = 19 + (r.name ++ 0 :: r.pad).length := by
    rw [size, hbody, List.length_cons]
    omega
  have hle : r.size ≤ (r.encode ++ rest).length := by
    rw [List.length_append, length_encode]
    omega
  obtain ⟨hlt, hname⟩ := recordName_linux (by omega) hle
  obtain ⟨htype, hdrop⟩ : (r.encode ++ rest)[18] = r.dType ∧
      (r.encode ++ rest).drop 19 = r.name ++ 0 :: r.pad ++ rest :=
    List.cons.inj ((List.drop_eq_getElem_cons hlt).symm.trans (drop_header rest))
  -- the NUL behind the name is the first one
  have hnul : (r.name ++ 0 :: r.pad).takeWhile (· ≠ 0) = r.name := by
    rw [List.takeWhile_append_of_pos]
    · simp
    · intro b hb
      simpa using fun hzero : b = 0 => r.nul_not_mem rfl (hzero ▸ hb)
  rw [hname, htype, hdrop, List.take_left' (by omega), hnul]

lemma recordName_encode_macos (r : RawRecord .macos) (h : r.size ≤ 4096) :
    recordName .macos (r.encode ++ rest) r.size = .ok (r.name, r.dType) := by
  have hbody : r.body = leBytes 2 r.name.length ++ r.dType :: (r.name ++ r.pad) :=
    List.append_assoc ..
  have hsize : r.size = 21 + (r.name.length + r.pad.length) := by
    rw [size, hbody, List.length_append, length_leBytes, List.length_cons, List.length_append]
    omega
  have hfield : field (r.encode ++ rest) 18 = r.name.length := by
    rw [field, drop_header, hbody, List.append_assoc, List.take_left' (length_leBytes 2 _),
      leNat_leBytes_of_lt (by omega)]
  have hdrop : (r.encode ++ rest).drop 20 = r.dType :: (r.name ++ r.pad ++ rest) := by
    rw [← List.drop_drop (i := 2) (j := 18), drop_header, hbody, List.append_assoc]
    exact List.drop_left' (length_leBytes 2 _)
  have hle : 21 + field (r.encode ++ rest) 18 ≤ (r.encode ++ rest).length := by
    rw [hfield, List.length_append, length_encode]
    omega
  obtain ⟨hlt, hname⟩ := recordName_macos r.size hle
  obtain ⟨htype, htail⟩ := List.cons.inj ((List.drop_eq_getElem_cons hlt).symm.trans hdrop)
  rw [hname, htype, htail, hfield, List.append_assoc, List.take_left]

/-- The name as `ReadDir` gives it. -/
def str (r : RawRecord os) : Str := Str.fromUtf8Lossy r.name

/-- A record is read back. -/
lemma entry_encode (r : RawRecord os) (h : r.size ≤ 4096) :
    entry os (r.encode ++ rest) = .ok (some (r.size, r.str, r.dType)) := by
  have hlength : (r.encode ++ rest).length = r.size + rest.length := by
    rw [List.length_append, length_encode]
  have hheader : 18 ≤ r.size := Nat.le_add_right ..
  have hname : recordName os (r.encode ++ rest) r.size = .ok (r.name, r.dType) := by
    cases os with
    | linux => exact recordName_encode_linux rest r
    | macos => exact recordName_encode_macos rest r h
  rw [entry, recordLength_of_le (by omega), ok_bind, field_size rest h, if_neg (by omega), hname]
  rfl

end RawRecord

/-! ### Batches of records -/

variable {os : Os}

/-- The entry of a record, if it is not `.` or `..`. -/
def RawRecord.shown (parent : Path) (r : RawRecord os) : List DirEntry :=
  Dirent.shown parent r.str r.dType

/-- The records of one batch. -/
structure RawRecords (os : Os) where
  records : List (RawRecord os)
  ne_nil : records ≠ []
  le_room : (records.flatMap RawRecord.encode).length ≤ 4096

lemma encode_ne_nil (r : RawRecord os) : r.encode ≠ [] := by
  rw [← List.length_pos_iff, r.length_encode, RawRecord.size]
  omega

def RawRecords.batch (b : RawRecords os) : Batch where
  bytes := b.records.flatMap RawRecord.encode
  ne_nil := by
    intro hnil
    obtain ⟨r, hr⟩ := List.exists_mem_of_ne_nil _ b.ne_nil
    exact encode_ne_nil r (List.flatMap_eq_nil_iff.1 hnil r hr)
  le_room := b.le_room

/-- The records of a batch are read one after the other. -/
lemma entries_encode (parent : Path) (rs : List (RawRecord os))
    (h : (rs.flatMap RawRecord.encode).length ≤ 4096) :
    entries os parent (rs.flatMap RawRecord.encode) =
      .ok (rs.flatMap (RawRecord.shown parent)) := by
  induction rs with
  | nil => exact entries_nil
  | cons r rs ih =>
    rw [List.flatMap_cons, List.length_append, r.length_encode] at h
    have hne : r.encode ++ rs.flatMap RawRecord.encode ≠ [] :=
      List.append_ne_nil_of_left_ne_nil (encode_ne_nil r) _
    rw [List.flatMap_cons, entries_some hne (r.entry_encode _ (by omega)),
      List.drop_left' r.length_encode, ih (by omega)]
    rfl

lemma listing_records (parent : Path) (bs : List (RawRecords os)) :
    listing os parent (bs.map fun b => .ok b.batch) =
      .ok ((bs.flatMap RawRecords.records).flatMap (RawRecord.shown parent) |>.map .ok) := by
  induction bs with
  | nil => rfl
  | cons b bs ih =>
    have hentries : entries os parent b.batch.bytes =
        .ok (b.records.flatMap (RawRecord.shown parent)) := entries_encode parent _ b.le_room
    rw [List.map_cons, listing, hentries, ok_bind, ih, ok_bind, List.flatMap_cons,
      List.flatMap_append, List.map_append]
    rfl

/-- What is shown of records is what is left without `.` and `..`. -/
lemma flatMap_shown (parent : Path) (rs : List (RawRecord os)) :
    rs.flatMap (RawRecord.shown parent) =
      (rs.filter fun r => ¬ IsDot r.str).map fun r => ⟨r.str, r.dType, parent⟩ := by
  induction rs with
  | nil => rfl
  | cons r rs ih =>
    rw [List.flatMap_cons, ih, RawRecord.shown, shown]
    by_cases hdot : IsDot r.str
    · rw [if_pos hdot, List.filter_cons_of_neg (by simpa using hdot)]
      rfl
    · rw [if_neg hdot, List.filter_cons_of_pos (by simpa using hdot)]
      rfl

/-- However the kernel cuts a directory into batches, the iterator yields its entries other than
`.` and `..` in order, with their names after `from_utf8_lossy`, and then it ends. -/
lemma drain_raw {κ : Type} (k : Io.Reader κ) (s : κ) (parent : Path) (bs : List (RawRecords os))
    (h : Delivers k s (bs.map fun b => .ok b.batch)) :
    Returns (fun fuel => drain os k fuel (readDir parent s))
      (.ok (((bs.flatMap RawRecords.records).filter fun r => ¬ IsDot r.str).map
        fun r => .ok ⟨r.str, r.dType, parent⟩)) := by
  have hready : Ready k (readDir parent s) (bs.map fun b => .ok b.batch) :=
    ⟨h, List.length_replicate, Nat.zero_le _⟩
  have hpending : pending os (readDir parent s) (bs.map fun b => .ok b.batch) =
      .ok ((bs.flatMap RawRecords.records).flatMap (RawRecord.shown parent) |>.map .ok) := by
    rw [pending_of_window_nil (window_eq_nil le_rfl)]
    exact listing_records parent bs
  have hdrain : Returns (fun fuel => drain os k fuel (readDir parent s)) _ :=
    drain_returns hready
  rw [hpending, flatMap_shown, List.map_map] at hdrain
  exact hdrain

/-! ### Names in UTF-8 -/

/-- A record of the kernel, with a name that is UTF-8. -/
structure Record (os : Os) where
  /-- `d_ino` and `d_off`, or `d_ino` and `d_seekoff`. -/
  fixed : Vector UInt8 16
  name : Str
  dType : UInt8
  /-- The bytes behind the name, on Linux behind its NUL. -/
  pad : List UInt8
  nul_not_mem : os = .linux → 0 ∉ name.bytes

def Record.raw (r : Record os) : RawRecord os where
  fixed := r.fixed
  name := r.name.bytes
  dType := r.dType
  pad := r.pad
  nul_not_mem := r.nul_not_mem

/-- A name that is UTF-8 is not changed. -/
lemma Record.str_raw (r : Record os) : r.raw.str = r.name := Str.fromUtf8Lossy_bytes r.name

def Record.encode (r : Record os) : List UInt8 := r.raw.encode

/-- The records of one batch. -/
structure Records (os : Os) where
  records : List (Record os)
  ne_nil : records ≠ []
  le_room : (records.flatMap Record.encode).length ≤ 4096

def Records.raw (b : Records os) : RawRecords os where
  records := b.records.map Record.raw
  ne_nil := by simpa using b.ne_nil
  le_room := by
    rw [List.flatMap_map]
    exact b.le_room

def Records.batch (b : Records os) : Batch := b.raw.batch

/-- However the kernel cuts a directory into batches, the iterator yields its entries other than
`.` and `..` in order, with their names and types, and then it ends. -/
theorem drain_records {κ : Type} (k : Io.Reader κ) (s : κ) (parent : Path)
    (bs : List (Records os)) (h : Delivers k s (bs.map fun b => .ok b.batch)) :
    Returns (fun fuel => drain os k fuel (readDir parent s))
      (.ok (((bs.flatMap Records.records).filter fun r => ¬ IsDot r.name).map
        fun r => .ok ⟨r.name, r.dType, parent⟩)) := by
  have hbatches : bs.map (fun b => Except.ok b.batch) =
      (bs.map Records.raw).map fun b => (Except.ok b.batch : Io.Result Batch) := by
    rw [List.map_map]
    rfl
  have hrecords : (bs.map Records.raw).flatMap RawRecords.records =
      (bs.flatMap Records.records).map Record.raw := by
    rw [List.flatMap_map, List.map_flatMap]
    rfl
  have hdrain := drain_raw k s parent (bs.map Records.raw) (hbatches ▸ h)
  rw [hrecords, List.filter_map, List.map_map] at hdrain
  simp only [Function.comp_def, Record.str_raw] at hdrain
  exact hdrain

/-- A batch of Linux with one record, whose name is one byte. -/
def letterBatch (b : UInt8) (dType : UInt8) (h : Valid [b]) (hb : b ≠ 0) : Records .linux where
  records := [{
    fixed := Vector.replicate 16 1
    name := ⟨[b], h⟩
    dType := dType
    pad := [7, 7, 7]
    nul_not_mem := fun _ => by simpa using hb.symm }]
  ne_nil := by simp
  le_room := by
    rw [List.flatMap_singleton, Record.encode, RawRecord.length_encode]
    exact Nat.le_of_ble_eq_true rfl

/-- The directory `/` with `.` in one batch and `a` in the next. -/
theorem drain_records_two_batches :
    Returns (fun fuel => drain .linux Io.chunked fuel (readDir [47]
        [.ok (letterBatch 46 4 (by decide) (by decide)).batch.bytes,
          .ok (letterBatch 97 8 (by decide) (by decide)).batch.bytes]))
      (.ok [.ok ⟨⟨[97], by decide⟩, 8, [47]⟩]) :=
  drain_records Io.chunked _ [47]
    [letterBatch 46 4 (by decide) (by decide), letterBatch 97 8 (by decide) (by decide)]
    (chunked_delivers [.ok (letterBatch 46 4 (by decide) (by decide)).batch,
      .ok (letterBatch 97 8 (by decide) (by decide)).batch])

end PureStd.Fs.Dirent
