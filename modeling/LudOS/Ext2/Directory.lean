import Mathlib.Tactic.IntervalCases
import LudOS.Ext2.FileSystem

/-!
# The directory format

The records of a directory, as `write_directory_entries` lays them out and `read_directory` reads
them back. A record may not cross the end of a block: an entry that does not fit in its block any
more is pushed to the next one by making its predecessor longer, and the last record takes all that
is left of its block.

`Tiled` says what a sequence of records must look like, and `directory_round_trip` that every list
of entries is laid out in that way and read back as it was. `read_directory_inside_iff` is about
reading any other bytes: no record is checked against the end of the buffer.
-/

namespace LudOS.Ext2

variable {stop start blockSize : Nat}

open Lib

/-- `ext2::DirectoryEntry`, as the bytes of the structure. -/
structure DirectoryEntry where
  raw : Bytes

namespace DirectoryEntry

def inode (entry : DirectoryEntry) : Nat := entry.raw.u32 0

def recordLen (entry : DirectoryEntry) : Nat := entry.raw.u16 4

def nameLen (entry : DirectoryEntry) : Nat := (entry.raw 6).toNat

def fileType (entry : DirectoryEntry) : UInt8 := entry.raw 7

/-- `kpp::string(entry.name, entry.name_len)`. -/
def name (entry : DirectoryEntry) : List UInt8 :=
  (List.range entry.nameLen).map fun i => entry.raw (8 + i)

/-- What an entry says: the inode, the type of the file and its name. -/
def content (entry : DirectoryEntry) : Nat × UInt8 × List UInt8 :=
  (entry.inode, entry.fileType, entry.name)

/-- Store a new value of `record_len`. -/
def setRecordLen (entry : DirectoryEntry) (value : Nat) : DirectoryEntry :=
  ⟨entry.raw.putU16 4 value⟩

end DirectoryEntry

/-! ## Writing -/

/-- The part of `write_directory_entries` for an entry that would leave its block: the cursor moves
to the start of the next block, and the record before the entry, the first one in `placed`, takes
the bytes in between. -/
def pushRecord (blockSize cursor recordLen : Nat) (placed : List DirectoryEntry) :
    Action (Nat × List DirectoryEntry) := do
  let start := (cursor + recordLen) / blockSize * blockSize - cursor
  let offset := if (cursor + start) % 4 ≠ 0 then start + (4 - (cursor + start) % 4) else start
  match placed with
  | [] => throw .outOfBounds
  | previous :: placed => do
    check .assertion ((cursor + offset) / blockSize = cursor / blockSize + 1)
    pure (cursor + offset, previous.setRecordLen (previous.recordLen + offset) :: placed)

/-- Make a record longer so that it ends at a multiple of 4. -/
def alignRecord (cursor : Nat) (entry : DirectoryEntry) : DirectoryEntry :=
  if (cursor + entry.recordLen) % 4 ≠ 0 then
    entry.setRecordLen (entry.recordLen + (4 - (cursor + entry.recordLen) % 4))
  else entry

/-- Append a record to those in `placed`; the last one of the directory takes the rest of its
block. -/
def storeRecord (blockSize : Nat) (isLast : Bool) (cursor : Nat) (placed : List DirectoryEntry)
    (entry : DirectoryEntry) : Nat × List DirectoryEntry :=
  let cursor := cursor + entry.recordLen
  if isLast ∧ cursor % blockSize ≠ 0 then
    let distance := blockSize - cursor % blockSize
    (cursor + distance, entry.setRecordLen (entry.recordLen + distance) :: placed)
  else (cursor, entry :: placed)

/-- The body of the first loop of `write_directory_entries`, for the entry after those in `placed`,
which come last one first. The entries of a directory fill less than the address space, so that the
cursor does not wrap. -/
def placeRecord (blockSize : Nat) (isLast : Bool) (cursor : Nat) (placed : List DirectoryEntry)
    (entry : DirectoryEntry) : Action (Nat × List DirectoryEntry) := do
  let entry := entry.setRecordLen (8 + entry.nameLen)
  let (cursor, placed) ←
    (if cursor / blockSize = (cursor + entry.recordLen) / blockSize then pure (cursor, placed)
    else pushRecord blockSize cursor entry.recordLen placed)
  pure (storeRecord blockSize isLast cursor placed (alignRecord cursor entry))

/-- The first loop of `write_directory_entries`. -/
def placeRecords (blockSize : Nat) : (cursor : Nat) → (placed : List DirectoryEntry) →
    List DirectoryEntry → Action (Nat × List DirectoryEntry)
  | cursor, placed, [] => pure (cursor, placed.reverse)
  | cursor, placed, entry :: rest => do
    let (cursor, placed) ← placeRecord blockSize rest.isEmpty cursor placed entry
    placeRecords blockSize cursor placed rest

/-- The records of a directory and their total length. -/
def layoutRecords (entries : List DirectoryEntry) : Action (Nat × List DirectoryEntry) := do
  let layout ← getLayout
  let (cursor, records) ← placeRecords layout.blockSize 0 [] entries
  check .assertion (cursor % layout.blockSize = 0)
  pure (cursor, records)

/-- The second loop of `write_directory_entries`, which copies the records into a buffer of `size`
bytes. -/
def fillRecords (size : Nat) : (cursor : Nat) → Bytes → List DirectoryEntry → Action Bytes
  | cursor, data, [] => do
    check .assertion (cursor = size)
    pure data
  | cursor, data, entry :: rest => do
    check .assertion (8 + entry.nameLen ≤ entry.recordLen)
    check .assertion (entry.inode ≠ 0)
    check .outOfBounds (cursor + (8 + entry.nameLen) ≤ size)
    check .assertion ((cursor + entry.recordLen) % 4 = 0)
    fillRecords size (cursor + entry.recordLen)
      (data.splice cursor (8 + entry.nameLen) entry.raw) rest

/-! ## Reading -/

/-- The entry that starts at position `ptr` of a buffer. Copying it may read past the end of the
buffer; the bytes there are whatever the memory holds. -/
def entryAt (data : Bytes) (ptr : Nat) : DirectoryEntry := ⟨data.view ptr⟩

/-- The loop of `Ext2FS::read_directory` over a buffer of `size` bytes. -/
def readRecords (data : Bytes) (size ptr : Nat) : Action (List DirectoryEntry) :=
  if ptr < size then
    if (entryAt data ptr).recordLen = 0 then do
      error
      pure (if (entryAt data ptr).inode ≠ 0 then [entryAt data ptr] else [])
    else do
      let rest ← readRecords data size (ptr + (entryAt data ptr).recordLen)
      pure (if (entryAt data ptr).inode ≠ 0 then entryAt data ptr :: rest else rest)
  else pure []
termination_by size - ptr

/-- `Ext2FS::read_directory`. -/
def readDirectory (data : Bytes) (size : Nat) : Action (List DirectoryEntry) :=
  readRecords data size 0

/-! ## Records -/

namespace DirectoryEntry

variable (entry : DirectoryEntry) {value : Nat}

theorem recordLen_setRecordLen (h : value < 2 ^ 16) :
    (entry.setRecordLen value).recordLen = value := by
  unfold recordLen setRecordLen
  rw [Bytes.u16_putU16_same, Nat.mod_eq_of_lt h]

theorem raw_setRecordLen {i : Nat} (h : i < 4 ∨ 6 ≤ i) :
    (entry.setRecordLen value).raw i = entry.raw i :=
  Bytes.splice_outside (by omega)

@[simp] theorem nameLen_setRecordLen (value : Nat) :
    (entry.setRecordLen value).nameLen = entry.nameLen := by
  unfold nameLen
  rw [raw_setRecordLen entry (by omega)]

@[simp] theorem content_setRecordLen (value : Nat) :
    (entry.setRecordLen value).content = entry.content := by
  have hinode : (entry.setRecordLen value).inode = entry.inode := Bytes.u32_putU16_other (by omega)
  have hname : (entry.setRecordLen value).name = entry.name := by
    exact List.map_congr_left fun i _ => raw_setRecordLen entry (by omega)
  unfold content fileType
  rw [hinode, hname, raw_setRecordLen entry (by omega)]

theorem nameLen_lt : entry.nameLen < 256 := (entry.raw 6).toNat_lt

end DirectoryEntry

/-- A record at position `start`: aligned, long enough for its name, and within one block. -/
structure Fits (blockSize start : Nat) (record : DirectoryEntry) : Prop where
  aligned : start % 4 = 0
  length_aligned : record.recordLen % 4 = 0
  holds_name : 8 + record.nameLen ≤ record.recordLen
  within : start / blockSize = (start + record.recordLen - 1) / blockSize

/-- The records fill the bytes from `start` to `stop`, each of them at a position where it fits. -/
def Tiled (blockSize : Nat) : (start : Nat) → List DirectoryEntry → (stop : Nat) → Prop
  | start, [], stop => start = stop
  | start, record :: records, stop =>
    Fits blockSize start record ∧ Tiled blockSize (start + record.recordLen) records stop

theorem tiled_append {rs rs' : List DirectoryEntry} : Tiled blockSize start (rs ++ rs') stop ↔
      ∃ m, Tiled blockSize start rs m ∧ Tiled blockSize m rs' stop := by
  induction rs generalizing start with
  | nil =>
    constructor
    · exact fun h => ⟨start, rfl, h⟩
    · rintro ⟨m, rfl, h⟩
      exact h
  | cons r rs ih =>
    constructor
    · rintro ⟨hfits, hrest⟩
      obtain ⟨m, hfirst, hlast⟩ := ih.mp hrest
      exact ⟨m, ⟨hfits, hfirst⟩, hlast⟩
    · rintro ⟨m, ⟨hfits, hfirst⟩, hlast⟩
      exact ⟨hfits, ih.mpr ⟨m, hfirst, hlast⟩⟩

theorem tiled_concat {rs : List DirectoryEntry} {r : DirectoryEntry} :
    Tiled blockSize start (rs ++ [r]) stop ↔
      ∃ m, Tiled blockSize start rs m ∧ Fits blockSize m r ∧ m + r.recordLen = stop :=
  tiled_append

/-! ## The layout -/

/-- The records in `placed`, last one first, say what the entries in `done` say and reach from the
start of the directory to the cursor. -/
structure Laid (blockSize : Nat) (done : List DirectoryEntry) (cursor : Nat)
    (placed : List DirectoryEntry) : Prop where
  tiled : Tiled blockSize 0 placed.reverse cursor
  content : placed.reverse.map DirectoryEntry.content = done.map DirectoryEntry.content
  aligned : cursor % 4 = 0

/-- What holds between two passes of the first loop: besides, the record before the cursor is so
short that it can still be made longer. -/
structure Placing (blockSize : Nat) (done : List DirectoryEntry) (cursor : Nat)
    (placed : List DirectoryEntry) : Prop extends Laid blockSize done cursor placed where
  short : ∀ record ∈ placed.head?, record.recordLen ≤ 264
  start : placed = [] → cursor = 0

/-- The blocks a layout can be made for: from 1 KiB on, and so small that the length of a record
that fills its block has 16 bits. -/
structure FitsRecords (blockSize : Nat) : Prop where
  ge : 1024 ≤ blockSize
  le : blockSize ≤ 32768
  aligned : blockSize % 4 = 0

section

variable {fs : FileSystem} {blockSize cursor recordLen : Nat} {done placed : List DirectoryEntry}

theorem mul_blockSize_mod_four (hbs : FitsRecords blockSize) (q : Nat) : q * blockSize % 4 = 0 := by
  rw [Nat.mul_mod, hbs.aligned, Nat.mul_zero, Nat.zero_mod]

/-- A record that ends in the block of the cursor can be placed there. -/
theorem Laid.push (h : Laid blockSize done cursor placed) (hbs : FitsRecords blockSize)
    {entry record : DirectoryEntry} (hcontent : record.content = entry.content)
    (haligned : record.recordLen % 4 = 0) (hname : 8 + record.nameLen ≤ record.recordLen)
    (hroom : cursor % blockSize + record.recordLen ≤ blockSize) :
    Laid blockSize (done ++ [entry]) (cursor + record.recordLen) (record :: placed) := by
  have hc4 := h.aligned
  have hdiv := Nat.div_add_mod' cursor blockSize
  have hge := hbs.ge
  refine ⟨?_, ?_, by omega⟩
  · rw [List.reverse_cons, tiled_concat]
    refine ⟨cursor, h.tiled, ⟨hc4, haligned, hname, ?_⟩, rfl⟩
    refine ((Nat.div_eq_iff (by omega)).mpr ⟨?_, ?_⟩).symm <;> omega
  · rw [List.reverse_cons, List.map_append, List.map_append, h.content, List.map_singleton,
      List.map_singleton, hcontent]

/-- After the first part of the loop body there is room for the entry in the block of the
cursor. -/
theorem Placing.run_makeRoom (h : Placing blockSize done cursor placed)
    (hbs : FitsRecords blockSize)
    (hlen : recordLen ≤ 263) :
    ∃ cursor' placed', (if cursor / blockSize = (cursor + recordLen) / blockSize then
        pure (cursor, placed) else pushRecord blockSize cursor recordLen placed : Action _).run fs =
        .ok (cursor', placed') fs ∧
      Laid blockSize done cursor' placed' ∧ cursor' % blockSize + recordLen < blockSize := by
  have hm4 := mul_blockSize_mod_four hbs (cursor / blockSize)
  obtain ⟨hge, hle, h4⟩ := hbs
  have hpos : 0 < blockSize := by omega
  have hx := Nat.mod_lt cursor hpos
  have hdiv := Nat.div_add_mod' cursor blockSize
  have haligned := h.aligned
  generalize hq : cursor / blockSize = q at *
  by_cases hroom : cursor % blockSize + recordLen < blockSize
  · have hsame : q = (cursor + recordLen) / blockSize := by
      refine ((Nat.div_eq_iff hpos).mpr ⟨?_, ?_⟩).symm <;> omega
    refine ⟨cursor, placed, ?_, h.toLaid, hroom⟩
    rw [if_pos hsame]
    rfl
  · -- The entry is pushed to the start of the next block.
    have hnext : (cursor + recordLen) / blockSize = q + 1 := by
      refine (Nat.div_eq_iff hpos).mpr ⟨?_, ?_⟩ <;> rw [Nat.succ_mul] <;> omega
    set pad := blockSize - cursor % blockSize with hpad
    have hoffset : (q + 1) * blockSize - cursor = pad := by
      rw [Nat.succ_mul]
      omega
    have hstart : cursor + pad = q * blockSize + blockSize := by omega
    have hassert : (cursor + pad) / blockSize = q + 1 := by
      rw [hstart, ← Nat.succ_mul, Nat.mul_div_cancel _ hpos]
    cases placed with
    | nil =>
      have hzero := h.start rfl
      omega
    | cons previous placed =>
      have htiled := h.tiled
      rw [List.reverse_cons, tiled_concat] at htiled
      obtain ⟨m, hfirst, hfits, hstop⟩ := htiled
      have hshort := h.short previous rfl
      have hwithin := hfits.within
      have hname := hfits.holds_name
      have hlength := hfits.length_aligned
      have hnew := previous.recordLen_setRecordLen
        (show previous.recordLen + pad < 2 ^ 16 by omega)
      refine ⟨cursor + pad, previous.setRecordLen (previous.recordLen + pad) :: placed, ?_,
        ⟨?_, ?_, ?_⟩, ?_⟩
      · have hmove : (if (cursor + ((cursor + recordLen) / blockSize * blockSize - cursor)) % 4 ≠ 0
            then (cursor + recordLen) / blockSize * blockSize - cursor + (4 - (cursor +
              ((cursor + recordLen) / blockSize * blockSize - cursor)) % 4)
            else (cursor + recordLen) / blockSize * blockSize - cursor) = pad := by
          rw [hnext, hoffset, if_neg (by omega)]
        rw [if_neg (by omega)]
        unfold pushRecord
        dsimp only
        rw [hmove]
        exact run_check_bind (hassert.trans (congrArg (· + 1) hq.symm))
      · rw [List.reverse_cons, tiled_concat]
        refine ⟨m, hfirst, ⟨hfits.aligned, ?_, ?_, ?_⟩, ?_⟩
        · rw [hnew]
          omega
        · rw [hnew, DirectoryEntry.nameLen_setRecordLen]
          omega
        · -- The longer record ends with the block that the cursor was in.
          have hlast : (cursor - 1) / blockSize = q := by
            refine (Nat.div_eq_iff hpos).mpr ⟨?_, ?_⟩ <;> omega
          rw [hnew, hwithin, show m + previous.recordLen - 1 = cursor - 1 by omega, hlast]
          refine ((Nat.div_eq_iff hpos).mpr ⟨?_, ?_⟩).symm <;> omega
        · rw [hnew]
          omega
      · have hcontent := h.content
        rw [List.reverse_cons, List.map_append] at hcontent ⊢
        rw [← hcontent, List.map_singleton, List.map_singleton,
          DirectoryEntry.content_setRecordLen]
      · omega
      · rw [hstart, ← Nat.succ_mul, Nat.mul_mod_left]
        omega

/-- Aligning a record that starts at a multiple of 4 makes it at most 264 bytes long, and it still
ends in its block. -/
theorem alignRecord_spec (hbs : FitsRecords blockSize) (entry : DirectoryEntry)
    (hcursor : cursor % 4 = 0) (hlen : entry.recordLen = 8 + entry.nameLen)
    (hroom : cursor % blockSize + entry.recordLen < blockSize) :
    (alignRecord cursor entry).content = entry.content ∧
      (alignRecord cursor entry).recordLen % 4 = 0 ∧
      8 + (alignRecord cursor entry).nameLen ≤ (alignRecord cursor entry).recordLen ∧
      cursor % blockSize + (alignRecord cursor entry).recordLen ≤ blockSize ∧
      (alignRecord cursor entry).recordLen ≤ 264 := by
  have hname := entry.nameLen_lt
  have hm4 := mul_blockSize_mod_four hbs (cursor / blockSize)
  have hdiv := Nat.div_add_mod' cursor blockSize
  have hbs4 := hbs.aligned
  unfold alignRecord
  by_cases hend : (cursor + entry.recordLen) % 4 ≠ 0
  · have hnew := entry.recordLen_setRecordLen
      (show entry.recordLen + (4 - (cursor + entry.recordLen) % 4) < 2 ^ 16 by omega)
    rw [if_pos hend, hnew, DirectoryEntry.content_setRecordLen, DirectoryEntry.nameLen_setRecordLen]
    refine ⟨rfl, ?_, ?_, ?_, ?_⟩ <;> omega
  · rw [if_neg hend]
    refine ⟨rfl, ?_, ?_, ?_, ?_⟩ <;> omega

/-- A record that ends in the block of the cursor is stored there, and the last record ends with its
block. -/
theorem Laid.storeRecord (h : Laid blockSize done cursor placed) (hbs : FitsRecords blockSize)
    (isLast : Bool) {entry record : DirectoryEntry} (hcontent : record.content = entry.content)
    (h4 : record.recordLen % 4 = 0) (hname : 8 + record.nameLen ≤ record.recordLen)
    (hend : cursor % blockSize + record.recordLen ≤ blockSize) (hshort : record.recordLen ≤ 264)
    {next : Nat × List DirectoryEntry}
    (hnext : storeRecord blockSize isLast cursor placed record = next) :
    Laid blockSize (done ++ [entry]) next.1 next.2 ∧ (isLast = true → next.1 % blockSize = 0) ∧
      (isLast = false → Placing blockSize (done ++ [entry]) next.1 next.2) := by
  have hpush := h.push hbs hcontent h4 hname hend
  unfold Ext2.storeRecord at hnext
  dsimp only at hnext
  by_cases hlast : isLast = true ∧ (cursor + record.recordLen) % blockSize ≠ 0
  · rw [if_pos hlast] at hnext
    subst hnext
    -- The record takes the rest of the block.
    have hm4 := mul_blockSize_mod_four hbs (cursor / blockSize)
    have hdiv := Nat.div_add_mod' cursor blockSize
    obtain ⟨hge, hle, hbs4⟩ := id hbs
    have hmod : (cursor + record.recordLen) % blockSize =
        cursor % blockSize + record.recordLen := by
      have hadd := Nat.mod_add_mod cursor blockSize record.recordLen
      rcases Nat.lt_or_eq_of_le hend with hlt | heq
      · rw [← hadd, Nat.mod_eq_of_lt hlt]
      · rw [heq, Nat.mod_self] at hadd
        exact absurd hadd.symm hlast.2
    have hc4 := h.aligned
    have hnew := record.recordLen_setRecordLen (show record.recordLen +
      (blockSize - (cursor + record.recordLen) % blockSize) < 2 ^ 16 by omega)
    refine ⟨?_, fun _ => ?_, fun hfalse => ?_⟩
    · have hfill := @Laid.push _ _ _ _ h hbs entry (record.setRecordLen (record.recordLen +
        (blockSize - (cursor + record.recordLen) % blockSize)))
        (by rw [DirectoryEntry.content_setRecordLen, hcontent])
        (by rw [hnew, hmod]; omega) (by rw [hnew, DirectoryEntry.nameLen_setRecordLen]; omega)
        (by rw [hnew, hmod]; omega)
      rwa [hnew, ← Nat.add_assoc] at hfill
    · rw [hmod, show cursor + record.recordLen + (blockSize - (cursor % blockSize +
        record.recordLen)) = cursor / blockSize * blockSize + blockSize by omega, ← Nat.succ_mul,
        Nat.mul_mod_left]
    · rw [hfalse] at hlast
      exact absurd hlast.1 (by decide)
  · rw [if_neg hlast] at hnext
    subst hnext
    refine ⟨hpush, fun htrue => ?_, fun _ => ⟨hpush, ?_, ?_⟩⟩
    · simpa [htrue] using hlast
    · rintro r hr
      obtain rfl : record = r := by simpa using hr
      exact hshort
    · exact fun hnil => absurd hnil (List.cons_ne_nil _ _)

/-- One pass of the first loop places the entry behind the ones before it. -/
theorem Placing.run_placeRecord (h : Placing blockSize done cursor placed)
    (hbs : FitsRecords blockSize) (isLast : Bool) (entry : DirectoryEntry) :
    ∃ cursor' placed', (placeRecord blockSize isLast cursor placed entry).run fs =
        .ok (cursor', placed') fs ∧ Laid blockSize (done ++ [entry]) cursor' placed' ∧
      (isLast = true → cursor' % blockSize = 0) ∧
      (isLast = false → Placing blockSize (done ++ [entry]) cursor' placed') := by
  have hname := entry.nameLen_lt
  have hrecord := entry.recordLen_setRecordLen (show 8 + entry.nameLen < 2 ^ 16 by omega)
  obtain ⟨c, p, hrun, hlaid, hroom⟩ := @Placing.run_makeRoom fs _ _ _ _ _ h hbs
    (show (entry.setRecordLen (8 + entry.nameLen)).recordLen ≤ 263 by omega)
  obtain ⟨hcontent, h4, hholds, hend, hshort⟩ := alignRecord_spec hbs
    (entry.setRecordLen (8 + entry.nameLen)) hlaid.aligned
    (by rw [hrecord, DirectoryEntry.nameLen_setRecordLen]) hroom
  rw [DirectoryEntry.content_setRecordLen] at hcontent
  exact ⟨_, _, run_bind_ok hrun, hlaid.storeRecord hbs isLast hcontent h4 hholds hend hshort rfl⟩

/-- The first loop lays out the entries it is given behind those it has placed. -/
theorem Laid.run_placeRecords (hbs : FitsRecords blockSize) (rest : List DirectoryEntry)
    (h : Laid blockSize done cursor placed) (hnil : rest = [] → cursor % blockSize = 0)
    (hcons : rest ≠ [] → Placing blockSize done cursor placed) :
    ∃ total records, (placeRecords blockSize cursor placed rest).run fs = .ok (total, records) fs ∧
      Tiled blockSize 0 records total ∧
      records.map DirectoryEntry.content = (done ++ rest).map DirectoryEntry.content ∧
      total % blockSize = 0 := by
  induction rest generalizing done cursor placed with
  | nil => exact ⟨cursor, placed.reverse, rfl, h.tiled, by rw [List.append_nil, h.content],
      hnil rfl⟩
  | cons entry rest ih =>
    obtain ⟨c, p, hstep, hlaid, hend, hgoes⟩ :=
      @Placing.run_placeRecord fs _ _ _ _ (hcons (List.cons_ne_nil _ _)) hbs rest.isEmpty entry
    obtain ⟨total, records, hrun, htiled, hcontent, htotal⟩ := ih hlaid
      (fun hrest => hend (by rw [hrest]; rfl))
      (fun hrest => hgoes (by rwa [List.isEmpty_eq_false_iff]))
    refine ⟨total, records, (run_bind_ok hstep).trans hrun, htiled, ?_, htotal⟩
    rw [hcontent, List.append_assoc, List.singleton_append]

end

/-- Blocks from 1 KiB to 32 KiB can hold records. -/
theorem Layout.fitsRecords {l : Layout} (h : l.blockSizeShift ≤ 5) : FitsRecords l.blockSize := by
  have hsize : l.blockSize = 1024 * 2 ^ l.blockSizeShift % 2 ^ 32 := rfl
  generalize l.blockSizeShift = shift at h hsize
  rw [hsize]
  interval_cases shift <;> exact ⟨by decide, by decide, by decide⟩

/-- The first loop of `write_directory_entries` fails no assertion. -/
theorem run_layoutRecords {fs : FileSystem} (h : fs.layout.blockSizeShift ≤ 5)
    (entries : List DirectoryEntry) :
    ∃ total records, (layoutRecords entries).run fs = .ok (total, records) fs ∧
      Tiled fs.layout.blockSize 0 records total ∧
      records.map DirectoryEntry.content = entries.map DirectoryEntry.content ∧
      total % fs.layout.blockSize = 0 := by
  have hstart : Placing fs.layout.blockSize [] 0 [] :=
    ⟨⟨rfl, rfl, rfl⟩, fun _ hmem => by simp at hmem, fun _ => rfl⟩
  obtain ⟨total, records, hrun, htiled, hcontent, htotal⟩ := @Laid.run_placeRecords fs _ _ _ _
    (Layout.fitsRecords h) entries hstart.toLaid (fun _ => Nat.zero_mod _) (fun _ => hstart)
  exact ⟨total, records, (run_bind_ok hrun).trans (run_check_bind htotal), htiled, hcontent, htotal⟩

/-! ## The bytes of the records -/

/-- The bytes of the records stand in a buffer, one record after the other. -/
def Stored (data : Bytes) : (start : Nat) → List DirectoryEntry → Prop
  | _, [] => True
  | start, record :: records =>
    (∀ i < 8 + record.nameLen, data (start + i) = record.raw i) ∧
      Stored data (start + record.recordLen) records

theorem Tiled.le {records : List DirectoryEntry}
    (h : Tiled blockSize start records stop) : start ≤ stop := by
  induction records generalizing start with
  | nil => exact Nat.le_of_eq h
  | cons record records ih => exact Nat.le_trans (Nat.le_add_right _ _) (ih h.2)

theorem Stored.congr {records : List DirectoryEntry} {data mem : Bytes}
    (h : Stored data start records) (htiled : Tiled blockSize start records stop)
    (hmem : ∀ i, start ≤ i → i < stop → mem i = data i) : Stored mem start records := by
  induction records generalizing start with
  | nil => trivial
  | cons record records ih =>
    have hle := htiled.2.le
    have hname := htiled.1.holds_name
    refine ⟨fun i hi => ?_, ih h.2 htiled.2 fun i hi => hmem i (by omega)⟩
    rw [hmem (start + i) (by omega) (by omega), h.1 i hi]

/-- The second loop of `write_directory_entries` copies the records into the buffer. -/
theorem run_fillRecords {fs : FileSystem} {blockSize start size : Nat}
    {records : List DirectoryEntry} (htiled : Tiled blockSize start records size)
    (hinode : ∀ record ∈ records, record.inode ≠ 0) (data : Bytes) :
    ∃ data', (fillRecords size start data records).run fs = .ok data' fs ∧
      (∀ i < start, data' i = data i) ∧ Stored data' start records := by
  induction records generalizing start data with
  | nil =>
    have hend : start = size := htiled
    exact ⟨data, run_check_bind hend, fun _ _ => rfl, trivial⟩
  | cons record records ih =>
    obtain ⟨hfits, hrest⟩ := htiled
    have hname := hfits.holds_name
    have hle := hrest.le
    obtain ⟨data', hrun, hbefore, hstored⟩ := ih hrest
      (fun r hr => hinode r (List.mem_cons_of_mem _ hr))
      (data.splice start (8 + record.nameLen) record.raw)
    refine ⟨data', ?_, ?_, ?_, hstored⟩
    · refine (run_check_bind hname).trans ?_
      refine (run_check_bind (hinode record List.mem_cons_self)).trans ?_
      refine (run_check_bind (by omega)).trans ?_
      refine (run_bind_ok (run_check_pos ?_ fs)).trans hrun
      rw [Nat.add_mod, hfits.aligned, hfits.length_aligned]
    · intro i hi
      rw [hbefore i (by omega), Bytes.splice_outside (by omega)]
    · intro i hi
      rw [hbefore (start + i) (by omega), Bytes.splice_inside (by omega) (by omega),
        Nat.add_sub_cancel_left]

/-- An entry is known once the bytes of its header and name are. -/
theorem DirectoryEntry.eq_of_raw {entry record : DirectoryEntry}
    (h : ∀ i < 8 + record.nameLen, entry.raw i = record.raw i) :
    entry.content = record.content ∧ entry.recordLen = record.recordLen := by
  have hinode : entry.inode = record.inode := Bytes.u32_congr fun i hi => h _ (by omega)
  have hlen : entry.recordLen = record.recordLen := Bytes.u16_congr fun i hi => h _ (by omega)
  have hnameLen : entry.nameLen = record.nameLen := congrArg UInt8.toNat (h 6 (by omega))
  have hname : entry.name = record.name := by
    unfold name
    rw [hnameLen]
    exact List.map_congr_left fun i hi => h _ (Nat.add_lt_add_left (List.mem_range.mp hi) 8)
  refine ⟨?_, hlen⟩
  unfold content fileType
  rw [hinode, hname, h 7 (by omega)]

/-- `read_directory` finds the records that stand in the buffer. -/
theorem run_readRecords {fs : FileSystem} {blockSize start size : Nat}
    {records : List DirectoryEntry} {data : Bytes} (htiled : Tiled blockSize start records size)
    (hinode : ∀ record ∈ records, record.inode ≠ 0) (hstored : Stored data start records) :
    ∃ entries, (readRecords data size start).run fs = .ok entries fs ∧
      entries.map DirectoryEntry.content = records.map DirectoryEntry.content := by
  induction records generalizing start with
  | nil =>
    refine ⟨[], ?_, rfl⟩
    rw [readRecords, if_neg (Nat.not_lt.mpr (Nat.le_of_eq htiled.symm))]
    rfl
  | cons record records ih =>
    obtain ⟨hfits, hrest⟩ := htiled
    have hname := hfits.holds_name
    have hle := hrest.le
    obtain ⟨hcontent, hlen⟩ := @DirectoryEntry.eq_of_raw (entryAt data start) _ hstored.1
    have hpresent : (entryAt data start).inode ≠ 0 := by
      rw [show (entryAt data start).inode = record.inode from congrArg Prod.fst hcontent]
      exact hinode record List.mem_cons_self
    obtain ⟨entries, hrun, hentries⟩ := ih hrest
      (fun r hr => hinode r (List.mem_cons_of_mem _ hr)) hstored.2
    refine ⟨entryAt data start :: entries, ?_, ?_⟩
    · rw [readRecords, if_pos (by omega), if_neg (by omega), hlen]
      refine (run_bind_ok hrun).trans ?_
      rw [if_pos hpresent]
      rfl
    · rw [List.map_cons, List.map_cons, hcontent, hentries]

/-- For every list of entries `write_directory_entries` computes, without failing an assertion, a
sequence of whole blocks of aligned records none of which leaves its block, and `read_directory`
finds the same entries in its bytes. -/
theorem directory_round_trip {fs : FileSystem} (hshift : fs.layout.blockSizeShift ≤ 5)
    (entries : List DirectoryEntry) (hinode : ∀ entry ∈ entries, entry.inode ≠ 0) :
    ∃ total records data, (layoutRecords entries).run fs = .ok (total, records) fs ∧
      (fillRecords total 0 (fun _ => 0) records).run fs = .ok data fs ∧
      total % fs.layout.blockSize = 0 ∧ Tiled fs.layout.blockSize 0 records total ∧
      ∀ mem : Bytes, (∀ i < total, mem i = data i) →
        ∃ entries', (readDirectory mem total).run fs = .ok entries' fs ∧
          entries'.map DirectoryEntry.content = entries.map DirectoryEntry.content := by
  obtain ⟨total, records, hlayout, htiled, hcontent, htotal⟩ := run_layoutRecords hshift entries
  have hpresent : ∀ record ∈ records, record.inode ≠ 0 := by
    intro record hrecord
    have hmem := List.mem_map_of_mem (f := DirectoryEntry.content) hrecord
    rw [hcontent] at hmem
    obtain ⟨entry, hentry, heq⟩ := List.mem_map.mp hmem
    rw [← show entry.inode = record.inode from congrArg Prod.fst heq]
    exact hinode entry hentry
  obtain ⟨data, hfill, -, hstored⟩ := @run_fillRecords fs _ _ _ _ htiled hpresent (fun _ => 0)
  refine ⟨total, records, data, hlayout, hfill, htotal, htiled, fun mem hmem => ?_⟩
  obtain ⟨entries', hread, hsame⟩ := @run_readRecords fs _ _ _ _ _ htiled hpresent
    (hstored.congr htiled fun i _ hi => hmem i hi)
  exact ⟨entries', hread, hsame.trans hcontent⟩

/-- An entry whose name consists of dots. -/
def dotEntry (inode nameLen : UInt8) : DirectoryEntry :=
  ⟨fun i => if i = 0 then inode else if i < 6 then 0 else if i = 6 then nameLen
    else if i = 7 then 2 else 46⟩

/-- A volume of empty blocks of 1 KiB. -/
def blankVolume : FileSystem where
  disk := fun _ => 0
  superblock := ⟨fun _ => 0⟩
  currentBlock := fun _ => 0
  zeroes := none
  clock := id
  hasError := 0

theorem directory_round_trip_dots : ∃ total records data,
      (layoutRecords [dotEntry 12 1, dotEntry 2 2]).run blankVolume =
        .ok (total, records) blankVolume ∧
      (fillRecords total 0 (fun _ => 0) records).run blankVolume = .ok data blankVolume ∧
      total % blankVolume.layout.blockSize = 0 ∧
      Tiled blankVolume.layout.blockSize 0 records total ∧
      ∀ mem : Bytes, (∀ i < total, mem i = data i) →
        ∃ entries', (readDirectory mem total).run blankVolume = .ok entries' blankVolume ∧
          entries'.map DirectoryEntry.content =
            [dotEntry 12 1, dotEntry 2 2].map DirectoryEntry.content :=
  directory_round_trip (by decide) _ (by decide)

/-! ## Damaged directories -/

/-- Reading the records from `ptr` on comes to the one at position `p`. -/
inductive Reached (data : Bytes) (size p : Nat) : (ptr : Nat) → Prop where
  | here (hlt : p < size) : Reached data size p p
  | next {ptr : Nat} (hlt : ptr < size) (hlen : (entryAt data ptr).recordLen ≠ 0)
      (rest : Reached data size p (ptr + (entryAt data ptr).recordLen)) : Reached data size p ptr

/-- No record without a length is reached, or the volume is one on which errors do not make the
kernel panic. -/
def Tolerated (fs : FileSystem) (data : Bytes) (size ptr : Nat) : Prop :=
  fs.layout.errorHandling = 3 → ∀ p, Reached data size p ptr → (entryAt data p).recordLen ≠ 0

section

variable {data : Bytes} {size ptr p : Nat}

theorem reached_iff : Reached data size p ptr ↔ ptr < size ∧ (p = ptr ∨
    (entryAt data ptr).recordLen ≠ 0 ∧
      Reached data size p (ptr + (entryAt data ptr).recordLen)) := by
  constructor
  · intro h
    cases h with
    | here hlt => exact ⟨hlt, .inl rfl⟩
    | next hlt hlen rest => exact ⟨hlt, .inr ⟨hlen, rest⟩⟩
  · rintro ⟨hlt, rfl | ⟨hlen, rest⟩⟩
    · exact .here hlt
    · exact .next hlt hlen rest

/-- The entries are those of the records in use that are reached. -/
theorem exists_run_readRecords {fs : FileSystem} (h : Tolerated fs data size ptr) :
    ∃ (positions : List Nat) (t : FileSystem),
      (readRecords data size ptr).run fs = .ok (positions.map (entryAt data)) t ∧
      ∀ p, p ∈ positions ↔ Reached data size p ptr ∧ (entryAt data p).inode ≠ 0 := by
  fun_induction readRecords data size ptr with
  | case1 ptr hlt hlen =>
    have hno : fs.layout.errorHandling ≠ 3 := fun hpanic => h hpanic ptr (.here hlt) hlen
    have herror : error.run fs = .ok () { fs with hasError := 2 } := congrFun (if_neg hno) _
    refine ⟨if (entryAt data ptr).inode ≠ 0 then [ptr] else [], { fs with hasError := 2 },
      (run_bind_ok herror).trans ?_, fun p => ?_⟩
    · split <;> rfl
    · rw [reached_iff]
      split <;> grind
  | case2 ptr hlt hlen ih =>
    obtain ⟨positions, t, hrun, hpositions⟩ := ih fun hpanic p hp => h hpanic p (.next hlt hlen hp)
    refine ⟨if (entryAt data ptr).inode ≠ 0 then ptr :: positions else positions, t,
      (run_bind_ok hrun).trans ?_, fun p => ?_⟩
    · split <;> rfl
    · rw [reached_iff]
      split <;> grind
  | case3 ptr hge =>
    refine ⟨[], fs, rfl, fun p => ?_⟩
    rw [reached_iff]
    simp [hge]

/-- A panic is not an answer. -/
theorem tolerated_of_run {fs t : FileSystem} {entries : List DirectoryEntry}
    (h : (readRecords data size ptr).run fs = .ok entries t) : Tolerated fs data size ptr := by
  fun_induction readRecords data size ptr generalizing entries t with
  | case1 ptr hlt hlen =>
    intro hpanic
    have herror : error.run fs = .error .panic { fs with hasError := 2 } :=
      congrFun (if_pos hpanic) _
    rw [run_bind_error herror] at h
    cases h
  | case2 ptr hlt hlen ih =>
    obtain ⟨rest, t₁, hrest, -⟩ := run_bind_eq_ok.mp h
    intro hpanic p hp
    obtain ⟨-, rfl | ⟨-, hp⟩⟩ := reached_iff.mp hp
    · exact hlen
    · exact ih hrest hpanic p hp
  | case3 ptr hge => exact fun _ p hp => absurd (reached_iff.mp hp).1 hge

end

/-- `read_directory` returns, and every entry was read from a record whose header and name lie
inside the buffer. -/
def ReadsInside (fs : FileSystem) (data : Bytes) (size : Nat) : Prop :=
  ∃ (positions : List Nat) (t : FileSystem),
    (readDirectory data size).run fs = .ok (positions.map (entryAt data)) t ∧
    (∀ p, p ∈ positions ↔ Reached data size p 0 ∧ (entryAt data p).inode ≠ 0) ∧
    ∀ p ∈ positions, p + (8 + (entryAt data p).nameLen) ≤ size

/-- The loop never asks whether a record ends inside the buffer. -/
theorem read_directory_inside_iff (fs : FileSystem) (data : Bytes) (size : Nat) :
    ReadsInside fs data size ↔ Tolerated fs data size 0 ∧
      ∀ p, Reached data size p 0 → (entryAt data p).inode ≠ 0 →
        p + (8 + (entryAt data p).nameLen) ≤ size := by
  constructor
  · rintro ⟨positions, t, hrun, hpositions, hinside⟩
    exact ⟨tolerated_of_run hrun, fun p hp hinode => hinside p ((hpositions p).mpr ⟨hp, hinode⟩)⟩
  · rintro ⟨htolerated, hinside⟩
    obtain ⟨positions, t, hrun, hpositions⟩ := exists_run_readRecords htolerated
    exact ⟨positions, t, hrun, hpositions, fun p hp =>
      hinside p ((hpositions p).mp hp).1 ((hpositions p).mp hp).2⟩

/-- A record of 12 bytes that is said to have a name of 255 bytes. -/
theorem read_directory_leaves_buffer : ¬ ReadsInside blankVolume
    (fun i => [1, 0, 0, 0, 12, 0, 255, 1].getD i 97) 12 := by
  rintro ⟨positions, t, -, hpositions, hinside⟩
  have hfirst := hinside 0 ((hpositions 0).mpr ⟨.here (by decide), by decide⟩)
  exact absurd hfirst (by decide)

end LudOS.Ext2
