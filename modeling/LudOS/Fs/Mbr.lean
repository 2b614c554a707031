import Mathlib.Data.List.Basic
import LudOS.Storage.Read
import LudOS.Storage.Slice

/-!
# The partition table

The model of `fs/mbr/mbr.cpp`. `read_partitions` reads the first 512 bytes of a disk and makes a
partition of every entry of the table that is marked as active. It turns a table down only when
both bytes of the signature are wrong, and it compares no entry with the size of the disk.
`partitions_sound_iff` says for which tables the partitions are those of a signed table and fit on
the disk.
-/

namespace LudOS.Fs.Mbr

open Lib Storage

/-- `mbr::Partition::Data`, as the bytes of the packed structure. -/
structure PartitionData where
  raw : Bytes

namespace PartitionData

/-- `sizeof(mbr::Partition::Data)`. -/
def dataSize : Nat := 16

def bootFlag (data : PartitionData) : UInt8 := data.raw 0

def relativeSector (data : PartitionData) : Nat := data.raw.u32 8

def sectorCount (data : PartitionData) : Nat := data.raw.u32 12

end PartitionData

/-- `mbr::Partition`: the window it is on its disk, its number and its entry of the table. -/
structure Partition where
  offset : Nat
  size : Nat
  partitionNumber : Nat
  data : PartitionData

/-- The disk that a partition is. -/
def Partition.disk {σ : Type} (parent : Disk σ) (p : Partition) : Disk σ :=
  diskSlice parent p.offset p.size

/-- Where the entries of the table are. -/
def addresses : List Nat := [0x1BE, 0x1CE, 0x1DE, 0x1EE]

/-- The entry of the table at an address of the buffer. -/
def entryAt (buf : Bytes) (address : Nat) : PartitionData :=
  ⟨(buf.view address).trunc PartitionData.dataSize⟩

/-- The body of the loop of `read_partitions`. -/
def createPartition (buf : Bytes) : Nat × Nat → Option Partition
  | (address, i) =>
    let data := entryAt buf address
    if data.bootFlag = 0x80 then some ⟨data.relativeSector, data.sectorCount, i + 1, data⟩
    else none

/-- `mbr::read_partitions` once the buffer has been read. -/
def partitionsOf (buf : Bytes) : List Partition :=
  if buf 0x1fe ≠ 0x55 ∧ buf 0x1ff ≠ 0xAA then []
  else addresses.zipIdx.filterMap (createPartition buf)

/-- The buffer that `disk.read(0, 512)` reads into. -/
def tableBuffer : Span := ⟨fun _ => 0, 512, by decide⟩

variable {σ : Type} {d : Disk σ} {image : σ → Bytes}

/-- `mbr::read_partitions`. A disk that cannot be read has no partitions. -/
def readPartitions (d : Disk σ) : EStateM Stop σ (List Partition) := fun st =>
  match (d.read 0 tableBuffer).run st with
  | .ok buf st' => .ok (partitionsOf buf.bytes) st'
  | .error (.failed _) st' => .ok [] st'
  | .error (.fault f) st' => .error (.fault f) st'

/-! ## The table that is read -/

/-- Reading the table of a disk that has one gives the bytes of its image. -/
theorem run_readTable (hread : d.ReadsImage image) (hpos : 0 < d.sectorSize)
    (hlt : d.sectorSize < 2 ^ 31) (hdisk : 512 ≤ d.diskSize / d.sectorSize * d.sectorSize)
    (st : σ) : ∃ buf st', (d.read 0 tableBuffer).run st = .ok buf st' ∧
      ∀ i < 512, buf.bytes i = image st i := by
  have hwhole := Nat.div_mul_le_self d.diskSize d.sectorSize
  have hfits : d.EndsFit 0 tableBuffer.size := by
    refine ⟨fun h => absurd (Nat.zero_mod _) h, fun htail => ⟨hlt, ?_⟩⟩
    refine (Nat.div_lt_iff_lt_mul hpos).mpr (lt_of_le_of_ne hdisk fun heq => htail ?_)
    show (0 + 512) % d.sectorSize = 0
    rw [show 0 + 512 = _ from heq, Nat.mul_mod_left]
  obtain ⟨buf, st', log, hrun, -, -, hbytes⟩ := Disk.read_completes hread hpos 0 tableBuffer st
    (show 0 + 512 ≤ d.diskSize by omega) (by decide) hfits
  have hplain := Disk.forgets_read d 0 tableBuffer st []
  rw [hrun] at hplain
  refine ⟨buf, st', hplain, fun i hi => ?_⟩
  rw [hbytes i hi, Disk.sourceOf, if_neg (by simp), Nat.zero_add]

/-- The partitions depend on the first 512 bytes only. -/
theorem partitionsOf_congr {buf buf' : Bytes} (h : ∀ i < 512, buf i = buf' i) :
    partitionsOf buf = partitionsOf buf' := by
  have hentry : ∀ address ∈ addresses, entryAt buf address = entryAt buf' address := by
    intro address haddress
    have hle : address + 16 ≤ 512 := by
      simp only [addresses, List.mem_cons, List.not_mem_nil, or_false] at haddress
      omega
    unfold entryAt
    congr 1
    exact Bytes.trunc_eq_trunc.mpr fun i hi => h _ (by
      simp only [PartitionData.dataSize] at hi
      omega)
  unfold partitionsOf
  rw [h 0x1fe (by decide), h 0x1ff (by decide)]
  split
  · rfl
  · refine List.filterMap_congr fun ⟨address, i⟩ hmem => ?_
    unfold createPartition
    dsimp only
    rw [hentry address (List.fst_mem_of_mem_zipIdx hmem)]

/-- `read_partitions` of a disk that has a table makes the partitions of that table. -/
theorem run_readPartitions (hread : d.ReadsImage image) (hpos : 0 < d.sectorSize)
    (hlt : d.sectorSize < 2 ^ 31) (hdisk : 512 ≤ d.diskSize / d.sectorSize * d.sectorSize)
    (st : σ) : ∃ st', (readPartitions d).run st = .ok (partitionsOf (image st)) st' := by
  obtain ⟨buf, st', hrun, hbytes⟩ := run_readTable hread hpos hlt hdisk st
  refine ⟨st', ?_⟩
  show readPartitions d st = _
  unfold readPartitions
  rw [hrun]
  dsimp only
  rw [partitionsOf_congr hbytes]

/-! ## Which partitions are made -/

/-- The first 512 bytes end with the signature of a partition table. -/
def Signed (m : Bytes) : Prop := m 0x1fe = 0x55 ∧ m 0x1ff = 0xAA

instance (m : Bytes) : Decidable (Signed m) := inferInstanceAs (Decidable (_ ∧ _))

/-- The partition lies on the disk. -/
def Partition.Fits (p : Partition) (parent : Disk σ) : Prop :=
  p.offset + p.size ≤ parent.diskSize / parent.sectorSize

/-- Every partition that `read_partitions` makes comes from a signed table and fits on the disk. -/
def PartitionsSound (d : Disk σ) (image : σ → Bytes) (st : σ) : Prop :=
  ∀ partitions st', (readPartitions d).run st = .ok partitions st' →
    ∀ p ∈ partitions, Signed (image st) ∧ p.Fits d

/-- A table with a right signature byte yields its active entries. -/
theorem mem_partitionsOf {m : Bytes} {p : Partition} :
    p ∈ partitionsOf m ↔ (m 0x1fe = 0x55 ∨ m 0x1ff = 0xAA) ∧
      ∃ address i, (address, i) ∈ addresses.zipIdx ∧ (entryAt m address).bootFlag = 0x80 ∧
        p = ⟨(entryAt m address).relativeSector, (entryAt m address).sectorCount, i + 1,
          entryAt m address⟩ := by
  unfold partitionsOf
  split
  case isTrue h =>
    simp only [List.not_mem_nil, false_iff, not_and]
    intro hor
    exact absurd hor (not_or.mpr h)
  case isFalse h =>
    rw [not_and_or, not_not, not_not] at h
    simp only [h, true_and, List.mem_filterMap, Prod.exists, createPartition,
      Option.ite_none_right_eq_some, Option.some.injEq, eq_comm (a := p)]

/-- The partitions are those of a signed table and fit on the disk exactly when both bytes of the
signature are wrong, so that none is made, or the table is signed and its active entries fit
unless it has none. -/
theorem partitions_sound_iff (hread : d.ReadsImage image) (hpos : 0 < d.sectorSize)
    (hlt : d.sectorSize < 2 ^ 31) (hdisk : 512 ≤ d.diskSize / d.sectorSize * d.sectorSize)
    (st : σ) : PartitionsSound d image st ↔
      (image st 0x1fe ≠ 0x55 ∧ image st 0x1ff ≠ 0xAA) ∨
        ∀ address ∈ addresses, (entryAt (image st) address).bootFlag = 0x80 →
          Signed (image st) ∧ (entryAt (image st) address).relativeSector +
            (entryAt (image st) address).sectorCount ≤ d.diskSize / d.sectorSize := by
  obtain ⟨st', hrun⟩ := run_readPartitions hread hpos hlt hdisk st
  have hsound : PartitionsSound d image st ↔
      ∀ p ∈ partitionsOf (image st), Signed (image st) ∧ p.Fits d := by
    refine ⟨fun h => h _ _ hrun, fun h partitions t ht => ?_⟩
    cases hrun.symm.trans ht
    exact h
  rw [hsound]
  refine ⟨fun h => ?_, fun h p hp => ?_⟩
  · rw [or_iff_not_imp_left, not_and_or, not_not, not_not]
    intro hbyte address haddress hactive
    obtain ⟨i, hi, hget⟩ := List.getElem_of_mem haddress
    exact h _ (mem_partitionsOf.mpr ⟨hbyte, address, i,
      List.mk_mem_zipIdx_iff_getElem?.mpr (List.getElem?_eq_some_iff.mpr ⟨hi, hget⟩), hactive, rfl⟩)
  · obtain ⟨hbyte, address, i, hmem, hactive, rfl⟩ := mem_partitionsOf.mp hp
    rcases h with hwrong | h
    · exact absurd hbyte (not_or.mpr hwrong)
    · exact h address (List.fst_mem_of_mem_zipIdx hmem) hactive

/-- The start of a disk with one active entry in its table, for one sector from sector 1 on. -/
def sampleTable (low high : UInt8) : Bytes := fun i =>
  if i = 0x1BE then 0x80 else if i = 0x1C6 then 1 else if i = 0x1CA then 1
  else if i = 0x1fe then low else if i = 0x1ff then high else 0

/-- A signed table of a disk with two sectors. -/
theorem partitions_sound_signed :
    PartitionsSound (memoryDisk 1024 false) id (sampleTable 0x55 0xAA) :=
  (partitions_sound_iff (memory_disk_reads_image false (by decide)) (by decide) (by decide)
    (by decide) _).mpr (.inr (by simp only [addresses]; decide))

/-- A table with only the first byte of the signature is taken for a signed one. -/
theorem unsigned_table_accepted :
    (memoryDisk 1024 false).ReadsImage id ∧
      ¬ PartitionsSound (memoryDisk 1024 false) id (sampleTable 0x55 0) := by
  have hread : (memoryDisk 1024 false).ReadsImage id := memory_disk_reads_image false (by decide)
  refine ⟨hread, fun h => ?_⟩
  obtain ⟨st', hrun⟩ := run_readPartitions hread (by decide) (by decide) (by decide)
    (sampleTable 0x55 0)
  have hmem : (⟨1, 1, 1, entryAt (sampleTable 0x55 0) 0x1BE⟩ : Partition) ∈
      partitionsOf (sampleTable 0x55 0) :=
    mem_partitionsOf.mpr ⟨.inl rfl, 0x1BE, 0, by simp [addresses], rfl, rfl⟩
  exact absurd (h _ _ hrun _ hmem).1.2 (by decide)

end LudOS.Fs.Mbr
