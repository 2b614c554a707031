import Mathlib.Data.Nat.Digits.Defs
import LudOS.Lib.Bytes
import LudOS.Lib.Program
import LudOS.Mem.PhysAllocator
import LudOS.Utils.Span

/-!
# Disk controllers

What the drivers of `drivers/storage` make of a request: `ide/ide_pio.cpp` moves one sector after
the other, `ahci/ahci.cpp` and `ide/ide_dma.cpp` describe the transfer to the controller. A single
sector that is moved, and the translation of addresses by the page tables, are taken as they are.

`pio_transfers_iff`, `ahci_describes_iff` and `dma_describes_iff` say which requests come out right.
-/

namespace LudOS.Storage.Controllers

open Lib
open Mem (pageSize)

/-! ## Programmed input and output -/

/-- `identify_data`, as far as `sector_size` reads it; `identify` takes no other drives. -/
structure IdentifyData where
  sectorSize : Nat
  accepted : sectorSize = 0

/-- `IDEDisk::sector_size`. -/
def sectorSize : Option IdentifyData → Nat
  | some data => if data.sectorSize * 2 ≠ 0 then data.sectorSize * 2 else 512
  | none => 512

/-- All drives that are taken have sectors of 512 bytes. -/
theorem sectorSize_eq (data : Option IdentifyData) : sectorSize data = 512 := by
  cases data with
  | none => rfl
  | some data => rw [sectorSize, data.accepted, if_neg (by decide)]

/-- The sectors of a drive, and the memory. -/
structure PioState where
  disk : Nat → Bytes
  memory : Bytes

/-- A transfer, which can fail. -/
abbrev PioAction := EStateM Unit PioState

/-- The bytes of the drive from a sector on. -/
def PioState.from (s : PioState) (sector : Nat) : Bytes :=
  fun i => s.disk (sector + i / 512) (i % 512)

section

variable (succeeds : Nat → Bool) (idData : Option IdentifyData)

/-- `read_one`, if it succeeds for the block. -/
def readOne (block buf : Nat) : PioAction Unit := do
  check () (succeeds block = true)
  modify fun s => { s with memory := s.memory.splice buf 512 (s.disk block) }

/-- `write_one`. -/
def writeOne (block buf : Nat) : PioAction Unit := do
  check () (succeeds block = true)
  modify fun s =>
    { s with disk := Function.update s.disk block ((s.memory.view buf).trunc 512) }

/-- `ide::pio::read`. -/
def read : (block count buf : Nat) → PioAction Unit
  | _, 0, _ => pure ()
  | block, count + 1, buf => do
    readOne succeeds block buf
    read (block + 1) count (buf + 512)

/-- `ide::pio::write`. -/
def write : (block count buf : Nat) → PioAction Unit
  | _, 0, _ => pure ()
  | block, count + 1, buf => do
    writeOne succeeds block buf
    write (block + 1) count (buf + 512)

/-- `ide::pio::Disk::read_sectors`. The size of the span is not looked at. -/
def readSectors (sector data _size : Nat) : PioAction Unit :=
  read succeeds sector (sectorSize idData) data

/-- `ide::pio::Disk::write_sectors`. -/
def writeSectors (sector data size : Nat) : PioAction Unit :=
  write succeeds sector (chunkCount size (sectorSize idData)) data

/-- A read of `k` sectors fills the span with them and changes nothing else, and it returns what a
write of a span of the same size has written. -/
def Transfers (sector data k : Nat) : Prop :=
  (∀ s, (readSectors succeeds idData sector data (k * 512)).run s =
    .ok () { s with memory := s.memory.splice data (k * 512) (s.from sector) }) ∧
  ∀ s src, ∃ s', (do
      writeSectors succeeds idData sector src (k * 512)
      readSectors succeeds idData sector data (k * 512)).run s = .ok () s' ∧
    ∀ i < k * 512, s'.memory (data + i) = s.memory (src + i)

variable {succeeds idData} (hsucceeds : ∀ block, succeeds block = true)

include hsucceeds

/-- What a write of several sectors does. -/
theorem run_write (s : PioState) (block count buf : Nat) :
    ∃ disk, (write succeeds block count buf).run s = .ok () { s with disk } ∧
      (∀ i < count, disk (block + i) = (s.memory.view (buf + i * 512)).trunc 512) ∧
      ∀ b < block, disk b = s.disk b := by
  induction count generalizing s block buf with
  | zero => exact ⟨s.disk, rfl, fun i hi => absurd hi (Nat.not_lt_zero i), fun _ _ => rfl⟩
  | succ count ih =>
    have hone : (writeOne succeeds block buf).run s = .ok () { s with
        disk := Function.update s.disk block ((s.memory.view buf).trunc 512) } :=
      run_check_bind (hsucceeds block)
    obtain ⟨disk, hrest, hwritten, hbefore⟩ := ih { s with
      disk := Function.update s.disk block ((s.memory.view buf).trunc 512) } (block + 1) (buf + 512)
    refine ⟨disk, (run_bind_ok hone).trans hrest, fun i hi => ?_, fun b hb => ?_⟩
    · cases i with
      | zero => simpa using hbefore block (Nat.lt_succ_self block)
      | succ i =>
        rw [show block + (i + 1) = block + 1 + i by omega, hwritten i (by omega),
          show buf + 512 + i * 512 = buf + (i + 1) * 512 by omega]
    · rw [hbefore b (by omega)]
      exact Function.update_of_ne (by omega) _ _

end

/-- Which frames the pages are mapped to. -/
structure PageMap where
  frame : Nat → Nat
  lt : ∀ page, frame page < 2 ^ 20

/-- `Memory::physical_address`. -/
def PageMap.physicalAddress (m : PageMap) (v : Nat) : Nat :=
  m.frame (v / pageSize) * pageSize + v % pageSize

/-- The physical addresses of the bytes of a buffer. -/
def PageMap.bytes (m : PageMap) (buf size : Nat) : List Nat :=
  (List.range size).map fun i => m.physicalAddress (buf + i)

/-- The addresses of the bytes of segments, which are given by address and size. -/
def segmentBytes (segments : List (Nat × Nat)) : List Nat :=
  segments.flatMap fun s => List.range' s.1 s.2

/-- The low bytes of a number, the lowest one first. -/
def lowBytes (n value : Nat) : List Nat := (List.range n).map fun k => value / 2 ^ (8 * k) % 2 ^ 8

/-! ## Commands of the AHCI controller -/

/-- `PrdtEntry`. The upper half of an address is zero, since pointers have 32 bits. -/
structure PrdtEntry where
  dba : Nat := 0
  dbc : Nat := 0

/-- The sizes of tables in the headers of a port, and its command table: the entries, and the bytes
of the sector and of the count in the `FisRegH2D`. -/
structure AhciPort where
  prdtl : Nat → Nat
  entries : Nat → PrdtEntry
  lba : List Nat
  count : List Nat

/-- `mkprd`. -/
def mkprd (addr bytes : Nat) : Option PrdtEntry :=
  if bytes ≤ 4 * 1024 * 1024 then some ⟨addr % 2 ^ 32, wsub bytes 1 % 2 ^ 22⟩ else none

section

variable (m : PageMap)

/-- The loop that fills the entries, `left` of them before the last one. The buffer is a pointer to
words. The count that is left is returned as well. -/
def fillEntries : (left buf count : Nat) → Option (List PrdtEntry × Nat)
  | 0, buf, count =>
    (mkprd (m.physicalAddress buf) (wmul count 512)).map fun entry => ([entry], count)
  | left + 1, buf, count =>
    (mkprd (m.physicalAddress buf) (4 * 1024 * 1024)).bind fun entry =>
      (fillEntries left (wadd buf (2 * (4 * 1024 * 1024))) (wsub count 8)).map fun rest =>
        (entry :: rest.1, rest.2)

/-- What `issue_read_command` and `issue_write_command` have built when the command is issued, with
`hdr` the header that they fill. -/
def buildCommand (hdr sector count buf : Nat) (p : AhciPort) : Option AhciPort :=
  let prdtl := (wsub count 1 / 2 ^ 4 + 1) % 2 ^ 16
  (fillEntries m (prdtl - 1) buf count).map fun filled =>
    ⟨Function.update p.prdtl hdr prdtl, fun j => filled.1[j]?.getD (p.entries j),
      lowBytes 6 sector, lowBytes 2 filled.2⟩

/-- `issue_read_command`, or `issue_write_command`, which adds the slot to the pointer to the header
once more. -/
def issueCommand (write : Bool) (slot : Nat) :=
  buildCommand m (if write then slot + slot else slot)

/-- The command of the slot is for the sectors, and its entries are the bytes of the buffer. -/
structure AhciPort.Describes (p : AhciPort) (slot sector count buf : Nat) : Prop where
  segments : segmentBytes ((List.range (p.prdtl slot)).map fun j =>
    ((p.entries j).dba, (p.entries j).dbc + 1)) = m.bytes buf (count * 512)
  sector : Nat.ofDigits 256 p.lba = sector
  count : Nat.ofDigits 256 p.count = count

variable {m} {write : Bool} {slot sector count buf : Nat} {p p' : AhciPort}

/-- The first of several entries has the largest size. -/
theorem fillEntries_first {left : Nat} {filled : List PrdtEntry × Nat}
    (h : fillEntries m left buf count = some filled) (hleft : left ≠ 0) :
    ∃ entry rest, filled.1 = entry :: rest ∧ entry.dbc + 1 = 4 * 1024 * 1024 := by
  obtain ⟨left, rfl⟩ := Nat.exists_eq_succ_of_ne_zero hleft
  obtain ⟨entry, hentry, h⟩ := Option.bind_eq_some_iff.mp h
  obtain ⟨rest, -, rfl⟩ := Option.map_eq_some_iff.mp h
  cases hentry
  exact ⟨_, rest.1, rfl, rfl⟩

/-- One segment covers a buffer that is contiguous in physical memory. -/
theorem bytes_eq_range'_iff {a n : Nat} : List.range' a n = m.bytes buf n ↔
    ∀ i < n, m.physicalAddress (buf + i) = a + i := by
  unfold PageMap.bytes
  rw [List.range'_eq_map_range, List.map_inj_left]
  simp only [List.mem_range, eq_comm]

theorem PageMap.physicalAddress_lt (v : Nat) : m.physicalAddress v < 2 ^ 32 := by
  have := m.lt (v / pageSize)
  unfold physicalAddress pageSize at *
  omega

/-- Up to 16 sectors are described by one entry. -/
theorem issueCommand_small (hcount : 1 ≤ count ∧ count ≤ 16) :
    issueCommand m write slot sector count buf p = some ⟨
      Function.update p.prdtl (if write then slot + slot else slot) 1,
      fun j => [⟨m.physicalAddress buf, count * 512 - 1⟩][j]?.getD (p.entries j),
      lowBytes 6 sector, lowBytes 2 count⟩ := by
  have hprdtl : (wsub count 1 / 2 ^ 4 + 1) % 2 ^ 16 = 1 := by
    rw [wsub_of_le hcount.1 (by omega)]
    omega
  unfold issueCommand buildCommand
  simp only [hprdtl, Nat.sub_self, fillEntries, mkprd]
  rw [wmul_of_lt (by omega), if_pos (show count * 512 ≤ 4 * 1024 * 1024 by omega),
    wsub_of_le (by omega) (by omega), Nat.mod_eq_of_lt (PageMap.physicalAddress_lt buf),
    Nat.mod_eq_of_lt (by omega)]
  rfl

/-- The entries are right if there is only one, and the buffer is contiguous in physical memory.
`issue_write_command` fills another header than that of the slot. -/
theorem ahci_describes_iff (hsector : sector < 2 ^ 48) (hcount : 1 ≤ count ∧ count ≤ 128) :
    (∃ p', issueCommand m write slot sector count buf p = some p' ∧
      p'.Describes m slot sector count buf) ↔
    count ≤ 16 ∧ (∀ i < count * 512, m.physicalAddress (buf + i) = m.physicalAddress buf + i) ∧
      (write = true → slot = 0 ∨ p.prdtl slot = 1) := by
  constructor
  · rintro ⟨p', hp', hsegments, -, -⟩
    have hlength := congrArg List.length hsegments
    have hsmall : count ≤ 16 := by
      by_contra hlarge
      obtain ⟨filled, hfilled, rfl⟩ := Option.map_eq_some_iff.mp hp'
      obtain ⟨entry, rest, hrest, hfirst⟩ := fillEntries_first hfilled
        (by rw [wsub_of_le hcount.1 (by omega)]; omega)
      generalize AhciPort.prdtl _ slot = n at hlength
      cases n with
      | zero => simp [segmentBytes, PageMap.bytes] at hlength; omega
      | succ n =>
        simp [segmentBytes, PageMap.bytes, List.range_succ_eq_map, hrest] at hlength
        omega
    rw [issueCommand_small ⟨hcount.1, hsmall⟩] at hp'
    cases hp'
    generalize hn : AhciPort.prdtl _ slot = n at hsegments hlength
    have hone : n = 1 := by
      rcases n with _ | _ | n
      · simp [segmentBytes, PageMap.bytes] at hlength; omega
      · rfl
      · simp [segmentBytes, PageMap.bytes, List.range_succ_eq_map] at hlength; omega
    subst hone
    refine ⟨hsmall, bytes_eq_range'_iff.mp ?_, fun hwrite => ?_⟩
    · simpa [segmentBytes, show count * 512 - 1 + 1 = count * 512 by omega] using hsegments
    · subst hwrite
      simp [Function.update_apply] at hn
      omega
  · rintro ⟨hsmall, hbytes, hwrite⟩
    have hone : Function.update p.prdtl (if write then slot + slot else slot) 1 slot = 1 := by
      rw [Function.update_apply]
      grind
    refine ⟨_, issueCommand_small ⟨hcount.1, hsmall⟩, ?_, ?_, ?_⟩
    · simp only [hone]
      simpa [segmentBytes, show count * 512 - 1 + 1 = count * 512 by omega] using
        bytes_eq_range'_iff.mpr hbytes
    all_goals
      simp [lowBytes, List.range_succ, Nat.ofDigits_cons]
      omega

end

/-- Memory that is mapped to itself. -/
def identityMap : PageMap := ⟨fun page => page % 2 ^ 20, fun _ => Nat.mod_lt _ (by decide)⟩

/-- A port before its first command. -/
def idlePort : AhciPort := ⟨fun _ => 0, fun _ => {}, [], []⟩

/-- A read of one sector is described. -/
theorem ahci_describes_one : ∃ p', issueCommand identityMap false 0 0 1 0 idlePort = some p' ∧
    p'.Describes identityMap 0 0 1 0 :=
  (ahci_describes_iff (by decide) (by decide)).mpr ⟨by decide, fun i hi => by
    simp only [PageMap.physicalAddress, identityMap, pageSize]
    omega, by decide⟩

/-- A read of 17 sectors: the byte counts are too large, and the count of sectors is too small. -/
theorem ahci_describes_other : ∃ p', issueCommand identityMap false 0 0 17 0 idlePort = some p' ∧
    p'.prdtl 0 = 2 ∧ (p'.entries 0).dbc + 1 + ((p'.entries 1).dbc + 1) = 4 * 1024 * 1024 + 9 * 512 ∧
      Nat.ofDigits 256 p'.count = 9 :=
  ⟨_, rfl, by decide, by decide, by decide⟩

/-! ## Commands of the DMA controller -/

/-- `PRD`. -/
structure Prd where
  physBufAddr : Nat
  byteCount : Nat
  endOfPrdt : Bool

/-- `RWAction`. -/
inductive RWAction where
  | read
  | write

/-- What the controller is told: the command, the bytes of the sector and of the count, and the
table. -/
structure DmaCommand where
  command : Nat
  lba : List Nat
  count : List Nat
  table : List Prd

/-- `ata_read_dma_ex`. -/
def ataReadDmaEx : Nat := 0x25

/-- `ata_write_dma_ex`. -/
def ataWriteDmaEx : Nat := 0x35

/-- `PRDT` has room for so many entries. -/
def prdtSize : Nat := 0x10000 / 8

section

variable (m : PageMap)

/-- The loop of `prepare_prdt` from address `pg` to `stop`, with `room` entries left: it must not
write behind the table. -/
def fillPrdt (stop : Nat) : (room pg : Nat) → Option (List Prd)
  | 0, pg => if pg < stop then none else some []
  | room + 1, pg =>
    let addr := m.physicalAddress pg
    let last : Bool := pg / pageSize = stop / pageSize
    let size := if last then wsub (stop % pageSize) (pg % pageSize) else pageSize - addr % pageSize
    if pg < stop then
      if size < 4 * 1024 * 1024 then
        (fillPrdt stop room (wadd (pg / pageSize * pageSize) pageSize)).map
          (⟨addr, size % 2 ^ 16, last⟩ :: ·)
      else none
    else some []

/-- `do_read_write`, up to the start of the transfer. The command does not depend on the action. -/
def doReadWrite (idData : Option IdentifyData) (sector data size : Nat) (_action : RWAction) :
    Option DmaCommand :=
  (fillPrdt m (wadd data size) prdtSize data).map fun table =>
    ⟨ataReadDmaEx, lowBytes 6 sector, lowBytes 2 (chunkCount size (sectorSize idData)), table⟩

/-- The command is for the action and the sectors, where a count of zero stands for the largest one,
and the table is the buffer, with the mark at its end. -/
structure DmaCommand.Describes (c : DmaCommand) (sector data size : Nat) (action : RWAction) :
    Prop where
  command : c.command = action.casesOn ataReadDmaEx ataWriteDmaEx
  sector : Nat.ofDigits 256 c.lba = sector
  count : (if Nat.ofDigits 256 c.count = 0 then 2 ^ 16 else Nat.ofDigits 256 c.count) = size / 512
  segments : segmentBytes (c.table.map fun e => (e.physBufAddr, e.byteCount)) = m.bytes data size
  last : ∃ n, c.table.map Prd.endOfPrdt = List.replicate n false ++ [true]

variable {m} {stop room pg : Nat} {table : List Prd}

/-- A buffer in two parts. -/
theorem PageMap.bytes_append (buf n k : Nat) :
    m.bytes buf (n + k) = m.bytes buf n ++ m.bytes (buf + n) k := by
  simp [PageMap.bytes, List.range_add, Nat.add_assoc, Function.comp_def]

/-- Bytes within a page stay together. -/
theorem PageMap.bytes_of_page {n : Nat} (h : pg % pageSize + n ≤ pageSize) :
    List.range' (m.physicalAddress pg) n = m.bytes pg n :=
  bytes_eq_range'_iff.mpr fun i hi => by
    unfold physicalAddress
    rw [show (pg + i) / pageSize = pg / pageSize by unfold pageSize at *; omega]
    unfold pageSize at *
    omega

/-- The loop has ended. -/
theorem fillPrdt_of_le (h : stop ≤ pg) : fillPrdt m stop room pg = some [] := by
  cases room with
  | zero => exact if_neg (Nat.not_lt.mpr h)
  | succ room => exact if_neg (Nat.not_lt.mpr h)

/-- One iteration of the loop. -/
theorem fillPrdt_succ (hpg : pg < stop) : fillPrdt m stop (room + 1) pg =
    (fillPrdt m stop room (wadd (pg / pageSize * pageSize) pageSize)).map (⟨m.physicalAddress pg,
      if pg / pageSize = stop / pageSize then stop - pg else pageSize - pg % pageSize,
      pg / pageSize = stop / pageSize⟩ :: ·) := by
  have hoffset : m.physicalAddress pg % pageSize = pg % pageSize := by
    unfold PageMap.physicalAddress pageSize
    omega
  rw [fillPrdt, hoffset, if_pos hpg]
  by_cases hlast : pg / pageSize = stop / pageSize
  · simp only [hlast, decide_true, if_true]
    rw [wsub_of_le]
    all_goals unfold pageSize at *; grind
  · simp only [hlast, decide_false, if_false]
    unfold pageSize
    grind

/-- With enough room, and an end in the middle of a page that is not the last one, the table is the
buffer. -/
theorem exists_fillPrdt (hpg : pg < stop) (hstop : stop % pageSize ≠ 0)
    (hlt : stop ≤ 2 ^ 32 - pageSize) (hroom : (stop - 1) / pageSize - pg / pageSize < room) :
    ∃ table, fillPrdt m stop room pg = some table ∧
      segmentBytes (table.map fun e => (e.physBufAddr, e.byteCount)) = m.bytes pg (stop - pg) ∧
      ∃ n, table.map Prd.endOfPrdt = List.replicate n false ++ [true] := by
  induction room generalizing pg with
  | zero => exact absurd hroom (Nat.not_lt_zero _)
  | succ room ih =>
    have hnext : wadd (pg / pageSize * pageSize) pageSize = pg + (pageSize - pg % pageSize) := by
      unfold pageSize at *
      rw [wadd_of_lt (by omega)]
      omega
    rw [fillPrdt_succ hpg, hnext]
    by_cases hlast : pg / pageSize = stop / pageSize
    · rw [fillPrdt_of_le (by unfold pageSize at *; omega)]
      refine ⟨_, rfl, ?_, 0, by simp [hlast]⟩
      simp [segmentBytes, hlast, @PageMap.bytes_of_page m pg (stop - pg)
        (by unfold pageSize at *; omega)]
    · obtain ⟨table, htable, hsegments, n, hflags⟩ := @ih (pg + (pageSize - pg % pageSize))
        (by unfold pageSize at *; omega) (by unfold pageSize at *; omega)
      refine ⟨_, by rw [htable]; rfl, ?_, n + 1, by simp [hlast, hflags, List.replicate_succ]⟩
      rw [show stop - pg = pageSize - pg % pageSize + (stop - (pg + (pageSize - pg % pageSize))) by
        unfold pageSize at *; omega, PageMap.bytes_append, ← hsegments, ← PageMap.bytes_of_page
          (by unfold pageSize; omega)]
      simp [segmentBytes, hlast]

/-- A loop that has ended did not reach the last page, and has written the mark only if the end is
in the middle of a page. -/
theorem of_fillPrdt (h : fillPrdt m stop room pg = some table) :
    (true ∈ table.map Prd.endOfPrdt → stop % pageSize ≠ 0) ∧
      (pg < stop → stop ≤ 2 ^ 32 - pageSize ∧ (stop - 1) / pageSize - pg / pageSize < room) := by
  by_cases hpg : pg < stop
  · induction room generalizing pg table with
    | zero => rw [fillPrdt, if_pos hpg] at h; cases h
    | succ room ih =>
      rw [fillPrdt_succ hpg] at h
      obtain ⟨rest, hrest, rfl⟩ := Option.map_eq_some_iff.mp h
      by_cases hnext : wadd (pg / pageSize * pageSize) pageSize < stop
      · obtain ⟨hflags, hbound⟩ := ih hrest hnext
        unfold wadd pageSize at *
        grind
      · rw [fillPrdt_of_le (Nat.not_lt.mp hnext)] at hrest
        cases hrest
        unfold wadd pageSize at *
        grind
  · rw [fillPrdt_of_le (Nat.not_lt.mp hpg)] at h
    cases h
    grind

/-- The command is always that of a read, and the table has an end only if the buffer does not end
with a page. -/
theorem dma_describes_iff {idData : Option IdentifyData} {sector data k : Nat} {action : RWAction}
    (hsector : sector < 2 ^ 32) (hk : 1 ≤ k) (hend : data + k * 512 ≤ 2 ^ 32) :
    (∃ c, doReadWrite m idData sector data (k * 512) action = some c ∧
      c.Describes m sector data (k * 512) action) ↔
    action = .read ∧ (data + k * 512) % pageSize ≠ 0 ∧ data + k * 512 ≤ 2 ^ 32 - pageSize ∧
      (data + k * 512 - 1) / pageSize - data / pageSize < prdtSize := by
  constructor
  · rintro ⟨c, hc, hcommand, -, -, -, n, hlast⟩
    obtain ⟨table, htable, rfl⟩ := Option.map_eq_some_iff.mp hc
    obtain ⟨hflags, hbound⟩ := of_fillPrdt htable
    have hmark := hflags (by rw [hlast]; simp)
    have hlt : wadd data (k * 512) = data + k * 512 := by
      unfold wadd pageSize at *
      omega
    rw [hlt] at hmark hbound
    cases action with
    | read => exact ⟨rfl, hmark, hbound (by omega)⟩
    | write => cases hcommand
  · rintro ⟨rfl, hmark, hlt, hroom⟩
    obtain ⟨table, htable, hsegments, hlast⟩ := exists_fillPrdt (m := m) (by omega) hmark hlt hroom
    have hcount : chunkCount (k * 512) (sectorSize idData) = k := by
      rw [sectorSize_eq]
      unfold chunkCount
      grind
    unfold doReadWrite
    rw [wadd_of_lt (by unfold pageSize at *; omega), htable, hcount]
    refine ⟨_, rfl, rfl, ?_, ?_, ?_, hlast⟩
    · simp [lowBytes, List.range_succ, Nat.ofDigits_cons]
      omega
    · simp [lowBytes, List.range_succ, Nat.ofDigits_cons]
      unfold prdtSize pageSize at *
      split <;> omega
    · rw [hsegments, Nat.add_sub_cancel_left]

end

/-- A read of one sector to the start of memory is described. -/
theorem dma_describes_one : ∃ c, doReadWrite identityMap none 0 0 512 .read = some c ∧
    c.Describes identityMap 0 0 512 .read :=
  (@dma_describes_iff identityMap none 0 0 1 .read (by decide) (by decide) (by decide)).mpr
    ⟨rfl, by decide⟩

/-- A write of one sector is issued as a read. -/
theorem dma_describes_other : ∃ c, doReadWrite identityMap none 0 0 512 .write = some c ∧
    c.command = ataReadDmaEx ∧ ¬ c.Describes identityMap 0 0 512 .write :=
  ⟨_, rfl, rfl, fun h => absurd h.command (by decide)⟩

end LudOS.Storage.Controllers
