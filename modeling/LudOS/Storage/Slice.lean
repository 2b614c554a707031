import LudOS.Storage.Disk

/-!
# Partitions

The model of `DiskSlice`, the window of `m_size` sectors from `m_offset` on that a partition is on
its disk. The window is checked where sectors are requested, with 32-bit arithmetic that may wrap.
The byte-level operations compute the sectors they request by dividing byte offsets by the sector
size, which keeps them far below the numbers that wrap, so that no call reaches a sector of the
disk outside of the window: `slice_confined`.
-/

namespace LudOS.Storage

open Lib

variable {σ : Type}

namespace DiskSlice

/-- `DiskSlice::read_sectors`. -/
def readSectors (base : Disk σ) (offset size sector : Nat) (data : Span) (st : σ) :
    Except DiskError Span × σ :=
  let count := data.size / base.sectorSize
  if size < wadd sector count then (.error .outOfBounds, st)
  else base.readSectors (wadd sector offset) data st

/-- `DiskSlice::write_sectors`. -/
def writeSectors (base : Disk σ) (offset size sector : Nat) (data : Span) (st : σ) :
    Except DiskError Unit × σ :=
  if size < wadd sector (data.size / base.sectorSize) then (.error .outOfBounds, st)
  else base.writeSectors (wadd sector offset) data st

end DiskSlice

/-- `DiskSlice`: `size` sectors of the base disk from sector `offset` on. `enable_caching` never
turns caching on, so its sector operations are the only ones that run. -/
def diskSlice (base : Disk σ) (offset size : Nat) : Disk σ where
  diskSize := wmul size base.sectorSize
  sectorSize := base.sectorSize
  readOnly := base.readOnly
  caching := false
  readSectors := DiskSlice.readSectors base offset size
  writeSectors := DiskSlice.writeSectors base offset size
  cacheReadSectors := DiskSlice.readSectors base offset size
  cacheWriteSectors := DiskSlice.writeSectors base offset size

/-- The sector operations of a slice are its own, as it is never cached. -/
theorem diskSlice_readCacheSectors (base : Disk σ) (offset size sector : Nat) (data : Span)
    (st : σ) : (diskSlice base offset size).readCacheSectors sector data st =
      DiskSlice.readSectors base offset size sector data st := rfl

theorem diskSlice_writeCacheSectors (base : Disk σ) (offset size sector : Nat) (data : Span)
    (st : σ) : (diskSlice base offset size).writeCacheSectors sector data st =
      if base.readOnly then (.error .readOnly, st)
      else DiskSlice.writeSectors base offset size sector data st := by
  unfold Disk.writeCacheSectors diskSlice
  cases base.readOnly <;> rfl

namespace Disk

variable {inv : σ → Prop}

/-- A sector read fills the span it is given and does not change its size. -/
def FillsSpans (d : Disk σ) : Prop :=
  ∀ sector data st filled st', d.readSectors sector data st = (.ok filled, st') →
    filled.size = data.size

/-- A call of `Disk::read` or `Disk::write`. -/
inductive Access where
  | read (offset : Nat) (data : Span)
  | write (offset : Nat) (data : Span)

/-- The byte offset of the call. -/
def Access.offset : Access → Nat
  | read offset _ => offset
  | write offset _ => offset

/-- Make the call. -/
def access (d : Disk σ) : Access → EStateM Stop σ Unit
  | .read offset data => do
    let _ ← d.read offset data
    pure ()
  | .write offset data => d.write offset data

/-- The request is for whole sectors inside of the window. -/
def InWindow (d : Disk σ) (offset size : Nat) (r : Request) : Prop :=
  ∃ n, r.size = n * d.sectorSize ∧ offset ≤ r.sector ∧ r.sector + n ≤ offset + size

/-! ## Sector requests -/

/-- All requests so far were for sectors of the window. -/
def Confined (d : Disk σ) (offset size : Nat) (st : σ × List Request) : Prop :=
  ∀ r ∈ st.2, d.InWindow offset size r

theorem keeps_attempt {α : Type} {op : σ → Except DiskError α × σ}
    (hop : ∀ st, inv st → inv (op st).2) : Keeps inv (attempt op) := hop

theorem keeps_perform {α : Type} {op : σ → Except DiskError α × σ}
    (hop : ∀ st, inv st → inv (op st).2) : Keeps inv (perform op) := by
  refine keeps_bind (keeps_attempt hop) fun r _ _ _ => ?_
  cases r with
  | ok a => exact keeps_pure a
  | error e => exact keeps_throw _

theorem keeps_buffer (n : Nat) : Keeps inv (buffer n) := by
  unfold buffer
  split
  · exact keeps_pure _
  · exact keeps_throw _

section

variable {base : Disk σ} {offset size sector : Nat} (hwindow : offset + size < 2 ^ 32)

include hwindow

/-- A request whose sector numbers do not wrap stays inside of the window or is refused. -/
theorem confined_request {n : Nat} (hn : sector + n < 2 ^ 32)
    (hle : ¬ size < wadd sector n) {st : σ × List Request} (h : base.Confined offset size st) :
    ∀ r ∈ st.2 ++ [(⟨wadd sector offset, n * base.sectorSize⟩ : Request)],
      base.InWindow offset size r := by
  intro r hr
  rcases List.mem_append.mp hr with hr | hr
  · exact h r hr
  · rw [List.mem_singleton] at hr
    rw [wadd_of_lt hn] at hle
    subst hr
    refine ⟨n, rfl, ?_, ?_⟩ <;> dsimp only <;> rw [wadd_of_lt (by omega)] <;> omega

section

variable {sector n : Nat} {data : Span} (hpos : 0 < base.sectorSize) (hn : sector + n < 2 ^ 32)
  (hdata : data.size = n * base.sectorSize) (st : σ × List Request)
  (h : base.Confined offset size st)

include hpos hn hdata st h

theorem confined_read : base.Confined offset size
      ((diskSlice base.logged offset size).readCacheSectors sector data st).2 := by
  simp only [diskSlice_readCacheSectors, DiskSlice.readSectors, logged_sector_size, hdata,
    Nat.mul_div_cancel n hpos]
  split
  case isTrue => exact h
  case isFalse hle =>
    have hall := confined_request hwindow hn hle h
    simpa only [Confined, logged, hdata] using hall

theorem confined_write : base.Confined offset size
      ((diskSlice base.logged offset size).writeCacheSectors sector data st).2 := by
  simp only [diskSlice_writeCacheSectors, DiskSlice.writeSectors, logged_sector_size, hdata,
    Nat.mul_div_cancel n hpos]
  split
  case isTrue => exact h
  case isFalse =>
    split
    case isTrue => exact h
    case isFalse hle =>
      have hall := confined_request hwindow hn hle h
      simpa only [Confined, logged, hdata] using hall

end

/-! ## Byte-level calls -/

theorem keeps_copySector (hpos : 0 < base.sectorSize) (hn : sector + 1 < 2 ^ 32)
    (start n pos : Nat) (data : Span) : Keeps (base.Confined offset size)
      ((diskSlice base.logged offset size).copySector sector start n pos data) := by
  refine keeps_bind (keeps_buffer _) fun buf s s' hbuf => ?_
  have hsize : buf.size = 1 * base.sectorSize := by
    rw [(run_buffer_eq_ok.mp hbuf).1.2.1, Nat.one_mul]
    rfl
  refine keeps_bind (keeps_perform (confined_read hwindow hpos hn hsize)) fun _ _ _ _ => ?_
  exact keeps_bind (keeps_check _ _) fun _ _ _ _ => keeps_pure _

theorem keeps_readAligned (hss : 512 ≤ base.sectorSize) (hsector : sector < 2 ^ 31)
    (pos n : Nat) (data : Span) : Keeps (base.Confined offset size)
      ((diskSlice base.logged offset size).readAligned sector pos n data) := by
  unfold readAligned
  split
  case isFalse => exact keeps_throw _
  case isTrue hlt =>
    refine keeps_bind (keeps_check _ _) fun _ s s' hcheck => ?_
    have hmod : n % base.sectorSize = 0 := (run_check_eq_ok.mp hcheck).1
    have hwhole := Nat.div_add_mod' n base.sectorSize
    have hcount := Nat.div_le_self n base.sectorSize
    refine keeps_bind (keeps_perform (confined_read hwindow (by omega)
      (show sector + n / base.sectorSize < 2 ^ 32 by omega) (by
        show n = _
        omega))) fun _ _ _ _ => ?_
    exact keeps_bind (keeps_check _ _) fun _ _ _ _ => keeps_pure _

/-- The sectors that `Disk::read` requests are quotients of 32-bit numbers. -/
theorem keeps_read (hss : 512 ≤ base.sectorSize) {off : Nat} (hoff : off < 2 ^ 32) (data : Span) :
    Keeps (base.Confined offset size) ((diskSlice base.logged offset size).read off data) := by
  have hquot : ∀ k < 2 ^ 32, k / base.sectorSize < 2 ^ 23 := by
    intro k hk
    have hle := Nat.div_le_div_left hss (show 0 < 512 by omega) (a := k)
    omega
  have hpos : 0 < base.sectorSize := by omega
  have hfirst := hquot off hoff
  refine keeps_bind ?_ fun data1 _ _ _ => keeps_bind ?_ fun data2 _ _ _ => ?_
  · split
    · exact keeps_copySector hwindow hpos (show off / base.sectorSize + 1 < _ by omega) _ _ _ _
    · exact keeps_pure _
  · have hlast := hquot (wadd off data1.size) (Nat.mod_lt _ (by omega))
    split
    · exact keeps_copySector hwindow hpos
        (show wadd off data1.size / base.sectorSize + 1 < _ by omega) _ _ _ _
    · exact keeps_pure _
  · split
    · exact keeps_readAligned hwindow hss (show off / base.sectorSize < _ by omega) _ _ _
    · exact keeps_pure _

variable (hfills : base.FillsSpans)

include hfills

theorem keeps_rewriteSector (hpos : 0 < base.sectorSize) (hn : sector + 1 < 2 ^ 32)
    (byteOff : Nat) (src : Span) : Keeps (base.Confined offset size)
      ((diskSlice base.logged offset size).rewriteSector sector byteOff src) := by
  refine keeps_bind (keeps_buffer _) fun buf s s' hbuf => ?_
  have hsize : buf.size = 1 * base.sectorSize := by
    rw [(run_buffer_eq_ok.mp hbuf).1.2.1, Nat.one_mul]
    rfl
  refine keeps_bind (keeps_attempt (confined_read hwindow hpos hn hsize)) fun r t t' hread => ?_
  cases r with
  | error e => exact keeps_throw _
  | ok sect =>
    refine keeps_bind (keeps_check _ _) fun _ _ _ _ => ?_
    refine keeps_perform (confined_write hwindow hpos hn ?_)
    -- The sector that is written back has the size of the buffer it was read into.
    rw [Span.size_put, ← hsize]
    rw [run_attempt, diskSlice_readCacheSectors, DiskSlice.readSectors] at hread
    have hok := (EStateM.Result.ok.inj hread).1
    split at hok
    · cases hok
    · exact hfills _ _ _ _ _ (Prod.ext hok rfl)

theorem keeps_writeOffsetedSector (hpos : 0 < base.sectorSize)
    (hn : sector + 2 < 2 ^ 32) (byteOff : Nat) (data : Span) : Keeps (base.Confined offset size)
      ((diskSlice base.logged offset size).writeOffsetedSector sector byteOff data) := by
  refine keeps_bind (keeps_check _ _) fun _ _ _ _ => ?_
  refine keeps_bind (keeps_check _ _) fun _ _ _ _ => ?_
  refine keeps_bind (keeps_rewriteSector hwindow hfills hpos (by omega) _ _) fun _ _ _ _ => ?_
  exact keeps_rewriteSector hwindow hfills hpos (by rw [wadd_of_lt (by omega)]; omega) _ _

/-- The chunks from index `i` on. -/
theorem keeps_writeChunks (hpos : 0 < base.sectorSize) (chunks : List Span)
    (count i off : Nat) (hn : sector + (i + count) + 1 < 2 ^ 32) : Keeps (base.Confined offset size)
      ((diskSlice base.logged offset size).writeChunks chunks sector count i off) := by
  induction count generalizing i off with
  | zero => exact keeps_pure ()
  | succ count ih =>
    unfold writeChunks
    split
    · exact keeps_throw _
    · refine keeps_bind (keeps_writeOffsetedSector hwindow hfills hpos ?_ _ _) fun _ _ _ _ => ?_
      · rw [wadd_of_lt (by omega)]
        omega
      · exact ih (i + 1) _ (by omega)

theorem keeps_write (hss : 512 ≤ base.sectorSize) {off : Nat} (hoff : off < 2 ^ 32) (data : Span) :
    Keeps (base.Confined offset size) ((diskSlice base.logged offset size).write off data) := by
  have hfirst := Nat.div_le_div_left hss (show 0 < 512 by omega) (a := off)
  have hsize := data.size_lt
  have hcount : chunkCount data.size base.sectorSize ≤ 2 ^ 22 := by
    by_contra hgt
    have hlast := chunk_count_pred_lt (show 0 < base.sectorSize by omega) (Nat.lt_of_not_le hgt)
    have hmul := Nat.mul_le_mul_left (2 ^ 22) hss
    omega
  unfold write
  split
  · exact keeps_throw _
  · exact keeps_writeChunks hwindow hfills (by omega) _ _ _ _
      (show off / base.sectorSize + (0 + chunkCount data.size base.sectorSize) + 1 < _ by omega)

end

/-- A partition is airtight: whatever `read` and `write` are called with, up to the call that
returns an error or fails an assertion, no sector of the disk outside of the window is requested. -/
theorem slice_confined {base : Disk σ} {offset size : Nat} (hfills : base.FillsSpans)
    (hss : 512 ≤ base.sectorSize) (hwindow : offset + size < 2 ^ 32) (accesses : List Access)
    (hoff : ∀ a ∈ accesses, a.offset < 2 ^ 32) (st : σ) :
    ∀ r ∈ (endState (each (diskSlice base.logged offset size).access accesses) (st, [])).2,
      base.InWindow offset size r := by
  have hkeeps : Keeps (base.Confined offset size)
      (each (diskSlice base.logged offset size).access accesses) := by
    refine keeps_each fun a ha => ?_
    have hlt := hoff a ha
    cases a with
    | read off data =>
      exact keeps_bind (keeps_read hwindow hss hlt data) fun _ _ _ _ => keeps_pure ()
    | write off data => exact keeps_write hwindow hfills hss hlt data
  exact hkeeps (st, []) (by simp [Confined])

theorem memory_disk_fills_spans (size : Nat) (isConst : Bool) :
    (memoryDisk size isConst).FillsSpans := by
  intro sector data st filled st' hread
  cases hread
  rfl

/-- A write that runs over the end of a partition of two sectors, after a read of it. -/
theorem slice_confined_over_end :
    ∃ st, st = endState (each (diskSlice (memoryDisk 4096 false).logged 3 2).access
        [.read 0 ⟨fun _ => 0, 1024, by decide⟩, .write 600 ⟨fun _ => 7, 500, by decide⟩])
        ((fun _ => 0 : Bytes), []) ∧ ∀ r ∈ st.2, (memoryDisk 4096 false).InWindow 3 2 r :=
  ⟨_, rfl, slice_confined (memory_disk_fills_spans 4096 false) (by decide) (by decide) _
    (by simp [Access.offset]) _⟩

end Disk

end LudOS.Storage
