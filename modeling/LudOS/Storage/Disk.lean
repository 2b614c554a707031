import LudOS.Utils.Span

/-!
# Block devices

The model of `drivers/storage/disk.cpp`. A `Disk` packs the virtual functions of the class with
its flags; `σ` is the state of the device behind it, so a device may be a byte array, a slice of
another disk, or a disk that records the requests it gets. `Disk.read` and `Disk.write` are the
byte-level operations every file system goes through.

A stopped operation carries either the `Fault` that ended the kernel or the `DiskError` that the
call returns.
-/

namespace LudOS.Storage

open Lib

/-- `DiskError::Type`. -/
inductive DiskError where
  | outOfBounds
  | readOnly
  | badSector
  | noMedia
  | aborted
  | timeOut
  | unknown
  deriving DecidableEq, Repr

/-- Why a disk operation did not complete. -/
inductive Stop where
  | fault (f : Fault)
  | failed (e : DiskError)
  deriving DecidableEq, Repr

/-- A disk: the virtual functions of class `Disk`, its flags, and the sector operations of its
cache. A sector read gets the destination span and returns it filled. -/
structure Disk (σ : Type) where
  diskSize : Nat
  sectorSize : Nat
  readOnly : Bool
  caching : Bool
  readSectors : Nat → Span → σ → Except DiskError Span × σ
  writeSectors : Nat → Span → σ → Except DiskError Unit × σ
  cacheReadSectors : Nat → Span → σ → Except DiskError Span × σ
  cacheWriteSectors : Nat → Span → σ → Except DiskError Unit × σ

variable {σ α : Type}

/-- Call a device operation and look at its result. -/
def attempt (op : σ → Except DiskError α × σ) : EStateM Stop σ (Except DiskError α) :=
  fun s => .ok (op s).1 (op s).2

/-- Call a device operation and return its error, if there is one. -/
def perform (op : σ → Except DiskError α × σ) : EStateM Stop σ α := do
  match ← attempt op with
  | .ok a => pure a
  | .error e => throw (.failed e)

/-- A fresh buffer of `n` bytes as a span. -/
def buffer (n : Nat) : EStateM Stop σ Span :=
  if h : n < 2 ^ 31 then pure ⟨fun _ => 0, n, h⟩ else throw (.fault .outOfBounds)

theorem run_attempt (op : σ → Except DiskError α × σ) (s : σ) :
    (attempt op).run s = .ok (op s).1 (op s).2 := rfl

/-- A device operation completes exactly when it reports no error. -/
theorem run_perform_eq_ok {op : σ → Except DiskError α × σ} {s t : σ} {a : α} :
    (perform op).run s = .ok a t ↔ op s = (.ok a, t) := by
  rw [perform, run_bind_ok (run_attempt op s)]
  rcases h : op s with ⟨r, t'⟩
  cases r with
  | ok b => simp
  | error e =>
    simp only [Prod.mk.injEq, reduceCtorEq, false_and, iff_false]
    intro hrun
    cases hrun

theorem run_buffer_of_lt {n : Nat} (h : n < 2 ^ 31) (s : σ) :
    (buffer n).run s = .ok ⟨fun _ => 0, n, h⟩ s := by
  rw [buffer, dif_pos h]
  rfl

/-- A buffer can be had exactly when its size is a valid span size. -/
theorem run_buffer_eq_ok {n : Nat} {s t : σ} {b : Span} :
    (buffer n).run s = .ok b t ↔ (n < 2 ^ 31 ∧ b.size = n ∧ b.bytes = fun _ => 0) ∧ s = t := by
  by_cases h : n < 2 ^ 31
  · rw [run_buffer_of_lt h]
    constructor
    · intro hrun
      cases hrun
      exact ⟨⟨h, rfl, rfl⟩, rfl⟩
    · rintro ⟨⟨_, rfl, hb⟩, rfl⟩
      cases b
      simp_all
  · simp only [buffer, h, dite_false, false_and, iff_false]
    intro hrun
    cases hrun

namespace Disk

/-- `Disk::read_cache_sectors`. -/
def readCacheSectors (d : Disk σ) (sector : Nat) (data : Span) : σ → Except DiskError Span × σ :=
  if d.caching then d.cacheReadSectors sector data else d.readSectors sector data

/-- `Disk::write_cache_sectors`. -/
def writeCacheSectors (d : Disk σ) (sector : Nat) (data : Span) : σ → Except DiskError Unit × σ :=
  if d.readOnly then fun s => (.error .readOnly, s)
  else if d.caching then d.cacheWriteSectors sector data
  else d.writeSectors sector data

/-- Fetch one sector and copy its `n` bytes from `start` on to position `pos` of the span. Both
unaligned ends of `Disk::read` are read this way. -/
def copySector (d : Disk σ) (sector start n pos : Nat) (data : Span) : EStateM Stop σ Span := do
  let buf ← buffer d.sectorSize
  let buf ← perform (d.readCacheSectors sector buf)
  check (.fault .outOfBounds) (pos + n ≤ data.size)
  pure (data.put pos n (buf.bytes.view start))

/-- Read whole sectors straight into the `n` bytes at position `pos` of the span. -/
def readAligned (d : Disk σ) (sector pos n : Nat) (data : Span) : EStateM Stop σ Span :=
  if h : n < 2 ^ 31 then do
    check (.fault .assertion) (n % d.sectorSize = 0)
    let filled ← perform (d.readCacheSectors sector ⟨data.bytes.view pos, n, h⟩)
    check (.fault .outOfBounds) (pos + n ≤ data.size)
    pure (data.put pos n filled.bytes)
  else throw (.fault .outOfBounds)

/-- `Disk::read(offset, data)`. -/
def read (d : Disk σ) (offset : Nat) (data : Span) : EStateM Stop σ Span := do
  let sectSize := d.sectorSize
  let firstStrideSize := offset % sectSize
  let secondStrideSize := wadd offset data.size % sectSize
  let headSize := (sectSize - firstStrideSize) % sectSize
  let midStrideSize := wsub (wsub data.size headSize) secondStrideSize
  let data ←
    (if firstStrideSize ≠ 0 then
      d.copySector (offset / sectSize) firstStrideSize (sectSize - firstStrideSize) 0 data
    else pure data)
  let data ←
    (if secondStrideSize ≠ 0 then
      d.copySector (wadd offset data.size / sectSize) 0 secondStrideSize
        (wsub data.size secondStrideSize) data
    else pure data)
  if midStrideSize ≠ 0 then d.readAligned (offset / sectSize) headSize midStrideSize data
  else pure data

/-- One of the two passes of `write_offseted_sector`: read a sector, overwrite its bytes from
`byteOff` on, and write it back. -/
def rewriteSector (d : Disk σ) (sector byteOff : Nat) (src : Span) : EStateM Stop σ Unit := do
  let sect ← buffer d.sectorSize
  match ← attempt (d.readCacheSectors sector sect) with
  | .error _ => throw (.fault .assertion)
  | .ok sect =>
    check (.fault .assertion) (src.size ≤ wsub sect.size byteOff)
    perform (d.writeCacheSectors sector (sect.put byteOff src.size src.bytes))

/-- `Disk::write_offseted_sector`. -/
def writeOffsetedSector (d : Disk σ) (base byteOff : Nat) (data : Span) : EStateM Stop σ Unit := do
  let sectSize := d.sectorSize
  check (.fault .assertion) (data.size ≤ sectSize)
  check (.fault .assertion) (wadd data.size byteOff ≤ d.diskSize)
  let first := data.sub 0 (min (wsub sectSize byteOff) data.size)
  let second :=
    if wsub sectSize byteOff < data.size then
      data.sub (wsub sectSize byteOff) (data.size - wsub sectSize byteOff)
    else Span.empty
  d.rewriteSector base byteOff first
  d.rewriteSector (wadd base 1) 0 second

/-- The loop of `Disk::write`, with `count` chunks left from index `i` on. The offset is lowered by
a sector each time round. -/
def writeChunks (d : Disk σ) (chunks : List Span) (base : Nat) :
    (count i offset : Nat) → EStateM Stop σ Unit
  | 0, _, _ => pure ()
  | count + 1, i, offset =>
    match chunks[i]? with
    | none => throw (.fault .outOfBounds)
    | some chunk => do
      d.writeOffsetedSector (wadd base i) (offset % d.sectorSize) chunk
      writeChunks d chunks base count (i + 1) (wsub offset d.sectorSize)

/-- `Disk::write(offset, data)`. -/
def write (d : Disk σ) (offset : Nat) (data : Span) : EStateM Stop σ Unit :=
  if d.readOnly then throw (.failed .readOnly)
  else
    d.writeChunks (split data d.sectorSize) (offset / d.sectorSize)
      (chunkCount data.size d.sectorSize) 0 offset

/-- A sector request: the first sector and the number of bytes. -/
structure Request where
  sector : Nat
  size : Nat
  deriving DecidableEq, Repr

/-- The disk that records every sector request it gets before serving it. -/
def logged (d : Disk σ) : Disk (σ × List Request) where
  diskSize := d.diskSize
  sectorSize := d.sectorSize
  readOnly := d.readOnly
  caching := d.caching
  readSectors sector data st :=
    ((d.readSectors sector data st.1).1,
      (d.readSectors sector data st.1).2, st.2 ++ [⟨sector, data.size⟩])
  writeSectors sector data st :=
    ((d.writeSectors sector data st.1).1,
      (d.writeSectors sector data st.1).2, st.2 ++ [⟨sector, data.size⟩])
  cacheReadSectors sector data st :=
    ((d.cacheReadSectors sector data st.1).1,
      (d.cacheReadSectors sector data st.1).2, st.2 ++ [⟨sector, data.size⟩])
  cacheWriteSectors sector data st :=
    ((d.cacheWriteSectors sector data st.1).1,
      (d.cacheWriteSectors sector data st.1).2, st.2 ++ [⟨sector, data.size⟩])

@[simp] theorem logged_sector_size (d : Disk σ) : d.logged.sectorSize = d.sectorSize := rfl

theorem logged_read_cache_sectors (d : Disk σ) (sector : Nat) (data : Span) (st : σ)
    (log : List Request) : d.logged.readCacheSectors sector data (st, log) =
      ((d.readCacheSectors sector data st).1,
        (d.readCacheSectors sector data st).2, log ++ [⟨sector, data.size⟩]) := by
  by_cases h : d.caching <;> simp [readCacheSectors, logged, h]

/-! Recording the requests changes nothing else. -/

/-- The program on the recording disk does what the other one does. -/
def Forgets (x : EStateM Stop (σ × List Request) α) (y : EStateM Stop σ α) : Prop :=
  ∀ st log, match x.run (st, log) with
    | .ok a t => y.run st = .ok a t.1
    | .error e t => y.run st = .error e t.1

theorem forgets_pure (a : α) :
    Forgets (pure a : EStateM Stop (σ × List Request) α) (pure a : EStateM Stop σ α) :=
  fun _ _ => rfl

theorem forgets_throw (e : Stop) :
    Forgets (throw e : EStateM Stop (σ × List Request) α) (throw e : EStateM Stop σ α) :=
  fun _ _ => rfl

theorem Forgets.bind {β : Type} {x : EStateM Stop (σ × List Request) α} {y : EStateM Stop σ α}
    {f : α → EStateM Stop (σ × List Request) β} {g : α → EStateM Stop σ β} (hx : Forgets x y)
    (hf : ∀ a, Forgets (f a) (g a)) : Forgets (x >>= f) (y >>= g) := by
  intro st log
  have hfirst := hx st log
  cases h : x.run (st, log) with
  | ok a t =>
    rw [h] at hfirst
    rw [run_bind_ok h, run_bind_ok hfirst]
    exact hf a t.1 t.2
  | error e t =>
    rw [h] at hfirst
    rw [run_bind_error h]
    exact run_bind_error hfirst

theorem forgets_ite (c : Prop) [Decidable c] {x x' : EStateM Stop (σ × List Request) α}
    {y y' : EStateM Stop σ α} (h : Forgets x y) (h' : Forgets x' y') :
    Forgets (if c then x else x') (if c then y else y') := by
  by_cases hc : c
  · simpa [hc] using h
  · simpa [hc] using h'

theorem forgets_check (e : Stop) (c : Prop) [Decidable c] :
    Forgets (check e c : EStateM Stop (σ × List Request) Unit)
      (check e c : EStateM Stop σ Unit) := by
  unfold check
  split
  · exact forgets_pure ()
  · exact forgets_throw e

theorem forgets_buffer (n : Nat) :
    Forgets (buffer n : EStateM Stop (σ × List Request) Span) (buffer n) := by
  unfold buffer
  split
  · exact forgets_pure _
  · exact forgets_throw _

section

variable (d : Disk σ)

include d

theorem forgets_attempt_read (sector : Nat) (data : Span) :
    Forgets (attempt (d.logged.readCacheSectors sector data))
      (attempt (d.readCacheSectors sector data)) := by
  intro st log
  rw [run_attempt, run_attempt, logged_read_cache_sectors]

theorem forgets_perform_read (sector : Nat) (data : Span) :
    Forgets (perform (d.logged.readCacheSectors sector data))
      (perform (d.readCacheSectors sector data)) := by
  refine (forgets_attempt_read d sector data).bind fun r => ?_
  cases r with
  | ok filled => exact forgets_pure filled
  | error e => exact forgets_throw _

theorem forgets_copySector (sector start n pos : Nat) (data : Span) :
    Forgets (d.logged.copySector sector start n pos data)
      (d.copySector sector start n pos data) := by
  refine (forgets_buffer d.sectorSize).bind fun buf => ?_
  refine (forgets_perform_read d sector buf).bind fun filled => ?_
  exact (forgets_check _ _).bind fun _ => forgets_pure _

theorem forgets_readAligned (sector pos n : Nat) (data : Span) :
    Forgets (d.logged.readAligned sector pos n data) (d.readAligned sector pos n data) := by
  unfold readAligned
  split
  · refine (forgets_check _ _).bind fun _ => ?_
    refine (forgets_perform_read d sector _).bind fun filled => ?_
    exact (forgets_check _ _).bind fun _ => forgets_pure _
  · exact forgets_throw _

/-- A read of the recording disk is a read of the disk. -/
theorem forgets_read (offset : Nat) (data : Span) :
    Forgets (d.logged.read offset data) (d.read offset data) := by
  refine Forgets.bind (forgets_ite _ (forgets_copySector d _ _ _ _ _) (forgets_pure _))
    fun data1 => ?_
  refine Forgets.bind (forgets_ite _ (forgets_copySector d _ _ _ _ _) (forgets_pure _))
    fun data2 => ?_
  exact forgets_ite _ (forgets_readAligned d _ _ _ _) (forgets_pure _)

end

/-- The requested sectors all exist. -/
def InRange (d : Disk σ) (r : Request) : Prop :=
  ∀ k < r.size / d.sectorSize, r.sector + k < d.diskSize / d.sectorSize

theorem in_range_sector {d : Disk σ} (hpos : 0 < d.sectorSize) {sector : Nat} :
    d.InRange ⟨sector, d.sectorSize⟩ ↔ sector < d.diskSize / d.sectorSize := by
  simp [InRange, Nat.div_self hpos]

/-- Sector reads behave as reads of the image `image` shows: a read of existing sectors succeeds,
fills the span with their bytes and leaves the image alone. -/
def ReadsImage (d : Disk σ) (image : σ → Bytes) : Prop :=
  ∀ sector n (data : Span) st, data.size = n * d.sectorSize →
    sector + n ≤ d.diskSize / d.sectorSize →
    ∃ filled st', d.readCacheSectors sector data st = (.ok filled, st') ∧
      filled.size = data.size ∧ image st' = image st ∧
      ∀ i < data.size, filled.bytes i = image st (sector * d.sectorSize + i)

/-- Sector writes behave as splices of the image. -/
def WritesImage (d : Disk σ) (image : σ → Bytes) : Prop :=
  ∀ sector n (data : Span) st, data.size = n * d.sectorSize →
    sector + n ≤ d.diskSize / d.sectorSize →
    ∃ st', d.writeCacheSectors sector data st = (.ok (), st') ∧
      image st' = (image st).splice (sector * d.sectorSize) data.size data.bytes

end Disk

namespace MemoryDisk

/-- `MemoryDisk::read_sectors`. -/
def readSectors (sector : Nat) (data : Span) (m : Bytes) : Except DiskError Span × Bytes :=
  (.ok (data.put 0 (data.size / 512 * 512) (m.view (wmul sector 512))), m)

/-- `MemoryDisk::write_sectors`. -/
def writeSectors (isConst : Bool) (sector : Nat) (data : Span) (m : Bytes) :
    Except DiskError Unit × Bytes :=
  if isConst then (.error .readOnly, m)
  else (.ok (), m.splice (wmul sector 512) data.size data.bytes)

end MemoryDisk

/-- `MemoryDisk`: a byte array in memory with 512-byte sectors. Its constructor turns caching off,
so its sector operations are the only ones that run. -/
def memoryDisk (size : Nat) (isConst : Bool) : Disk Bytes where
  diskSize := size
  sectorSize := 512
  readOnly := false
  caching := false
  readSectors := MemoryDisk.readSectors
  writeSectors := MemoryDisk.writeSectors isConst
  cacheReadSectors := MemoryDisk.readSectors
  cacheWriteSectors := MemoryDisk.writeSectors isConst

/-- The sectors of an in-memory disk are those of its byte array. -/
theorem memory_disk_reads_image {size : Nat} (isConst : Bool) (hsize : size < 2 ^ 32) :
    (memoryDisk size isConst).ReadsImage id := by
  intro sector n data m hdata hsector
  change data.size = n * 512 at hdata
  change sector + n ≤ size / 512 at hsector
  have hwhole : data.size / 512 * 512 = data.size := by omega
  refine ⟨data.put 0 data.size (m.view (wmul sector 512)), m, ?_, rfl, rfl, fun i hi => ?_⟩
  · rw [← hwhole]
    rfl
  · rw [Span.bytes_put, Bytes.splice_inside (by omega) (by omega), wmul_of_lt (by omega)]
    rfl

/-- An in-memory disk that is not constant is written by splices of its byte array. -/
theorem memory_disk_writes_image {size : Nat} (hsize : size < 2 ^ 32) :
    (memoryDisk size false).WritesImage id := by
  intro sector n data m hdata hsector
  change sector + n ≤ size / 512 at hsector
  refine ⟨m.splice (wmul sector 512) data.size data.bytes, rfl, ?_⟩
  rw [wmul_of_lt (by omega)]
  rfl

end LudOS.Storage
