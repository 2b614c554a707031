import LudOS.Ext2.Accounting
import LudOS.Ext2.BlockMap

/-!
# Reading a file

`ext2_node::read_impl` cuts the span into an unaligned head, an aligned middle and an unaligned
tail, as `Disk::read` does. The head and the tail are read block by block; the middle goes through
`read_data`, which passes the whole span on for each block, stores block `i` of the file at
position `i` of the span, and is told to start at the block of the head. `read_impl_exact_iff` says
for which requests the file's bytes arrive nevertheless.
-/

namespace LudOS.Ext2

open Lib

/-! ## The functions -/

/-- `vfs::FSError::Type`, as far as reading goes: the disk itself does not fail. -/
inductive FsError where
  | invalidLink
  | tooLarge
  deriving DecidableEq, Repr

/-- What a read returns: the number of bytes, and the span as it has been filled. -/
abbrev ReadResult := Except FsError (Nat × Span)

/-- The node that a symbolic link leads to, as far as a read uses it. -/
structure LinkTarget where
  size : Action Nat
  read : Nat → Span → Action ReadResult

/-- Read one block of the file and copy its `n` bytes from `start` on to position `pos` of the span.
Both unaligned ends are read this way. -/
def copyBlock (inode : Inode) (blkId start n pos : Nat) (data : Span) : Action Span := do
  let fs ← get
  let buf ← readDataBlock inode blkId fs.layout.blockSize
  check .outOfBounds (pos + n ≤ data.size)
  pure (data.put pos n (buf.view start))

/-- The loop of `Ext2FS::read_data`, with `count` blocks left from index `i` on. Each block is read
into the span `{data.data() + i * block_size(), data.size()}`. -/
def readDataBlocks (inode : Inode) : (count i : Nat) → Span → Action Span
  | 0, _, data => pure data
  | count + 1, i, data => do
    let fs ← get
    let block ← readDataBlock inode i data.size
    let pos := wmul i fs.layout.blockSize
    check .outOfBounds (pos + data.size ≤ data.size)
    readDataBlocks inode count (i + 1) (data.put pos data.size block)

/-- `Ext2FS::read_data`. -/
def readData (inode : Inode) (offset : Nat) (data : Span) : Action Span := do
  let fs ← get
  check .assertion (data.size % fs.layout.blockSize = 0)
  check .assertion (wadd offset (data.size / fs.layout.blockSize) ≤ dataBlocks fs.layout inode)
  readDataBlocks inode (data.size / fs.layout.blockSize) offset data

/-- The aligned middle of a read: `n` bytes at position `pos` of the span. -/
def readMiddle (inode : Inode) (blkId pos n : Nat) (data : Span) : Action Span :=
  if h : n < 2 ^ 31 then do
    let fs ← get
    check .assertion (n % fs.layout.blockSize = 0)
    let filled ← readData inode blkId ⟨data.bytes.view pos, n, h⟩
    pure (data.put pos n filled.bytes)
  else throw .outOfBounds

/-- `ext2_node::read_impl` once the inode of a file has been read. -/
def readStrides (inode : Inode) (offset : Nat) (data : Span) : Action ReadResult := do
  let layout ← getLayout
  let blkSize := layout.blockSize
  let firstStrideSize := offset % blkSize
  let secondStrideSize := wadd offset data.size % blkSize
  let headSize := (blkSize - firstStrideSize) % blkSize
  let midStrideSize := wsub (wsub data.size headSize) secondStrideSize
  let data ←
    (if firstStrideSize ≠ 0 then
      copyBlock inode (offset / blkSize) firstStrideSize (blkSize - firstStrideSize) 0 data
    else pure data)
  let data ←
    (if secondStrideSize ≠ 0 then
      copyBlock inode (wadd offset data.size / blkSize) 0 secondStrideSize
        (wsub data.size secondStrideSize) data
    else pure data)
  let data ←
    (if midStrideSize ≠ 0 then readMiddle inode (offset / blkSize) headSize midStrideSize data
    else pure data)
  -- `read_size` has been raised by the size of each stride that was read.
  pure (.ok ((if firstStrideSize ≠ 0 then blkSize - firstStrideSize else 0) + secondStrideSize +
    midStrideSize, data))

/-- `ext2_node::is_link`. -/
def isLink (inode : Nat) : Action Bool := do
  let inodeStruct ← readInode inode
  pure (decide (inodeStruct.HasType .symlink))

/-- `ext2_node::size`. -/
def nodeSize (linkTarget : Action (Option LinkTarget)) (inode : Nat) : Action Nat := do
  let link ← isLink inode
  if link then do
    let target ← linkTarget
    match target with
    | some node => node.size
    | none => pure 0
  else do
    let inodeStruct ← readInode inode
    pure inodeStruct.sizeLower

/-- `ext2_node::read_impl`. What a symbolic link leads to is found by the VFS layer. -/
def readImpl (linkTarget : Action (Option LinkTarget)) (inode offset : Nat) (data : Span) :
    Action ReadResult := do
  let size ← nodeSize linkTarget inode
  if 65536 ≤ size then do
    error
    pure (.error .tooLarge)
  else do
    let link ← isLink inode
    if link then do
      let target ← linkTarget
      match target with
      | some node => node.read offset data
      | none => pure (.error .invalidLink)
    else do
      let inodeStruct ← readInode inode
      readStrides inodeStruct offset data

namespace FileSystem

variable {fs : FileSystem} {inode : Inode} {offset : Nat} {data : Span}

/-! ## The file -/

/-- Every block of the file is one that `get_data_block` maps to a block of the volume. -/
def FileMapped (fs : FileSystem) (inode : Inode) : Prop :=
  ∀ blkId < dataBlocks fs.layout inode, ∃ block < fs.layout.blockCount,
    valueOf (getDataBlock inode blkId) fs = some block

/-- Byte `i` of the file: the blocks that `get_data_block` maps, one after the other. -/
def fileByte (fs : FileSystem) (inode : Inode) (i : Nat) : UInt8 :=
  match valueOf (getDataBlock inode (i / fs.layout.blockSize)) fs with
  | some block => fs.block block (i % fs.layout.blockSize)
  | none => 0

/-- The blocks of a mapped file can be looked up, and the file's bytes are theirs. -/
theorem FileMapped.block (h : fs.FileMapped inode) (hl : Addressable fs.layout) {blkId : Nat}
    (hb : blkId < dataBlocks fs.layout inode) :
    fs.Maps inode blkId ∧ fs.blockNumber inode blkId < fs.layout.blockCount ∧
      ∀ i < fs.layout.blockSize, fs.fileByte inode (blkId * fs.layout.blockSize + i) =
        fs.block (fs.blockNumber inode blkId) i := by
  obtain ⟨block, hlt, hvalue⟩ := h blkId hb
  obtain ⟨hmaps, rfl⟩ := (valueOf_getDataBlock hl).mp hvalue
  refine ⟨hmaps, hlt, fun i hi => ?_⟩
  have hpos : 0 < fs.layout.blockSize := by omega
  unfold fileByte
  rw [Nat.mul_comm, Nat.mul_add_div hpos, Nat.div_eq_of_lt hi, Nat.add_zero, hvalue,
    Nat.mul_add_mod, Nat.mod_eq_of_lt hi]

section

variable (hl : Addressable fs.layout)

include hl

/-- A byte below the end of the file lies in one of its blocks. -/
theorem div_lt_dataBlocks {i : Nat} (hi : i < inode.sizeLower) :
    i / fs.layout.blockSize < dataBlocks fs.layout inode := by
  have hge := hl.block_size_ge
  rw [Nat.div_lt_iff_lt_mul (by omega)]
  exact Nat.lt_of_lt_of_le hi (chunk_count_mul_ge (by omega))

/-! ## The pieces of a read -/

section

variable (hmap : fs.FileMapped inode)

include hmap

section

variable {blkId : Nat} (hb : blkId < dataBlocks fs.layout inode) (start : Nat)

include hb start

/-- An unaligned end that fits into the span is filled with the bytes of the file. -/
theorem run_copyBlock {n pos : Nat} (hfit : pos + n ≤ data.size) (c : Bytes) :
    (copyBlock inode blkId start n pos data).run (fs.withCurrent c) =
      .ok (data.put pos n ((fs.block (fs.blockNumber inode blkId)).view start))
        (fs.withCurrent (fs.scratch inode blkId c)) := by
  obtain ⟨hmaps, hlt, -⟩ := hmap.block hl hb
  unfold copyBlock
  rw [run_get_bind]
  refine (run_bind_ok (run_readDataBlock hl hmaps hlt c)).trans ?_
  exact run_check_bind hfit

/-- An end that does not fit into the span is copied over its border. -/
theorem run_copyBlock_of_gt {n pos : Nat} (hfit : ¬ pos + n ≤ data.size) (c : Bytes) :
    (copyBlock inode blkId start n pos data).run (fs.withCurrent c) =
      .error .outOfBounds (fs.withCurrent (fs.scratch inode blkId c)) := by
  obtain ⟨hmaps, hlt, -⟩ := hmap.block hl hb
  unfold copyBlock
  rw [run_get_bind]
  refine (run_bind_ok (run_readDataBlock hl hmaps hlt c)).trans ?_
  exact run_bind_error (run_check_neg hfit _)

end

/-- An end of the span that needs a copy gets it; an aligned end is left as it is. -/
theorem run_copyEnd (p : Prop) [Decidable p] (blkId start n pos : Nat) (data : Span)
    (h : p → blkId < dataBlocks fs.layout inode ∧ pos + n ≤ data.size) (c : Bytes) :
    ∃ out c', (if p then copyBlock inode blkId start n pos data else pure data).run
        (fs.withCurrent c) = .ok out (fs.withCurrent c') ∧ out.size = data.size ∧
      out.bytes = data.bytes.splice pos (if p then n else 0)
        ((fs.block (fs.blockNumber inode blkId)).view start) := by
  by_cases hp : p
  · obtain ⟨hb, hfit⟩ := h hp
    simp only [if_pos hp]
    exact ⟨_, _, run_copyBlock hl hmap hb start hfit c, rfl, rfl⟩
  · exact ⟨data, c, by rw [if_neg hp]; rfl, rfl, by rw [if_neg hp, Bytes.splice_zero]⟩

/-- A span of one block is filled with the first block of the file. -/
theorem run_readData_first
    (hb : 0 < dataBlocks fs.layout inode) (hsize : data.size = fs.layout.blockSize)
    (c : Bytes) : (readData inode 0 data).run (fs.withCurrent c) =
      .ok (data.put 0 data.size (fs.block (fs.blockNumber inode 0)))
        (fs.withCurrent (fs.scratch inode 0 c)) := by
  obtain ⟨hmaps, hlt, -⟩ := hmap.block hl hb
  have hpos := hl.block_size_pos
  have hone : data.size / fs.layout.blockSize = 1 := by rw [hsize, Nat.div_self hpos]
  have hmod : data.size % fs.layout.blockSize = 0 := by rw [hsize, Nat.mod_self]
  have hend : wadd 0 (data.size / fs.layout.blockSize) ≤ dataBlocks fs.layout inode := by
    rw [hone]
    exact hb
  have hzero : wmul 0 fs.layout.blockSize = 0 := by rw [wmul, Nat.zero_mul, Nat.zero_mod]
  have hread : (readDataBlock inode 0 data.size).run (fs.withCurrent c) = _ :=
    hsize ▸ run_readDataBlock hl hmaps hlt c
  refine (run_check_bind hmod).trans ((run_check_bind hend).trans ?_)
  rw [layout_withCurrent, hone]
  unfold readDataBlocks
  rw [run_get_bind, run_bind_ok hread]
  simp only [layout_withCurrent, hzero]
  exact run_check_bind (by omega)

end

end

/-- Any other middle fails: of more than one block, because of the size of the span that reaches
`read_block`, and of one block, because the block is stored past the end of the span. -/
theorem run_readData_error (hl : Addressable fs.layout) {blkId : Nat} {data : Span}
    (hcount : 0 < data.size / fs.layout.blockSize) (hwrap : blkId * fs.layout.blockSize < 2 ^ 32)
    (h : data.size ≠ fs.layout.blockSize ∨ blkId ≠ 0) (c : Bytes) :
    ∃ e t, (readData inode blkId data).run (fs.withCurrent c) = .error e t := by
  have hpos := hl.block_size_pos
  obtain ⟨count, hcount⟩ : ∃ count, data.size / fs.layout.blockSize = count + 1 :=
    Nat.exists_eq_succ_of_ne_zero (Nat.pos_iff_ne_zero.mp hcount)
  unfold readData
  rw [run_get_bind]
  by_cases hmod : data.size % fs.layout.blockSize = 0
  case neg => exact ⟨_, _, run_bind_error (run_check_neg hmod _)⟩
  by_cases hend : wadd blkId (data.size / fs.layout.blockSize) ≤ dataBlocks fs.layout inode
  case neg =>
    exact ⟨_, _, (run_check_bind hmod).trans (run_bind_error (run_check_neg hend _))⟩
  have hloop : ∃ e t, (readDataBlocks inode (count + 1) blkId data).run (fs.withCurrent c) =
      .error e t := by
    unfold readDataBlocks
    rw [run_get_bind]
    by_cases hsize : data.size = fs.layout.blockSize
    case neg =>
      have hfail : ∃ e t, (readDataBlock inode blkId data.size).run (fs.withCurrent c) =
        .error e t := run_readDataBlock_of_size_ne hl hsize c
      obtain ⟨e, t, hrun⟩ := hfail
      exact ⟨e, t, run_bind_error hrun⟩
    cases hread : (readDataBlock inode blkId data.size).run (fs.withCurrent c) with
    | error e t => exact ⟨e, t, run_bind_error hread⟩
    | ok block t =>
      rw [run_bind_ok hread]
      have hpast : ¬ wmul blkId fs.layout.blockSize + data.size ≤ data.size := by
        have hmul : 0 < blkId * fs.layout.blockSize :=
          Nat.mul_pos (Nat.pos_iff_ne_zero.mpr (h.resolve_left (not_not.mpr hsize))) hpos
        rw [wmul_of_lt hwrap]
        omega
      exact ⟨_, _, run_bind_error (run_check_neg hpast _)⟩
  obtain ⟨e, t, hrun⟩ := hloop
  refine ⟨e, t, (run_check_bind hmod).trans ((run_check_bind hend).trans ?_)⟩
  rw [layout_withCurrent, hcount]
  exact hrun

/-- A middle that is the first block of the file arrives in its place. -/
theorem run_readMiddle_first (hl : Addressable fs.layout) (hmap : fs.FileMapped inode)
    (hb : 0 < dataBlocks fs.layout inode) {pos : Nat}
    (hfit : pos + fs.layout.blockSize ≤ data.size) (c : Bytes) :
    ∃ out c', (readMiddle inode 0 pos fs.layout.blockSize data).run (fs.withCurrent c) =
        .ok out (fs.withCurrent c') ∧ out.size = data.size ∧
      out.bytes = data.bytes.splice pos fs.layout.blockSize
        (fs.block (fs.blockNumber inode 0)) := by
  have hsize : fs.layout.blockSize < 2 ^ 31 := by
    have := data.size_lt
    omega
  have hread : (readData inode 0 ⟨data.bytes.view pos, fs.layout.blockSize, hsize⟩).run
      (fs.withCurrent c) = _ := run_readData_first hl hmap hb rfl c
  refine ⟨data.put pos fs.layout.blockSize ((data.bytes.view pos).splice 0 fs.layout.blockSize
    (fs.block (fs.blockNumber inode 0))), fs.scratch inode 0 c, ?_, rfl, ?_⟩
  · unfold readMiddle
    rw [dif_pos hsize, run_get_bind]
    refine (run_check_bind (Nat.mod_self _)).trans ?_
    exact run_bind_ok hread
  · rw [Span.bytes_put]
    exact Bytes.splice_congr fun i hi => Bytes.splice_inside (Nat.zero_le _) (by omega)

theorem run_readMiddle_error (hl : Addressable fs.layout) {blkId pos n : Nat}
    (hcount : 0 < n / fs.layout.blockSize) (hwrap : blkId * fs.layout.blockSize < 2 ^ 32)
    (h : n ≠ fs.layout.blockSize ∨ blkId ≠ 0) (c : Bytes) :
    ∃ e t, (readMiddle inode blkId pos n data).run (fs.withCurrent c) = .error e t := by
  unfold readMiddle
  by_cases hn : n < 2 ^ 31
  case neg =>
    rw [dif_neg hn]
    exact ⟨_, _, rfl⟩
  rw [dif_pos hn, run_get_bind]
  by_cases hmod : n % fs.layout.blockSize = 0
  case neg => exact ⟨_, _, run_bind_error (run_check_neg hmod _)⟩
  have hfail : ∃ e t, (readData inode blkId ⟨data.bytes.view pos, n, hn⟩).run (fs.withCurrent c) =
    .error e t := run_readData_error hl hcount hwrap h c
  obtain ⟨e, t, hrun⟩ := hfail
  exact ⟨e, t, (run_check_bind hmod).trans (run_bind_error hrun)⟩

/-! ## The whole read -/

/-- The number of bytes between the unaligned ends of a request. -/
def midSize (s offset len : Nat) : Nat := len - (s - offset % s) % s - (offset + len) % s

/-- The requests that are served correctly, for a file with the given bytes and blocks of size `s`.
A head must not end before its block does, and what lies between the ends must be nothing or one
block of a request that starts in the first block of the file; if that block is the second one, it
must equal the first. -/
structure ServedRight (file : Nat → UInt8) (s offset len : Nat) : Prop where
  head : offset % s ≠ 0 → s ≤ offset % s + len
  middle : midSize s offset len = 0 ∨ midSize s offset len = s ∧ offset < s ∧
    (offset ≠ 0 → ∀ i < s, file i = file (s + i))

/-- The read returns the number of bytes asked for and fills the span with the bytes of the file. -/
def ReadsFile (fs : FileSystem) (linkTarget : Action (Option LinkTarget)) (n offset : Nat)
    (data : Span) : Prop :=
  ∃ out fs', (readImpl linkTarget n offset data).run fs = .ok (.ok (data.size, out)) fs' ∧
    out.size = data.size ∧ ∀ i < data.size, out.bytes i = fs.fileByte (fs.inodeAt n) (offset + i)

section

variable (hl : Addressable fs.layout)

include hl

theorem run_isLink {n : Nat} (h : fs.Present n) (c : Bytes) :
    (isLink n).run (fs.withCurrent c) = .ok (decide ((fs.inodeAt n).HasType .symlink))
      (fs.withCurrent (fs.block (fs.inodeTableBlock n))) := by
  unfold isLink
  rw [run_bind_ok (run_readInode hl h c)]
  rfl

/-- For a regular file of less than 64 KiB, everything depends on the strides. -/
theorem run_readImpl {n : Nat} (h : fs.Present n)
    (hreg : (fs.inodeAt n).HasType .regular) (hsize : (fs.inodeAt n).sizeLower < 65536)
    (linkTarget : Action (Option LinkTarget)) (offset : Nat) (data : Span) :
    (readImpl linkTarget n offset data).run fs = (readStrides (fs.inodeAt n) offset data).run
      (fs.withCurrent (fs.block (fs.inodeTableBlock n))) := by
  have hno : decide ((fs.inodeAt n).HasType .symlink) = false := by
    refine decide_eq_false fun hsym => ?_
    exact absurd (hreg.symm.trans hsym) (by decide)
  have hlink := fun c => run_isLink hl h c
  rw [hno] at hlink
  have hsizeRun : (nodeSize linkTarget n).run fs = .ok (fs.inodeAt n).sizeLower
      (fs.withCurrent (fs.block (fs.inodeTableBlock n))) := by
    refine (run_bind_ok (hlink fs.currentBlock)).trans ?_
    exact run_bind_ok (run_readInode hl h _)
  unfold readImpl
  rw [run_bind_ok hsizeRun, if_neg (by omega)]
  refine (run_bind_ok (hlink _)).trans ?_
  exact run_bind_ok (run_readInode hl h _)

/-- A head that ends inside its block is copied over the border of the span. -/
theorem run_readStrides_of_short_head (hmap : fs.FileMapped inode)
    (hb : offset / fs.layout.blockSize < dataBlocks fs.layout inode)
    (hf : offset % fs.layout.blockSize ≠ 0)
    (hshort : offset % fs.layout.blockSize + data.size < fs.layout.blockSize) (c : Bytes) :
    ∃ e t, (readStrides inode offset data).run (fs.withCurrent c) = .error e t := by
  unfold readStrides
  rw [run_getLayout_bind]
  dsimp only
  rw [if_pos hf]
  exact ⟨_, _, run_bind_error (run_copyBlock_of_gt hl hmap hb _ (by omega) c)⟩

/-- Once both ends have been read, the middle decides. The span then holds the bytes of the file
everywhere but in the middle. -/
theorem run_readStrides_ends (hmap : fs.FileMapped inode)
    (hend : offset + data.size ≤ inode.sizeLower)
    (hlt : inode.sizeLower < 2 ^ 32)
    (hhead : offset % fs.layout.blockSize ≠ 0 →
      fs.layout.blockSize ≤ offset % fs.layout.blockSize + data.size) (c : Bytes) :
    ∃ data' c', data'.size = data.size ∧
      (∀ i < data.size,
        i < (fs.layout.blockSize - offset % fs.layout.blockSize) % fs.layout.blockSize ∨
          (fs.layout.blockSize - offset % fs.layout.blockSize) % fs.layout.blockSize +
            midSize fs.layout.blockSize offset data.size ≤ i →
        data'.bytes i = fs.fileByte inode (offset + i)) ∧
      (readStrides inode offset data).run (fs.withCurrent c) =
        (do
          let out ←
            (if midSize fs.layout.blockSize offset data.size ≠ 0 then
              readMiddle inode (offset / fs.layout.blockSize)
                ((fs.layout.blockSize - offset % fs.layout.blockSize) % fs.layout.blockSize)
                (midSize fs.layout.blockSize offset data.size) data'
            else pure data')
          pure (.ok (data.size, out)) : Action ReadResult).run (fs.withCurrent c') := by
  set s := fs.layout.blockSize
  have hs : 0 < s := hl.block_size_pos
  have hwadd : wadd offset data.size = offset + data.size := wadd_of_lt (by omega)
  have hmid := mid_stride_eq hs data.size_lt hhead
  obtain ⟨first, count, hstart, hlen, hlast, -⟩ := stride_partition hs hhead
  set stop := offset + data.size with hstop
  have hoff := Nat.div_add_mod' offset s
  have hendeq := Nat.div_add_mod' stop s
  have hmod := Nat.mod_lt offset hs
  have hmod' := Nat.mod_lt stop hs
  have hcut : (s - offset % s) % s = if offset % s ≠ 0 then s - offset % s else 0 := by
    split
    case isTrue h => exact Nat.mod_eq_of_lt (by omega)
    case isFalse h => rw [not_not.mp h, Nat.sub_zero, Nat.mod_self]
  -- The blocks that the two ends are read from are blocks of the file.
  have hheadBlock : offset % s ≠ 0 → offset / s < dataBlocks fs.layout inode := fun hf =>
    div_lt_dataBlocks hl (by have := hhead hf; omega)
  have htailBlock : stop % s ≠ 0 →
      stop / s < dataBlocks fs.layout inode := by
    intro he
    have hstartLt : stop / s * s < inode.sizeLower := by omega
    have hblock := div_lt_dataBlocks hl hstartLt
    rwa [Nat.mul_div_cancel _ hs] at hblock
  have hwsub : wsub data.size (stop % s) = data.size - stop % s :=
    wsub_of_le (by omega) (by have := data.size_lt; omega)
  obtain ⟨data₁, c₁, hrun₁, hsize₁, hbytes₁⟩ := run_copyEnd hl hmap
    (offset % s ≠ 0) (offset / s) (offset % s) (s - offset % s) 0 data
    (fun hf => ⟨hheadBlock hf, by have := hhead hf; omega⟩) c
  obtain ⟨data₂, c₂, hrun₂, hsize₂, hbytes₂⟩ := run_copyEnd hl hmap
    (stop % s ≠ 0) (stop / s) 0 (stop % s)
    (data.size - stop % s) data₁
    (fun he => ⟨htailBlock he, by omega⟩) c₁
  have hmidSize : midSize s offset data.size = count * s := by
    unfold midSize
    rw [← hstop]
    omega
  refine ⟨data₂, c₂, by omega, ?_, ?_⟩
  · intro i hi hends
    rw [hbytes₂, hbytes₁, ← hcut]
    rcases hends with hi' | hi'
    · -- A byte of the head.
      have hf : offset % s ≠ 0 := by
        intro hf
        rw [if_neg (not_not.mpr hf)] at hcut
        omega
      rw [if_pos hf] at hcut
      obtain ⟨-, -, hfile⟩ := hmap.block hl (hheadBlock hf)
      rw [Bytes.splice_outside (by omega), Bytes.splice_inside (Nat.zero_le _) (by omega),
        Bytes.view_apply, ← hfile _ (by omega)]
      congr 1
      change offset / s * s + _ = _
      omega
    · -- A byte of the tail.
      have he : stop % s ≠ 0 := by omega
      obtain ⟨-, -, hfile⟩ := hmap.block hl (htailBlock he)
      rw [if_pos he, Bytes.splice_inside (by omega) (by omega), Bytes.view_apply,
        ← hfile _ (by omega)]
      congr 1
      change stop / s * s + _ = _
      omega
  · unfold readStrides
    rw [run_getLayout_bind]
    dsimp only
    rw [hwadd, hmid, run_bind_ok hrun₁, hsize₁, hwadd, hwsub, run_bind_ok hrun₂]
    have hsum : (if offset % s ≠ 0 then s - offset % s else 0) + stop % s +
        (data.size - (s - offset % s) % s - stop % s) = data.size := by
      omega
    rw [hsum]
    rfl

end

/-- The size of the middle in blocks. -/
theorem exists_midSize_eq {s len : Nat} (hs : 0 < s)
    (hhead : offset % s ≠ 0 → s ≤ offset % s + len) : ∃ count, midSize s offset len = count * s ∧
      len = (s - offset % s) % s + count * s + (offset + len) % s := by
  obtain ⟨first, count, -, hlen, -⟩ := stride_partition hs hhead
  refine ⟨count, ?_, hlen⟩
  unfold midSize
  omega

/-- A middle of more than one block, or of a block that is not the first one of the file, makes the
read fail. -/
theorem run_readStrides_of_middle (hl : Addressable fs.layout) (hmap : fs.FileMapped inode)
    (hend : offset + data.size ≤ inode.sizeLower)
    (hlt : inode.sizeLower < 2 ^ 32) (hhead : offset % fs.layout.blockSize ≠ 0 →
      fs.layout.blockSize ≤ offset % fs.layout.blockSize + data.size)
    (hmid : midSize fs.layout.blockSize offset data.size ≠ 0)
    (hother : ¬ (midSize fs.layout.blockSize offset data.size = fs.layout.blockSize ∧
      offset < fs.layout.blockSize)) (c : Bytes) :
    ∃ e t, (readStrides inode offset data).run (fs.withCurrent c) = .error e t := by
  have hs : 0 < fs.layout.blockSize := Nat.lt_of_lt_of_le (by decide) hl.block_size_ge
  have hoff := Nat.div_add_mod' offset fs.layout.blockSize
  obtain ⟨data', c', -, -, hrun⟩ := run_readStrides_ends hl hmap hend hlt hhead c
  obtain ⟨count, hcount, -⟩ := exists_midSize_eq hs hhead
  have hdiv : 0 < midSize fs.layout.blockSize offset data.size / fs.layout.blockSize := by
    rw [hcount] at hmid ⊢
    rw [Nat.mul_div_cancel _ hs]
    exact Nat.pos_of_ne_zero fun hzero => hmid (by rw [hzero, Nat.zero_mul])
  have hblock : midSize fs.layout.blockSize offset data.size ≠ fs.layout.blockSize ∨
      offset / fs.layout.blockSize ≠ 0 := by
    by_contra hnot
    obtain ⟨hm, ho⟩ := not_or.mp hnot
    exact hother ⟨not_not.mp hm, (Nat.div_eq_zero_iff_lt hs).mp (not_not.mp ho)⟩
  have hfail : ∃ e t, (readMiddle inode (offset / fs.layout.blockSize)
      ((fs.layout.blockSize - offset % fs.layout.blockSize) % fs.layout.blockSize)
      (midSize fs.layout.blockSize offset data.size) data').run (fs.withCurrent c') = .error e t :=
    run_readMiddle_error hl hdiv (by omega) hblock c'
  obtain ⟨e, t, herror⟩ := hfail
  rw [hrun, if_pos hmid]
  exact ⟨e, t, run_bind_error herror⟩

/-- The middle of a request that starts in the first block of the file is one block of it. Where
that block should be the second one, the first one arrives. -/
theorem middle_exact_iff {file : Nat → UInt8} {s len : Nat} {m block : Bytes}
    (hoff : offset < s) (hfit : (s - offset % s) % s + s ≤ len) (hblock : ∀ i < s, block i = file i)
    (hends : ∀ i < len, i < (s - offset % s) % s ∨ (s - offset % s) % s + s ≤ i →
      m i = file (offset + i)) :
    (∀ i < len, m.splice ((s - offset % s) % s) s block i = file (offset + i)) ↔
      (offset ≠ 0 → ∀ i < s, file i = file (s + i)) := by
  rw [Nat.mod_eq_of_lt hoff] at hfit hends ⊢
  by_cases hzero : offset = 0
  · subst hzero
    rw [Nat.sub_zero, Nat.mod_self] at hends ⊢
    simp only [ne_eq, not_true_eq_false, false_implies, iff_true]
    intro i hi
    by_cases his : i < s
    · rw [Bytes.splice_inside (Nat.zero_le _) (by omega), Nat.sub_zero, hblock i his, Nat.zero_add]
    · rw [Bytes.splice_outside (by omega), hends i hi (by omega)]
  · rw [Nat.mod_eq_of_lt (show s - offset < s by omega)] at hfit hends ⊢
    constructor
    · intro h _ i hi
      have hbyte := h (s - offset + i) (by omega)
      rw [Bytes.splice_inside (by omega) (by omega), Nat.add_sub_cancel_left, hblock i hi] at hbyte
      rw [hbyte]
      congr 1
      omega
    · intro h i hi
      by_cases hmid : s - offset ≤ i ∧ i < s - offset + s
      · rw [Bytes.splice_inside hmid.1 hmid.2, hblock _ (by omega), h hzero _ (by omega)]
        congr 1
        omega
      · rw [Bytes.splice_outside (by omega), hends i hi (by omega)]

/-- `read_impl` returns the bytes of a regular file exactly for the requests that are served
right. -/
theorem read_impl_exact_iff (hl : Addressable fs.layout) {n : Nat} (hpresent : fs.Present n)
    (hreg : (fs.inodeAt n).HasType .regular) (hsize : (fs.inodeAt n).sizeLower < 65536)
    (hmap : fs.FileMapped (fs.inodeAt n)) (linkTarget : Action (Option LinkTarget)) (offset : Nat)
    (data : Span) (hend : offset + data.size ≤ (fs.inodeAt n).sizeLower) :
    fs.ReadsFile linkTarget n offset data ↔
      ServedRight (fs.fileByte (fs.inodeAt n)) fs.layout.blockSize offset data.size := by
  have hs := hl.block_size_pos
  have hoff := Nat.div_add_mod' offset fs.layout.blockSize
  unfold ReadsFile
  rw [run_readImpl hl hpresent hreg hsize]
  by_cases hhead : offset % fs.layout.blockSize ≠ 0 →
      fs.layout.blockSize ≤ offset % fs.layout.blockSize + data.size
  case neg =>
    -- A head that ends before its block does overruns the span.
    obtain ⟨hf, hshort⟩ := Classical.not_imp.mp hhead
    have hlt : offset / fs.layout.blockSize * fs.layout.blockSize < (fs.inodeAt n).sizeLower := by
      omega
    have hblock := div_lt_dataBlocks hl hlt
    rw [Nat.mul_div_cancel _ hs] at hblock
    obtain ⟨e, t, herror⟩ := run_readStrides_of_short_head hl hmap hblock hf (Nat.not_le.mp hshort)
      (fs.block (fs.inodeTableBlock n))
    constructor
    · rintro ⟨out, fs', hrun, -⟩
      rw [herror] at hrun
      cases hrun
    · exact fun h => absurd h.head hhead
  have hlt : (fs.inodeAt n).sizeLower < 2 ^ 32 := by omega
  obtain ⟨data', c', hsize', hbytes, hrun⟩ := run_readStrides_ends hl hmap hend hlt hhead
    (fs.block (fs.inodeTableBlock n))
  obtain ⟨count, hmidSize, hlen⟩ := exists_midSize_eq hs hhead
  by_cases hzero : midSize fs.layout.blockSize offset data.size = 0
  · -- No middle at all.
    rw [hrun, if_neg (not_not.mpr hzero)]
    refine ⟨fun _ => ⟨hhead, .inl hzero⟩, fun _ => ⟨data', _, rfl, hsize', fun i hi => ?_⟩⟩
    exact hbytes i hi (by omega)
  by_cases hone : midSize fs.layout.blockSize offset data.size = fs.layout.blockSize ∧
      offset < fs.layout.blockSize
  case neg =>
    obtain ⟨e, t, herror⟩ := run_readStrides_of_middle hl hmap hend hlt hhead hzero hone
      (fs.block (fs.inodeTableBlock n))
    constructor
    · rintro ⟨out, fs', hrun', -⟩
      rw [herror] at hrun'
      cases hrun'
    · rintro ⟨-, hzero' | ⟨hm, ho, -⟩⟩
      · exact absurd hzero' hzero
      · exact absurd ⟨hm, ho⟩ hone
  obtain ⟨hm, ho⟩ := hone
  have hblocks : 0 < dataBlocks fs.layout (fs.inodeAt n) := by
    have hfirst := div_lt_dataBlocks hl (show 0 < (fs.inodeAt n).sizeLower by omega)
    rwa [Nat.zero_div] at hfirst
  have hfit : (fs.layout.blockSize - offset % fs.layout.blockSize) % fs.layout.blockSize +
      fs.layout.blockSize ≤ data.size := by omega
  obtain ⟨-, -, hfirst⟩ := hmap.block hl hblocks
  rw [hrun, if_pos hzero]
  rw [hm] at hbytes ⊢
  obtain ⟨out, c'', hmiddle, hsize'', hout⟩ := run_readMiddle_first hl hmap hblocks
    (hsize' ▸ hfit) c'
  rw [Nat.div_eq_of_lt ho, run_bind_ok hmiddle]
  have hblock : ∀ i < fs.layout.blockSize, fs.block (fs.blockNumber (fs.inodeAt n) 0) i =
      fs.fileByte (fs.inodeAt n) i := fun i hi => by
    rw [← hfirst i hi, Nat.zero_mul, Nat.zero_add]
  have hexact := middle_exact_iff ho hfit hblock hbytes
  rw [← hout] at hexact
  constructor
  · rintro ⟨out', fs', hrun', -, hfile⟩
    cases hrun'
    exact ⟨hhead, .inr ⟨hm, ho, hexact.mp hfile⟩⟩
  · rintro ⟨-, hzero' | ⟨-, -, hsame⟩⟩
    · exact absurd hzero' hzero
    · exact ⟨out, _, rfl, hsize''.trans hsize', hexact.mpr hsame⟩

/-! ## A file of two blocks -/

section

variable {rest : Nat → Bytes} {n : Nat} (hn : 1 ≤ n) (hn' : n ≤ 8)

include hn hn'

theorem inodeIndex_sampleVolume : (sampleVolume rest).layout.inodeIndex n = n - 1 := by
  show wsub n 1 % 8 = n - 1
  rw [wsub_of_le hn (by omega), Nat.mod_eq_of_lt (by omega)]

theorem inodeGroup_sampleVolume : (sampleVolume rest).layout.inodeGroup n = 0 := by
  show wsub n 1 / 8 = 0
  rw [wsub_of_le hn (by omega), Nat.div_eq_of_lt (by omega)]

theorem inodeSlot_sampleVolume : (sampleVolume rest).layout.inodeSlot n = n - 1 := by
  unfold Layout.inodeSlot
  rw [inodeIndex_sampleVolume hn hn', layout_sampleVolume]
  exact Nat.mod_eq_of_lt (show n - 1 < 8 by omega)

theorem inodeBitmapBlock_sampleVolume : (sampleVolume rest).inodeBitmapBlock n = 4 := by
  unfold inodeBitmapBlock
  rw [inodeGroup_sampleVolume hn hn']
  exact Bytes.u32_congr fun i hi => descriptor_sampleVolume rest (by omega)

theorem inodeTableBlock_sampleVolume : (sampleVolume rest).inodeTableBlock n = 5 := by
  have htable : ((sampleVolume rest).descriptor 0).inodeTable = 5 :=
    Bytes.u32_congr fun i hi => descriptor_sampleVolume rest (by omega)
  have hblock : (sampleVolume rest).layout.inodeBlock n = 0 := by
    unfold Layout.inodeBlock
    rw [inodeIndex_sampleVolume hn hn', layout_sampleVolume]
    show wmul (n - 1) 128 / 1024 = 0
    rw [wmul_of_lt (by omega), Nat.div_eq_of_lt (by omega)]
  unfold inodeTableBlock
  rw [inodeGroup_sampleVolume hn hn', htable, hblock]
  rfl

/-- An inode of the small volume is present when its bit in block 4 is set. -/
theorem present_sampleVolume (hbit : (rest 4).bit (n - 1) = true) :
    (sampleVolume rest).Present n := by
  constructor
  case bit =>
    rw [inodeBitmapBlock_sampleVolume hn hn', inodeIndex_sampleVolume hn hn', block_sampleVolume,
      Bytes.bit_congr (Bytes.trunc_apply (by omega))]
    exact hbit
  all_goals
    simp only [inodeGroup_sampleVolume hn hn', inodeBitmapBlock_sampleVolume hn hn',
      inodeIndex_sampleVolume hn hn', inodeTableBlock_sampleVolume hn hn',
      inodeSlot_sampleVolume hn hn', sizes_sampleVolume]
    omega

end

/-- Inode 1 of the small volume as a regular file of 2048 bytes in the blocks 6 and 7. -/
def sampleFile (n : Nat) : Bytes :=
  if n = 4 then fun i => if i = 0 then 1 else 0
  else if n = 5 then fun i => if i = 1 then 0x80 else if i = 5 then 8 else if i = 40 then 6 else
    if i = 44 then 7 else 0
  else fun _ => UInt8.ofNat n

theorem present_sampleFile : (sampleVolume sampleFile).Present 1 :=
  present_sampleVolume (by decide) (by decide) (by decide)

theorem addressable_sampleVolume (rest : Nat → Bytes) : Addressable (sampleVolume rest).layout := by
  rw [layout_sampleVolume]
  exact ⟨by decide, by decide⟩

/-- The fields of the inode that a read uses. -/
theorem inodeAt_sampleFile : ((sampleVolume sampleFile).inodeAt 1).HasType .regular ∧
      ((sampleVolume sampleFile).inodeAt 1).sizeLower = 2048 ∧
      ((sampleVolume sampleFile).inodeAt 1).blockPtr 0 = 6 ∧
      ((sampleVolume sampleFile).inodeAt 1).blockPtr 1 = 7 := by
  decide

theorem fileMapped_sampleFile :
    (sampleVolume sampleFile).FileMapped ((sampleVolume sampleFile).inodeAt 1) := by
  unfold FileMapped
  decide

/-- The first 1500 bytes of the file can be read. -/
theorem read_impl_exact_first_bytes :
    (sampleVolume sampleFile).ReadsFile (pure none) 1 0 ⟨fun _ => 0, 1500, by decide⟩ := by
  obtain ⟨hreg, hsize, -⟩ := inodeAt_sampleFile
  refine (read_impl_exact_iff (addressable_sampleVolume _) present_sampleFile hreg (by omega)
    fileMapped_sampleFile _ 0 _ (by rw [hsize]; decide)).mpr ?_
  exact ⟨fun h => absurd rfl h, .inr ⟨by decide, by decide, fun h => absurd rfl h⟩⟩

/-- Reading all of the file in one call fails. -/
theorem read_impl_fails_on_two_blocks : (sampleVolume sampleFile).Present 1 ∧
      ((sampleVolume sampleFile).inodeAt 1).HasType .regular ∧
      ((sampleVolume sampleFile).inodeAt 1).sizeLower = 2048 ∧
      (sampleVolume sampleFile).FileMapped ((sampleVolume sampleFile).inodeAt 1) ∧
      ¬ (sampleVolume sampleFile).ReadsFile (pure none) 1 0 ⟨fun _ => 0, 2048, by decide⟩ := by
  obtain ⟨hreg, hsize, -⟩ := inodeAt_sampleFile
  refine ⟨present_sampleFile, hreg, hsize, fileMapped_sampleFile, ?_⟩
  have hfails : (outcome (readImpl (pure none) 1 0 ⟨fun _ => 0, 2048, by decide⟩)
      (sampleVolume sampleFile)).toBool = false := by
    decide +kernel
  rintro ⟨out, fs', hrun, -⟩
  rw [outcome_of_ok hrun] at hfails
  cases hfails

end FileSystem

end LudOS.Ext2
