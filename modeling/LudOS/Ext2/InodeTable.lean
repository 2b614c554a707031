import LudOS.Ext2.ExtendMap

/-!
# The inode tables as an array

`write_inode` copies `inode_size()` bytes to the slot of an inode, `read_inode` takes the buffer for
an array of `ext2::Inode`, whose elements have 128 bytes. On a volume whose inode tables are in
blocks of their own the two fit together exactly when `inode_size()` is 128.
-/

namespace LudOS.Ext2

open Lib

/-- The number of blocks of the inode table of a group. -/
def Layout.inodeTableBlocks (l : Layout) : Nat :=
  chunkCount (l.inodesInBlockGroup * l.inodeSize) l.blockSize

namespace FileSystem

variable {fs : FileSystem} {n m : Nat}

/-- Block `k` belongs to the inode table of the group of inode `n`. -/
def InInodeTable (fs : FileSystem) (n k : Nat) : Prop :=
  ∃ x < fs.layout.inodeTableBlocks, k = (fs.descriptor (fs.layout.inodeGroup n)).inodeTable + x

/-- The inode tables of a volume, for any of the inode sizes of ext2: they are on the volume and
share no block with each other, with the descriptors and with the inode bitmaps. -/
structure InodeTables (fs : FileSystem) : Prop where
  addressable : Addressable fs.layout
  inodes_pos : 0 < fs.layout.inodesInBlockGroup
  size_pow : ∃ k, fs.layout.inodeSize = 2 ^ k
  size_ge : 128 ≤ fs.layout.inodeSize
  size_le : fs.layout.inodeSize ≤ fs.layout.blockSize
  on_volume : ∀ n k, fs.IsInode n → fs.InInodeTable n k → k < fs.layout.blockCount
  apart : ∀ n m k, fs.IsInode n → fs.IsInode m → fs.InInodeTable n k → fs.InInodeTable m k →
    fs.layout.inodeGroup n = fs.layout.inodeGroup m
  not_descriptor : ∀ n m k, fs.IsInode n → fs.IsInode m → fs.InInodeTable n k →
    k ≠ fs.layout.tableBlock (fs.layout.inodeGroup m)
  not_bitmap : ∀ n m k, fs.IsInode n → fs.IsInode m → fs.InInodeTable n k →
    k ≠ fs.inodeBitmapBlock m

/-- After `write_inode(n, s)`, `read_inode(n)` is `s`, and `read_inode` of every other inode is what
it was. -/
def StoresInode (fs : FileSystem) (n : Nat) (s : Inode) : Prop :=
  ∃ fs', (writeInode n s).run fs = .ok () fs' ∧
    valueOf (readInode n) fs' = some ⟨s.raw.trunc 128⟩ ∧
    ∀ m, fs.IsInode m → m ≠ n → valueOf (readInode m) fs' = valueOf (readInode m) fs

/-! ## Blocks and slots -/

namespace InodeTables

variable (h : fs.InodeTables)

include h

theorem size_dvd : fs.layout.inodeSize ∣ fs.layout.blockSize := by
  obtain ⟨k, hk⟩ := h.size_pow
  have hle := h.size_le
  rw [hk, h.addressable.blockSize_eq_pow] at hle ⊢
  exact Nat.pow_dvd_pow 2 ((Nat.pow_le_pow_iff_right (by decide)).mp hle)

/-- The inode is within the table of its group. -/
theorem index_mul_lt_table (n : Nat) : fs.layout.inodeIndex n * fs.layout.inodeSize <
      fs.layout.inodeTableBlocks * fs.layout.blockSize := by
  have hge := h.size_ge
  have hle := h.size_le
  have hindex : fs.layout.inodeIndex n < fs.layout.inodesInBlockGroup := Nat.mod_lt _ h.inodes_pos
  exact Nat.lt_of_lt_of_le (Nat.mul_lt_mul_of_pos_right hindex (by omega))
    (chunk_count_mul_ge (by omega))

section

variable (hon : ∀ k, fs.InInodeTable n k → k < fs.layout.blockCount)

include hon

/-- The volume has at most 4 GiB, so that the position of an inode in its table does not wrap. -/
theorem index_mul_lt : fs.layout.inodeIndex n * fs.layout.inodeSize < 2 ^ 32 := by
  have htable := h.index_mul_lt_table n
  have hpos : 0 < fs.layout.inodeTableBlocks := Nat.pos_of_mul_pos_right (Nat.zero_lt_of_lt htable)
  have hlast := hon _ ⟨fs.layout.inodeTableBlocks - 1, by omega, rfl⟩
  have hmul := Nat.mul_le_mul_right fs.layout.blockSize
    (show fs.layout.inodeTableBlocks ≤ fs.layout.blockCount by omega)
  have hfits := h.addressable.fits
  omega

/-- The block of an inode belongs to the table of its group. -/
theorem inodeTableBlock_eq :
    fs.layout.inodeBlock n < fs.layout.inodeTableBlocks ∧ fs.inodeTableBlock n =
      (fs.descriptor (fs.layout.inodeGroup n)).inodeTable + fs.layout.inodeBlock n := by
  have hge := h.size_ge
  have hle := h.size_le
  have hlt : fs.layout.inodeBlock n < fs.layout.inodeTableBlocks := by
    unfold Layout.inodeBlock
    rw [wmul_of_lt (h.index_mul_lt hon), Nat.div_lt_iff_lt_mul (by omega)]
    exact h.index_mul_lt_table n
  have hvolume := hon _ ⟨fs.layout.inodeBlock n, hlt, rfl⟩
  have hcount := h.addressable.mul_lt hvolume
  have hsize := Nat.le_mul_of_pos_right ((fs.descriptor (fs.layout.inodeGroup n)).inodeTable +
    fs.layout.inodeBlock n) (show 0 < fs.layout.blockSize by omega)
  exact ⟨hlt, wadd_of_lt (by omega)⟩

end

section

variable (hn : fs.IsInode n)

include hn

/-- The block and the slot are quotient and remainder of the index. -/
theorem inodeBlock_eq : fs.layout.inodeBlock n =
      fs.layout.inodeIndex n / (fs.layout.blockSize / fs.layout.inodeSize) := by
  obtain ⟨per, hper⟩ := h.size_dvd
  have hge := h.size_ge
  unfold Layout.inodeBlock
  rw [wmul_of_lt (h.index_mul_lt (h.on_volume n · hn)), hper, Nat.mul_div_cancel_left _ (by omega),
    Nat.mul_comm fs.layout.inodeSize, Nat.mul_div_mul_right _ _ (by omega)]

theorem inInodeTable : fs.InInodeTable n (fs.inodeTableBlock n) :=
  ⟨_, h.inodeTableBlock_eq (h.on_volume n · hn)⟩

/-- No two inodes have the same slot of the same block. -/
theorem slot_injective (hm : fs.IsInode m) (hblock : fs.inodeTableBlock m = fs.inodeTableBlock n)
    (hslot : fs.layout.inodeSlot m = fs.layout.inodeSlot n) : m = n := by
  have hgroup : fs.layout.inodeGroup m = fs.layout.inodeGroup n := by
    refine h.apart m n (fs.inodeTableBlock m) hm hn (h.inInodeTable hm) ?_
    rw [hblock]
    exact h.inInodeTable hn
  have hquot : fs.layout.inodeIndex m / (fs.layout.blockSize / fs.layout.inodeSize) =
      fs.layout.inodeIndex n / (fs.layout.blockSize / fs.layout.inodeSize) := by
    rw [(h.inodeTableBlock_eq (h.on_volume m · hm)).2,
      (h.inodeTableBlock_eq (h.on_volume n · hn)).2, hgroup] at hblock
    rw [← h.inodeBlock_eq hm, ← h.inodeBlock_eq hn, Nat.add_left_cancel hblock]
  -- Quotient and remainder determine the index, and group and index the number.
  have hindex : fs.layout.inodeIndex m = fs.layout.inodeIndex n := by
    rw [← Nat.div_add_mod (fs.layout.inodeIndex m), hquot]
    unfold Layout.inodeSlot at hslot
    rw [hslot, Nat.div_add_mod]
  have hnumber : wsub m 1 = wsub n 1 := by
    rw [← Nat.div_add_mod (wsub m 1) fs.layout.inodesInBlockGroup,
      ← Nat.div_add_mod (wsub n 1) fs.layout.inodesInBlockGroup]
    exact congrArg₂ (fun q r => fs.layout.inodesInBlockGroup * q + r) hgroup hindex
  rw [wsub_of_le hm.pos hm.lt, wsub_of_le hn.pos hn.lt] at hnumber
  have hpos := hm.pos
  have hpos' := hn.pos
  omega

end

end InodeTables

/-! ## What `write_inode` does -/

section

variable {k : Nat} {data : Bytes}

theorem descriptor_putBlock_other {g : Nat} (hk : fs.layout.tableBlock g ≠ k) :
    (fs.putBlock k data).descriptor g = fs.descriptor g := by
  unfold descriptor
  rw [layout_putBlock, block_putBlock_other hk]

/-- A block that holds no descriptor and no inode bitmap can be stored without an inode getting
lost. -/
theorem Present.putBlock (hm : fs.Present m)
    (htable : fs.layout.tableBlock (fs.layout.inodeGroup m) ≠ k)
    (hbitmap : fs.inodeBitmapBlock m ≠ k) :
    (fs.putBlock k data).Present m ∧
    (fs.putBlock k data).inodeTableBlock m = fs.inodeTableBlock m := by
  have hdesc := @descriptor_putBlock_other fs k data _ htable
  have hbitmapBlock : (fs.putBlock k data).inodeBitmapBlock m = fs.inodeBitmapBlock m := by
    unfold inodeBitmapBlock
    rw [layout_putBlock, hdesc]
  have htableBlock : (fs.putBlock k data).inodeTableBlock m = fs.inodeTableBlock m := by
    unfold inodeTableBlock
    rw [layout_putBlock, hdesc]
  refine ⟨⟨hm.table_lt, ?_, hm.index_lt, ?_, ?_, hm.slot_le⟩, htableBlock⟩
  · rw [hbitmapBlock]
    exact hm.bitmap_lt
  · rw [hbitmapBlock, block_putBlock_other hbitmap]
    exact hm.bit
  · rw [htableBlock]
    exact hm.block_lt

end

/-- With inodes of 128 bytes the tables act as an array. -/
theorem InodeTables.storesInode (h : fs.InodeTables) (hn : fs.IsInode n)
    (hsize : fs.layout.inodeSize = 128) (s : Inode) : fs.StoresInode n s := by
  have hl := h.addressable
  have hrun := run_writeInode hl hn.toPresent hsize s fs.currentBlock
  have hsame := newInodeTable_same hn.toPresent s
  have hother := fun m (hm : fs.IsInode m) hne => newInodeTable_other (n := n) hm.toPresent hne s
  rw [withCurrent_currentBlock] at hrun
  generalize fs.newInodeTable n s = table at hrun hsame hother
  have hread : ∀ m, fs.IsInode m → valueOf (readInode m)
      ((fs.withCurrent table).putBlock (fs.inodeTableBlock n) table) =
        some ⟨((if fs.inodeTableBlock m = fs.inodeTableBlock n then
          table.trunc fs.layout.blockSize else fs.block (fs.inodeTableBlock m)).view
            (fs.layout.inodeSlot m * 128)).trunc 128⟩ := by
    intro m hm
    obtain ⟨hpresent, hblock⟩ := @Present.putBlock fs m _ table hm.toPresent
      (h.not_descriptor n m _ hn hm (h.inInodeTable hn)).symm
      (h.not_bitmap n m _ hn hm (h.inInodeTable hn)).symm
    have hl' : Addressable (fs.putBlock (fs.inodeTableBlock n) table).layout := by
      rwa [layout_putBlock]
    rw [withCurrent_putBlock, valueOf_of_run (run_readInode hl' hpresent table)]
    unfold inodeAt
    rw [hblock, block_putBlock, layout_putBlock]
  refine ⟨_, hrun, ?_, fun m hm hne => ?_⟩
  · rw [hread n hn, if_pos rfl, hsame]
  · have hbefore := run_readInode hl hm.toPresent fs.currentBlock
    rw [withCurrent_currentBlock] at hbefore
    rw [hread m hm, valueOf_of_run hbefore]
    unfold inodeAt
    split
    case isFalse => rfl
    case isTrue hblock =>
      have hslot : fs.layout.inodeSlot m ≠ fs.layout.inodeSlot n :=
        fun heq => hne (h.slot_injective hn hm hblock heq)
      rw [hother m hm hslot, hblock]

/-- With larger inodes, `write_inode` does not return. -/
theorem not_storesInode_of_gt (hl : Addressable fs.layout) (hn : fs.Present n)
    (hsize : 128 < fs.layout.inodeSize) (s : Inode) : ¬ fs.StoresInode n s := by
  rintro ⟨fs', hrun, -⟩
  have herror := run_writeInode_of_gt hl hn hsize s fs.currentBlock
  rw [withCurrent_currentBlock, hrun] at herror
  exact absurd herror (by simp)

/-- The inode tables act as an array exactly on volumes with inodes of 128 bytes: with larger ones,
`write_inode` reads past the end of the structure, and stores it in another place than `read_inode`
looks for it. -/
theorem inode_table_is_array_iff (h : fs.InodeTables) (hn : fs.IsInode n) (s : Inode) :
    fs.StoresInode n s ↔ fs.layout.inodeSize = 128 := by
  constructor
  · intro hstores
    by_contra hsize
    have hge := h.size_ge
    exact not_storesInode_of_gt h.addressable hn.toPresent (by omega) s hstores
  · exact fun hsize => h.storesInode hn hsize s

/-- On a volume of one group there is one table. -/
theorem inodeTables_of_one_group (hl : Addressable fs.layout)
    (hinodes : 0 < fs.layout.inodesInBlockGroup) (hpow : ∃ k, fs.layout.inodeSize = 2 ^ k)
    (hge : 128 ≤ fs.layout.inodeSize) (hle : fs.layout.inodeSize ≤ fs.layout.blockSize)
    (hgroups : fs.layout.blockGroups = 1) (htable : ∀ x < fs.layout.inodeTableBlocks,
      (fs.descriptor 0).inodeTable + x < fs.layout.blockCount ∧
      (fs.descriptor 0).inodeTable + x ≠ fs.layout.tableBlock 0 ∧
      (fs.descriptor 0).inodeTable + x ≠ (fs.descriptor 0).inodeBitmap) : fs.InodeTables := by
  have hgroup : ∀ n, fs.IsInode n → fs.layout.inodeGroup n = 0 := fun n hn => by
    have hlt := hn.group_lt
    omega
  have hin : ∀ n k, fs.IsInode n → fs.InInodeTable n k → k < fs.layout.blockCount ∧
      k ≠ fs.layout.tableBlock 0 ∧ k ≠ (fs.descriptor 0).inodeBitmap := by
    rintro n k hn ⟨x, hx, rfl⟩
    rw [hgroup n hn]
    exact htable x hx
  refine ⟨hl, hinodes, hpow, hge, hle, fun n k hn hk => (hin n k hn hk).1,
    fun n m k hn hm _ _ => ?_, fun n m k hn hm hk => ?_, fun n m k hn hm hk => ?_⟩
  · rw [hgroup n hn, hgroup m hm]
  · rw [hgroup m hm]
    exact (hin n k hn hk).2.1
  · unfold inodeBitmapBlock
    rw [hgroup m hm]
    exact (hin n k hn hk).2.2

/-- The table of the volume is block 5. -/
theorem inodeTables_indirectVolume : indirectVolume.InodeTables := by
  refine inodeTables_of_one_group (addressable_sampleVolume _) ?_ ⟨7, ?_⟩ ?_ ?_ ?_ ?_ <;>
    decide

theorem inode_table_is_array_small_inodes :
    indirectVolume.StoresInode 1 ⟨fun _ => 1⟩ ∧ indirectVolume.layout.inodeSize = 128 := by
  have hsize : indirectVolume.layout.inodeSize = 128 := by decide
  exact ⟨(inode_table_is_array_iff inodeTables_indirectVolume (isInode_indirectVolume.mpr rfl)
    _).mpr hsize, hsize⟩

/-! ## A volume with inodes of 256 bytes -/

/-- The superblock of the small volume in revision 1, with an inode size of 256 bytes. -/
def wideSuperblock : Superblock :=
  ⟨fun i => if i = 76 then 1 else if i = 89 then 1 else sampleSuperblock.raw i⟩

/-- The blocks of the small volume with this superblock and with the inodes 1 and 2 in use. -/
def wideBlock (n : Nat) : Bytes :=
  if n = 1 then wideSuperblock.raw
  else sampleBlock (fun n i => if n = 4 ∧ i = 0 then 3 else 0) n

def wideVolume : FileSystem where
  disk := fun a => wideBlock (a / 1024) (a % 1024)
  superblock := wideSuperblock
  currentBlock := fun _ => 0
  zeroes := none
  clock := fun _ => 0
  hasError := 1

/-- The table consists of the blocks 5 and 6. -/
theorem inodeTables_wideVolume : wideVolume.InodeTables := by
  refine inodeTables_of_one_group ⟨?_, ?_⟩ ?_ ⟨8, ?_⟩ ?_ ?_ ?_ ?_ <;> decide

/-- The second inode is present, in the second slot of block 5. -/
theorem isInode_wideVolume : wideVolume.IsInode 2 := by
  refine ⟨⟨?_, ?_, ?_, ?_, ?_, ?_⟩, by decide, by decide, ?_⟩ <;> decide

/-- `write_inode(2, s)` would store `s` at byte 256 of block 5, where `read_inode(2)` reads from
byte 128. -/
theorem wide_inode_not_stored :
    wideVolume.InodeTables ∧ wideVolume.IsInode 2 ∧ ¬ wideVolume.StoresInode 2 ⟨fun _ => 1⟩ := by
  exact ⟨inodeTables_wideVolume, isInode_wideVolume, not_storesInode_of_gt
    inodeTables_wideVolume.addressable isInode_wideVolume.toPresent (by decide) _⟩

end FileSystem

end LudOS.Ext2
