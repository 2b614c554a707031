import LudOS.Ext2.Accounting

/-!
# Mounting and the first data block

The constructor of `Ext2FS`, and where the blocks of a group begin. On an ext2 volume bit `j` of
group `g` stands for block `superblock_block_number + g * blocks_in_block_group + j`, where the
first number is 1 when blocks have 1 KiB and 0 when they are larger. The driver always counts from
block 1, and it looks for superblock copies in one group more than the volume may have.

`Standard` says what a well-formed volume looks like, with blocks of any size, and `Honours` that
the driver keeps to this layout.
-/

namespace LudOS.Ext2

open Lib

namespace Superblock

def superblockBlockNumber (sb : Superblock) : Nat := sb.raw.u32 20

def mountsSinceFsck (sb : Superblock) : Nat := sb.raw.u16 52

def fsState (sb : Superblock) : Nat := sb.raw.u16 58

def requiredFeatures (sb : Superblock) : Nat := sb.raw.u32 96

def roRequiredFeatures (sb : Superblock) : Nat := sb.raw.u32 100

/-- Store a new value of `last_mount_time`. -/
def setLastMountTime (sb : Superblock) (value : Nat) : Superblock := ⟨sb.raw.putU32 44 value⟩

/-- Store a new value of `mounts_since_fsck`. -/
def setMountsSinceFsck (sb : Superblock) (value : Nat) : Superblock := ⟨sb.raw.putU16 52 value⟩

/-- Store a new value of `fs_state`. -/
def setFsState (sb : Superblock) (value : Nat) : Superblock := ⟨sb.raw.putU16 58 value⟩

/-- Store a new value of `optional_features`. -/
def setOptionalFeatures (sb : Superblock) (value : Nat) : Superblock := ⟨sb.raw.putU32 92 value⟩

end Superblock

/-- `Ext2FS::check_superblock`: the signature, and from revision 1 on the features that the driver
does not have (compression, journal replay and journal; directories as binary trees). -/
def checkSuperblock (sb : Superblock) : Bool :=
  sb.ext2Signature = signature &&
    (sb.layout.versionMajor = 0 ||
      sb.requiredFeatures &&& 0x1 = 0 && sb.requiredFeatures &&& 0x4 = 0 &&
        sb.requiredFeatures &&& 0x8 = 0 && sb.roRequiredFeatures &&& 0x4 = 0)

/-- `Ext2FS::read_superblock`, for a disk of at least 2 KiB. -/
def readSuperblock (disk : Bytes) : Superblock := ⟨(disk.view 1024).trunc Superblock.size⟩

/-- The superblock as the constructor changes it before it writes it back. -/
def Superblock.mounted (sb : Superblock) (time : Nat) : Superblock :=
  ((sb.setLastMountTime time).setMountsSinceFsck (sb.mountsSinceFsck + 1)).setFsState 2

/-- The constructor up to `check_superblock_backups`. -/
def FileSystem.opened (fs : FileSystem) : FileSystem :=
  { fs with
    superblock := (readSuperblock fs.disk).setOptionalFeatures 0x18
    currentBlock := fun _ => 0 }

/-- The constructor from there to `update_superblock`. -/
def FileSystem.started (fs : FileSystem) : FileSystem :=
  { fs with
    superblock := fs.superblock.mounted (fs.clock 0)
    clock := fun i => fs.clock (i + 1)
    hasError := fs.superblock.fsState }

/-- The constructor `Ext2FS::Ext2FS`. The state it starts from only says what the disk holds. -/
def mount : Action Unit := do
  modify FileSystem.opened
  let _ ← checkSuperblockBackups
  modify FileSystem.started
  updateSuperblock

/-- The group and the bit that stand for block `b`. -/
def Superblock.bitOf (sb : Superblock) (b : Nat) : Nat × Nat :=
  ((b - sb.superblockBlockNumber) / sb.layout.blocksInBlockGroup,
    (b - sb.superblockBlockNumber) % sb.layout.blocksInBlockGroup)

namespace FileSystem

/-- The first block that belongs to a group. -/
def firstBlock (fs : FileSystem) : Nat := fs.superblock.superblockBlockNumber

/-- The number of groups of the volume, the last one possibly incomplete. -/
def groups (fs : FileSystem) : Nat :=
  chunkCount (fs.layout.blockCount - fs.firstBlock) fs.layout.blocksInBlockGroup

/-- Block `b` belongs to a group of the volume. -/
def HasBlock (fs : FileSystem) (b : Nat) : Prop := fs.firstBlock ≤ b ∧ b < fs.layout.blockCount

/-- A bit of the block bitmaps, given by its group and its index. -/
def bitAt (fs : FileSystem) (p : Nat × Nat) : Bool := (fs.bitmap p.1).bit p.2

/-- Block `k` holds the superblock or, in a group with a copy of it, the copy or the first block of
the copy of the descriptor table behind it. -/
def HasSuperblock (fs : FileSystem) (k : Nat) : Prop :=
  k = fs.firstBlock ∨ ∃ i, 1 ≤ i ∧ i < fs.groups ∧ fs.hasBackup i ∧
    (k = fs.firstBlock + i * fs.layout.blocksInBlockGroup ∨
      k = fs.firstBlock + i * fs.layout.blocksInBlockGroup + 1)

/-- A well-formed volume with blocks of any size, whose superblock the driver accepts. -/
structure Standard (fs : FileSystem) : Prop where
  accepted : checkSuperblock fs.superblock = true
  on_disk : ∀ i < Superblock.size, fs.disk (1024 + i) = fs.superblock.raw i
  addressable : Addressable fs.layout
  first_block : fs.firstBlock = if fs.layout.blockSizeShift = 0 then 1 else 0
  nonempty : fs.firstBlock < fs.layout.blockCount
  group_size_pos : 0 < fs.layout.blocksInBlockGroup
  group_size_le : fs.layout.blocksInBlockGroup ≤ fs.layout.blockSize * 8
  zeroes : ∀ size ∈ fs.zeroes, size = fs.layout.blockSize
  table_lt : ∀ g < fs.groups, fs.layout.tableBlock g < fs.layout.blockCount
  bitmap_lt : ∀ g < fs.groups, fs.bitmapBlock g < fs.layout.blockCount
  /-- The slot of the descriptor table behind the last group, which the driver may look at. -/
  unused : ∀ g < fs.layout.blockGroups, fs.groups ≤ g →
    fs.layout.tableBlock g < fs.layout.blockCount ∧ fs.freeCount g = 0
  table_apart : ∀ g < fs.groups, ¬ fs.HasSuperblock (fs.layout.tableBlock g)
  bitmap_apart : ∀ g < fs.groups, ¬ fs.HasSuperblock (fs.bitmapBlock g)
  bitmap_ne_table : ∀ g < fs.groups, ∀ g' < fs.groups, fs.bitmapBlock g ≠ fs.layout.tableBlock g'
  bitmap_injective :
    ∀ g < fs.groups, ∀ g' < fs.groups, fs.bitmapBlock g = fs.bitmapBlock g' → g = g'
  counts : ∀ g < fs.groups, fs.freeCount g = (fs.freeBits g).card
  free_in_group : ∀ g < fs.groups, ∀ j ∈ fs.freeBits g, j < fs.layout.blocksInBlockGroup
  free_lt : ∀ g < fs.groups, ∀ j ∈ fs.freeBits g,
    fs.firstBlock + g * fs.layout.blocksInBlockGroup + j < fs.layout.blockCount
  free_not_superblock : ∀ g < fs.groups, ∀ j ∈ fs.freeBits g,
    ¬ fs.HasSuperblock (fs.firstBlock + g * fs.layout.blocksInBlockGroup + j)
  free_not_group : ∀ g < fs.groups, ∀ j ∈ fs.freeBits g, ∀ g' < fs.groups,
    fs.firstBlock + g * fs.layout.blocksInBlockGroup + j ≠ fs.layout.tableBlock g' ∧
      fs.firstBlock + g * fs.layout.blocksInBlockGroup + j ≠ fs.bitmapBlock g'

/-- The driver keeps to the layout of the volume. Mounting succeeds; `alloc_block` returns a block
whose own bit was clear and is set afterwards, if there is one; `free_block` clears the own bit of
the block and no other one; and `update_superblock` stores to the first blocks of groups that
exist. -/
structure Honours (fs : FileSystem) : Prop where
  mounts : ∃ fs', mount.run fs = .ok () fs'
  allocates : ∀ g < fs.groups, (∃ b, fs.HasBlock b ∧ fs.bitAt (fs.superblock.bitOf b) = false) →
    ∃ b fs', (allocBlock g).run fs = .ok b fs' ∧ fs.HasBlock b ∧
      fs.bitAt (fs.superblock.bitOf b) = false ∧ fs'.bitAt (fs.superblock.bitOf b) = true
  frees : ∀ b, fs.HasBlock b → fs.bitAt (fs.superblock.bitOf b) = true →
    ∃ fs', (freeBlock b).run fs = .ok () fs' ∧ ∀ g < fs.groups, ∀ j < fs.layout.blockSize * 8,
      fs'.bitAt (g, j) = (fs.bitAt (g, j) && decide ((g, j) ≠ fs.superblock.bitOf b))
  updates : ∃ fs', updateSuperblock.run fs = .ok () fs' ∧ ∀ k, fs'.block k ≠ fs.block k →
    ∃ i < fs.groups, k = fs.firstBlock + i * fs.layout.blocksInBlockGroup

variable {fs : FileSystem}

/-! ## The mount -/

theorem layout_congr {sb sb' : Superblock} (h : ∀ i < Superblock.size, sb.raw i = sb'.raw i) :
    sb.layout = sb'.layout := by
  have hlt : ∀ i < 1024, sb.raw i = sb'.raw i := h
  unfold Superblock.layout
  congr 1 <;> first
    | exact Bytes.u32_congr fun i hi => hlt _ (by omega)
    | exact Bytes.u16_congr fun i hi => hlt _ (by omega)

@[simp] theorem layout_setOptionalFeatures (sb : Superblock) (value : Nat) :
    (sb.setOptionalFeatures value).layout = sb.layout := by
  simp [Superblock.layout, Superblock.setOptionalFeatures, Bytes.u32_putU32_other,
    Bytes.u16_putU32_other]

@[simp] theorem layout_mounted (sb : Superblock) (time : Nat) :
    (sb.mounted time).layout = sb.layout := by
  simp [Superblock.layout, Superblock.mounted, Superblock.setFsState, Superblock.setMountsSinceFsck,
    Superblock.setLastMountTime, Bytes.u32_putU32_other, Bytes.u16_putU32_other,
    Bytes.u32_putU16_other, Bytes.u16_putU16_other]

/-- `check_superblock_backups` reads the copies and changes nothing but the buffer. -/
theorem run_checkBackups (hl : Addressable fs.layout) {is : List Nat}
    (hlt : ∀ i ∈ is, fs.hasBackup i → fs.layout.backupBlock i < fs.layout.blockCount) (c : Bytes) :
    ∃ okay c', (checkBackups is).run (fs.withCurrent c) = .ok okay (fs.withCurrent c') := by
  induction is generalizing c with
  | nil => exact ⟨true, c, rfl⟩
  | cons i is ih =>
    have hrest := ih fun i' hi' => hlt i' (List.mem_cons_of_mem i hi')
    unfold checkBackups
    rw [run_get_bind]
    by_cases hb : fs.hasBackup i
    · obtain ⟨okay, c', hrun⟩ := hrest (fs.block (fs.layout.backupBlock i))
      have hload : (do
          loadBlock (fs.layout.backupBlock i)
          let fs ← get
          pure (decide ((Superblock.mk fs.currentBlock).ext2Signature = signature)) :
            Action Bool).run (fs.withCurrent c) = .ok _ _ :=
        run_bind_ok (run_loadBlock_over hl (hlt i List.mem_cons_self hb) c)
      refine ⟨decide ((Superblock.mk (fs.block (fs.layout.backupBlock i))).ext2Signature =
        signature) && okay, c', ?_⟩
      rw [if_pos (show (fs.withCurrent c).hasBackup i from hb)]
      exact (run_bind_ok hload).trans (run_bind_ok hrun)
    · obtain ⟨okay, c', hrun⟩ := hrest c
      refine ⟨true && okay, c', ?_⟩
      rw [if_neg (show ¬ (fs.withCurrent c).hasBackup i from hb)]
      exact run_bind_ok hrun

theorem Standard.layout_opened (h : Standard fs) : fs.opened.layout = fs.layout := by
  show ((readSuperblock fs.disk).setOptionalFeatures 0x18).layout = fs.superblock.layout
  rw [layout_setOptionalFeatures]
  refine layout_congr fun i hi => ?_
  rw [← h.on_disk i hi]
  exact Bytes.trunc_apply hi

theorem Standard.hasBackup_opened (h : Standard fs) (i : Nat) :
    fs.opened.hasBackup i = fs.hasBackup i := by
  unfold hasBackup
  rw [h.layout_opened]

/-- The superblock copies that the driver uses are on the volume. -/
def CopiesExist (fs : FileSystem) : Prop :=
  ∀ i ∈ fs.layout.backupGroups, fs.hasBackup i → fs.layout.backupBlock i < fs.layout.blockCount

/-- A volume can be mounted if and only if the copies the driver looks for exist. -/
theorem Standard.mounts_iff (h : Standard fs) :
    (∃ fs', mount.run fs = .ok () fs') ↔ fs.CopiesExist := by
  have hlayout := h.layout_opened
  have hl : Addressable fs.opened.layout := by
    rw [hlayout]
    exact h.addressable
  have hcopies : (∀ i ∈ fs.opened.layout.backupGroups, fs.opened.hasBackup i →
      fs.opened.layout.backupBlock i < fs.opened.layout.blockCount) ↔ fs.CopiesExist := by
    unfold CopiesExist
    rw [hlayout]
    simp only [h.hasBackup_opened]
  have hmount : mount.run fs = (checkSuperblockBackups >>= fun _ => do
      modify FileSystem.started
      updateSuperblock).run fs.opened := rfl
  constructor
  · rintro ⟨fs', hrun⟩
    rw [hmount] at hrun
    obtain ⟨okay, t, hcheck, -⟩ := run_bind_eq_ok.mp hrun
    exact hcopies.mp (backup_lt_of_checkBackups hcheck hl)
  · intro hexist
    have hlt := hcopies.mpr hexist
    obtain ⟨okay, c, hcheck⟩ := run_checkBackups hl hlt fs.opened.currentBlock
    rw [withCurrent_currentBlock] at hcheck
    have hbackups : checkSuperblockBackups.run fs.opened = .ok okay (fs.opened.withCurrent c) := by
      assumption
    rw [hmount, run_bind_ok hbackups, run_modify_bind]
    have hstarted : (fs.opened.withCurrent c).started.layout = fs.opened.layout :=
      layout_mounted _ _
    obtain ⟨fs', hsync, -⟩ := @run_updateSuperblock_any (fs.opened.withCurrent c).started
      (by rwa [hstarted]) (fun i hi hb => by
        refine hlt i hi ?_
        unfold hasBackup at hb ⊢
        rwa [hstarted] at hb)
    exact ⟨fs', hsync⟩

/-! ## Groups and their blocks -/

theorem HasBlock.group_lt (h : Standard fs) {b : Nat} (hb : fs.HasBlock b) :
    (fs.superblock.bitOf b).1 < fs.groups ∧
      (fs.superblock.bitOf b).2 < fs.layout.blocksInBlockGroup ∧
      fs.firstBlock + (fs.superblock.bitOf b).1 * fs.layout.blocksInBlockGroup +
        (fs.superblock.bitOf b).2 = b := by
  have hle := hb.1
  have hlt := hb.2
  have hcover := @chunk_count_mul_ge (fs.layout.blockCount - fs.firstBlock) _ h.group_size_pos
  have hdiv := Nat.div_add_mod' (b - fs.firstBlock) fs.layout.blocksInBlockGroup
  refine ⟨?_, Nat.mod_lt _ h.group_size_pos, ?_⟩
  · show (b - fs.firstBlock) / fs.layout.blocksInBlockGroup < fs.groups
    rw [Nat.div_lt_iff_lt_mul h.group_size_pos]
    unfold groups
    omega
  · show fs.firstBlock + (b - fs.firstBlock) / fs.layout.blocksInBlockGroup *
      fs.layout.blocksInBlockGroup + (b - fs.firstBlock) % fs.layout.blocksInBlockGroup = b
    omega

/-- The bit that stands for a block of a group. -/
theorem bitOf_eq {g j : Nat} (hj : j < fs.layout.blocksInBlockGroup) :
    fs.superblock.bitOf (fs.firstBlock + g * fs.layout.blocksInBlockGroup + j) = (g, j) := by
  have hpos := Nat.zero_lt_of_lt hj
  have hsub : fs.firstBlock + g * fs.layout.blocksInBlockGroup + j - fs.firstBlock =
      j + fs.layout.blocksInBlockGroup * g := by
    rw [Nat.mul_comm]
    omega
  show ((_ - fs.firstBlock) / fs.layout.blocksInBlockGroup,
    (_ - fs.firstBlock) % fs.layout.blocksInBlockGroup) = _
  rw [hsub, Nat.add_mul_div_left _ _ hpos, Nat.div_eq_of_lt hj, Nat.zero_add,
    Nat.add_mul_mod_self_left, Nat.mod_eq_of_lt hj]

namespace Standard

variable (h : Standard fs) {g b : Nat}

include h

theorem group_first_lt :
    g < fs.groups ↔ fs.firstBlock + g * fs.layout.blocksInBlockGroup < fs.layout.blockCount := by
  constructor
  · intro hg
    have hlt := chunk_count_pred_lt h.group_size_pos hg
    omega
  · intro hlt
    have hgroup := (HasBlock.group_lt h (b := fs.firstBlock + g * fs.layout.blocksInBlockGroup)
      ⟨Nat.le_add_right _ _, hlt⟩).1
    have hbit := @bitOf_eq fs g _ h.group_size_pos
    rw [Nat.add_zero] at hbit
    rwa [hbit] at hgroup

/-- A block whose bit is clear holds no metadata. -/
theorem mem_freeBits (hb : fs.HasBlock b) :
    (fs.superblock.bitOf b).2 ∈ fs.freeBits (fs.superblock.bitOf b).1 ↔
      fs.bitAt (fs.superblock.bitOf b) = false := by
  have hlt := (hb.group_lt h).2.1
  have hle := h.group_size_le
  unfold freeBits bitAt
  rw [Bytes.mem_clearBits]
  exact and_iff_right (by omega)

theorem bit_eq_true (hb : fs.HasBlock b)
    (hmeta : fs.HasSuperblock b ∨ ∃ g < fs.groups, b = fs.layout.tableBlock g) :
    fs.bitAt (fs.superblock.bitOf b) = true := by
  obtain ⟨hg, -, heq⟩ := hb.group_lt h
  by_contra hclear
  have hfree := (h.mem_freeBits hb).mpr (by simpa using hclear)
  rcases hmeta with hsuper | ⟨g, hg', htable⟩
  · refine h.free_not_superblock _ hg _ hfree ?_
    rwa [heq]
  · refine (h.free_not_group _ hg _ hfree g hg').1 ?_
    rw [heq, htable]

/-- The number of the copy of group `i`, as the driver computes it. -/
theorem backupBlock_eq {i : Nat} (hi : i ∈ fs.layout.backupGroups) :
    1 ≤ i ∧ fs.layout.backupBlock i = i * fs.layout.blocksInBlockGroup + 1 := by
  have hmem := List.mem_range'_1.mp hi
  have hmul := Nat.mul_le_mul_right fs.layout.blocksInBlockGroup
    (show i ≤ fs.layout.blockCount / fs.layout.blocksInBlockGroup by omega)
  have hdiv := Nat.div_mul_le_self fs.layout.blockCount fs.layout.blocksInBlockGroup
  have hge := h.addressable.block_size_ge
  have hfits := Nat.le_trans (Nat.mul_le_mul_left fs.layout.blockCount hge) h.addressable.fits
  unfold Layout.backupBlock
  rw [wmul_of_lt (by omega), wadd_of_lt (by omega)]
  exact ⟨hmem.1, rfl⟩

/-! ## Storing the superblock and freeing a block -/

section

variable (hcopies : fs.CopiesExist)

include hcopies

/-- `update_superblock` stores to no other metadata. -/
theorem hasSuperblock_of_holds {k : Nat} (hk : fs.HoldsSuperblock k) : fs.HasSuperblock k := by
  have hfirst := h.first_block
  have hpow := h.addressable.blockSize_eq_pow
  rcases hk with rfl | ⟨i, hi, hb, rfl⟩
  · refine .inl ?_
    by_cases hshift : fs.layout.blockSizeShift = 0
    · rw [hfirst, if_pos hshift, hpow, hshift]
      decide
    · have hlarge : 2 ^ 11 ≤ 2 ^ (10 + fs.layout.blockSizeShift) :=
        Nat.pow_le_pow_right (by decide) (by omega)
      rw [hfirst, if_neg hshift, Nat.div_eq_of_lt (by omega)]
  · obtain ⟨hpos, hblock⟩ := h.backupBlock_eq hi
    have hlt := hcopies i hi hb
    refine .inr ⟨i, hpos, h.group_first_lt.mpr ?_, hb, ?_⟩
    · split at hfirst <;> omega
    · split at hfirst <;> omega

/-- What `free_block` does to the bitmaps when it clears bit `j` of group `g`. -/
theorem bitAt_release {j : Nat}
    (hg : g < fs.groups) {fs' : FileSystem} (hs : Resynced (fs.release g j) fs') {g' j' : Nat}
    (hg' : g' < fs.groups) (hj' : j' < fs.layout.blockSize * 8) :
    fs'.bitAt (g', j') = (fs.bitAt (g', j') && decide ((g', j') ≠ (g, j))) := by
  have hne := h.bitmap_ne_table g hg
  have hlayout : fs'.layout = fs.layout := by rw [hs.layout, layout_release]
  have hkeep : ∀ k, ¬ fs.HasSuperblock k → fs'.block k = (fs.release g j).block k := by
    refine fun k hk => hs.block k fun hhold => hk (h.hasSuperblock_of_holds hcopies ?_)
    unfold HoldsSuperblock hasBackup at hhold ⊢
    rwa [layout_release] at hhold
  have hblock : ∀ k, (fs.release g j).block k =
      if k = fs.layout.tableBlock g then fs.newTable g (fs.recount g (fs.freeCount g + 1))
      else if k = fs.bitmapBlock g then ((fs.bitmap g).clearBit j).trunc fs.layout.blockSize
      else fs.block k := by
    intro k
    rw [block_release]
    unfold updateGroup
    rw [block_withCurrent, block_putBlock, layout_putBlock, trunc_newTable h.addressable,
      block_putBlock]
  -- The descriptors still name the same bitmaps.
  have hbitmap : fs'.bitmapBlock g' = fs.bitmapBlock g' := by
    refine Bytes.u32_congr fun i hi => ?_
    rw [@descriptor_of_newTable _ _ g (fs.recount g (fs.freeCount g + 1)) hlayout ?_ _
      (fun hother => ?_) _ (by omega)]
    · split
      case isTrue heq =>
        subst heq
        exact Bytes.splice_outside (by omega)
      case isFalse => rfl
    · rw [hkeep _ (h.table_apart g hg), hblock, if_pos rfl]
    · rw [hkeep _ (h.table_apart g' hg'), hblock, if_neg hother, if_neg (hne g' hg').symm]
  unfold bitAt bitmap
  rw [hbitmap, hkeep _ (h.bitmap_apart g' hg'), hblock, if_neg (h.bitmap_ne_table g' hg' g hg)]
  by_cases hsame : g' = g
  · subst hsame
    rw [if_pos rfl, Bytes.bit_congr (Bytes.trunc_apply (by omega)), Bytes.bit_clearBit,
      Bool.and_comm]
    congr 1
    simp
  · have hother : fs.bitmapBlock g' ≠ fs.bitmapBlock g :=
      fun heq => hsame (h.bitmap_injective g' hg' g hg heq)
    rw [if_neg hother]
    simp [hsame]

/-- `free_block` clears the bit that it computes from the number of the block. -/
theorem run_freeBlock {j : Nat} (hgroup : wsub b 1 / fs.layout.blocksInBlockGroup = g)
    (hindex : wsub b 1 % fs.layout.blocksInBlockGroup = j) (hg : g < fs.groups)
    (hset : fs.bitAt (g, j) = true) : ∃ fs', (freeBlock b).run fs = .ok () fs' ∧ ∀ g' < fs.groups,
      ∀ j' < fs.layout.blockSize * 8,
        fs'.bitAt (g', j') = (fs.bitAt (g', j') && decide ((g', j') ≠ (g, j))) := by
  have hle := h.group_size_le
  have hj : j < fs.layout.blocksInBlockGroup := hindex ▸ Nat.mod_lt _ h.group_size_pos
  have hplaced : GroupPlaced fs g :=
    ⟨h.addressable, h.table_lt g hg, h.bitmap_lt g hg, h.bitmap_ne_table g hg g hg⟩
  obtain ⟨fs', hsync, hs⟩ := @run_updateSuperblock_any (fs.release g j)
    (by rw [layout_release]; exact h.addressable) (fun i hi hb => by
      refine hcopies i hi ?_
      unfold hasBackup at hb ⊢
      rwa [layout_release] at hb)
  refine ⟨fs', ?_, fun g' hg' j' hj' => h.bitAt_release hcopies hg hs hg' hj'⟩
  rw [run_freeBlock_eq hplaced hgroup hindex (by omega) hset, hsync]

end

/-! ## Volumes with larger blocks -/

/-- With blocks larger than 1 KiB, `free_block(1)` clears the bit of block 0. -/
theorem not_honours_of_large_blocks (hshift : fs.layout.blockSizeShift ≠ 0) : ¬ fs.Honours := by
  intro hh
  have hcopies := h.mounts_iff.mp hh.mounts
  have hfirst : fs.firstBlock = 0 := by rw [h.first_block, if_neg hshift]
  have hgroups : 0 < fs.groups := by
    have hnonempty := h.nonempty
    exact h.group_first_lt.mpr (by omega)
  have htable : fs.layout.tableBlock 0 = 1 := by
    unfold Layout.tableBlock Layout.blockGroupTableBlock
    rw [if_neg hshift, Nat.zero_div]
  have hone : fs.HasBlock 1 := ⟨by omega, htable ▸ h.table_lt 0 hgroups⟩
  have hzero : fs.HasBlock 0 := ⟨by omega, Nat.lt_trans (by decide) hone.2⟩
  have hbitOf : fs.superblock.bitOf 0 = (0, 0) := by
    have hbit := @bitOf_eq fs 0 _ h.group_size_pos
    rwa [hfirst, Nat.zero_mul] at hbit
  have hset : fs.bitAt (0, 0) = true := hbitOf ▸ h.bit_eq_true hzero (.inl (.inl hfirst.symm))
  have hsetOne := h.bit_eq_true hone (.inr ⟨0, hgroups, htable.symm⟩)
  obtain ⟨hg, hj, heq⟩ := hone.group_lt h
  have hle := h.group_size_le
  -- The own bit of block 1 is still set.
  obtain ⟨fs', hrun, hbits⟩ := h.run_freeBlock hcopies (b := 1) (Nat.zero_div _) (Nat.zero_mod _)
    hgroups hset
  obtain ⟨t, hrun', hclear⟩ := hh.frees 1 hone hsetOne
  obtain rfl : t = fs' := by
    rw [hrun] at hrun'
    exact (EStateM.Result.ok.inj hrun').2.symm
  have hbit := hclear _ hg _ (show (fs.superblock.bitOf 1).2 < _ by omega)
  rw [hbits _ hg _ (by omega), hsetOne] at hbit
  have hdiffer : fs.superblock.bitOf 1 ≠ (0, 0) := by
    intro hsame
    rw [hsame, hfirst] at heq
    omega
  simp [hdiffer] at hbit

/-! ## Volumes with 1 KiB blocks -/

/-- The driver counts every group of the volume. -/
theorem lt_blockGroups (hg : g < fs.groups) : g < fs.layout.blockGroups := by
  have hlt := h.group_first_lt.mp hg
  have hcover := @chunk_count_mul_ge fs.layout.blockCount _ h.group_size_pos
  by_contra hge
  have hmul := Nat.mul_le_mul_right fs.layout.blocksInBlockGroup (Nat.not_lt.mp hge)
  unfold Layout.blockGroups at hmul
  omega

end Standard

section

variable (h : Standard fs) (hshift : fs.layout.blockSizeShift = 0) (hcopies : fs.CopiesExist)

include h hshift

theorem Standard.firstBlock_eq : fs.firstBlock = 1 := by rw [h.first_block, if_pos hshift]

theorem Standard.blockSize_eq : fs.layout.blockSize = 1024 := by
  rw [h.addressable.blockSize_eq_pow, hshift]
  rfl

theorem Standard.blockOf_eq (g j : Nat) :
    fs.layout.blockOf g j = fs.firstBlock + g * fs.layout.blocksInBlockGroup + j := by
  unfold Layout.blockOf
  rw [h.firstBlock_eq hshift]
  omega

/-- What the driver takes for a free block of the volume is one. -/
theorem Standard.isFree {k : Nat} (hk : fs.IsFree k) (hlt : k < fs.layout.blockCount) :
    ∃ g < fs.groups, ∃ j ∈ fs.freeBits g,
      k = fs.firstBlock + g * fs.layout.blocksInBlockGroup + j := by
  obtain ⟨g, -, j, hj, rfl⟩ := hk
  rw [h.blockOf_eq hshift] at hlt ⊢
  exact ⟨g, h.group_first_lt.mpr (by omega), j, hj, rfl⟩

include hcopies

theorem Standard.hasSuperblock_of_isCopy {k : Nat} (hk : fs.IsCopy k) : fs.HasSuperblock k :=
  h.hasSuperblock_of_holds hcopies ((holdsSuperblock_iff (h.blockSize_eq hshift) k).mpr hk)

theorem Standard.groupReady {g : Nat} (hg : g < fs.groups) : GroupReady fs g := by
  refine ⟨⟨h.addressable, h.table_lt g hg, h.bitmap_lt g hg, h.bitmap_ne_table g hg g hg⟩,
    h.blockSize_eq hshift, ?_, ?_, ?_, ?_⟩
  · rw [← h.blockSize_eq hshift]
    exact h.zeroes
  · rintro k (rfl | ⟨i, hi, hb, rfl⟩)
    · rw [← h.firstBlock_eq hshift]
      exact h.nonempty
    · exact hcopies i hi hb
  · exact fun hcopy => h.table_apart g hg (h.hasSuperblock_of_isCopy hshift hcopies hcopy)
  · exact fun hcopy => h.bitmap_apart g hg (h.hasSuperblock_of_isCopy hshift hcopies hcopy)

/-- `alloc_block` returns a block whose own bit it sets. -/
theorem Standard.run_allocBlock {pref : Nat} (hpref : pref < fs.groups)
    (hfree : ∃ b, fs.HasBlock b ∧ fs.bitAt (fs.superblock.bitOf b) = false) :
    ∃ b fs', (allocBlock pref).run fs = .ok b fs' ∧ fs.HasBlock b ∧
      fs.bitAt (fs.superblock.bitOf b) = false ∧ fs'.bitAt (fs.superblock.bitOf b) = true := by
  have htable : ∀ g ∈ fs.layout.groupOrder pref, fs.layout.tableBlock g < fs.layout.blockCount ∧
      (fs.freeCount g ≠ 0 → g < fs.groups) := by
    intro g hg
    by_cases hreal : g < fs.groups
    · exact ⟨h.table_lt g hreal, fun _ => hreal⟩
    · rcases List.mem_cons.mp hg with rfl | hg
      · exact absurd hpref hreal
      · obtain ⟨hlt, hzero⟩ := h.unused g (List.mem_range.mp (List.mem_filter.mp hg).1)
          (Nat.not_lt.mp hreal)
        exact ⟨hlt, fun hne => absurd hzero hne⟩
  -- Some group has a free block.
  obtain ⟨b₀, hb₀, hclear⟩ := hfree
  obtain ⟨hg₀, -, -⟩ := hb₀.group_lt h
  have hcount₀ : fs.freeCount (fs.superblock.bitOf b₀).1 ≠ 0 := by
    rw [h.counts _ hg₀]
    exact Finset.card_ne_zero_of_mem ((h.mem_freeBits hb₀).mpr hclear)
  have hmem₀ : (fs.superblock.bitOf b₀).1 ∈ fs.layout.groupOrder pref := by
    by_cases heq : (fs.superblock.bitOf b₀).1 = pref
    · exact heq ▸ List.mem_cons_self
    · refine List.mem_cons_of_mem _ (List.mem_filter.mpr ⟨?_, by simpa using heq⟩)
      exact List.mem_range.mpr (h.lt_blockGroups hg₀)
  obtain ⟨g, hsome⟩ : ∃ g, fs.chosenGroup pref = some g := by
    cases hchosen : fs.chosenGroup pref with
    | some g => exact ⟨g, rfl⟩
    | none => exact absurd hcount₀ (by simpa using List.find?_eq_none.mp hchosen _ hmem₀)
  have hcount : fs.freeCount g ≠ 0 := by simpa using List.find?_some hsome
  have hg := (htable g (List.mem_of_find?_eq_some hsome)).2 hcount
  obtain ⟨j, hj, hscan⟩ := exists_firstClear (h.counts g hg) hcount
  have hblock := h.blockOf_eq hshift g j
  have hlt := h.free_lt g hg j hj
  have hgroup := h.free_not_group g hg j hj g hg
  have hready := h.groupReady hshift hcopies hg
  rw [← hblock] at hlt hgroup
  obtain ⟨fs', hrun, ha⟩ := run_allocBlock_take hready (fun g hg => (htable g hg).1) hsome hscan
    ⟨g, h.lt_blockGroups hg, j, hj, rfl⟩ hlt
    (fun hcopy => h.free_not_superblock g hg j hj
      (hblock ▸ h.hasSuperblock_of_isCopy hshift hcopies hcopy)) hgroup.2.symm hgroup.1.symm
  have hbit : fs.superblock.bitOf (fs.layout.blockOf g j) = (g, j) := by
    rw [hblock, bitOf_eq (h.free_in_group g hg j hj)]
  refine ⟨_, fs', hrun, ⟨by rw [hblock]; omega, hlt⟩, ?_, ?_⟩ <;> rw [hbit]
  · exact (Bytes.mem_clearBits.mp hj).2
  · have hspared : Spared fs g (fs.layout.tableBlock g) := by
      refine ⟨hready.table_not_copy, hready.bitmap_ne_table.symm, fun hf => ?_⟩
      obtain ⟨g', hg', j', hj', heq⟩ := h.isFree hshift hf hready.table_lt
      exact (h.free_not_group g' hg' j' hj' g hg).1 heq.symm
    have hbitmap : fs'.bitmapBlock g = fs.bitmapBlock g :=
      ha.toRecounted.u32_descriptor_of_spared hspared (by decide)
    have hj8 := (Bytes.mem_clearBits.mp hj).1
    unfold bitAt bitmap
    rw [hbitmap, ha.bitmap, Bytes.bit_congr (Bytes.trunc_apply (by omega)), Bytes.bit_setBit]
    simp

theorem Standard.honours : fs.Honours := by
  have hfirst := h.firstBlock_eq hshift
  refine ⟨h.mounts_iff.mpr hcopies, fun g hg hfree => h.run_allocBlock hshift hcopies hg hfree,
    fun b hb hset => ?_, ?_⟩
  · have hpred : wsub b 1 = b - fs.firstBlock := by
      have hfits := h.addressable.mul_lt hb.2
      rw [h.blockSize_eq hshift] at hfits
      rw [hfirst, wsub_of_le (by have := hb.1; omega) (by omega)]
    exact h.run_freeBlock hcopies (by rw [hpred]; rfl) (by rw [hpred]; rfl) (hb.group_lt h).1 hset
  · obtain ⟨fs', hsync, hs⟩ := run_updateSuperblock_any h.addressable hcopies
    refine ⟨fs', hsync, fun k hk => ?_⟩
    have hholds : fs.HoldsSuperblock k := by
      by_contra hnot
      exact hk (hs.block k hnot)
    rcases (holdsSuperblock_iff (h.blockSize_eq hshift) k).mp hholds with rfl | ⟨i, hi, hb, rfl⟩
    · exact ⟨0, h.group_first_lt.mpr (by have := h.nonempty; omega), by omega⟩
    · obtain ⟨-, hblock⟩ := h.backupBlock_eq hi
      have hlt := hcopies i hi hb
      exact ⟨i, h.group_first_lt.mpr (by omega), by omega⟩

end

/-- The driver keeps to the layout of a well-formed volume exactly when blocks have 1 KiB and every
group up to number `block_count / blocks_in_block_group` in which it looks for a superblock copy
exists. -/
theorem geometry_honoured_iff (h : Standard fs) : fs.Honours ↔ fs.layout.blockSizeShift = 0 ∧
      ∀ i ∈ fs.layout.backupGroups, fs.hasBackup i → i < fs.groups := by
  constructor
  · intro hh
    by_cases hshift : fs.layout.blockSizeShift = 0
    · refine ⟨hshift, fun i hi hb => h.group_first_lt.mpr ?_⟩
      have hlt := h.mounts_iff.mp hh.mounts i hi hb
      rw [(h.backupBlock_eq hi).2] at hlt
      rw [h.firstBlock_eq hshift]
      omega
    · exact absurd hh (h.not_honours_of_large_blocks hshift)
  · rintro ⟨hshift, hexist⟩
    refine h.honours hshift fun i hi hb => ?_
    have hlt := h.group_first_lt.mp (hexist i hi hb)
    rw [(h.backupBlock_eq hi).2]
    rw [h.firstBlock_eq hshift] at hlt
    omega

/-! ## Volumes of one group -/

/-- The superblock of a volume of 1 KiB blocks with the given number of blocks, in groups of the
given size. -/
def groupSuperblock (blocks size : UInt8) : Superblock :=
  ⟨fun i => if i = 4 then blocks else if i = 20 then 1
    else if i = 32 then size else if i = 33 then 0
    else sampleSuperblock.raw i⟩

/-- The small volume with this superblock. -/
def groupVolume (blocks size : UInt8) : FileSystem :=
  { sampleVolume (fun _ _ => 0) with
    disk := fun a => if a / 1024 = 1 then (groupSuperblock blocks size).raw (a % 1024)
      else (sampleVolume fun _ _ => 0).disk a
    superblock := groupSuperblock blocks size }

section

variable {blocks size : UInt8} (hsize : blocks = 32 ∧ size = 64 ∨ blocks = 33 ∧ size = 32)

include hsize

theorem layout_groupVolume :
    (groupVolume blocks size).layout = ⟨blocks.toNat, 0, size.toNat, 8, 0, 0, 0⟩ := by
  rcases hsize with ⟨rfl, rfl⟩ | ⟨rfl, rfl⟩ <;> decide

/-- There is one group behind block 0, with its descriptor in block 2 and its bitmap in block 3. -/
theorem group_groupVolume : (groupVolume blocks size).firstBlock = 1 ∧
    (groupVolume blocks size).groups = 1 ∧ (groupVolume blocks size).layout.tableBlock 0 = 2 ∧
    (groupVolume blocks size).bitmapBlock 0 = 3 := by
  rcases hsize with ⟨rfl, rfl⟩ | ⟨rfl, rfl⟩ <;> decide

theorem freeBits_groupVolume :
    (groupVolume blocks size).freeBits 0 = (Finset.range 31).filter (23 ≤ ·) := by
  have hblock : (groupVolume blocks size).block 3 = (sampleVolume fun _ _ => 0).block 3 := by
    refine Bytes.trunc_eq_trunc.mpr fun i hi => ?_
    exact if_neg (show (3 * 1024 + i) / 1024 ≠ 1 by omega)
  rw [← freeBits_sampleVolume fun _ _ => 0]
  unfold freeBits bitmap
  rw [(group_groupVolume hsize).2.2.2, bitmapBlock_sampleVolume, hblock, layout_groupVolume hsize,
    layout_sampleVolume]
  rfl

/-- There is no superblock copy. -/
theorem hasSuperblock_groupVolume {k : Nat} (hk : (groupVolume blocks size).HasSuperblock k) :
    k = 1 := by
  obtain ⟨hfirst, hgroups, -⟩ := group_groupVolume hsize
  rcases hk with rfl | ⟨i, hpos, hlt, -⟩
  · exact hfirst
  · omega

theorem standard_groupVolume : Standard (groupVolume blocks size) := by
  obtain ⟨hfirst, hgroups, htable, hbitmap⟩ := group_groupVolume hsize
  have hsuper : ∀ k, (groupVolume blocks size).HasSuperblock k → k = 1 :=
    fun k => hasSuperblock_groupVolume hsize
  have hcount : 32 ≤ (groupVolume blocks size).layout.blockCount ∧
      32 ≤ (groupVolume blocks size).layout.blocksInBlockGroup := by
    rcases hsize with ⟨rfl, rfl⟩ | ⟨rfl, rfl⟩ <;> decide
  constructor
  case on_disk =>
    intro i hi
    have hi : i < 1024 := hi
    refine (if_pos (show (1024 + i) / 1024 = 1 by omega)).trans ?_
    rw [show (1024 + i) % 1024 = i by omega]
    rfl
  case addressable => rcases hsize with ⟨rfl, rfl⟩ | ⟨rfl, rfl⟩ <;> exact ⟨by decide, by decide⟩
  case zeroes => exact nofun
  case counts =>
    simp only [hgroups, Nat.lt_one_iff, forall_eq, freeBits_groupVolume hsize]
    rcases hsize with ⟨rfl, rfl⟩ | ⟨rfl, rfl⟩ <;> decide
  case table_apart | bitmap_apart | bitmap_injective | free_in_group | free_lt | free_not_superblock
      | free_not_group =>
    simp only [hgroups, Nat.lt_one_iff, forall_eq, freeBits_groupVolume hsize, Finset.mem_filter,
      Finset.mem_range, htable, hbitmap]
    grind
  all_goals rcases hsize with ⟨rfl, rfl⟩ | ⟨rfl, rfl⟩ <;> decide

end

theorem geometry_honoured_one_group : (groupVolume 32 64).Honours := by
  refine (geometry_honoured_iff (standard_groupVolume (.inl ⟨rfl, rfl⟩))).mpr ⟨?_, ?_⟩ <;>
    decide

/-- A volume whose 32 blocks from block 1 on fill one group cannot be mounted: the driver looks for
a superblock copy in block 33. -/
theorem full_group_not_mounted : Standard (groupVolume 33 32) ∧ ¬ (groupVolume 33 32).Honours := by
  have h := standard_groupVolume (.inr ⟨rfl, rfl⟩)
  refine ⟨h, fun hh => ?_⟩
  exact absurd (h.mounts_iff.mp hh.mounts 1 (by decide) (by decide)) (by decide)

end FileSystem

end LudOS.Ext2
