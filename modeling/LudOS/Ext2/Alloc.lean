import Mathlib.Algebra.BigOperators.Group.Finset.Basic
import LudOS.Ext2.Geometry

/-!
# Block allocation

`alloc_block`, `free_block` and their helpers. The number of free blocks is kept in three places:
the in-memory superblock, the group descriptors, and the group bitmaps whose clear bits are the
free blocks. `Placed` says where the metadata lies, `Balanced` that the three counts agree, and
`Recounted` what both functions do to one group.
-/

namespace LudOS.Ext2

open Lib

/-! ## The functions -/

/-- The block that bit `j` of the bitmap of group `g` stands for. -/
def Layout.blockOf (l : Layout) (g j : Nat) : Nat := j + g * l.blocksInBlockGroup + 1

/-- `Ext2FS::alloc_block_in_block_group`. -/
def allocBlockInBlockGroup (group : Nat) : Action Nat := do
  let bgd ← getBlockGroup group
  if bgd.freeBlocksCount = 0 then pure 0
  else
    loadBlock bgd.blockBitmap
    let fs ← get
    match fs.currentBlock.firstClear (fs.layout.blockSize * 8) with
    | none => pure 0
    | some j =>
      set (fs.withCurrent (fs.currentBlock.setBit j))
      storeBlock bgd.blockBitmap
      writeBlockGroup group (bgd.setFreeBlocksCount (bgd.freeBlocksCount - 1))
      pure (wadd (wadd j (wmul group fs.layout.blocksInBlockGroup)) 1)

/-- The search of `Ext2FS::alloc_block`: the groups are tried in turn until one has a block. -/
def allocBlockInGroups : List Nat → Action Nat
  | [] => pure 0
  | group :: groups => do
    let block ← allocBlockInBlockGroup group
    if block ≠ 0 then pure block else allocBlockInGroups groups

/-- The order in which `alloc_block` tries the groups. -/
def Layout.groupOrder (l : Layout) (preferredGroup : Nat) : List Nat :=
  preferredGroup :: (List.range l.blockGroups).filter (· ≠ preferredGroup)

/-- `Ext2FS::alloc_block` from the label `allocate` on. The number of zeroes that are written is
the size of the static vector, which is built on the first call. -/
def allocate (block : Nat) : Action Nat := do
  let fs ← get
  let size := fs.zeroes.getD fs.layout.blockSize
  set (fs.withZeroes size)
  writeBlock block size (fun _ => 0)
  modify fun fs => fs.withSuperblock
    (fs.superblock.setUnallocatedBlocks (wsub fs.superblock.unallocatedBlocks 1))
  updateSuperblock
  pure block

/-- `Ext2FS::alloc_block`. -/
def allocBlock (preferredGroup : Nat) : Action Nat := do
  let fs ← get
  let block ← allocBlockInGroups (fs.layout.groupOrder preferredGroup)
  if block = 0 then pure 0 else allocate block

/-- `Ext2FS::free_block`. -/
def freeBlock (block : Nat) : Action Unit := do
  let fs ← get
  let group := wsub block 1 / fs.layout.blocksInBlockGroup
  let bgd ← getBlockGroup group
  loadBlock bgd.blockBitmap
  let index := wsub block 1 % fs.layout.blocksInBlockGroup
  check .assertion (index / 8 < fs.layout.blockSize)
  let fs ← get
  (if fs.currentBlock.bit index then pure () else error)
  modify fun fs => fs.withCurrent (fs.currentBlock.clearBit index)
  storeBlock bgd.blockBitmap
  writeBlockGroup group (bgd.setFreeBlocksCount (bgd.freeBlocksCount + 1))
  modify fun fs => fs.withSuperblock
    (fs.superblock.setUnallocatedBlocks (wadd fs.superblock.unallocatedBlocks 1))
  updateSuperblock

/-! ## The three counts -/

namespace FileSystem

variable {preferredGroup : Nat} {l : Layout}

/-- The block with the block bitmap of group `g`. -/
def bitmapBlock (fs : FileSystem) (g : Nat) : Nat := (fs.descriptor g).blockBitmap

/-- The block bitmap of group `g`. -/
def bitmap (fs : FileSystem) (g : Nat) : Bytes := fs.block (fs.bitmapBlock g)

/-- The clear bits of the bitmap of group `g`. -/
def freeBits (fs : FileSystem) (g : Nat) : Finset Nat :=
  (fs.bitmap g).clearBits (fs.layout.blockSize * 8)

/-- The field `free_blocks_count` of group `g`. -/
def freeCount (fs : FileSystem) (g : Nat) : Nat := (fs.descriptor g).freeBlocksCount

/-- Block `k` is marked as free. -/
def IsFree (fs : FileSystem) (k : Nat) : Prop :=
  ∃ g < fs.layout.blockGroups, ∃ j ∈ fs.freeBits g, k = fs.layout.blockOf g j

/-- Block `k` holds a superblock, group descriptors or a block bitmap. -/
def IsReserved (fs : FileSystem) (k : Nat) : Prop :=
  fs.IsCopy k ∨ ∃ g < fs.layout.blockGroups, k = fs.layout.tableBlock g ∨ k = fs.bitmapBlock g

/-- The allocation metadata of a volume with 1 KiB blocks is on the volume, in blocks of its own
that are marked as used, and only existing blocks are marked as free. -/
structure Placed (fs : FileSystem) : Prop where
  addressable : Addressable fs.layout
  block_size_shift : fs.layout.blockSizeShift = 0
  group_size_pos : 0 < fs.layout.blocksInBlockGroup
  zeroes : ∀ size ∈ fs.zeroes, size = 1024
  reserved_lt : ∀ k, fs.IsReserved k → k < fs.layout.blockCount
  table_not_copy : ∀ g < fs.layout.blockGroups, ¬ fs.IsCopy (fs.layout.tableBlock g)
  bitmap_not_copy : ∀ g < fs.layout.blockGroups, ¬ fs.IsCopy (fs.bitmapBlock g)
  bitmap_ne_table : ∀ g < fs.layout.blockGroups, ∀ g' < fs.layout.blockGroups,
    fs.bitmapBlock g ≠ fs.layout.tableBlock g'
  bitmap_injective : ∀ g < fs.layout.blockGroups, ∀ g' < fs.layout.blockGroups,
    fs.bitmapBlock g = fs.bitmapBlock g' → g = g'
  free_in_group : ∀ g < fs.layout.blockGroups, ∀ j ∈ fs.freeBits g, j < fs.layout.blocksInBlockGroup
  free_lt : ∀ k, fs.IsFree k → k < fs.layout.blockCount
  free_not_reserved : ∀ k, fs.IsFree k → ¬ fs.IsReserved k

/-- The three counts agree: every `free_blocks_count` is the number of clear bits of the bitmap of
the group, and `unallocated_blocks` is the sum of all of them. -/
structure Balanced (fs : FileSystem) : Prop where
  counts : ∀ g < fs.layout.blockGroups, fs.freeCount g = (fs.freeBits g).card
  total : fs.superblock.unallocatedBlocks = ∑ g ∈ Finset.range fs.layout.blockGroups, fs.freeCount g

variable {fs fs' : FileSystem} {g j : Nat}

/-- The scratch buffer plays no part in the accounting. -/
theorem Placed.withCurrent (h : Placed fs) (c : Bytes) : Placed (fs.withCurrent c) := { h with }

theorem Balanced.withCurrent (h : Balanced fs) (c : Bytes) : Balanced (fs.withCurrent c) :=
  ⟨h.counts, h.total⟩

namespace Placed

variable (h : Placed fs)

include h

theorem block_size : fs.layout.blockSize = 1024 := by
  unfold Layout.blockSize
  rw [h.block_size_shift]
  decide

theorem table_lt (hg : g < fs.layout.blockGroups) : fs.layout.tableBlock g < fs.layout.blockCount :=
  h.reserved_lt _ (.inr ⟨g, hg, .inl rfl⟩)

theorem bitmap_lt (hg : g < fs.layout.blockGroups) : fs.bitmapBlock g < fs.layout.blockCount :=
  h.reserved_lt _ (.inr ⟨g, hg, .inr rfl⟩)

theorem copy_lt {k : Nat} (hk : fs.IsCopy k) : k < fs.layout.blockCount := h.reserved_lt _ (.inl hk)

end Placed

/-- The metadata of two volumes lies in the same blocks if the superblock copies and the bitmaps
do. -/
theorem isReserved_congr (hlayout : fs'.layout = fs.layout)
    (hcopy : ∀ k, fs'.IsCopy k ↔ fs.IsCopy k)
    (hbitmap : ∀ g < fs.layout.blockGroups, fs'.bitmapBlock g = fs.bitmapBlock g) (k : Nat) :
    fs'.IsReserved k ↔ fs.IsReserved k := by
  unfold IsReserved
  rw [hcopy, hlayout]
  refine or_congr_right (exists_congr fun g => and_congr_right fun hg => ?_)
  rw [hbitmap g hg]

/-- Metadata that stays in its blocks is still well placed, as long as only unreserved blocks of the
groups are marked as free. -/
theorem Placed.of_same_blocks (h : Placed fs) (hlayout : fs'.layout = fs.layout)
    (hzeroes : ∀ size ∈ fs'.zeroes, size = 1024) (hcopy : ∀ k, fs'.IsCopy k ↔ fs.IsCopy k)
    (hbitmap : ∀ g < fs.layout.blockGroups, fs'.bitmapBlock g = fs.bitmapBlock g)
    (hfree : ∀ g < fs.layout.blockGroups, ∀ j ∈ fs'.freeBits g, j < fs.layout.blocksInBlockGroup ∧
      fs.layout.blockOf g j < fs.layout.blockCount ∧ ¬ fs.IsReserved (fs.layout.blockOf g j)) :
    Placed fs' := by
  have hreserved := isReserved_congr hlayout hcopy hbitmap
  constructor
  case addressable => rw [hlayout]; exact h.addressable
  case block_size_shift => rw [hlayout]; exact h.block_size_shift
  case group_size_pos => rw [hlayout]; exact h.group_size_pos
  case zeroes => exact hzeroes
  case reserved_lt =>
    intro k hk
    rw [hlayout]
    exact h.reserved_lt k ((hreserved k).mp hk)
  case table_not_copy =>
    intro g hg
    rw [hlayout] at hg ⊢
    rw [hcopy]
    exact h.table_not_copy g hg
  case bitmap_not_copy =>
    intro g hg
    rw [hlayout] at hg
    rw [hcopy, hbitmap g hg]
    exact h.bitmap_not_copy g hg
  case bitmap_ne_table =>
    intro g hg g' hg'
    rw [hlayout] at hg hg' ⊢
    rw [hbitmap g hg]
    exact h.bitmap_ne_table g hg g' hg'
  case bitmap_injective =>
    intro g hg g' hg'
    rw [hlayout] at hg hg'
    rw [hbitmap g hg, hbitmap g' hg']
    exact h.bitmap_injective g hg g' hg'
  case free_in_group =>
    intro g hg j hj
    rw [hlayout] at hg ⊢
    exact (hfree g hg j hj).1
  case free_lt =>
    rintro k ⟨g, hg, j, hj, rfl⟩
    rw [hlayout] at hg ⊢
    exact (hfree g hg j hj).2.1
  case free_not_reserved =>
    rintro k ⟨g, hg, j, hj, rfl⟩
    rw [hreserved]
    rw [hlayout] at hg ⊢
    exact (hfree g hg j hj).2.2

/-- The number of blocks is far below the range of `size_t`. -/
theorem Placed.block_count_le (h : Placed fs) : fs.layout.blockCount ≤ 2 ^ 22 := by
  have hfits := h.addressable.fits
  rw [h.block_size] at hfits
  omega

theorem Placed.blockOf_lt (h : Placed fs) (hg : g < fs.layout.blockGroups)
    (hj : j ∈ fs.freeBits g) :
    fs.layout.blockOf g j < fs.layout.blockCount :=
  h.free_lt _ ⟨g, hg, j, hj, rfl⟩

/-- The block number the source computes does not wrap. -/
theorem wadd_blockOf (h : l.blockOf g j < 2 ^ 32) :
    wadd (wadd j (wmul g l.blocksInBlockGroup)) 1 = l.blockOf g j := by
  unfold Layout.blockOf at h ⊢
  have hinner : wadd j (g * l.blocksInBlockGroup) = j + g * l.blocksInBlockGroup :=
    wadd_of_lt (by omega)
  rw [wmul_of_lt (by omega), hinner, wadd_of_lt h]

/-! ## One group -/

/-- The descriptor and the block bitmap of group `g` are on the volume, in different blocks. -/
structure GroupPlaced (fs : FileSystem) (g : Nat) : Prop where
  addressable : Addressable fs.layout
  table_lt : fs.layout.tableBlock g < fs.layout.blockCount
  bitmap_lt : fs.bitmapBlock g < fs.layout.blockCount
  bitmap_ne_table : fs.bitmapBlock g ≠ fs.layout.tableBlock g

/-- On a volume with 1 KiB blocks neither of them holds a superblock, and all superblock copies are
on the volume. -/
structure GroupReady (fs : FileSystem) (g : Nat) : Prop extends GroupPlaced fs g where
  block_size : fs.layout.blockSize = 1024
  zeroes : ∀ size ∈ fs.zeroes, size = 1024
  copy_lt : ∀ k, fs.IsCopy k → k < fs.layout.blockCount
  table_not_copy : ¬ fs.IsCopy (fs.layout.tableBlock g)
  bitmap_not_copy : ¬ fs.IsCopy (fs.bitmapBlock g)

theorem Placed.groupReady (h : Placed fs) (hg : g < fs.layout.blockGroups) : GroupReady fs g :=
  ⟨⟨h.addressable, h.table_lt hg, h.bitmap_lt hg, h.bitmap_ne_table g hg g hg⟩, h.block_size,
    h.zeroes, fun _ hk => h.copy_lt hk, h.table_not_copy g hg, h.bitmap_not_copy g hg⟩

theorem GroupPlaced.withCurrent (h : GroupPlaced fs g) (c : Bytes) :
    GroupPlaced (fs.withCurrent c) g :=
  { h with }

/-- The descriptor of group `g` with another `free_blocks_count`. -/
def recount (fs : FileSystem) (g count : Nat) : BlockGroupDescriptor :=
  (fs.descriptor g).setFreeBlocksCount count

/-- The volume after the bitmap and then the `free_blocks_count` of group `g` have been stored. -/
def updateGroup (fs : FileSystem) (g : Nat) (bits : Bytes) (count : Nat) : FileSystem :=
  ((fs.putBlock (fs.bitmapBlock g) bits).putBlock (fs.layout.tableBlock g)
    (fs.newTable g (fs.recount g count))).withCurrent (fs.newTable g (fs.recount g count))

theorem blockBitmap_descriptor (fs : FileSystem) (g : Nat) :
    (fs.descriptor g).blockBitmap = fs.bitmapBlock g := rfl

theorem freeBlocksCount_descriptor (fs : FileSystem) (g : Nat) :
    (fs.descriptor g).freeBlocksCount = fs.freeCount g := rfl

theorem setFreeBlocksCount_descriptor (fs : FileSystem) (g count : Nat) :
    (fs.descriptor g).setFreeBlocksCount count = fs.recount g count := rfl

theorem run_storeBitmap (h : GroupPlaced fs g) (bits : Bytes) :
    (storeBlock (fs.bitmapBlock g)).run (fs.withCurrent bits) =
      .ok () ((fs.withCurrent bits).putBlock (fs.bitmapBlock g) bits) :=
  run_storeBlock h.addressable h.bitmap_lt

/-- The descriptor of a group can be stored after another block has been. -/
theorem run_writeBlockGroup_after (hl : Addressable fs.layout) {k : Nat}
    (htable : fs.layout.tableBlock g < fs.layout.blockCount) (hne : fs.layout.tableBlock g ≠ k)
    (c data : Bytes) (desc : BlockGroupDescriptor) :
    (writeBlockGroup g desc).run ((fs.withCurrent c).putBlock k data) =
      .ok () (((fs.putBlock k data).putBlock (fs.layout.tableBlock g)
        (fs.newTable g desc)).withCurrent (fs.newTable g desc)) := by
  have hnew : ((fs.withCurrent c).putBlock k data).newTable g desc = fs.newTable g desc := by
    unfold newTable
    simp only [layout_putBlock, layout_withCurrent]
    rw [block_putBlock_other hne, block_withCurrent]
  have hwrite := run_writeBlockGroup
    (show Addressable ((fs.withCurrent c).putBlock k data).layout from hl) htable desc
  rw [hnew] at hwrite
  exact hwrite

/-- Storing the descriptor after the bitmap gives `updateGroup`: the bitmap does not overlap the
descriptor table. -/
theorem run_writeRecount (h : GroupPlaced fs g) (bits : Bytes) (count : Nat) :
    (writeBlockGroup g (fs.recount g count)).run
        ((fs.withCurrent bits).putBlock (fs.bitmapBlock g) bits) =
      .ok () (fs.updateGroup g bits count) :=
  run_writeBlockGroup_after h.addressable h.table_lt h.bitmap_ne_table.symm bits bits _

/-- What a group whose counter is zero gives. Nothing is asked of its bitmap, so the group need not
exist. -/
theorem run_allocBlockInBlockGroup_none (hl : Addressable fs.layout)
    (htable : fs.layout.tableBlock g < fs.layout.blockCount) (hcount : fs.freeCount g = 0) :
    (allocBlockInBlockGroup g).run fs =
      .ok 0 (fs.withCurrent (fs.block (fs.layout.tableBlock g))) := by
  unfold allocBlockInBlockGroup
  rw [run_bind_ok (run_getBlockGroup hl htable), freeBlocksCount_descriptor, if_pos hcount]
  rfl

/-- A group whose counter is not zero gives its first free block. -/
theorem run_allocBlockInBlockGroup_some (h : GroupPlaced fs g) (hcount : fs.freeCount g ≠ 0)
    (hj : (fs.bitmap g).firstClear (fs.layout.blockSize * 8) = some j)
    (hlt : fs.layout.blockOf g j < 2 ^ 32) : (allocBlockInBlockGroup g).run fs =
      .ok (fs.layout.blockOf g j)
        (fs.updateGroup g ((fs.bitmap g).setBit j) (fs.freeCount g - 1)) := by
  unfold allocBlockInBlockGroup
  rw [run_bind_ok (run_getBlockGroup h.addressable h.table_lt),
    if_neg (show ¬ (fs.descriptor g).freeBlocksCount = 0 from hcount)]
  simp only [blockBitmap_descriptor, freeBlocksCount_descriptor, setFreeBlocksCount_descriptor]
  -- The bitmap is loaded over the descriptor block, and the bit is set in the buffer.
  rw [run_bind_ok (run_loadBlock_over h.addressable h.bitmap_lt _), run_get_bind]
  have hscan : (fs.block (fs.bitmapBlock g)).firstClear (fs.layout.blockSize * 8) = some j := hj
  simp only [currentBlock_withCurrent, layout_withCurrent, hscan]
  have hstore := run_storeBitmap h ((fs.bitmap g).setBit j)
  have hwrite := run_writeRecount h ((fs.bitmap g).setBit j) (fs.freeCount g - 1)
  refine (run_bind_ok hstore).trans ((run_bind_ok hwrite).trans ?_)
  rw [wadd_blockOf hlt]
  rfl

/-! ## What allocating and freeing do -/

/-- The volume with the bitmap and the `free_blocks_count` of group `g` replaced. The superblock
copies and the free blocks may change as well, and all other blocks are as before. -/
structure Recounted (fs fs' : FileSystem) (g : Nat) (bits : Bytes) (count : Nat) : Prop where
  layout : fs'.layout = fs.layout
  zeroes : ∀ size ∈ fs'.zeroes, size = 1024
  bitmap : fs'.block (fs.bitmapBlock g) = bits.trunc fs.layout.blockSize
  table : fs'.block (fs.layout.tableBlock g) = fs.newTable g (fs.recount g count)
  frame : ∀ k, ¬ fs.IsCopy k → k ≠ fs.bitmapBlock g → k ≠ fs.layout.tableBlock g →
    ¬ fs.IsFree k → fs'.block k = fs.block k

/-- A step on group `g` does not store to block `k`, unless it holds the descriptor of the group. -/
structure Spared (fs : FileSystem) (g k : Nat) : Prop where
  not_copy : ¬ fs.IsCopy k
  ne_bitmap : k ≠ fs.bitmapBlock g
  not_free : ¬ fs.IsFree k

/-- The blocks of the descriptor table, with their unused slots. -/
theorem Placed.spared_table (h : Placed fs) (hg : g < fs.layout.blockGroups) {g' g₀ : Nat}
    (hg₀ : g₀ < fs.layout.blockGroups) (hslot : fs.layout.tableBlock g' = fs.layout.tableBlock g₀) :
    Spared fs g (fs.layout.tableBlock g') := by
  rw [hslot]
  exact ⟨h.table_not_copy g₀ hg₀, (h.bitmap_ne_table g hg g₀ hg₀).symm,
    fun hf => h.free_not_reserved _ hf (.inr ⟨g₀, hg₀, .inl rfl⟩)⟩

/-- Descriptors of different groups in one block of the table do not overlap. -/
theorem tableOffset_disjoint {g g' : Nat} (h : l.tableBlock g = l.tableBlock g')
    (hne : g ≠ g') :
    l.tableOffset g + 32 ≤ l.tableOffset g' ∨ l.tableOffset g' + 32 ≤ l.tableOffset g := by
  have hdiv : g / l.groupDescPerBlock = g' / l.groupDescPerBlock := Nat.add_left_cancel h
  have hmod : g % l.groupDescPerBlock ≠ g' % l.groupDescPerBlock := by
    intro hmod
    have hg := Nat.div_add_mod g l.groupDescPerBlock
    rw [hdiv, hmod, Nat.div_add_mod] at hg
    exact hne hg.symm
  unfold Layout.tableOffset
  omega

/-- A descriptor lies within its block. -/
theorem tableOffset_le (h : 32 ≤ l.blockSize) (g : Nat) : l.tableOffset g + 32 ≤ l.blockSize := by
  have hpos : 0 < l.groupDescPerBlock := Nat.div_pos h (by decide)
  have hmod : g % l.groupDescPerBlock < l.groupDescPerBlock := Nat.mod_lt _ hpos
  have hmul : l.groupDescPerBlock * 32 ≤ l.blockSize := Nat.div_mul_le_self _ _
  unfold Layout.tableOffset
  omega

@[simp] theorem trunc_newTable (h : Addressable fs.layout) (g : Nat) (desc : BlockGroupDescriptor) :
    (fs.newTable g desc).trunc fs.layout.blockSize = fs.newTable g desc := by
  have hle := tableOffset_le (Nat.le_trans (by decide) h.block_size_ge) g
  unfold newTable BlockGroupDescriptor.size
  rw [Bytes.trunc_splice hle, trunc_block]

/-- The bytes of the descriptors once one of them has been stored. -/
theorem descriptor_of_newTable {desc : BlockGroupDescriptor} (hlayout : fs'.layout = fs.layout)
    (htable : fs'.block (fs.layout.tableBlock g) = fs.newTable g desc) {g' : Nat}
    (hother : fs.layout.tableBlock g' ≠ fs.layout.tableBlock g →
      fs'.block (fs.layout.tableBlock g') = fs.block (fs.layout.tableBlock g'))
    {i : Nat} (hi : i < 32) :
    (fs'.descriptor g').raw i = if g' = g then desc.raw i else (fs.descriptor g').raw i := by
  unfold FileSystem.descriptor
  rw [hlayout]
  show fs'.block (fs.layout.tableBlock g') (fs.layout.tableOffset g' + i) = _
  by_cases hblock : fs.layout.tableBlock g' = fs.layout.tableBlock g
  · rw [hblock, htable]
    unfold newTable
    split
    case isTrue heq =>
      subst heq
      rw [Bytes.splice_inside (by omega) (by show _ < _ + 32; omega), Nat.add_sub_cancel_left]
    case isFalse hne =>
      have hdisj := tableOffset_disjoint hblock hne
      rw [Bytes.splice_outside (by show _ ∨ _ + 32 ≤ _; omega), ← hblock]
      rfl
  · have hne : g' ≠ g := fun heq => hblock (heq ▸ rfl)
    rw [if_neg hne, hother hblock]
    rfl

namespace Recounted

variable {bits : Bytes} {count : Nat}

section

variable (hr : Recounted fs fs' g bits count)

include hr

theorem isCopy (k : Nat) : fs'.IsCopy k ↔ fs.IsCopy k := by
  unfold IsCopy hasBackup
  rw [hr.layout]

/-- The bytes of the descriptors afterwards. -/
theorem descriptor_apply {g' : Nat}
    (hk : Spared fs g (fs.layout.tableBlock g')) {i : Nat} (hi : i < 32) :
    (fs'.descriptor g').raw i =
      if g' = g then (fs.recount g count).raw i else (fs.descriptor g').raw i :=
  descriptor_of_newTable hr.layout hr.table
    (fun hblock => hr.frame _ hk.not_copy hk.ne_bitmap hblock hk.not_free) hi

/-- The block numbers in the descriptors do not change. -/
theorem u32_descriptor_of_spared {g' off : Nat}
    (hk : Spared fs g (fs.layout.tableBlock g')) (hoff : off + 4 ≤ 12) :
    (fs'.descriptor g').raw.u32 off = (fs.descriptor g').raw.u32 off := by
  refine Bytes.u32_congr fun i hi => ?_
  rw [hr.descriptor_apply hk (by omega)]
  split
  case isTrue heq =>
    subst heq
    exact Bytes.splice_outside (by omega)
  case isFalse => rfl

section

variable (h : Placed fs) (hg : g < fs.layout.blockGroups) {g' : Nat}

include h hg

theorem u32_descriptor {off : Nat} (hg' : g' < fs.layout.blockGroups)
    (hoff : off + 4 ≤ 12) : (fs'.descriptor g').raw.u32 off = (fs.descriptor g').raw.u32 off :=
  hr.u32_descriptor_of_spared (h.spared_table hg hg' rfl) hoff

theorem bitmapBlock (hg' : g' < fs.layout.blockGroups) : fs'.bitmapBlock g' = fs.bitmapBlock g' :=
  hr.u32_descriptor h hg hg' (by decide)

/-- Only the counter of the group changes. -/
theorem freeCount (hcount : count < 2 ^ 16) {g₀ : Nat}
    (hg₀ : g₀ < fs.layout.blockGroups) (hslot : fs.layout.tableBlock g' = fs.layout.tableBlock g₀) :
    fs'.freeCount g' = if g' = g then count else fs.freeCount g' := by
  have hbytes : (fs'.descriptor g').raw.u16 12 =
      if g' = g then (fs.recount g count).raw.u16 12 else (fs.descriptor g').raw.u16 12 := by
    split
    case isTrue heq =>
      refine Bytes.u16_congr fun i hi => ?_
      rw [hr.descriptor_apply (h.spared_table hg hg₀ hslot) (by omega), if_pos heq]
    case isFalse hne =>
      refine Bytes.u16_congr fun i hi => ?_
      rw [hr.descriptor_apply (h.spared_table hg hg₀ hslot) (by omega), if_neg hne]
  have hstored : (fs.recount g count).raw.u16 12 = count := by
    show ((fs.descriptor g).raw.putU16 12 count).u16 12 = count
    rw [Bytes.u16_putU16_same, Nat.mod_eq_of_lt hcount]
  rw [hstored] at hbytes
  exact hbytes

/-- Only the bitmap of the group changes. -/
theorem freeBits (hg' : g' < fs.layout.blockGroups) : fs'.freeBits g' =
      if g' = g then bits.clearBits (fs.layout.blockSize * 8) else fs.freeBits g' := by
  unfold FileSystem.freeBits FileSystem.bitmap
  rw [hr.layout, hr.bitmapBlock h hg hg']
  split
  case isTrue heq =>
    rw [heq, hr.bitmap, Bytes.clearBits_trunc]
  case isFalse hne =>
    have hfree : ¬ fs.IsFree (fs.bitmapBlock g') := fun hf =>
      h.free_not_reserved _ hf (.inr ⟨g', hg', .inr rfl⟩)
    have hother : fs.bitmapBlock g' ≠ fs.bitmapBlock g := fun heq =>
      hne (h.bitmap_injective g' hg' g hg heq)
    rw [hr.frame _ (h.bitmap_not_copy g' hg') hother (h.bitmap_ne_table g' hg' g hg) hfree]

theorem isReserved (k : Nat) : fs'.IsReserved k ↔ fs.IsReserved k :=
  isReserved_congr hr.layout hr.isCopy (fun _ hg' => hr.bitmapBlock h hg hg') k

/-- The metadata stays in place, as long as the new bitmap marks only unreserved blocks of the
group as free. -/
theorem placed
    (hbits : ∀ j ∈ bits.clearBits (fs.layout.blockSize * 8), j < fs.layout.blocksInBlockGroup ∧
      fs.layout.blockOf g j < fs.layout.blockCount ∧ ¬ fs.IsReserved (fs.layout.blockOf g j)) :
    Placed fs' := by
  refine h.of_same_blocks hr.layout hr.zeroes hr.isCopy (fun _ hg' => hr.bitmapBlock h hg hg') ?_
  -- What the new bitmaps mark as free was free before or is covered by the hypothesis.
  intro g' hg' j hj
  rw [hr.freeBits h hg hg'] at hj
  split at hj
  case isTrue heq =>
    subst heq
    exact hbits j hj
  case isFalse =>
    have hfree : fs.IsFree (fs.layout.blockOf g' j) := ⟨g', hg', j, hj, rfl⟩
    exact ⟨h.free_in_group g' hg' j hj, h.free_lt _ hfree, h.free_not_reserved _ hfree⟩

end

end

end Recounted

/-- Storing bitmap and descriptor of a group is a `Recounted` step. -/
theorem recounted_updateGroup (h : GroupReady fs g) (bits : Bytes) (count : Nat) :
    Recounted fs (fs.updateGroup g bits count) g bits count := by
  have hne := h.bitmap_ne_table
  refine ⟨rfl, h.zeroes, ?_, ?_, fun k _ hbitmap htable _ => ?_⟩ <;> unfold updateGroup
  · rw [block_withCurrent, block_putBlock_other hne, block_putBlock_same]
  · rw [block_withCurrent, block_putBlock_same]
    exact trunc_newTable h.addressable g _
  · rw [block_withCurrent, block_putBlock_other htable, block_putBlock_other hbitmap]

/-- `update_superblock` adds nothing to what a `Recounted` step may change. -/
theorem Synced.recounted {t : FileSystem} {bits : Bytes} {count : Nat} (hs : Synced t fs')
    (h : GroupReady fs g) (hr : Recounted fs t g bits count) : Recounted fs fs' g bits count := by
  have hsame : ∀ k, ¬ fs.IsCopy k → fs'.block k = t.block k := fun k hk =>
    hs.block k fun hcopy => hk ((hr.isCopy k).mp hcopy)
  constructor
  case layout => rw [hs.layout, hr.layout]
  case zeroes => rw [hs.zeroes]; exact hr.zeroes
  case bitmap => rw [hsame _ h.bitmap_not_copy, hr.bitmap]
  case table => rw [hsame _ h.table_not_copy, hr.table]
  case frame =>
    intro k hcopy hbitmap htable hfree
    rw [hsame k hcopy, hr.frame k hcopy hbitmap htable hfree]

/-- What `alloc_block` does when it takes bit `j` of group `g`: apart from the accounting, the
block is cleared, and the scratch buffer ends up with the descriptor table block of the group. -/
structure Allocated (fs : FileSystem) (g j : Nat) (fs' : FileSystem) : Prop
    extends Recounted fs fs' g ((fs.bitmap g).setBit j) (fs.freeCount g - 1) where
  unallocated : fs'.superblock.unallocatedBlocks = wsub fs.superblock.unallocatedBlocks 1
  current : fs'.currentBlock = fs.newTable g (fs.recount g (fs.freeCount g - 1))
  fresh : fs'.block (fs.layout.blockOf g j) = fun _ => 0

/-- The group that `alloc_block` takes a block from: the first one in its order whose counter is
not zero. -/
def chosenGroup (fs : FileSystem) (preferredGroup : Nat) : Option Nat :=
  (fs.layout.groupOrder preferredGroup).find? fun g => fs.freeCount g ≠ 0

/-- The preferred group exists, or its descriptor slot can be read and promises nothing. -/
def Acceptable (fs : FileSystem) (preferredGroup : Nat) : Prop :=
  preferredGroup < fs.layout.blockGroups ∨
    fs.layout.tableBlock preferredGroup < fs.layout.blockCount ∧ fs.freeCount preferredGroup = 0

theorem exists_firstClear (hcounts : fs.freeCount g = (fs.freeBits g).card)
    (hcount : fs.freeCount g ≠ 0) :
    ∃ j ∈ fs.freeBits g, (fs.bitmap g).firstClear (fs.layout.blockSize * 8) = some j := by
  cases hscan : (fs.bitmap g).firstClear (fs.layout.blockSize * 8) with
  | some j => exact ⟨j, Bytes.firstClear_eq_some hscan, rfl⟩
  | none =>
    have hempty : fs.freeBits g = ∅ := Bytes.firstClear_eq_none.mp hscan
    rw [hcounts, hempty] at hcount
    exact absurd rfl hcount

/-- The search over groups none of which has a free block finds nothing. -/
theorem run_allocBlockInGroups_none {gs : List Nat} (hl : Addressable fs.layout)
    (htable : ∀ g ∈ gs, fs.layout.tableBlock g < fs.layout.blockCount)
    (hnone : gs.find? (fun g => fs.freeCount g ≠ 0) = none) (c : Bytes) :
    ∃ c', (allocBlockInGroups gs).run (fs.withCurrent c) = .ok 0 (fs.withCurrent c') := by
  induction gs generalizing c with
  | nil => exact ⟨c, rfl⟩
  | cons g gs ih =>
    rw [List.find?_cons] at hnone
    split at hnone
    case h_1 => cases hnone
    case h_2 hcount =>
      have hzero : fs.freeCount g = 0 := by simpa using hcount
      obtain ⟨c', hrest⟩ := ih (fun g' hg' => htable g' (List.mem_cons_of_mem g hg')) hnone
        (fs.block (fs.layout.tableBlock g))
      refine ⟨c', ?_⟩
      unfold allocBlockInGroups
      have hfirst := run_allocBlockInBlockGroup_none (show Addressable (fs.withCurrent c).layout
        from hl) (htable g List.mem_cons_self) hzero
      rw [run_bind_ok hfirst, if_neg (by simp)]
      exact hrest

/-- The search takes the first free block of the first group that has one. -/
theorem run_allocBlockInGroups_some {gs : List Nat} (h : GroupPlaced fs g)
    (htable : ∀ g ∈ gs, fs.layout.tableBlock g < fs.layout.blockCount)
    (hsome : gs.find? (fun g => fs.freeCount g ≠ 0) = some g)
    (hscan : (fs.bitmap g).firstClear (fs.layout.blockSize * 8) = some j)
    (hlt : fs.layout.blockOf g j < 2 ^ 32) (c : Bytes) :
    (allocBlockInGroups gs).run (fs.withCurrent c) = .ok (fs.layout.blockOf g j)
        (fs.updateGroup g ((fs.bitmap g).setBit j) (fs.freeCount g - 1)) := by
  induction gs generalizing c with
  | nil => cases hsome
  | cons g' gs ih =>
    rw [List.find?_cons] at hsome
    unfold allocBlockInGroups
    split at hsome
    case h_1 hcount =>
      cases hsome
      have hcount : fs.freeCount g ≠ 0 := by simpa using hcount
      have hfirst := run_allocBlockInBlockGroup_some (h.withCurrent c) hcount hscan hlt
      rw [run_bind_ok hfirst, if_pos (by unfold Layout.blockOf; omega)]
      rfl
    case h_2 hcount =>
      have hzero : fs.freeCount g' = 0 := by simpa using hcount
      have hfirst := run_allocBlockInBlockGroup_none (show Addressable (fs.withCurrent c).layout
        from h.addressable) (htable g' List.mem_cons_self) hzero
      rw [run_bind_ok hfirst, if_neg (by simp)]
      exact ih (fun g' hg' => htable g' (List.mem_cons_of_mem _ hg')) hsome _

/-- Every group that `alloc_block` looks at has a readable descriptor slot. -/
theorem Acceptable.table_lt (hpref : Acceptable fs preferredGroup)
    (h : Placed fs) : ∀ g ∈ fs.layout.groupOrder preferredGroup,
      fs.layout.tableBlock g < fs.layout.blockCount := by
  intro g hg
  rcases List.mem_cons.mp hg with rfl | hg
  · rcases hpref with hlt | ⟨htable, -⟩
    · exact h.table_lt hlt
    · exact htable
  · exact h.table_lt (List.mem_range.mp (List.mem_filter.mp hg).1)

/-- The chosen group is one of the volume and has free blocks. -/
theorem Acceptable.chosenGroup_lt (hpref : Acceptable fs preferredGroup)
    (hg : fs.chosenGroup preferredGroup = some g) :
    g < fs.layout.blockGroups ∧ fs.freeCount g ≠ 0 := by
  have hcount : fs.freeCount g ≠ 0 := by simpa using List.find?_some hg
  refine ⟨?_, hcount⟩
  rcases List.mem_cons.mp (List.mem_of_find?_eq_some hg) with rfl | hmem
  · rcases hpref with hlt | ⟨-, hzero⟩
    · exact hlt
    · exact absurd hzero hcount
  · exact List.mem_range.mp (List.mem_filter.mp hmem).1

/-- `alloc_block` finds a group exactly when some bitmap has a clear bit. -/
theorem chosenGroup_eq_none (hb : Balanced fs) (hpref : Acceptable fs preferredGroup) :
    fs.chosenGroup preferredGroup = none ↔ ∀ g < fs.layout.blockGroups, fs.freeBits g = ∅ := by
  have hcount : ∀ g < fs.layout.blockGroups, fs.freeCount g = 0 ↔ fs.freeBits g = ∅ :=
    fun g hg => by
    rw [hb.counts g hg, Finset.card_eq_zero]
  constructor
  · intro hnone g hg
    refine (hcount g hg).mp ?_
    by_contra hne
    refine List.find?_eq_none.mp hnone g ?_ (by simpa using hne)
    by_cases heq : g = preferredGroup
    · exact heq ▸ List.mem_cons_self
    · refine List.mem_cons_of_mem _ (List.mem_filter.mpr ⟨List.mem_range.mpr hg, ?_⟩)
      simpa using heq
  · intro hfull
    cases hchosen : fs.chosenGroup preferredGroup with
    | none => rfl
    | some g =>
      obtain ⟨hg, hne⟩ := hpref.chosenGroup_lt hchosen
      exact absurd ((hcount g hg).mpr (hfull g hg)) hne

/-- With no free block left, `alloc_block` returns 0 and changes nothing but the buffer. -/
theorem run_allocBlock_none (h : Placed fs)
    (hpref : Acceptable fs preferredGroup) (hnone : fs.chosenGroup preferredGroup = none) :
    ∃ c, (allocBlock preferredGroup).run fs = .ok 0 (fs.withCurrent c) := by
  obtain ⟨c, hrun⟩ := run_allocBlockInGroups_none h.addressable (hpref.table_lt h) hnone
    fs.currentBlock
  refine ⟨c, ?_⟩
  exact run_bind_ok hrun

/-- The end of `alloc_block`: a vector of zeroes is written from the start of the block on, and the
superblock is counted down. -/
theorem run_allocate_any {t : FileSystem} {b : Nat} (hl : Addressable t.layout)
    (hcopies : ∀ i ∈ t.layout.backupGroups, t.hasBackup i →
      t.layout.backupBlock i < t.layout.blockCount) (hb : b < t.layout.blockCount) :
    ∃ fs', (allocate b).run t = .ok b fs' ∧ fs'.layout = t.layout ∧
      fs'.zeroes = some (t.zeroes.getD t.layout.blockSize) ∧ fs'.currentBlock = t.currentBlock ∧
      fs'.superblock.unallocatedBlocks = wsub t.superblock.unallocatedBlocks 1 ∧
      ∀ k, ¬ t.HoldsSuperblock k → fs'.block k =
        (t.disk.splice (b * t.layout.blockSize) (t.zeroes.getD t.layout.blockSize)
          fun _ => 0).block t.layout.blockSize k := by
  -- The state with the block cleared and the counter of the superblock lowered.
  obtain ⟨fs', hsync, hs⟩ := @run_updateSuperblock_any
    (((t.withZeroes (t.zeroes.getD t.layout.blockSize)).withDisk
      (t.disk.splice (b * t.layout.blockSize) (t.zeroes.getD t.layout.blockSize)
        fun _ => 0)).withSuperblock
      (t.superblock.setUnallocatedBlocks (wsub t.superblock.unallocatedBlocks 1))) hl hcopies
  refine ⟨fs', ?_, hs.layout, hs.zeroes, hs.currentBlock, ?_, hs.block⟩
  · unfold allocate writeBlock
    rw [run_get_bind, run_set_bind, bind_assoc, run_get_bind, bind_assoc, layout_withZeroes,
      run_check_bind hb, wmul_of_lt (hl.mul_lt hb), run_set_bind, run_modify_bind]
    exact run_bind_ok hsync
  · rw [hs.superblock, Superblock.unallocatedBlocks_setLastWriteTime]
    exact (Superblock.unallocatedBlocks_setUnallocatedBlocks _ _).trans
      (Nat.mod_eq_of_lt (Nat.mod_lt _ (by decide)))

/-- Once a free block has been taken from a bitmap, it is cleared and the superblock is counted
down. -/
theorem run_allocate {t : FileSystem} {bits : Bytes} {count b : Nat} (h : GroupReady fs g)
    (hr : Recounted fs t g bits count) (hb : fs.IsFree b) (hbcount : b < fs.layout.blockCount)
    (hcopy : ¬ fs.IsCopy b) (hbitmap : fs.bitmapBlock g ≠ b) (htable : fs.layout.tableBlock g ≠ b) :
    ∃ fs', (allocate b).run t = .ok b fs' ∧ Recounted fs fs' g bits count ∧
      fs'.superblock.unallocatedBlocks = wsub t.superblock.unallocatedBlocks 1 ∧
      fs'.currentBlock = t.currentBlock ∧ fs'.block b = fun _ => 0 := by
  have hbs : t.layout.blockSize = 1024 := hr.layout ▸ h.block_size
  have hsize : t.zeroes.getD t.layout.blockSize = t.layout.blockSize := by
    cases hz : t.zeroes with
    | none => rfl
    | some size => exact (hr.zeroes size hz).trans hbs.symm
  obtain ⟨fs', hrun, hlayout, hzeroes, hcurrent, hunallocated, hall⟩ := run_allocate_any
    (hr.layout ▸ h.addressable) (fun i hi hbackup => by
      have hlt := h.copy_lt _ ((hr.isCopy _).mp (.inr ⟨i, hi, hbackup, rfl⟩))
      rwa [← hr.layout] at hlt) (hr.layout ▸ hbcount)
  have hblock : ∀ k, ¬ fs.IsCopy k → fs'.block k = if k = b then fun _ => 0 else t.block k := by
    intro k hk
    rw [hall k fun hhold => hk ((hr.isCopy k).mp ((holdsSuperblock_iff hbs k).mp hhold)), hsize,
      Bytes.block_splice]
    congr 1
    exact funext fun i => by unfold Bytes.trunc; split <;> rfl
  refine ⟨fs', hrun, ?_, hunallocated, hcurrent, by rw [hblock b hcopy, if_pos rfl]⟩
  constructor
  case layout => rw [hlayout, hr.layout]
  case zeroes =>
    intro size hz
    rw [hzeroes, hsize] at hz
    exact (Option.some.inj hz).symm.trans hbs
  case bitmap => rw [hblock _ h.bitmap_not_copy, if_neg hbitmap, hr.bitmap]
  case table => rw [hblock _ h.table_not_copy, if_neg htable, hr.table]
  case frame =>
    intro k hk hkb hkt hfree
    rw [hblock k hk, if_neg (fun heq : k = b => hfree (heq ▸ hb)), hr.frame k hk hkb hkt hfree]

/-- `alloc_block` takes the first free block of the chosen group. -/
theorem run_allocBlock_take (h : GroupReady fs g)
    (htable : ∀ g ∈ fs.layout.groupOrder preferredGroup,
      fs.layout.tableBlock g < fs.layout.blockCount)
    (hsome : fs.chosenGroup preferredGroup = some g)
    (hscan : (fs.bitmap g).firstClear (fs.layout.blockSize * 8) = some j)
    (hfree : fs.IsFree (fs.layout.blockOf g j)) (hlt : fs.layout.blockOf g j < fs.layout.blockCount)
    (hcopy : ¬ fs.IsCopy (fs.layout.blockOf g j))
    (hbitmap : fs.bitmapBlock g ≠ fs.layout.blockOf g j)
    (hne : fs.layout.tableBlock g ≠ fs.layout.blockOf g j) :
    ∃ fs', (allocBlock preferredGroup).run fs = .ok (fs.layout.blockOf g j) fs' ∧
      Allocated fs g j fs' := by
  have hfits := h.addressable.mul_lt hlt
  rw [h.block_size] at hfits
  have hsearch := run_allocBlockInGroups_some h.toGroupPlaced htable hsome hscan (by omega)
    fs.currentBlock
  obtain ⟨fs', hrun, hr, hunallocated, hcurrent, hfresh⟩ := run_allocate h
    (recounted_updateGroup h ((fs.bitmap g).setBit j) (fs.freeCount g - 1)) hfree hlt hcopy hbitmap
    hne
  refine ⟨fs', ?_, hr, hunallocated, hcurrent, hfresh⟩
  refine (run_bind_ok hsearch).trans ?_
  rw [if_neg (by unfold Layout.blockOf; omega), hrun]

/-- With a free block left, `alloc_block` returns a free block of the chosen group. -/
theorem run_allocBlock_some (h : Placed fs) (hb : Balanced fs)
    (hpref : Acceptable fs preferredGroup) (hsome : fs.chosenGroup preferredGroup = some g) :
    ∃ j ∈ fs.freeBits g, ∃ fs', (allocBlock preferredGroup).run fs =
      .ok (fs.layout.blockOf g j) fs' ∧ Allocated fs g j fs' := by
  obtain ⟨hg, hcount⟩ := hpref.chosenGroup_lt hsome
  obtain ⟨j, hj, hscan⟩ := exists_firstClear (hb.counts g hg) hcount
  have hfree : fs.IsFree (fs.layout.blockOf g j) := ⟨g, hg, j, hj, rfl⟩
  have hunreserved := h.free_not_reserved _ hfree
  refine ⟨j, hj, run_allocBlock_take (h.groupReady hg) (hpref.table_lt h) hsome hscan hfree
    (h.free_lt _ hfree) (fun hcopy => hunreserved (.inl hcopy)) (fun heq => ?_) (fun heq => ?_)⟩
  · exact hunreserved (heq ▸ .inr ⟨g, hg, .inr rfl⟩)
  · exact hunreserved (heq ▸ .inr ⟨g, hg, .inl rfl⟩)

/-- What `free_block` does to bit `j` of group `g`. -/
structure Freed (fs : FileSystem) (g j : Nat) (fs' : FileSystem) : Prop
    extends Recounted fs fs' g ((fs.bitmap g).clearBit j) (fs.freeCount g + 1) where
  unallocated : fs'.superblock.unallocatedBlocks = wadd fs.superblock.unallocatedBlocks 1

/-- The volume after `free_block` has stored bitmap and descriptor of group `g` and counted the
block in the superblock. -/
def release (fs : FileSystem) (g j : Nat) : FileSystem :=
  (fs.updateGroup g ((fs.bitmap g).clearBit j) (fs.freeCount g + 1)).withSuperblock
    (fs.superblock.setUnallocatedBlocks (wadd fs.superblock.unallocatedBlocks 1))

@[simp] theorem layout_release (fs : FileSystem) (g j : Nat) :
    (fs.release g j).layout = fs.layout := by
  rfl

theorem block_release (fs : FileSystem) (g j k : Nat) : (fs.release g j).block k =
    (fs.updateGroup g ((fs.bitmap g).clearBit j) (fs.freeCount g + 1)).block k :=
  block_withSuperblock _ _ (Superblock.layout_setUnallocatedBlocks _ _)

/-- `free_block` up to `update_superblock`. -/
theorem run_freeBlock_eq (h : GroupPlaced fs g) {block : Nat}
    (hgroup : wsub block 1 / fs.layout.blocksInBlockGroup = g)
    (hindex : wsub block 1 % fs.layout.blocksInBlockGroup = j)
    (hbit : j < fs.layout.blockSize * 8) (hset : (fs.bitmap g).bit j = true) :
    (freeBlock block).run fs = updateSuperblock.run (fs.release g j) := by
  unfold freeBlock
  rw [run_get_bind]
  simp only [hgroup, hindex]
  rw [run_bind_ok (run_getBlockGroup h.addressable h.table_lt)]
  simp only [blockBitmap_descriptor, freeBlocksCount_descriptor, setFreeBlocksCount_descriptor]
  rw [run_bind_ok (run_loadBlock_over h.addressable h.bitmap_lt _),
    run_check_bind (by omega), run_get_bind]
  have hpass : (fs.block (fs.bitmapBlock g)).bit j = true := hset
  simp only [currentBlock_withCurrent, hpass, if_true]
  have hstore := run_storeBitmap h ((fs.bitmap g).clearBit j)
  have hwrite := run_writeRecount h ((fs.bitmap g).clearBit j) (fs.freeCount g + 1)
  refine (run_bind_ok hstore).trans ((run_bind_ok hwrite).trans ?_)
  rfl

/-- `free_block` of a block that is marked as used clears its bit. The scratch buffer ends up with
the descriptor table block of the group. -/
theorem run_freeBlock_clear (h : GroupReady fs g) {block : Nat}
    (hgroup : wsub block 1 / fs.layout.blocksInBlockGroup = g)
    (hindex : wsub block 1 % fs.layout.blocksInBlockGroup = j)
    (hbit : j < fs.layout.blockSize * 8) (hset : (fs.bitmap g).bit j = true) :
    ∃ fs', (freeBlock block).run fs = .ok () fs' ∧ Freed fs g j fs' ∧
      fs'.currentBlock = fs.newTable g (fs.recount g (fs.freeCount g + 1)) := by
  have hrt := recounted_updateGroup h ((fs.bitmap g).clearBit j) (fs.freeCount g + 1)
  have hrv : Recounted fs (fs.release g j) g ((fs.bitmap g).clearBit j) (fs.freeCount g + 1) := by
    refine ⟨layout_release fs g j, h.zeroes, ?_, ?_, fun k hcopy hbitmap htable hfree => ?_⟩
    · rw [block_release, hrt.bitmap]
    · rw [block_release, hrt.table]
    · rw [block_release, hrt.frame k hcopy hbitmap htable hfree]
  obtain ⟨fs', hsync, hs⟩ := @run_updateSuperblock (fs.release g j)
    (by rw [hrv.layout]; exact h.addressable) (by rw [hrv.layout]; exact h.block_size)
    fun k hk => by
      exact h.copy_lt k ((hrv.isCopy k).mp hk)
  refine ⟨fs', ?_, ⟨hs.recounted h hrv, ?_⟩, hs.currentBlock⟩
  · rw [run_freeBlock_eq h.toGroupPlaced hgroup hindex hbit hset, hsync]
  · rw [hs.superblock, Superblock.unallocatedBlocks_setLastWriteTime]
    show (fs.superblock.setUnallocatedBlocks _).unallocatedBlocks = _
    rw [Superblock.unallocatedBlocks_setUnallocatedBlocks]
    exact Nat.mod_eq_of_lt (Nat.mod_lt _ (by decide))

theorem run_freeBlock (h : Placed fs) (hg : g < fs.layout.blockGroups)
    (hin : j < fs.layout.blocksInBlockGroup) (hbit : j < fs.layout.blockSize * 8)
    (hlt : fs.layout.blockOf g j < fs.layout.blockCount) (hused : j ∉ fs.freeBits g) :
    ∃ fs', (freeBlock (fs.layout.blockOf g j)).run fs = .ok () fs' ∧ Freed fs g j fs' ∧
      fs'.currentBlock = fs.newTable g (fs.recount g (fs.freeCount g + 1)) := by
  have hle := h.block_count_le
  have hpred : wsub (fs.layout.blockOf g j) 1 = j + g * fs.layout.blocksInBlockGroup := by
    rw [wsub_of_le (by unfold Layout.blockOf; omega) (by omega)]
    rfl
  refine run_freeBlock_clear (h.groupReady hg) ?_ ?_ hbit ?_
  · rw [hpred, Nat.add_mul_div_right _ _ h.group_size_pos, Nat.div_eq_of_lt hin, Nat.zero_add]
  · rw [hpred, Nat.add_mul_mod_self_right, Nat.mod_eq_of_lt hin]
  · by_contra hclear
    exact hused (Bytes.mem_clearBits.mpr ⟨hbit, by simpa using hclear⟩)

end FileSystem

end LudOS.Ext2
