import LudOS.Lib.Bitmap
import LudOS.Utils.MathUtils

/-!
# The ext2 volume

The model of `fs/ext2/ext2.cpp` and `fs/ext2/ext2_write.cpp` below the level of files: the packed
structures of `ext2_structures.hpp`, block access, the superblock and its copies, the block group
descriptors and the inodes.

A `FileSystem` is an `Ext2FS` object with the disk behind it. The disk is a byte array: reads and
writes of it always succeed. All functions of the class share the one scratch buffer
`m_current_block`, which is therefore part of the state, and so is the function-local static
`zeroes` of `alloc_block`. The values of `Time::epoch`, which come from outside of the class, are a
field as well.
-/

namespace LudOS.Ext2

open Lib

/-! ## On-disk structures -/

/-- `ext2::Superblock`, as the bytes of the packed structure. -/
structure Superblock where
  raw : Bytes

namespace Superblock

/-- `sizeof(ext2::Superblock)`. -/
def size : Nat := 1024

def unallocatedBlocks (sb : Superblock) : Nat := sb.raw.u32 12

def ext2Signature (sb : Superblock) : Nat := sb.raw.u16 56

/-- Store a new value of `unallocated_blocks`. -/
def setUnallocatedBlocks (sb : Superblock) (value : Nat) : Superblock := ⟨sb.raw.putU32 12 value⟩

/-- Store a new value of `last_write_time`. -/
def setLastWriteTime (sb : Superblock) (value : Nat) : Superblock := ⟨sb.raw.putU32 48 value⟩

end Superblock

/-- The fields of the superblock that say how the volume is laid out and how it is to be used. No
function of the class stores to them. -/
structure Layout where
  blockCount : Nat
  /-- The field `block_size`: the block size is `1024 << block_size`. -/
  blockSizeShift : Nat
  blocksInBlockGroup : Nat
  inodesInBlockGroup : Nat
  errorHandling : Nat
  versionMajor : Nat
  /-- The field `inode_size`, which only revisions from 1 on have. -/
  inodeSizeField : Nat
  deriving DecidableEq, Repr

def Superblock.layout (sb : Superblock) : Layout where
  blockCount := sb.raw.u32 4
  blockSizeShift := sb.raw.u32 24
  blocksInBlockGroup := sb.raw.u32 32
  inodesInBlockGroup := sb.raw.u32 40
  errorHandling := sb.raw.u16 60
  versionMajor := sb.raw.u32 76
  inodeSizeField := sb.raw.u16 88

namespace Layout

/-- `Ext2FS::inode_size`. -/
def inodeSize (l : Layout) : Nat := if 1 ≤ l.versionMajor then l.inodeSizeField else 128

/-- `Ext2FS::block_size`. -/
def blockSize (l : Layout) : Nat := 1024 * 2 ^ l.blockSizeShift % 2 ^ 32

/-- The number of 32-bit block numbers in a block. -/
def entriesPerBlock (l : Layout) : Nat := l.blockSize / 4

/-- The number of block groups, the last one possibly incomplete. -/
def blockGroups (l : Layout) : Nat := chunkCount l.blockCount l.blocksInBlockGroup

/-- The number of block group descriptors in a block. -/
def groupDescPerBlock (l : Layout) : Nat := l.blockSize / 32

/-- `Ext2FS::block_group_table_block`. -/
def blockGroupTableBlock (l : Layout) : Nat := if l.blockSizeShift = 0 then 2 else 1

/-- The block of the descriptor table that holds the descriptor of group `idx`. -/
def tableBlock (l : Layout) (idx : Nat) : Nat := l.blockGroupTableBlock + idx / l.groupDescPerBlock

/-- The position of the descriptor of group `idx` in its block. -/
def tableOffset (l : Layout) (idx : Nat) : Nat := idx % l.groupDescPerBlock * 32

/-- The block with the superblock copy of group `i`. -/
def backupBlock (l : Layout) (i : Nat) : Nat := wadd (wmul i l.blocksInBlockGroup) 1

/-- The groups after the first one that superblock copies are looked for in. -/
def backupGroups (l : Layout) : List Nat := List.range' 1 (l.blockCount / l.blocksInBlockGroup)

/-- The block group of an inode. -/
def inodeGroup (l : Layout) (inode : Nat) : Nat := wsub inode 1 / l.inodesInBlockGroup

/-- The index of an inode in its block group. -/
def inodeIndex (l : Layout) (inode : Nat) : Nat := wsub inode 1 % l.inodesInBlockGroup

/-- The block of an inode, counted from the start of the inode table of its group. -/
def inodeBlock (l : Layout) (inode : Nat) : Nat :=
  wmul (l.inodeIndex inode) l.inodeSize / l.blockSize

/-- The slot of an inode in its block. -/
def inodeSlot (l : Layout) (inode : Nat) : Nat := l.inodeIndex inode % (l.blockSize / l.inodeSize)

end Layout

/-- The value of `ext2_signature` on every ext2 volume. -/
def signature : Nat := 0xef53

/-- `ext2::BlockGroupDescriptor`, as the bytes of the packed structure. -/
structure BlockGroupDescriptor where
  raw : Bytes

namespace BlockGroupDescriptor

/-- `sizeof(ext2::BlockGroupDescriptor)`. -/
def size : Nat := 32

def blockBitmap (desc : BlockGroupDescriptor) : Nat := desc.raw.u32 0

def inodeBitmap (desc : BlockGroupDescriptor) : Nat := desc.raw.u32 4

def inodeTable (desc : BlockGroupDescriptor) : Nat := desc.raw.u32 8

def freeBlocksCount (desc : BlockGroupDescriptor) : Nat := desc.raw.u16 12

/-- Store a new value of `free_blocks_count`. -/
def setFreeBlocksCount (desc : BlockGroupDescriptor) (value : Nat) : BlockGroupDescriptor :=
  ⟨desc.raw.putU16 12 value⟩

end BlockGroupDescriptor

/-- `ext2::Inode`, as the bytes of the packed structure. -/
structure Inode where
  raw : Bytes

namespace Inode

/-- `sizeof(ext2::Inode)`. -/
def size : Nat := 128

def type (inode : Inode) : Nat := inode.raw.u16 0

def sizeLower (inode : Inode) : Nat := inode.raw.u32 4

/-- `block_ptr[i]`. -/
def blockPtr (inode : Inode) (i : Nat) : Nat := inode.raw.u32 (40 + 4 * i)

/-- Store a new value of `block_ptr[i]`. -/
def setBlockPtr (inode : Inode) (i value : Nat) : Inode := ⟨inode.raw.putU32 (40 + 4 * i) value⟩

end Inode

/-- `ext2::InodeType`, the upper four bits of the field `type`. -/
inductive InodeType where
  | socket
  | symlink
  | regular
  | blockDev
  | directory
  | charDev
  | fifo
  deriving DecidableEq, Repr

/-- The bits of an inode type. -/
def InodeType.code : InodeType → Nat
  | socket => 0xC000
  | symlink => 0xA000
  | regular => 0x8000
  | blockDev => 0x6000
  | directory => 0x4000
  | charDev => 0x2000
  | fifo => 0x1000

/-- `(type & 0xF000) == value`. -/
def Inode.HasType (inode : Inode) (value : InodeType) : Prop :=
  inode.type / 0x1000 * 0x1000 = value.code

instance (inode : Inode) (value : InodeType) : Decidable (inode.HasType value) :=
  inferInstanceAs (Decidable (_ = _))

/-! ## The state -/

/-- An `Ext2FS` object, the disk behind it and what its functions take from outside. -/
structure FileSystem where
  disk : Bytes
  superblock : Superblock
  /-- `m_current_block`, a buffer of `block_size()` bytes. -/
  currentBlock : Bytes
  /-- The size of the static vector `zeroes`, once it has been built. -/
  zeroes : Option Nat
  /-- The values the next calls of `Time::epoch` return. -/
  clock : Nat → Nat
  /-- `m_has_error`. -/
  hasError : Nat

/-- A function of the class. -/
abbrev Action := EStateM Fault FileSystem

namespace FileSystem

def withDisk (fs : FileSystem) (disk : Bytes) : FileSystem := { fs with disk := disk }

def withSuperblock (fs : FileSystem) (sb : Superblock) : FileSystem :=
  { fs with superblock := sb }

def withCurrent (fs : FileSystem) (data : Bytes) : FileSystem :=
  { fs with currentBlock := data }

def withZeroes (fs : FileSystem) (size : Nat) : FileSystem :=
  { fs with zeroes := some size }

/-- The superblock is stamped with the time, and the clock moves on. -/
def stamped (fs : FileSystem) : FileSystem :=
  { fs with
    superblock := fs.superblock.setLastWriteTime (fs.clock 0)
    clock := fun i => fs.clock (i + 1) }

/-- How the mounted volume is laid out. -/
def layout (fs : FileSystem) : Layout := fs.superblock.layout

/-- The driver expects a copy of the superblock in group `i`: in every group in revision 0, and in
later ones in group 1 and where `is_power_of` holds. That is meant for the powers of 3, 5 and 7, but
it holds of these three numbers and not of 9, 25 or 49. -/
def hasBackup (fs : FileSystem) (i : Nat) : Bool :=
  fs.layout.versionMajor = 0 || i = 1 ||
    Utils.isPowerOf i 3 || Utils.isPowerOf i 5 || Utils.isPowerOf i 7

end FileSystem

/-- The layout of the mounted volume, for the functions that only read `block_size()` and the
like. -/
def getLayout : Action Layout := do
  let fs ← get
  pure fs.layout

/-! ## Errors and block access -/

/-- `Ext2FS::error`. -/
def error : Action Unit := do
  modify fun fs => { fs with hasError := 2 }
  let fs ← get
  if fs.layout.errorHandling = 3 then throw .panic

/-- `Ext2FS::read_block` into a span of `size` bytes. -/
def readBlock (number size : Nat) : Action Bytes := do
  let fs ← get
  check .assertion (number < fs.layout.blockCount)
  check .assertion (size = fs.layout.blockSize)
  pure ((fs.disk.view (wmul number fs.layout.blockSize)).trunc size)

/-- `Ext2FS::read_block` into `m_current_block`. -/
def loadBlock (number : Nat) : Action Unit := do
  let fs ← get
  let data ← readBlock number fs.layout.blockSize
  modify fun fs => fs.withCurrent data

/-- `Ext2FS::write_block` of a span of `size` bytes. -/
def writeBlock (number size : Nat) (data : Bytes) : Action Unit := do
  let fs ← get
  check .assertion (number < fs.layout.blockCount)
  set (fs.withDisk (fs.disk.splice (wmul number fs.layout.blockSize) size data))

/-- `Ext2FS::write_block` of `m_current_block`. -/
def storeBlock (number : Nat) : Action Unit := do
  let fs ← get
  writeBlock number fs.layout.blockSize fs.currentBlock

/-! ## The superblock -/

/-- The loop of `Ext2FS::check_superblock_backups`, which reads the copy of every group and
reports whether all of them have the signature. -/
def checkBackups : List Nat → Action Bool
  | [] => pure true
  | i :: is => do
    let fs ← get
    let okay ← (if fs.hasBackup i then do
        loadBlock (fs.layout.backupBlock i)
        let fs ← get
        pure (decide ((Superblock.mk fs.currentBlock).ext2Signature = signature))
      else pure true)
    let rest ← checkBackups is
    pure (okay && rest)

/-- `Ext2FS::check_superblock_backups`, called once by the constructor. -/
def checkSuperblockBackups : Action Bool := do
  let fs ← get
  checkBackups fs.layout.backupGroups

/-- The body of the loop of `Ext2FS::update_superblock`. -/
def writeBackup (i : Nat) : Action Unit := do
  let fs ← get
  if fs.hasBackup i then
    writeBlock (fs.layout.backupBlock i) Superblock.size fs.superblock.raw

/-- `Ext2FS::update_superblock`. -/
def updateSuperblock : Action Unit := do
  modify FileSystem.stamped
  let fs ← get
  set (fs.withDisk (fs.disk.splice 1024 Superblock.size fs.superblock.raw))
  each writeBackup fs.layout.backupGroups

/-! ## Block groups -/

/-- `Ext2FS::get_block_group`. -/
def getBlockGroup (idx : Nat) : Action BlockGroupDescriptor := do
  let fs ← get
  loadBlock (fs.layout.tableBlock idx)
  let fs ← get
  pure ⟨fs.currentBlock.view (fs.layout.tableOffset idx)⟩

/-- `Ext2FS::write_block_group`. -/
def writeBlockGroup (idx : Nat) (desc : BlockGroupDescriptor) : Action Unit := do
  let fs ← get
  loadBlock (fs.layout.tableBlock idx)
  modify fun fs => fs.withCurrent
    (fs.currentBlock.splice (fs.layout.tableOffset idx) BlockGroupDescriptor.size desc.raw)
  storeBlock (fs.layout.tableBlock idx)

/-! ## Inodes -/

/-- `Ext2FS::check_inode_presence`. -/
def checkInodePresence (inode : Nat) : Action Bool := do
  let fs ← get
  let blockGroup ← getBlockGroup (fs.layout.inodeGroup inode)
  loadBlock blockGroup.inodeBitmap
  let fs ← get
  check .outOfBounds (fs.layout.inodeIndex inode / 8 < fs.layout.blockSize)
  pure (fs.currentBlock.bit (fs.layout.inodeIndex inode))

/-- `Ext2FS::read_inode`. The buffer is indexed as an array of `ext2::Inode`, whatever the inode
size of the volume is. -/
def readInode (inode : Nat) : Action Inode := do
  let fs ← get
  let present ← checkInodePresence inode
  (if present then pure () else error)
  let blockGroup ← getBlockGroup (fs.layout.inodeGroup inode)
  loadBlock (wadd blockGroup.inodeTable (fs.layout.inodeBlock inode))
  let fs ← get
  let position := fs.layout.inodeSlot inode * Inode.size
  check .outOfBounds (position + Inode.size ≤ fs.layout.blockSize)
  pure ⟨(fs.currentBlock.view position).trunc Inode.size⟩

/-- `Ext2FS::write_inode`. It copies `inode_size()` bytes from the structure. -/
def writeInode (inode : Nat) (structure_ : Inode) : Action Unit := do
  let fs ← get
  let present ← checkInodePresence inode
  if !present then error
  else
    let blockGroup ← getBlockGroup (fs.layout.inodeGroup inode)
    loadBlock (wadd blockGroup.inodeTable (fs.layout.inodeBlock inode))
    let fs ← get
    let position := fs.layout.inodeSlot inode * fs.layout.inodeSize
    check .outOfBounds (fs.layout.inodeSize ≤ Inode.size)
    check .outOfBounds (position + fs.layout.inodeSize ≤ fs.layout.blockSize)
    set (fs.withCurrent (fs.currentBlock.splice position fs.layout.inodeSize structure_.raw))
    storeBlock (wadd blockGroup.inodeTable (fs.layout.inodeBlock inode))

end LudOS.Ext2
