import LudOS.Ext2.FileSystem

/-!
# Blocks of a volume and what the volume functions do

`FileSystem.block` is the content of a block, `FileSystem.putBlock` the volume with one block
replaced. On a volume whose blocks the 32-bit byte addresses of the disk can reach, every function
of the volume layer is an operation on blocks, and the lemmas below say which one. Nothing above
this module speaks about byte addresses of the disk again.
-/

namespace LudOS.Ext2

open Lib

/-! ## The superblock -/

namespace Superblock

variable (sb : Superblock) (value : Nat)

@[simp] theorem layout_setUnallocatedBlocks :
    (sb.setUnallocatedBlocks value).layout = sb.layout := by
  simp [layout, setUnallocatedBlocks, Bytes.u32_putU32_other, Bytes.u16_putU32_other]

@[simp] theorem layout_setLastWriteTime : (sb.setLastWriteTime value).layout = sb.layout := by
  simp [layout, setLastWriteTime, Bytes.u32_putU32_other, Bytes.u16_putU32_other]

@[simp] theorem unallocatedBlocks_setLastWriteTime :
    (sb.setLastWriteTime value).unallocatedBlocks = sb.unallocatedBlocks :=
  Bytes.u32_putU32_other (by decide)

@[simp] theorem unallocatedBlocks_setUnallocatedBlocks :
    (sb.setUnallocatedBlocks value).unallocatedBlocks = value % 2 ^ 32 :=
  Bytes.u32_putU32_same _ _ _

end Superblock

namespace FileSystem

variable {fs fs' : FileSystem}

/-- The content of block `n`. -/
def block (fs : FileSystem) (n : Nat) : Bytes := fs.disk.block fs.layout.blockSize n

/-- The volume with block `n` replaced. -/
def putBlock (fs : FileSystem) (n : Nat) (data : Bytes) : FileSystem :=
  fs.withDisk (fs.disk.splice (n * fs.layout.blockSize) fs.layout.blockSize data)

/-- The descriptor of group `idx` in the table on the disk. -/
def descriptor (fs : FileSystem) (idx : Nat) : BlockGroupDescriptor :=
  ⟨(fs.block (fs.layout.tableBlock idx)).view (fs.layout.tableOffset idx)⟩

/-- The blocks of a volume have a size of at least 1 KiB, and the disk can address all of them with
32 bits. -/
structure Addressable (l : Layout) : Prop where
  block_size_ge : 1024 ≤ l.blockSize
  fits : l.blockCount * l.blockSize ≤ 2 ^ 32

theorem Addressable.block_size_pos {l : Layout} (h : Addressable l) : 0 < l.blockSize :=
  Nat.lt_of_lt_of_le (by decide) h.block_size_ge

variable {fs : FileSystem} {n : Nat}

/-! ## Block contents -/

section

variable (fs : FileSystem) (n k : Nat) (data : Bytes)

@[simp] theorem layout_withDisk : (fs.withDisk data).layout = fs.layout := rfl

@[simp] theorem layout_withCurrent : (fs.withCurrent data).layout = fs.layout := rfl

@[simp] theorem layout_withZeroes : (fs.withZeroes n).layout = fs.layout := rfl

@[simp] theorem layout_withSuperblock (sb : Superblock) :
    (fs.withSuperblock sb).layout = sb.layout := rfl

@[simp] theorem layout_putBlock : (fs.putBlock n data).layout = fs.layout := rfl

@[simp] theorem superblock_putBlock : (fs.putBlock n data).superblock = fs.superblock := rfl

@[simp] theorem withCurrent_currentBlock : fs.withCurrent fs.currentBlock = fs := rfl

@[simp] theorem superblock_withCurrent : (fs.withCurrent data).superblock = fs.superblock := rfl

@[simp] theorem currentBlock_withCurrent : (fs.withCurrent data).currentBlock = data := rfl

theorem withCurrent_putBlock (c : Bytes) :
    (fs.withCurrent c).putBlock n data = (fs.putBlock n data).withCurrent c := rfl

@[simp] theorem block_withCurrent : (fs.withCurrent data).block k = fs.block k := rfl

/-- The content of the blocks depends on the layout of the volume, not on the counters. -/
theorem block_withSuperblock {sb : Superblock} (h : sb.layout = fs.layout) :
    (fs.withSuperblock sb).block k = fs.block k := by
  unfold block
  rw [layout_withSuperblock, h]
  rfl

@[simp] theorem trunc_block : (fs.block n).trunc fs.layout.blockSize = fs.block n :=
  Bytes.trunc_block _ _ _

/-- Replacing one block changes that block and no other one. -/
theorem block_putBlock : (fs.putBlock n data).block k =
      if k = n then data.trunc fs.layout.blockSize else fs.block k :=
  Bytes.block_splice _ _ _ _ _

end

theorem block_putBlock_same (fs : FileSystem) (n : Nat) (data : Bytes) :
    (fs.putBlock n data).block n = data.trunc fs.layout.blockSize := by
  rw [block_putBlock, if_pos rfl]

theorem block_putBlock_other {k : Nat} (h : k ≠ n) (data : Bytes) :
    (fs.putBlock n data).block k = fs.block k := by
  rw [block_putBlock, if_neg h]

/-- The last content of a block counts. -/
theorem putBlock_putBlock (fs : FileSystem) (n : Nat) (data data' : Bytes) :
    (fs.putBlock n data).putBlock n data' = fs.putBlock n data' :=
  congrArg fs.withDisk (Bytes.splice_splice _ _ _ _ _)

theorem run_getLayout_bind {α : Type} (f : Layout → Action α) (c : Bytes) :
    (getLayout >>= f).run (fs.withCurrent c) = (f fs.layout).run (fs.withCurrent c) := rfl

/-! ## Block access -/

/-- A block size of at least 1 KiB is a power of two. -/
theorem Addressable.blockSize_eq_pow {l : Layout} (h : Addressable l) :
    l.blockSize = 2 ^ (10 + l.blockSizeShift) := by
  have hge := h.block_size_ge
  have hsize : l.blockSize = 2 ^ (10 + l.blockSizeShift) % 2 ^ 32 := by
    rw [pow_add]
    rfl
  by_cases hlt : 10 + l.blockSizeShift < 32
  · rw [hsize, Nat.mod_eq_of_lt (Nat.pow_lt_pow_right (by decide) hlt)]
  · have hdvd : 2 ^ 32 ∣ 2 ^ (10 + l.blockSizeShift) := Nat.pow_dvd_pow 2 (by omega)
    omega

section

variable (hl : Addressable fs.layout) (h : n < fs.layout.blockCount)

include hl h

theorem Addressable.mul_lt : n * fs.layout.blockSize < 2 ^ 32 := by
  have hge := hl.block_size_ge
  have hnext := Nat.mul_le_mul_right fs.layout.blockSize (Nat.succ_le_of_lt h)
  have hfits := hl.fits
  rw [Nat.succ_mul] at hnext
  omega

/-- Reading a block of the volume into a span of the block size gives its content. -/
theorem run_readBlock : (readBlock n fs.layout.blockSize).run fs = .ok (fs.block n) fs := by
  unfold readBlock
  rw [run_get_bind, run_check_bind h, run_check_bind rfl, wmul_of_lt (hl.mul_lt h)]
  rfl

theorem run_loadBlock : (loadBlock n).run fs = .ok () (fs.withCurrent (fs.block n)) := by
  unfold loadBlock
  rw [run_get_bind, run_bind_ok (run_readBlock hl h)]
  rfl

/-- What the scratch buffer held before does not matter. -/
theorem run_loadBlock_over (c : Bytes) :
    (loadBlock n).run (fs.withCurrent c) = .ok () (fs.withCurrent (fs.block n)) :=
  run_loadBlock (show Addressable (fs.withCurrent c).layout from hl) h

end

/-- A block number that the volume does not have fails the assertion of `read_block`. -/
theorem run_readBlock_of_ge (h : fs.layout.blockCount ≤ n) (size : Nat) :
    (readBlock n size).run fs = .error .assertion fs := by
  unfold readBlock
  rw [run_get_bind]
  exact run_bind_error (run_check_neg (Nat.not_lt.mpr h) fs)

/-- So does a span whose size is not the block size. -/
theorem run_readBlock_of_size_ne {size : Nat} (h : size ≠ fs.layout.blockSize) :
    (readBlock n size).run fs = .error .assertion fs := by
  by_cases hn : n < fs.layout.blockCount
  · unfold readBlock
    rw [run_get_bind, run_check_bind hn]
    exact run_bind_error (run_check_neg h fs)
  · exact run_readBlock_of_ge (Nat.not_lt.mp hn) size

theorem run_loadBlock_of_ge (h : fs.layout.blockCount ≤ n) :
    (loadBlock n).run fs = .error .assertion fs := by
  unfold loadBlock
  rw [run_get_bind]
  exact run_bind_error (run_readBlock_of_ge h _)

section

variable (hl : Addressable fs.layout) (h : n < fs.layout.blockCount)

include hl h

theorem run_writeBlock (data : Bytes) :
    (writeBlock n fs.layout.blockSize data).run fs = .ok () (fs.putBlock n data) := by
  unfold writeBlock
  rw [run_get_bind, run_check_bind h, wmul_of_lt (hl.mul_lt h)]
  rfl

theorem run_storeBlock : (storeBlock n).run fs = .ok () (fs.putBlock n fs.currentBlock) := by
  unfold storeBlock
  rw [run_get_bind, run_writeBlock hl h]

theorem run_storeBlock_over (c : Bytes) :
    (storeBlock n).run (fs.withCurrent c) = .ok () ((fs.withCurrent c).putBlock n c) :=
  run_storeBlock (show Addressable (fs.withCurrent c).layout from hl) h

end

/-! ## Block groups -/

/-- The block of the descriptor table after `write_block_group`. -/
def newTable (fs : FileSystem) (idx : Nat) (desc : BlockGroupDescriptor) : Bytes :=
  (fs.block (fs.layout.tableBlock idx)).splice (fs.layout.tableOffset idx)
    BlockGroupDescriptor.size desc.raw

section

variable {idx : Nat} (hl : Addressable fs.layout)
  (h : fs.layout.tableBlock idx < fs.layout.blockCount)

include hl h

theorem run_getBlockGroup : (getBlockGroup idx).run fs =
      .ok (fs.descriptor idx) (fs.withCurrent (fs.block (fs.layout.tableBlock idx))) := by
  unfold getBlockGroup
  rw [run_get_bind, run_bind_ok (run_loadBlock hl h)]
  rfl

theorem run_getBlockGroup_over (c : Bytes) : (getBlockGroup idx).run (fs.withCurrent c) =
      .ok (fs.descriptor idx) (fs.withCurrent (fs.block (fs.layout.tableBlock idx))) :=
  run_getBlockGroup (show Addressable (fs.withCurrent c).layout from hl) h

theorem run_writeBlockGroup (desc : BlockGroupDescriptor) : (writeBlockGroup idx desc).run fs =
      .ok () ((fs.putBlock (fs.layout.tableBlock idx) (fs.newTable idx desc)).withCurrent
        (fs.newTable idx desc)) := by
  unfold writeBlockGroup
  rw [run_get_bind, run_bind_ok (run_loadBlock hl h), run_modify_bind]
  exact run_storeBlock hl h

end

/-! ## The superblock and its copies -/

/-- Block `k` holds the superblock or one of the copies `update_superblock` writes. -/
def IsCopy (fs : FileSystem) (k : Nat) : Prop :=
  k = 1 ∨ ∃ i ∈ fs.layout.backupGroups, fs.hasBackup i ∧ k = fs.layout.backupBlock i

/-- Block `k` is one of those that `update_superblock` stores to, with blocks of any size. -/
def HoldsSuperblock (fs : FileSystem) (k : Nat) : Prop :=
  k = 1024 / fs.layout.blockSize ∨
    ∃ i ∈ fs.layout.backupGroups, fs.hasBackup i ∧ k = fs.layout.backupBlock i

/-- With blocks of 1 KiB, the superblock is block 1. -/
theorem holdsSuperblock_iff (hsize : fs.layout.blockSize = 1024) (k : Nat) :
    fs.HoldsSuperblock k ↔ fs.IsCopy k := by
  unfold HoldsSuperblock IsCopy
  rw [hsize]

/-- What `update_superblock` leaves behind: a superblock with a new time, and every block that is
not one of its copies as it was. -/
structure Resynced (fs fs' : FileSystem) : Prop where
  superblock : fs'.superblock = fs.superblock.setLastWriteTime (fs.clock 0)
  currentBlock : fs'.currentBlock = fs.currentBlock
  zeroes : fs'.zeroes = fs.zeroes
  block : ∀ k, ¬ fs.HoldsSuperblock k → fs'.block k = fs.block k

/-- The same with blocks of 1 KiB. -/
structure Synced (fs fs' : FileSystem) : Prop where
  superblock : fs'.superblock = fs.superblock.setLastWriteTime (fs.clock 0)
  currentBlock : fs'.currentBlock = fs.currentBlock
  zeroes : fs'.zeroes = fs.zeroes
  block : ∀ k, ¬ fs.IsCopy k → fs'.block k = fs.block k

theorem Resynced.layout (h : Resynced fs fs') : fs'.layout = fs.layout := by
  unfold FileSystem.layout
  rw [h.superblock, Superblock.layout_setLastWriteTime]

theorem Resynced.hasBackup (h : Resynced fs fs') (i : Nat) : fs'.hasBackup i = fs.hasBackup i := by
  unfold FileSystem.hasBackup
  rw [h.layout]

/-- Writing one copy keeps all of this. -/
theorem Resynced.run_writeBackup {t : FileSystem} (h : Resynced fs t)
    (hl : Addressable fs.layout) {i : Nat} (hi : i ∈ fs.layout.backupGroups)
    (hlt : fs.hasBackup i → fs.layout.backupBlock i < fs.layout.blockCount) :
    ∃ t', (writeBackup i).run t = .ok () t' ∧ Resynced fs t' := by
  unfold writeBackup
  rw [run_get_bind, h.hasBackup]
  by_cases hb : fs.hasBackup i
  · have hpass : t.layout.backupBlock i < t.layout.blockCount := by
      rw [h.layout]
      exact hlt hb
    rw [if_pos hb]
    refine ⟨_, run_check_bind hpass, h.superblock, h.currentBlock, h.zeroes,
      fun k hk => ?_⟩
    have hne : k ≠ fs.layout.backupBlock i := fun heq => hk (.inr ⟨i, hi, hb, heq⟩)
    have hge := hl.block_size_ge
    rw [← h.block k hk]
    unfold FileSystem.block
    rw [layout_withDisk, h.layout, wmul_of_lt (hl.mul_lt (hlt hb))]
    exact Bytes.block_splice_other (Nat.le_refl _) (Nat.add_le_add_left hge _) hne
  · exact ⟨t, by rw [if_neg hb]; rfl, h⟩

/-- On a volume whose superblock copies all lie on it, `update_superblock` succeeds and stores to
nothing but these copies. -/
theorem run_updateSuperblock_any (hl : Addressable fs.layout)
    (hlt : ∀ i ∈ fs.layout.backupGroups, fs.hasBackup i →
      fs.layout.backupBlock i < fs.layout.blockCount) :
    ∃ fs', updateSuperblock.run fs = .ok () fs' ∧ Resynced fs fs' := by
  have hlayout : fs.stamped.layout = fs.layout := Superblock.layout_setLastWriteTime _ _
  refine each_invariant (Resynced fs) (fun i hi t ht => ht.run_writeBackup hl hi (hlt i hi)) ?_
  refine ⟨rfl, rfl, rfl, fun k hk => ?_⟩
  -- The bytes 1024 to 2047 are block 1 when blocks have 1 KiB, and a part of block 0 otherwise.
  have hwithin : 1024 / fs.layout.blockSize * fs.layout.blockSize ≤ 1024 ∧
      1024 + Superblock.size ≤
        1024 / fs.layout.blockSize * fs.layout.blockSize + fs.layout.blockSize := by
    have hpow := hl.blockSize_eq_pow
    show _ ∧ 1024 + 1024 ≤ _
    by_cases hshift : fs.layout.blockSizeShift = 0
    · rw [hshift] at hpow
      rw [hpow]
      decide
    · have hlarge : 2 ^ 11 ≤ 2 ^ (10 + fs.layout.blockSizeShift) :=
        Nat.pow_le_pow_right (by decide) (by omega)
      rw [Nat.div_eq_of_lt (by omega)]
      omega
  exact Bytes.block_splice_other hwithin.1 hwithin.2 fun heq => hk (.inl heq)

theorem Synced.layout (h : Synced fs fs') : fs'.layout = fs.layout := by
  unfold FileSystem.layout
  rw [h.superblock, Superblock.layout_setLastWriteTime]

/-- On a volume with 1 KiB blocks whose superblock copies all lie on it, `update_superblock`
succeeds and stores to nothing but these copies. -/
theorem run_updateSuperblock (hl : Addressable fs.layout) (hsize : fs.layout.blockSize = 1024)
    (hlt : ∀ k, fs.IsCopy k → k < fs.layout.blockCount) :
    ∃ fs', updateSuperblock.run fs = .ok () fs' ∧ Synced fs fs' := by
  obtain ⟨fs', hrun, hs⟩ := run_updateSuperblock_any hl fun i hi hb => hlt _ (.inr ⟨i, hi, hb, rfl⟩)
  refine ⟨fs', hrun, hs.superblock, hs.currentBlock, hs.zeroes, fun k hk => ?_⟩
  exact hs.block k fun hhold => hk ((holdsSuperblock_iff hsize k).mp hhold)

/-- A volume that passes the check of the constructor has all of its superblock copies. -/
theorem backup_lt_of_checkBackups {is : List Nat} {okay : Bool}
    (hrun : (checkBackups is).run fs = .ok okay fs') (hl : Addressable fs.layout) :
    ∀ i ∈ is, fs.hasBackup i → fs.layout.backupBlock i < fs.layout.blockCount := by
  induction is generalizing fs fs' okay with
  | nil => simp
  | cons j js ih =>
    unfold checkBackups at hrun
    rw [run_get_bind] at hrun
    obtain ⟨_, t, hfirst, hrest⟩ := run_bind_eq_ok.mp hrun
    obtain ⟨_, _, hjs, -⟩ := run_bind_eq_ok.mp hrest
    by_cases hb : fs.hasBackup j
    · rw [if_pos hb] at hfirst
      have hlt : fs.layout.backupBlock j < fs.layout.blockCount := by
        by_contra hge
        rw [run_bind_error (run_loadBlock_of_ge (Nat.not_lt.mp hge))] at hfirst
        cases hfirst
      rw [run_bind_ok (run_loadBlock hl hlt), run_get_bind] at hfirst
      cases hfirst
      have htail := ih hjs hl
      exact List.forall_mem_cons.mpr ⟨fun _ => hlt, htail⟩
    · rw [if_neg hb] at hfirst
      cases hfirst
      exact List.forall_mem_cons.mpr ⟨fun hbj => absurd hbj hb, ih hjs hl⟩

end FileSystem

end LudOS.Ext2
