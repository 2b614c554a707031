import LudOS.Ext2.AllocData
import LudOS.Ext2.WriteFile

/-!
# What an allocation does to the block maps

On a well-formed volume every block that an inode maps belongs to one path of one inode.
`alloc_data_block` should make one more path lead to a block, and leave all paths that led to one
before alone. `alloc_data_block_extends` says when it does. The trouble is the indirect block where
the path used to break off: its other entries are overwritten with a block of the descriptor table.
-/

namespace LudOS.Ext2

open Lib

/-- `block_ptr` is a block map. Short symbolic links keep their text there, and the other types have
no blocks. -/
def Inode.HasBlockMap (inode : Inode) : Prop :=
  inode.HasType .regular ∨ inode.HasType .directory ∨ inode.HasType .symlink ∧ 60 < inode.sizeLower

theorem Inode.blockPtr_setBlockPtr_same (inode : Inode) (i value : Nat) :
    (inode.setBlockPtr i value).blockPtr i = value % 2 ^ 32 := Bytes.u32_putU32_same _ _ _

theorem Inode.blockPtr_setBlockPtr_other {inode : Inode} {i j : Nat} (h : j ≠ i) (value : Nat) :
    (inode.setBlockPtr i value).blockPtr j = inode.blockPtr j :=
  Bytes.u32_putU32_other (by omega)

/-- `get_data_block(read_inode(inode), blkId)`. -/
def lookup (inode blkId : Nat) : Action Nat := do
  let inodeStruct ← readInode inode
  getDataBlock inodeStruct blkId

namespace FileSystem

variable {fs fs' fs₁ : FileSystem} {m n b r : Nat}

/-! ## Well-formed volumes -/

/-- `m` is the number of an inode that is present. -/
structure IsInode (fs : FileSystem) (m : Nat) : Prop extends fs.Present m where
  pos : 1 ≤ m
  lt : m < 2 ^ 32
  group_lt : fs.layout.inodeGroup m < fs.layout.blockGroups

/-- Block `k` belongs to inode `m`, which maps it on path `π`. -/
structure Owns (fs : FileSystem) (m : Nat) (π : Nat × List Nat) (k : Nat) : Prop where
  isInode : fs.IsInode m
  hasBlockMap : (fs.inodeAt m).HasBlockMap
  isPath : fs.layout.IsPath π
  pointer_eq : fs.pointer (fs.inodeAt m) π = k
  ne_zero : k ≠ 0

namespace Owns

variable {π : Nat × List Nat} {js ks : List Nat} {i k : Nat}

theorem pointer_ne_zero (h : fs.Owns m π k) : fs.pointer (fs.inodeAt m) π ≠ 0 := by
  rw [h.pointer_eq]
  exact h.ne_zero

/-- What a shorter path leads to belongs to the inode too. -/
theorem shorter (h : fs.Owns m π k) (hsplit : π.2 = js ++ ks) :
    fs.Owns m (π.1, js) (fs.pointer (fs.inodeAt m) (π.1, js)) := by
  refine ⟨h.isInode, h.hasBlockMap, h.isPath.shorter hsplit, rfl, ?_⟩
  have hne : Walk.resolve fs.entry 0 ((fs.inodeAt m).blockPtr π.1) (js ++ ks) ≠ 0 := by
    rw [← hsplit]
    exact h.pointer_ne_zero
  exact Walk.resolve_append_ne_null hne

/-- The entries on the way to a block are set. -/
theorem entry_ne_zero (h : fs.Owns m π k) (hsplit : π.2 = js ++ i :: ks) :
    fs.entry (fs.pointer (fs.inodeAt m) (π.1, js)) i ≠ 0 := by
  have hnext := h.shorter (show π.2 = (js ++ [i]) ++ ks by rw [hsplit, List.append_assoc]; rfl)
  have hconcat : fs.pointer (fs.inodeAt m) (π.1, js ++ [i]) =
      fs.entry (fs.pointer (fs.inodeAt m) (π.1, js)) i :=
    Walk.resolve_concat (h.shorter hsplit).ne_zero
  rw [← hconcat]
  exact hnext.ne_zero

end Owns

/-- A volume with 1 KiB blocks whose metadata is consistent and in blocks of its own, and whose
blocks are owned at most once. -/
structure WellFormed (fs : FileSystem) : Prop where
  placed : Placed fs
  balanced : Balanced fs
  inode_size_ge : 128 ≤ fs.layout.inodeSize
  bitmap_inUse : ∀ m, fs.IsInode m → fs.InUse (fs.inodeBitmapBlock m)
  table_inUse : ∀ m, fs.IsInode m → fs.InUse (fs.inodeTableBlock m)
  bitmap_ne_table : ∀ m m', fs.IsInode m → fs.IsInode m' →
    fs.inodeBitmapBlock m ≠ fs.inodeTableBlock m'
  slot_injective : ∀ m m', fs.IsInode m → fs.IsInode m' →
    fs.inodeTableBlock m = fs.inodeTableBlock m' →
    fs.layout.inodeSlot m = fs.layout.inodeSlot m' → m = m'
  owned_inUse : ∀ m π k, fs.Owns m π k → fs.InUse k
  owned_not_bitmap : ∀ m π k m', fs.Owns m π k → fs.IsInode m' → k ≠ fs.inodeBitmapBlock m'
  owned_not_table : ∀ m π k m', fs.Owns m π k → fs.IsInode m' → k ≠ fs.inodeTableBlock m'
  owned_once : ∀ m π m' π' k, fs.Owns m π k → fs.Owns m' π' k → m = m' ∧ π = π'

theorem Placed.geometry (h : Placed fs) : fs.layout.Geometry :=
  ⟨by rw [h.block_size_shift]; decide, h.addressable.fits⟩

/-- The block where the path to block index `b` of inode `n` breaks off, and the entry that is
missing in it. -/
def gapAt (fs : FileSystem) (n b : Nat) : Option (Nat × Nat) :=
  Walk.gap fs.entry 0 ((fs.inodeAt n).blockPtr (fs.layout.path b).1) (fs.layout.path b).2

/-- The number of blocks that are missing for block index `b` of inode `n`. -/
def missing (fs : FileSystem) (n b : Nat) : Nat :=
  (fs.layout.path b).2.length + 1 -
    (Walk.trail fs.entry 0 ((fs.inodeAt n).blockPtr (fs.layout.path b).1)
      (fs.layout.path b).2).length

/-- A block index of an inode that can be allocated. -/
structure Allocatable (fs : FileSystem) (n b : Nat) : Prop where
  isInode : fs.IsInode n
  hasBlockMap : (fs.inodeAt n).HasBlockMap
  lt : b < fs.layout.mapSize
  unmapped : fs.pointer (fs.inodeAt n) (fs.layout.path b) = 0
  enough : fs.missing n b ≤ fs.superblock.unallocatedBlocks

/-- The group that `alloc_data_block` prefers. -/
def preferredGroup (fs : FileSystem) (n : Nat) : Nat := n / fs.layout.inodesInBlockGroup

/-- `alloc_data_block` succeeds, the block index leads to a block that was free, and everything that
was mapped before still is. -/
def Extends (fs : FileSystem) (n b : Nat) : Prop :=
  ∃ fs', (allocDataBlock n b).run fs = .ok () fs' ∧
    (∃ v, valueOf (lookup n b) fs' = some v ∧ v ≠ 0 ∧ fs.IsFree v) ∧
    ∀ m b' v, b' < fs.layout.mapSize → fs.Owns m (fs.layout.path b') v →
      valueOf (lookup m b') fs' = some v

/-- When `alloc_data_block` goes well. A preferred group that does not exist must promise nothing.
`write_inode`, which is needed for a missing root, must be called with inodes of 128 bytes. The
entries of the block where the path breaks off must be the numbers that the descriptor table holds
in their places. -/
structure ExtendsRight (fs : FileSystem) (n b : Nat) : Prop where
  usable : fs.Usable (fs.preferredGroup n)
  inode_size : (fs.inodeAt n).blockPtr (fs.layout.path b).1 = 0 → fs.layout.inodeSize = 128
  kept : ∀ last t, fs.gapAt n b = some (last, t) → ∀ j < fs.layout.entriesPerBlock, j ≠ t →
    fs.entry last j ≠ 0 → (fs.allocTable (fs.preferredGroup n)).u32 (4 * j) = fs.entry last j

/-! ## Inodes under allocations -/

/-- The descriptor of the group of inode `m` names the same blocks. -/
structure SameGroup (fs : FileSystem) (m : Nat) (fs' : FileSystem) : Prop where
  layout : fs'.layout = fs.layout
  descriptor : ∀ off, off + 4 ≤ 12 →
    (fs'.descriptor (fs.layout.inodeGroup m)).raw.u32 off =
      (fs.descriptor (fs.layout.inodeGroup m)).raw.u32 off

namespace SameGroup

variable (h : SameGroup fs m fs')

include h

theorem inodeBitmapBlock : fs'.inodeBitmapBlock m = fs.inodeBitmapBlock m := by
  unfold FileSystem.inodeBitmapBlock
  rw [h.layout]
  exact h.descriptor 4 (by decide)

theorem inodeTableBlock : fs'.inodeTableBlock m = fs.inodeTableBlock m := by
  have htable : (fs'.descriptor (fs.layout.inodeGroup m)).inodeTable =
    (fs.descriptor (fs.layout.inodeGroup m)).inodeTable := h.descriptor 8 (by decide)
  unfold FileSystem.inodeTableBlock
  rw [h.layout, htable]

/-- An inode whose bitmap is left alone stays present. -/
theorem isInode (hm : fs.IsInode m)
    (hblock : fs'.block (fs.inodeBitmapBlock m) = fs.block (fs.inodeBitmapBlock m)) :
    fs'.IsInode m := by
  refine ⟨?_, hm.pos, hm.lt, by rw [h.layout]; exact hm.group_lt⟩
  constructor
  case table_lt => rw [h.layout]; exact hm.table_lt
  case bitmap_lt => rw [h.layout, h.inodeBitmapBlock]; exact hm.bitmap_lt
  case index_lt => rw [h.layout]; exact hm.index_lt
  case bit => rw [h.layout, h.inodeBitmapBlock, hblock]; exact hm.bit
  case block_lt => rw [h.layout, h.inodeTableBlock]; exact hm.block_lt
  case slot_le => rw [h.layout]; exact hm.slot_le

/-- An inode whose block is left alone stays as it is. -/
theorem inodeAt (hblock : fs'.block (fs.inodeTableBlock m) = fs.block (fs.inodeTableBlock m)) :
    fs'.inodeAt m = fs.inodeAt m := by
  unfold FileSystem.inodeAt
  rw [h.inodeTableBlock, hblock, h.layout]

end SameGroup

namespace Grows

variable {touched : Nat → Prop} (hgrows : Grows fs touched fs') (hm : fs.IsInode m)

include hgrows hm

theorem sameGroup : SameGroup fs m fs' := ⟨hgrows.layout, hgrows.descriptor _ hm.group_lt⟩

theorem inodeTableBlock : fs'.inodeTableBlock m = fs.inodeTableBlock m :=
  (hgrows.sameGroup hm).inodeTableBlock

theorem isInode (hbitmap : fs.InUse (fs.inodeBitmapBlock m))
    (huntouched : ¬ touched (fs.inodeBitmapBlock m)) : fs'.IsInode m :=
  (hgrows.sameGroup hm).isInode hm (hgrows.frame _ hbitmap.not_reserved hbitmap.not_free huntouched)

theorem inodeAt (htable : fs.InUse (fs.inodeTableBlock m))
    (huntouched : ¬ touched (fs.inodeTableBlock m)) : fs'.inodeAt m = fs.inodeAt m :=
  (hgrows.sameGroup hm).inodeAt (hgrows.frame _ htable.not_reserved htable.not_free huntouched)

end Grows

/-- Inode `n` has been written. -/
structure WroteInode (fs : FileSystem) (n : Nat) (inode : Inode) (fs' : FileSystem) : Prop where
  grows : Grows fs (· = fs.inodeTableBlock n) fs'
  unallocated : fs'.superblock.unallocatedBlocks = fs.superblock.unallocatedBlocks
  same : fs'.inodeAt n = inode
  other : ∀ m, fs.IsInode m → fs.layout.inodeSlot m ≠ fs.layout.inodeSlot n ∨
    fs.inodeTableBlock m ≠ fs.inodeTableBlock n → fs'.inodeAt m = fs.inodeAt m

theorem run_writeInode_wrote (h : Placed fs) (hb : Balanced fs) (hn : fs.IsInode n)
    (htable : fs.InUse (fs.inodeTableBlock n)) (hsize : fs.layout.inodeSize = 128) {inode : Inode}
    (htrunc : inode.raw.trunc 128 = inode.raw) :
    ∃ fs', (writeInode n inode).run fs = .ok () fs' ∧ WroteInode fs n inode fs' := by
  have hrun := run_writeInode h.addressable hn.toPresent hsize inode fs.currentBlock
  have hsame := newInodeTable_same hn.toPresent inode
  have hother := fun m (hm : fs.IsInode m) hne =>
    newInodeTable_other (n := n) hm.toPresent hne inode
  generalize fs.newInodeTable n inode = table at hrun hsame hother
  have hgrows := Grows.store_current h hb htable.not_reserved table
  refine ⟨_, hrun, hgrows, ?_, ?_, fun m hm hne => ?_⟩
  · rw [superblock_putBlock, superblock_withCurrent]
  · unfold inodeAt
    rw [hgrows.inodeTableBlock hn, block_putBlock_same, layout_putBlock, layout_withCurrent, hsame,
      htrunc]
  · unfold inodeAt
    rw [hgrows.inodeTableBlock hm, block_putBlock, layout_putBlock, layout_withCurrent]
    split
    case isFalse => rw [block_withCurrent]
    case isTrue hblock =>
      -- Another slot of the same block.
      rw [hother m hm (hne.resolve_right (not_not.mpr hblock)), hblock]

/-! ## A missing root -/

/-- Block `v` has been allocated and entered in `block_ptr[r]` of inode `n`. -/
structure Planted (fs : FileSystem) (n r v : Nat) (fs' : FileSystem) : Prop where
  grows : Grows fs (· = fs.inodeTableBlock n) fs'
  free : fs.IsFree v
  inUse : fs'.InUse v
  fresh : fs'.block v = fun _ => 0
  unallocated : fs'.superblock.unallocatedBlocks + 1 = fs.superblock.unallocatedBlocks
  same : fs'.inodeAt n = (fs.inodeAt n).setBlockPtr r v

/-- The other inodes have not been changed. -/
structure Rooted (fs : FileSystem) (n r v : Nat) (fs' : FileSystem) : Prop
    extends Planted fs n r v fs' where
  other : ∀ m, fs.IsInode m → m ≠ n → fs'.inodeAt m = fs.inodeAt m

/-- The structure of an inode with 32 bits replaced. -/
theorem trunc_putU32 (fs : FileSystem) (n : Nat) {off : Nat} (hoff : off + 4 ≤ 128) (value : Nat) :
    ((fs.inodeAt n).raw.putU32 off value).trunc 128 = (fs.inodeAt n).raw.putU32 off value := by
  unfold Bytes.putU32
  rw [Bytes.trunc_splice hoff]
  unfold inodeAt
  rw [Bytes.trunc_trunc]

theorem trunc_setBlockPtr (fs : FileSystem) (n v : Nat) (hr : r < 15) :
    ((fs.inodeAt n).setBlockPtr r v).raw.trunc 128 = ((fs.inodeAt n).setBlockPtr r v).raw :=
  trunc_putU32 fs n (by omega) v

/-- `alloc_block`, and `write_inode` with the new pointer. -/
theorem run_plant (h : Placed fs) (hb : Balanced fs) (hn : fs.IsInode n)
    (hbitmap : fs.InUse (fs.inodeBitmapBlock n)) (htable : fs.InUse (fs.inodeTableBlock n))
    {g : Nat}
    (hu : fs.Usable g) (hpos : 0 < fs.superblock.unallocatedBlocks)
    (hsize : fs.layout.inodeSize = 128) (hr : r < 15) (c : Bytes) :
    ∃ v fs₁ fs₂, (allocBlock g).run (fs.withCurrent c) = .ok v fs₁ ∧
      (writeInode n ((fs.inodeAt n).setBlockPtr r v)).run fs₁ = .ok () fs₂ ∧
      Grows fs (fun _ => False) fs₁ ∧ WroteInode fs₁ n ((fs.inodeAt n).setBlockPtr r v) fs₂ ∧
      Planted fs n r v fs₂ := by
  obtain ⟨v, fs₁, hrun, ht⟩ := run_allocBlock (h.withCurrent c) (hb.withCurrent c) hu hpos
  have hgrows : Grows fs (fun _ => False) fs₁ := ht.grows.of_withCurrent
  have hfree : fs.IsFree v := ht.free
  have hinUse : fs₁.InUse v := ht.inUse (h.withCurrent c)
  have hn₁ := hgrows.isInode hn hbitmap not_false
  have hsame := hgrows.inodeTableBlock hn
  have hne : v ≠ fs₁.inodeTableBlock n := by
    rw [hsame]
    exact fun heq => htable.not_free (heq ▸ hfree)
  obtain ⟨fs₂, hwrite, hw⟩ := run_writeInode_wrote hgrows.placed hgrows.balanced hn₁
    (by rw [hsame]; exact hgrows.inUse htable) (by rw [hgrows.layout]; exact hsize)
    (trunc_setBlockPtr fs n v hr)
  refine ⟨v, fs₁, fs₂, hrun, hwrite, hgrows, hw, ?_⟩
  constructor
  case grows =>
    refine hgrows.trans hw.grows fun k _ hk => ?_
    rw [hsame] at hk
    exact hk.resolve_left id
  case free => exact hfree
  case inUse => exact hw.grows.inUse hinUse
  case fresh => rw [hw.grows.frame v hinUse.not_reserved hinUse.not_free hne, ht.fresh]
  case unallocated => rw [hw.unallocated]; exact ht.unallocated
  case same => exact hw.same

/-- The same on a well-formed volume. -/
theorem WellFormed.run_allocRoot (h : fs.WellFormed) (hn : fs.IsInode n) {g : Nat}
    (hu : fs.Usable g) (hpos : 0 < fs.superblock.unallocatedBlocks)
    (hsize : fs.layout.inodeSize = 128) (hr : r < 15) (c : Bytes) :
    ∃ v fs₁ fs₂, (allocBlock g).run (fs.withCurrent c) = .ok v fs₁ ∧
      (writeInode n ((fs.inodeAt n).setBlockPtr r v)).run fs₁ = .ok () fs₂ ∧
      Rooted fs n r v fs₂ := by
  obtain ⟨v, fs₁, fs₂, hrun, hwrite, hgrows, hw, hp⟩ := run_plant h.placed h.balanced hn
    (h.bitmap_inUse n hn) (h.table_inUse n hn) hu hpos hsize hr c
  refine ⟨v, fs₁, fs₂, hrun, hwrite, hp, fun m hm hmn => ?_⟩
  have hm₁ := hgrows.isInode hm (h.bitmap_inUse m hm) not_false
  rw [hw.other m hm₁ ?_, hgrows.inodeAt hm (h.table_inUse m hm) not_false]
  rw [hgrows.layout, hgrows.inodeTableBlock hm, hgrows.inodeTableBlock hn]
  by_contra hboth
  rw [not_or, not_not, not_not] at hboth
  exact hmn (h.slot_injective m n hm hn hboth.2 hboth.1)

/-! ## The allocation -/

/-- What `alloc_data_block` does. Block index `b` of inode `n` leads to the new block `v`. The
indirect block where its path used to break off, if there is one, has been overwritten. -/
structure Extended (fs : FileSystem) (n b v : Nat) (fs' : FileSystem) : Prop where
  grows : Grows fs (fun k => k = fs.inodeTableBlock n ∨ ∃ t, fs.gapAt n b = some (k, t)) fs'
  free : fs.IsFree v
  other : ∀ m, fs.IsInode m → m ≠ n → fs'.inodeAt m = fs.inodeAt m
  root : ∀ r, (fs.inodeAt n).blockPtr r ≠ 0 → (fs'.inodeAt n).blockPtr r = (fs.inodeAt n).blockPtr r
  follow : Walk.follow fs'.entry ((fs'.inodeAt n).blockPtr (fs.layout.path b).1)
    (fs.layout.path b).2 = v
  visited_lt : ∀ k ∈ Walk.visited fs'.entry ((fs'.inodeAt n).blockPtr (fs.layout.path b).1)
    (fs.layout.path b).2, k < fs.layout.blockCount
  overwritten : ∀ last t, fs.gapAt n b = some (last, t) → ∀ j, j ≠ t →
    fs'.entry last j = (fs.allocTable (fs.preferredGroup n)).u32 (4 * j)

namespace WellFormed

variable (h : fs.WellFormed) (ha : fs.Allocatable n b)

include h ha

/-- The indirect blocks that exist on the path belong to the inode. -/
theorem owns_of_mem_trail {k : Nat} (hk : k ∈ Walk.trail fs.entry 0
    ((fs.inodeAt n).blockPtr (fs.layout.path b).1) (fs.layout.path b).2) :
    ∃ js i ks, (fs.layout.path b).2 = js ++ i :: ks ∧ fs.Owns n ((fs.layout.path b).1, js) k := by
  obtain ⟨hne, js, i, ks, hsplit, heq⟩ := Walk.mem_trail hk
  have hpath := (h.placed.geometry.isPath_path ha.lt).1
  exact ⟨js, i, ks, hsplit, ha.isInode, ha.hasBlockMap, hpath.shorter hsplit, heq, hne⟩

/-- An inode with a root for the path is ready for `alloc_indirected`. -/
theorem ready (hu : fs.Usable (fs.preferredGroup n))
    (hroot : (fs.inodeAt n).blockPtr (fs.layout.path b).1 ≠ 0) :
    Ready fs (fs.preferredGroup n) ((fs.inodeAt n).blockPtr (fs.layout.path b).1)
      (fs.layout.path b).2 := by
  have hpath := (h.placed.geometry.isPath_path ha.lt).1
  constructor
  case placed => exact h.placed
  case balanced => exact h.balanced
  case usable => exact hu
  case root => exact hroot
  case inUse =>
    intro k hk
    obtain ⟨js, i, ks, -, howns⟩ := h.owns_of_mem_trail ha hk
    exact h.owned_inUse _ _ _ howns
  case nodup =>
    -- The shorter paths are paths of the inode, and no block is owned on two of them.
    refine Walk.nodup_trail fun js ks js' ks' hsplit hsplit' hne heq => ?_
    have hsame := h.owned_once _ _ _ _ _
      ⟨ha.isInode, ha.hasBlockMap, hpath.shorter hsplit, rfl, hne⟩
      ⟨ha.isInode, ha.hasBlockMap, hpath.shorter hsplit', heq.symm, hne⟩
    exact congrArg Prod.snd hsame.2
  case entries => exact fun i hi => h.placed.geometry.entry_le hpath hi
  case unmapped => exact ha.unmapped
  case enough =>
    have henough := ha.enough
    unfold missing at henough
    omega

/-- A path that breaks off at an indirect block. -/
theorem extended_of_hung {last t v : Nat} (hh : Hung fs (fs.preferredGroup n)
    ((fs.inodeAt n).blockPtr (fs.layout.path b).1) (fs.layout.path b).2 last t v fs') :
    Extended fs n b v fs' := by
  obtain ⟨js, i, ks, -, howns⟩ := h.owns_of_mem_trail ha (Walk.gap_eq_some hh.gap).1
  have hinode : ∀ m, fs.IsInode m → fs'.inodeAt m = fs.inodeAt m := fun m hm =>
    hh.grows.inodeAt hm (h.table_inUse m hm) (h.owned_not_table _ _ _ m howns hm).symm
  have hn := hinode n ha.isInode
  constructor
  case grows => exact hh.grows.mono fun k hk => .inr ⟨t, hk ▸ hh.gap⟩
  case free => exact hh.free
  case other => exact fun m hm _ => hinode m hm
  case root => exact fun r _ => by rw [hn]
  case follow => rw [hn]; exact hh.follow
  case visited_lt => rw [hn]; exact hh.visited_lt
  case overwritten =>
    intro last' t' hgap
    obtain ⟨rfl, rfl⟩ := Prod.mk.inj (Option.some.inj (hgap.symm.trans hh.gap))
    exact hh.overwritten

end WellFormed

namespace Planted

variable {r v : Nat} (hr : Planted fs n r v fs')

include hr

/-- No pointer that was there has changed. -/
theorem blockPtr_kept (hnull : (fs.inodeAt n).blockPtr r = 0) {r' : Nat}
    (hne : (fs.inodeAt n).blockPtr r' ≠ 0) :
    (fs'.inodeAt n).blockPtr r' = (fs.inodeAt n).blockPtr r' := by
  rw [hr.same, Inode.blockPtr_setBlockPtr_other]
  rintro rfl
  exact hne hnull

/-- The new root has no entries yet. -/
theorem entry_fresh (i : Nat) : fs'.entry v i = 0 := by
  unfold entry
  rw [hr.fresh]
  rfl

/-- The new root is ready for the rest of the path. -/
theorem ready {g i : Nat} {is : List Nat} (hu : fs.Usable g)
    (hentries : ∀ j ∈ i :: is, 4 * j + 4 ≤ fs.layout.blockSize)
    (henough : is.length + 2 ≤ fs.superblock.unallocatedBlocks) : Ready fs' g v (i :: is) := by
  have hunallocated := hr.unallocated
  exact .of_fresh hr.grows hu hr.free.ne_zero hr.inUse hr.entry_fresh hentries (by omega)

theorem blockPtr_same (h : Placed fs) : (fs'.inodeAt n).blockPtr r = v := by
  have hlt := h.free_lt v hr.free
  have hle := h.block_count_le
  rw [hr.same, Inode.blockPtr_setBlockPtr_same, Nat.mod_eq_of_lt (by omega)]

end Planted

namespace Rooted

variable {r v : Nat} (hr : Rooted fs n r v fs') (h : fs.WellFormed)

include hr h

/-- A missing root is all that is missing for a direct block. -/
theorem extended_direct (hpath : fs.layout.path b = (r, []))
    (hnull : (fs.inodeAt n).blockPtr r = 0) : Extended fs n b v fs' := by
  constructor
  case grows => exact hr.grows.mono fun k hk => .inl hk
  case free => exact hr.free
  case other => exact hr.other
  case root => exact fun r' hne => hr.blockPtr_kept hnull hne
  case follow => rw [hpath]; exact hr.blockPtr_same h.placed
  case visited_lt => rw [hpath]; exact fun k hk => absurd hk List.not_mem_nil
  case overwritten =>
    intro last t hgap
    unfold gapAt at hgap
    rw [hpath] at hgap
    cases hgap

/-- A missing root, and what has been hung below the new one. -/
theorem extended_of_hung {g i last t w : Nat} {is : List Nat} {fs₂ : FileSystem}
    (hpath : fs.layout.path b = (r, i :: is)) (hnull : (fs.inodeAt n).blockPtr r = 0)
    (hn : fs.IsInode n) (hh : Hung fs' g v (i :: is) last t w fs₂) : Extended fs n b w fs₂ := by
  obtain rfl := hh.last_eq hr.free.ne_zero (hr.entry_fresh i)
  -- The new root is not a block of inodes.
  have hinode : ∀ m, fs.IsInode m → fs₂.inodeAt m = fs'.inodeAt m := by
    intro m hm
    have htable := hr.grows.inodeTableBlock hm
    have hm' := hr.grows.isInode hm (h.bitmap_inUse m hm) (h.bitmap_ne_table m n hm hn)
    refine hh.grows.inodeAt hm' ?_ ?_ <;> rw [htable]
    · exact hr.grows.inUse (h.table_inUse m hm)
    · exact fun heq => (h.table_inUse m hm).not_free (heq ▸ hr.free)
  have hroot : (fs₂.inodeAt n).blockPtr r = v := by rw [hinode n hn, hr.blockPtr_same h.placed]
  constructor
  case grows =>
    refine hr.grows.trans hh.grows fun k hfree hk => ?_
    rcases hk with hk | rfl
    · exact .inl hk
    · exact absurd hr.free hfree
  case free => exact hr.grows.isFree w hh.free
  case other => exact fun m hm hne => (hinode m hm).trans (hr.other m hm hne)
  case root => exact fun r' hne => by rw [hinode n hn, hr.blockPtr_kept hnull hne]
  case follow => rw [hpath, hroot]; exact hh.follow
  case visited_lt => rw [hpath, hroot, ← hr.grows.layout]; exact hh.visited_lt
  case overwritten =>
    intro last t hgap
    unfold gapAt at hgap
    rw [hpath, hnull] at hgap
    cases hgap

end Rooted

/-! ## The four ranges of block indices -/

section

variable (hl : Addressable fs.layout) (hn : fs.Present n)

include hl hn

/-- `alloc_data_block` once it has read the inode. -/
theorem run_allocDataBlock_start (b : Nat) :
    (allocDataBlock n b).run fs =
      (if b < 12 then do
        let block ← allocBlock (fs.preferredGroup n)
        writeInode n ((fs.inodeAt n).setBlockPtr b block)
      else if b - 12 < fs.layout.entriesPerBlock then
        allocTree n (fs.inodeAt n) (fs.preferredGroup n) 12 1 (b - 12)
      else if b - 12 - fs.layout.entriesPerBlock <
          wmul fs.layout.entriesPerBlock fs.layout.entriesPerBlock then
        allocTree n (fs.inodeAt n) (fs.preferredGroup n) 13 2 (b - 12 - fs.layout.entriesPerBlock)
      else
        allocTree n (fs.inodeAt n) (fs.preferredGroup n) 14 3
          (b - 12 - fs.layout.entriesPerBlock -
            wmul fs.layout.entriesPerBlock fs.layout.entriesPerBlock) : Action Unit).run
        (fs.withCurrent (fs.block (fs.inodeTableBlock n))) := by
  refine (run_getLayout_bind _ fs.currentBlock).trans ?_
  exact run_bind_ok (run_readInode hl hn fs.currentBlock)

/-- It does not matter what the scratch buffer holds. -/
theorem run_allocDataBlock_over (b : Nat)
    (c : Bytes) : (allocDataBlock n b).run (fs.withCurrent c) = (allocDataBlock n b).run fs := by
  rw [run_allocDataBlock_start hl hn]
  refine (run_getLayout_bind _ c).trans ?_
  exact run_bind_ok (run_readInode hl hn c)

/-- A block index behind an indirect block is allocated in one of the three trees. -/
theorem run_allocDataBlock_tree (hb : 12 ≤ b) :
    ∃ r depth blkId, r < 15 ∧ fs.layout.path b = (r, fs.layout.indices (depth + 1) blkId) ∧
      (allocDataBlock n b).run fs =
        (allocTree n (fs.inodeAt n) (fs.preferredGroup n) r (depth + 1) blkId).run
          (fs.withCurrent (fs.block (fs.inodeTableBlock n))) := by
  obtain ⟨r, depth, blkId, hlt, hpath, htree⟩ := fs.layout.exists_tree (Nat.not_lt.mpr hb)
    (allocTree n (fs.inodeAt n) (fs.preferredGroup n))
  refine ⟨r, depth, blkId, hlt, hpath, ?_⟩
  rw [run_allocDataBlock_start hl hn, if_neg (Nat.not_lt.mpr hb), htree]

end

/-- `alloc_data_block` under the conditions that its calls need. -/
theorem WellFormed.run_allocDataBlock (h : fs.WellFormed) (ha : fs.Allocatable n b)
    (hu : fs.Usable (fs.preferredGroup n))
    (hsize : (fs.inodeAt n).blockPtr (fs.layout.path b).1 = 0 → fs.layout.inodeSize = 128) :
    ∃ v fs', (allocDataBlock n b).run fs = .ok () fs' ∧ Extended fs n b v fs' := by
  have hgeo := h.placed.geometry
  have henough := ha.enough
  have hunmapped := ha.unmapped
  unfold missing at henough
  unfold pointer at hunmapped
  by_cases hdirect : b < 12
  · have hpath : fs.layout.path b = (b, []) := if_pos hdirect
    rw [hpath] at hsize henough hunmapped
    obtain ⟨v, fs₁, fs₂, hrun, hwrite, hr⟩ := h.run_allocRoot ha.isInode hu
      (Nat.lt_of_lt_of_le Nat.one_pos henough) (hsize hunmapped) (show b < 15 by omega)
      (fs.block (fs.inodeTableBlock n))
    refine ⟨v, fs₂, ?_, hr.extended_direct h hpath hunmapped⟩
    rw [run_allocDataBlock_start h.placed.addressable ha.isInode.toPresent, if_pos hdirect,
      run_bind_ok hrun, hwrite]
  · obtain ⟨r, depth, blkId, hlt, hpath, hstart⟩ := run_allocDataBlock_tree h.placed.addressable
      ha.isInode.toPresent (Nat.not_lt.mp hdirect)
    have hentries : ∀ j ∈ fs.layout.indices (depth + 1) blkId, 4 * j + 4 ≤ fs.layout.blockSize := by
      intro j hj
      exact hgeo.entry_le (hgeo.isPath_path ha.lt).1 (by rw [hpath]; exact hj)
    rw [hstart]
    unfold allocTree
    by_cases hnull : (fs.inodeAt n).blockPtr r = 0
    · -- The root is missing.
      rw [if_pos hnull]
      obtain ⟨i, is, hcons⟩ := exists_indices_eq_cons fs.layout depth blkId
      rw [hpath] at hsize henough
      rw [hnull, Walk.trail_null, hcons, List.length_nil, List.length_cons] at henough
      obtain ⟨v, fs₁, fs₂, hrun, hwrite, hr⟩ := h.run_allocRoot ha.isInode hu (by omega)
        (hsize hnull) hlt (fs.block (fs.inodeTableBlock n))
      have hready : Ready fs₂ (fs.preferredGroup n) v (fs₂.layout.indices (depth + 1) blkId) := by
        rw [hr.grows.layout, hcons]
        exact hr.ready hu (hcons ▸ hentries) (by omega)
      obtain ⟨last, t, w, fs', hrun', hh⟩ := FileSystem.run_allocIndirected hready
      rw [hr.grows.layout, hcons] at hh
      rw [hcons] at hpath
      refine ⟨w, fs', ?_, hr.extended_of_hung h hpath hnull ha.isInode hh⟩
      refine (run_bind_ok ((run_bind_ok hrun).trans (run_bind_ok hwrite))).trans ?_
      rw [← hr.same, hr.blockPtr_same h.placed]
      exact hrun'
    · rw [if_neg hnull]
      have hready := h.ready ha hu (by rw [hpath]; exact hnull)
      rw [hpath] at hready
      obtain ⟨last, t, v, fs', hrun, hh⟩ := FileSystem.run_allocIndirected
        (hready.withCurrent (fs.block (fs.inodeTableBlock n)))
      have hh' : Hung fs (fs.preferredGroup n) ((fs.inodeAt n).blockPtr (fs.layout.path b).1)
          (fs.layout.path b).2 last t v fs' := by
        rw [hpath]
        exact hh.of_withCurrent
      exact ⟨v, fs', (run_bind_ok (EStateM.run_pure _ _)).trans hrun, h.extended_of_hung ha hh'⟩

/-! ## What is mapped afterwards -/

/-- `get_data_block(read_inode(m), b)` of an inode that is present. -/
theorem valueOf_lookup (hl : Addressable fs.layout) (hm : fs.Present m) {v : Nat} :
    valueOf (lookup m b) fs = some v ↔
      fs.Maps (fs.inodeAt m) b ∧ fs.blockNumber (fs.inodeAt m) b = v := by
  have hread := run_readInode hl hm fs.currentBlock
  rw [withCurrent_currentBlock] at hread
  unfold lookup
  rw [valueOf_congr (run_bind_ok hread)]
  exact valueOf_getDataBlock_over hl _

theorem valueOf_lookup_withCurrent (hl : Addressable fs.layout) (hm : fs.Present m) (c : Bytes) :
    valueOf (lookup m b) (fs.withCurrent c) = valueOf (lookup m b) fs := by
  have hread := run_readInode hl hm fs.currentBlock
  rw [withCurrent_currentBlock] at hread
  unfold lookup
  rw [valueOf_congr (run_bind_ok hread), valueOf_congr (run_bind_ok (run_readInode hl hm c))]

/-- The block where the path broke off belongs to the inode. -/
theorem WellFormed.owns_gap (h : fs.WellFormed) (ha : fs.Allocatable n b) {last t : Nat}
    (hgap : fs.gapAt n b = some (last, t)) :
    ∃ js ks, (fs.layout.path b).2 = js ++ t :: ks ∧ fs.Owns n ((fs.layout.path b).1, js) last := by
  obtain ⟨hmem, -, js, ks, hsplit, heq⟩ := Walk.gap_eq_some hgap
  have hpath := (h.placed.geometry.isPath_path ha.lt).1
  exact ⟨js, ks, hsplit, ha.isInode, ha.hasBlockMap, hpath.shorter hsplit, heq,
    (Walk.mem_trail hmem).1⟩

namespace Extended

variable {v : Nat} (he : Extended fs n b v fs')

include he

/-- The pointer a path starts from is as it was. -/
theorem blockPtr_same (hm : fs.IsInode m) (hne : (fs.inodeAt m).blockPtr r ≠ 0) :
    (fs'.inodeAt m).blockPtr r = (fs.inodeAt m).blockPtr r := by
  by_cases heq : m = n
  · subst heq
    exact he.root r hne
  · rw [he.other m hm heq]

variable (h : fs.WellFormed) (ha : fs.Allocatable n b)

include h ha

/-- All inodes are still present. -/
theorem isInode (hm : fs.IsInode m) : fs'.IsInode m := by
  refine he.grows.isInode hm (h.bitmap_inUse m hm) ?_
  rintro (heq | ⟨t, hgap⟩)
  · exact h.bitmap_ne_table m n hm ha.isInode heq
  · obtain ⟨js, ks, -, howns⟩ := h.owns_gap ha hgap
    exact h.owned_not_bitmap _ _ _ m howns hm rfl

/-- A block of a file other than the one where the path broke off is as it was. -/
theorem entry_same {π : Nat × List Nat} {k : Nat} (howns : fs.Owns m π k)
    (hgap : ∀ t, fs.gapAt n b ≠ some (k, t)) (i : Nat) : fs'.entry k i = fs.entry k i := by
  have huse := h.owned_inUse _ _ _ howns
  unfold entry
  rw [he.grows.frame k huse.not_reserved huse.not_free]
  rintro (heq | ⟨t, heq⟩)
  · exact h.owned_not_table _ _ _ n howns ha.isInode heq
  · exact hgap t heq

theorem lookup_new : valueOf (lookup n b) fs' = some v := by
  have hn := he.isInode h ha ha.isInode
  refine (valueOf_lookup he.grows.placed.addressable hn.toPresent).mpr ⟨?_, ?_⟩
  · unfold Maps
    rw [walkable_iff, he.grows.layout]
    refine ⟨he.visited_lt, fun i hi => ?_⟩
    exact h.placed.geometry.entry_le (h.placed.geometry.isPath_path ha.lt).1 hi
  · unfold blockNumber
    rw [he.grows.layout]
    exact he.follow

/-- A block that was mapped still is, if the entries on its path are as they were. -/
theorem lookup_kept {b' w : Nat} (howns : fs.Owns m (fs.layout.path b') w)
    (hentry : ∀ js i ks, (fs.layout.path b').2 = js ++ i :: ks →
      fs.entry (fs.pointer (fs.inodeAt m) ((fs.layout.path b').1, js)) i =
        fs'.entry (fs.pointer (fs.inodeAt m) ((fs.layout.path b').1, js)) i) :
    valueOf (lookup m b') fs' = some w := by
  have hm := he.isInode h ha howns.isInode
  have hne := howns.pointer_ne_zero
  obtain ⟨hreach, hfollow⟩ := Walk.resolve_ne_null hne
  have hsame := he.blockPtr_same howns.isInode (Walk.ne_null_of_resolve hne)
  -- The walk reads the same entries as before.
  set root := (fs.inodeAt m).blockPtr (fs.layout.path b').1
  set is := (fs.layout.path b').2
  have hwalk : Walk.follow fs.entry root is = Walk.follow fs'.entry root is ∧
      Walk.visited fs.entry root is = Walk.visited fs'.entry root is := by
    refine Walk.follow_congr_on fun js i ks hsplit => ?_
    have hlong : Walk.resolve fs.entry 0 root (js ++ i :: ks) ≠ 0 := by
      rw [← hsplit]
      exact hne
    rw [← (Walk.resolve_ne_null (Walk.resolve_append_ne_null hlong)).2]
    exact hentry js i ks hsplit
  refine (valueOf_lookup he.grows.placed.addressable hm.toPresent).mpr ⟨?_, ?_⟩
  · unfold Maps
    rw [walkable_iff, he.grows.layout, hsame, ← hwalk.2]
    refine ⟨fun k hk => ?_, fun i hi => ?_⟩
    · obtain ⟨js, i, ks, hsplit, heq, hk0⟩ := Walk.exists_resolve_eq_of_mem_visited hreach hk
      exact (h.owned_inUse m _ k ⟨howns.isInode, howns.hasBlockMap, howns.isPath.shorter hsplit,
        heq, hk0⟩).lt
    · exact h.placed.geometry.entry_le howns.isPath hi
  · unfold blockNumber
    rw [he.grows.layout, hsame, ← howns.pointer_eq]
    exact hwalk.1.symm.trans hfollow.symm

/-- With `kept`, everything that was mapped still is. -/
theorem lookup_same (hright : fs.ExtendsRight n b) {b' w : Nat}
    (howns : fs.Owns m (fs.layout.path b') w) : valueOf (lookup m b') fs' = some w := by
  refine he.lookup_kept h ha howns fun js i ks hsplit => ?_
  have hnode := howns.shorter hsplit
  have hentry := howns.entry_ne_zero hsplit
  have hi : i < fs.layout.entriesPerBlock := howns.isPath.entry_lt i (by rw [hsplit]; simp)
  generalize fs.pointer (fs.inodeAt m) ((fs.layout.path b').1, js) = k at hnode hentry ⊢
  by_cases hgap : ∃ t, fs.gapAt n b = some (k, t)
  · -- The block where the path of `b` broke off: its entries are overwritten with equal numbers.
    obtain ⟨t, hgap⟩ := hgap
    have hit : i ≠ t := by
      rintro rfl
      exact hentry (Walk.gap_eq_some hgap).2.1
    rw [he.overwritten k t hgap i hit, hright.kept k t hgap i hi hit hentry]
  · exact (he.entry_same h ha hnode (fun t ht => hgap ⟨t, ht⟩) i).symm

/-- What a sibling of the new entry leads to afterwards. -/
theorem follow_sibling {last t j : Nat} {js : List Nat} (hgap : fs.gapAt n b = some (last, t))
    (howns : fs.Owns n ((fs.layout.path b).1, js) last) (hj : j ≠ t) :
    Walk.follow fs'.entry ((fs'.inodeAt n).blockPtr (fs.layout.path b).1) (js ++ [j]) =
      (fs.allocTable (fs.preferredGroup n)).u32 (4 * j) := by
  set root := (fs.inodeAt n).blockPtr (fs.layout.path b).1
  have hroot : root ≠ 0 := Walk.ne_null_of_resolve howns.pointer_ne_zero
  have hlast : Walk.follow fs.entry root js = last := by
    rw [← howns.pointer_eq]
    exact (Walk.resolve_ne_null howns.pointer_ne_zero).2.symm
  -- The blocks above are owned on shorter paths, so they are not the overwritten one.
  have habove : Walk.follow fs.entry root js = Walk.follow fs'.entry root js := by
    refine (Walk.follow_congr_on fun js' i ks hsplit => ?_).1
    have hnode := howns.shorter hsplit
    have hpointer : fs.pointer (fs.inodeAt n) ((fs.layout.path b).1, js') =
        Walk.follow fs.entry root js' :=
      (Walk.resolve_ne_null hnode.ne_zero).2
    rw [hpointer] at hnode
    refine (he.entry_same h ha hnode (fun t' hgap' => ?_) i).symm
    have heq : last = _ := congrArg Prod.fst (Option.some.inj (hgap.symm.trans hgap'))
    dsimp only at heq
    rw [← heq] at hnode
    have hsame := (h.owned_once _ _ _ _ _ howns hnode).2
    have hlen := congrArg (fun π => π.2.length) hsame
    rw [hsplit] at hlen
    simp at hlen
  rw [he.root _ hroot, Walk.follow_append, ← habove, hlast]
  exact he.overwritten last t hgap j hj

end Extended

namespace WellFormed

variable (h : fs.WellFormed) (ha : fs.Allocatable n b)

include h ha

/-- With larger inodes, a missing root cannot be stored. -/
theorem run_allocDataBlock_error (hu : fs.Usable (fs.preferredGroup n))
    (hnull : (fs.inodeAt n).blockPtr (fs.layout.path b).1 = 0) (hsize : fs.layout.inodeSize ≠ 128) :
    ∃ e t, (allocDataBlock n b).run fs = .error e t := by
  have henough := ha.enough
  unfold missing at henough
  rw [hnull, Walk.trail_null, List.length_nil] at henough
  obtain ⟨v, fs₁, hrun, ht⟩ := run_allocBlock
    (h.placed.withCurrent (fs.block (fs.inodeTableBlock n))) (h.balanced.withCurrent _) hu
    (show 0 < fs.superblock.unallocatedBlocks by omega)
  have hgrows : Grows fs (fun _ => False) fs₁ := ht.grows.of_withCurrent
  have hn₁ := hgrows.isInode ha.isInode (h.bitmap_inUse n ha.isInode) not_false
  have hge := h.inode_size_ge
  have hgt : 128 < fs₁.layout.inodeSize := by
    rw [hgrows.layout]
    omega
  have hwrite := fun r => run_writeInode_of_gt hgrows.placed.addressable hn₁.toPresent hgt
    ((fs.inodeAt n).setBlockPtr r v) fs₁.currentBlock
  by_cases hdirect : b < 12
  · rw [run_allocDataBlock_start h.placed.addressable ha.isInode.toPresent, if_pos hdirect,
      run_bind_ok hrun]
    exact ⟨_, _, hwrite b⟩
  · obtain ⟨r, depth, blkId, -, hpath, hstart⟩ := run_allocDataBlock_tree h.placed.addressable
      ha.isInode.toPresent (Nat.not_lt.mp hdirect)
    rw [hpath] at hnull
    rw [hstart]
    unfold allocTree
    rw [if_pos hnull]
    exact ⟨_, _, run_bind_error ((run_bind_ok hrun).trans (run_bind_error (hwrite r)))⟩

/-- `alloc_data_block` cannot go well otherwise, where only the entry of the last level is missing
or the root is. -/
theorem extendsRight_of_extends (hu : fs.Usable (fs.preferredGroup n))
    (hleaf : (fs.inodeAt n).blockPtr (fs.layout.path b).1 = 0 ∨
      0 ∉ fs.visitedBlocks (fs.inodeAt n) b) (hext : fs.Extends n b) : fs.ExtendsRight n b := by
  obtain ⟨fs', hrun, -, hkept⟩ := hext
  have hsize : (fs.inodeAt n).blockPtr (fs.layout.path b).1 = 0 → fs.layout.inodeSize = 128 := by
    intro hnull
    by_contra hne
    obtain ⟨e, t, herror⟩ := h.run_allocDataBlock_error ha hu hnull hne
    cases hrun.symm.trans herror
  refine ⟨hu, hsize, fun last t hgap j hj hjt hentry => ?_⟩
  obtain ⟨v, fs'', hrun', he⟩ := h.run_allocDataBlock ha hu hsize
  obtain rfl : fs' = fs'' := by
    have := hrun.symm.trans hrun'
    injection this
  obtain ⟨js, ks, hsplit, howns⟩ := h.owns_gap ha hgap
  have hgeo := h.placed.geometry
  have hnode := Walk.resolve_ne_null howns.pointer_ne_zero
  -- The missing entry is the last one on the path.
  obtain rfl : ks = [] := by
    rcases hleaf with hnull | hvisited
    · exact absurd hnull (Walk.ne_null_of_resolve howns.pointer_ne_zero)
    · cases ks with
      | nil => rfl
      | cons i ks =>
        refine absurd (Walk.mem_visited.mpr ⟨js ++ [t], i, ks, ?_, ?_⟩) hvisited
        · rw [hsplit, List.append_assoc]
          rfl
        · rw [Walk.follow_append, ← hnode.2]
          show fs.entry (fs.pointer (fs.inodeAt n) ((fs.layout.path b).1, js)) t = 0
          rw [howns.pointer_eq]
          exact (Walk.gap_eq_some hgap).2.1
  -- The index of the sibling that entry `j` belongs to.
  obtain ⟨b', hb', hpath'⟩ := hgeo.exists_sibling ha.lt (Prod.ext rfl hsplit) hj
  have hsibling := (hgeo.isPath_path hb').1
  have hpointer :
      fs.pointer (fs.inodeAt n) ((fs.layout.path b).1, js ++ [j]) = fs.entry last j := by
    rw [← howns.pointer_eq]
    exact Walk.resolve_concat howns.pointer_ne_zero
  have hlookup := hkept n b' (fs.entry last j) hb'
    ⟨ha.isInode, ha.hasBlockMap, hpath' ▸ hsibling, hpath' ▸ hpointer, hentry⟩
  have hn := he.isInode h ha ha.isInode
  have hnumber := ((valueOf_lookup he.grows.placed.addressable hn.toPresent).mp hlookup).2
  unfold blockNumber follow at hnumber
  rw [he.grows.layout, hpath', he.follow_sibling h ha hgap howns hjt] at hnumber
  exact hnumber

end WellFormed

/-- `alloc_data_block` extends the block map and nothing else if the overwritten entries are kept,
and, where only the last entry or the root is missing, only then. -/
theorem alloc_data_block_extends (h : fs.WellFormed) (ha : fs.Allocatable n b) :
    (fs.ExtendsRight n b → fs.Extends n b) ∧ (fs.Usable (fs.preferredGroup n) →
      (fs.inodeAt n).blockPtr (fs.layout.path b).1 = 0 ∨ 0 ∉ fs.visitedBlocks (fs.inodeAt n) b →
      fs.Extends n b → fs.ExtendsRight n b) := by
  refine ⟨fun hright => ?_, fun hu hleaf => h.extendsRight_of_extends ha hu hleaf⟩
  obtain ⟨v, fs', hrun, he⟩ := h.run_allocDataBlock ha hright.usable hright.inode_size
  refine ⟨fs', hrun, ⟨v, he.lookup_new h ha, he.free.ne_zero, he.free⟩, ?_⟩
  exact fun m b' w _ howns => he.lookup_same h ha hright howns

/-! ## The file with an indirect block -/

theorem isInode_indirectVolume {m : Nat} : indirectVolume.IsInode m ↔ m = 1 := by
  constructor
  · intro hm
    have hpos := hm.pos
    have hlt := hm.lt
    have hgroup := hm.group_lt
    have hgroup : wsub m 1 / 8 < 1 := hgroup
    rw [wsub_of_le hpos hlt] at hgroup
    have hle : m ≤ 8 := by omega
    have hbit := hm.bit
    rw [inodeBitmapBlock_sampleVolume hpos hle, inodeIndex_sampleVolume hpos hle,
      block_sampleVolume, Bytes.bit_congr (Bytes.trunc_apply (by omega))] at hbit
    have honly : ∀ i < 8, (sampleBlock indirectFile 4).bit i = true → i = 0 := by decide
    have := honly (m - 1) (by omega) hbit
    omega
  · rintro rfl
    refine ⟨present_sampleVolume (by decide) (by decide) (by decide), by decide, by decide, ?_⟩
    decide

/-- What inode 1 owns. -/
theorem owns_indirectVolume {m k : Nat} {π : Nat × List Nat} (h : indirectVolume.Owns m π k) :
    m = 1 ∧ 6 ≤ k ∧ k ≤ 19 := by
  obtain rfl := isInode_indirectVolume.mp h.isInode
  have hk : indirectVolume.pointer indirectInode π = k := h.pointer_eq
  refine ⟨rfl, ?_⟩
  rcases pointer_indirectVolume h.isPath h.pointer_ne_zero with
    ⟨i, hi, -, hp⟩ | ⟨-, hp⟩ | ⟨-, hp⟩ <;>
    omega

theorem inUse_sampleVolume (rest : Nat → Bytes) {k : Nat} (h : 4 ≤ k) (h' : k < 24) :
    (sampleVolume rest).InUse k := by
  constructor
  all_goals
    simp only [sizes_sampleVolume, isReserved_sampleVolume, isFree_sampleVolume]
    omega

theorem wellFormed_indirectVolume : indirectVolume.WellFormed := by
  have hbitmap : indirectVolume.inodeBitmapBlock 1 = 4 :=
    inodeBitmapBlock_sampleVolume (by decide) (by decide)
  have htable : indirectVolume.inodeTableBlock 1 = 5 :=
    inodeTableBlock_sampleVolume (by decide) (by decide)
  have howned : ∀ {m π k}, indirectVolume.Owns m π k → m = 1 ∧ 6 ≤ k ∧ k ≤ 19 := owns_indirectVolume
  constructor
  case placed => exact placed_sampleVolume _
  case balanced => exact balanced_sampleVolume _
  case inode_size_ge => decide
  case owned_inUse =>
    intro m π k h
    exact inUse_sampleVolume _ (by grind) (by grind)
  case owned_once =>
    intro m π m' π' k h h'
    obtain ⟨rfl, -⟩ := owns_indirectVolume h
    obtain ⟨rfl, -⟩ := owns_indirectVolume h'
    exact ⟨rfl, soundFile_indirectVolume.toOwnsOnce.injective π π' h.isPath h'.isPath
      h.pointer_ne_zero (h.pointer_eq.trans h'.pointer_eq.symm)⟩
  -- the rest is about the blocks that belong to inode 1
  all_goals
    simp only [isInode_indirectVolume]
    grind [inUse_sampleVolume]

theorem usable_indirectVolume : indirectVolume.Usable (indirectVolume.preferredGroup 1) := by
  refine .inl ?_
  decide

/-- Block index 268 is the first one behind the double indirect block, which the file does not
have yet. -/
theorem allocatable_indirectVolume_double : indirectVolume.Allocatable 1 268 := by
  refine ⟨isInode_indirectVolume.mpr rfl, .inl indirectInode_fields.1, ?_, ?_, ?_⟩ <;>
    decide

/-- It is allocated correctly. -/
theorem alloc_data_block_extends_double : indirectVolume.Extends 1 268 := by
  have hnogap : indirectVolume.gapAt 1 268 = none := by decide
  refine (alloc_data_block_extends wellFormed_indirectVolume
    allocatable_indirectVolume_double).1 ⟨usable_indirectVolume, fun _ => by decide, ?_⟩
  intro last t hgap
  cases hnogap.symm.trans hgap

/-- Block index 13 comes after the last one of the file. -/
theorem allocatable_indirectVolume_next : indirectVolume.Allocatable 1 13 ∧
    indirectVolume.gapAt 1 13 = some (6, 1) ∧
    indirectVolume.visitedBlocks (indirectVolume.inodeAt 1) 13 = [6] := by
  refine ⟨⟨isInode_indirectVolume.mpr rfl, .inl indirectInode_fields.1, ?_, ?_, ?_⟩, ?_, ?_⟩ <;>
    decide

/-- The first word of the descriptor table is the number of the block bitmap. -/
theorem allocTable_indirectVolume : (indirectVolume.allocTable 0).u32 0 = 3 := by decide

/-- It is not: block 6, where the path breaks off, loses its entry 0. -/
theorem alloc_data_block_loses_sibling :
    indirectVolume.WellFormed ∧ indirectVolume.Allocatable 1 13 ∧
      ¬ indirectVolume.Extends 1 13 := by
  obtain ⟨ha, hgap, hvisited⟩ := allocatable_indirectVolume_next
  refine ⟨wellFormed_indirectVolume, ha, fun hext => ?_⟩
  have hright := wellFormed_indirectVolume.extendsRight_of_extends ha usable_indirectVolume
    (.inr (by rw [hvisited]; decide)) hext
  have hentry : indirectVolume.entry 6 0 = 7 := entry_indirectVolume 0 (by decide)
  have hkept := hright.kept 6 1 hgap 0 (by rw [layout_sampleVolume]; decide) (by decide)
    (by rw [hentry]; decide)
  exact absurd (hkept.symm.trans allocTable_indirectVolume) (by decide)

end FileSystem

end LudOS.Ext2
