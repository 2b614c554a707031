import LudOS.Lib.Walk
import LudOS.Ext2.Geometry

/-!
# Inodes and their block maps

`block_ptr` of an inode holds the first twelve data blocks of a file and the roots of three trees of
indirect blocks, of depth 1, 2 and 3. `get_data_block`, `read_data_block` and `write_data_block`
walk these trees in the same way: every indirect block is loaded into the scratch buffer, and the
number it holds leads on. `visitDataBlock` is that walk, `Layout.path` the entries it goes through.
-/

namespace LudOS.Ext2

open Lib

variable {α : Type}

/-! ## The walk -/

/-- `block[index]`, where `block` is the scratch buffer as an array of 32-bit numbers. -/
def wordAt (index : Nat) : Action Nat := do
  let fs ← get
  check .outOfBounds (4 * index + 4 ≤ fs.layout.blockSize)
  pure (fs.currentBlock.u32 (4 * index))

/-- `ipow(block_size() / sizeof(uint32_t), k)`: the number of data blocks below an entry that has
`k` levels of indirect blocks below it. -/
def Layout.span (l : Layout) (k : Nat) : Nat := Utils.ipow l.entriesPerBlock k

/-- The walk down a tree of indirect blocks of the given depth. `enter` is what a function does
before it loads an indirect block, `act` what it does with the block found. -/
def visitIndirected (enter : Action Unit) (act : Nat → Action α) :
    (depth indirectedBlock blkId : Nat) → Action α
  | 0, indirectedBlock, blkId | 1, indirectedBlock, blkId => do
    enter
    loadBlock indirectedBlock
    let block ← wordAt blkId
    act block
  | depth + 2, indirectedBlock, blkId => do
    let fs ← get
    enter
    loadBlock indirectedBlock
    let block ← wordAt (blkId / fs.layout.span (depth + 1))
    visitIndirected enter act (depth + 1) block (blkId % fs.layout.span (depth + 1))

/-- The walk from an inode to its block `blkId`. -/
def visitDataBlock (enter : Action Unit) (act : Nat → Action α) (inode : Inode) (blkId : Nat) :
    Action α := do
  let fs ← get
  let entries := fs.layout.entriesPerBlock
  enter
  if blkId < 12 then act (inode.blockPtr blkId)
  else if blkId - 12 < entries then visitIndirected enter act 1 (inode.blockPtr 12) (blkId - 12)
  else if blkId - 12 - entries < wmul entries entries then
    visitIndirected enter act 2 (inode.blockPtr 13) (blkId - 12 - entries)
  else visitIndirected enter act 3 (inode.blockPtr 14) (blkId - 12 - entries - wmul entries entries)

/-- `Ext2FS::get_data_block`. -/
def getDataBlock (inode : Inode) (blkId : Nat) : Action Nat :=
  visitDataBlock (pure ()) pure inode blkId

/-- `Ext2FS::read_data_block` into a span of `size` bytes. -/
def readDataBlock (inode : Inode) (blkId size : Nat) : Action Bytes :=
  visitDataBlock (pure ()) (fun block => readBlock block size) inode blkId

/-- `Ext2FS::write_data_block`. The span shows `data` of the state in which it is read; a span over
the scratch buffer shows what the walk has left there. -/
def writeDataBlock (data : FileSystem → Bytes) (size : Nat) (inode : Inode) (blkId : Nat) :
    Action Unit :=
  visitDataBlock (do
      let fs ← get
      check .assertion (size ≤ fs.layout.blockSize))
    (fun block => do
      let fs ← get
      writeBlock block size (data fs)) inode blkId

/-- `Ext2FS::data_blocks`. -/
def dataBlocks (l : Layout) (inode : Inode) : Nat := chunkCount inode.sizeLower l.blockSize

/-! ## Paths -/

/-- The entries a walk down a tree of the given depth goes through. -/
def Layout.indices (l : Layout) : (depth blkId : Nat) → List Nat
  | 0, blkId | 1, blkId => [blkId]
  | depth + 2, blkId =>
    blkId / l.span (depth + 1) :: l.indices (depth + 1) (blkId % l.span (depth + 1))

/-- The entry of `block_ptr` a block index starts from, and the entries from there on. -/
def Layout.path (l : Layout) (blkId : Nat) : Nat × List Nat :=
  if blkId < 12 then (blkId, [])
  else if blkId - 12 < l.entriesPerBlock then (12, l.indices 1 (blkId - 12))
  else if blkId - 12 - l.entriesPerBlock < wmul l.entriesPerBlock l.entriesPerBlock then
    (13, l.indices 2 (blkId - 12 - l.entriesPerBlock))
  else
    (14, l.indices 3 (blkId - 12 - l.entriesPerBlock - wmul l.entriesPerBlock l.entriesPerBlock))

/-- The functions that treat the direct blocks apart go on like `path`: with one of the three trees,
its depth, and the index within it. -/
theorem Layout.exists_tree (l : Layout) {blkId : Nat} (h : ¬ blkId < 12)
    (f : (root depth blkId : Nat) → α) :
    ∃ root depth rest, root < 15 ∧ l.path blkId = (root, l.indices (depth + 1) rest) ∧
      (if blkId - 12 < l.entriesPerBlock then f 12 1 (blkId - 12)
      else if blkId - 12 - l.entriesPerBlock < wmul l.entriesPerBlock l.entriesPerBlock then
        f 13 2 (blkId - 12 - l.entriesPerBlock) else
        f 14 3 (blkId - 12 - l.entriesPerBlock - wmul l.entriesPerBlock l.entriesPerBlock)) =
        f root (depth + 1) rest := by
  unfold path
  rw [if_neg h]
  by_cases hsingle : blkId - 12 < l.entriesPerBlock
  · rw [if_pos hsingle, if_pos hsingle]
    exact ⟨12, 0, _, by decide, rfl, rfl⟩
  rw [if_neg hsingle, if_neg hsingle]
  by_cases hdouble : blkId - 12 - l.entriesPerBlock < wmul l.entriesPerBlock l.entriesPerBlock
  · rw [if_pos hdouble, if_pos hdouble]
    exact ⟨13, 1, _, by decide, rfl, rfl⟩
  · rw [if_neg hdouble, if_neg hdouble]
    exact ⟨14, 2, _, by decide, rfl, rfl⟩

namespace FileSystem

variable {n : Nat}

/-- Entry `index` of the indirect block `p`. -/
def entry (fs : FileSystem) (p index : Nat) : Nat := (fs.block p).u32 (4 * index)

/-- The block a path leads to. -/
def follow (fs : FileSystem) (p : Nat) (is : List Nat) : Nat := Walk.follow fs.entry p is

/-- The last indirect block on a path. -/
def leaf (fs : FileSystem) (p : Nat) (is : List Nat) : Nat := Walk.leaf fs.entry p is

/-- All indirect blocks on a path are blocks of the volume, and all entries are within them. -/
def Walkable (fs : FileSystem) : Nat → List Nat → Prop
  | _, [] => True
  | p, i :: is =>
    p < fs.layout.blockCount ∧ 4 * i + 4 ≤ fs.layout.blockSize ∧ fs.Walkable (fs.entry p i) is

/-- The walk from an inode to its block `blkId` stays on the volume. -/
def Maps (fs : FileSystem) (inode : Inode) (blkId : Nat) : Prop :=
  fs.Walkable (inode.blockPtr (fs.layout.path blkId).1) (fs.layout.path blkId).2

/-- The number of block `blkId` of an inode. -/
def blockNumber (fs : FileSystem) (inode : Inode) (blkId : Nat) : Nat :=
  fs.follow (inode.blockPtr (fs.layout.path blkId).1) (fs.layout.path blkId).2

/-- The last indirect block on the way to block `blkId` of an inode. -/
def leafBlock (fs : FileSystem) (inode : Inode) (blkId : Nat) : Nat :=
  fs.leaf (inode.blockPtr (fs.layout.path blkId).1) (fs.layout.path blkId).2

/-- What the scratch buffer holds after the walk to block `blkId`: the last indirect block, or what
it held before if there is none. -/
def scratch (fs : FileSystem) (inode : Inode) (blkId : Nat) (c : Bytes) : Bytes :=
  if blkId < 12 then c else fs.block (fs.leafBlock inode blkId)

variable {fs : FileSystem}

theorem run_wordAt {p index : Nat} (h : 4 * index + 4 ≤ fs.layout.blockSize) :
    (wordAt index).run (fs.withCurrent (fs.block p)) =
      .ok (fs.entry p index) (fs.withCurrent (fs.block p)) := by
  exact run_check_bind h

theorem run_wordAt_of_gt {p index : Nat} (h : ¬ 4 * index + 4 ≤ fs.layout.blockSize) :
    (wordAt index).run (fs.withCurrent (fs.block p)) =
      .error .outOfBounds (fs.withCurrent (fs.block p)) := by
  unfold wordAt
  rw [run_get_bind]
  exact run_bind_error (run_check_neg h _)

section Walk

variable {enter : Action Unit} {act : Nat → Action α}
  (henter : ∀ c, enter.run (fs.withCurrent c) = .ok () (fs.withCurrent c))

include henter

section

variable (hl : Addressable fs.layout) {p blkId : Nat}

include hl

/-- One level of a walk: the indirect block is loaded and its entry is read. -/
theorem run_enter_level {index : Nat}
    (hp : p < fs.layout.blockCount) (hi : 4 * index + 4 ≤ fs.layout.blockSize)
    (rest : Nat → Action α) (c : Bytes) :
    (do
      enter
      loadBlock p
      let block ← wordAt index
      rest block : Action α).run (fs.withCurrent c) =
      (rest (fs.entry p index)).run (fs.withCurrent (fs.block p)) := by
  rw [run_bind_ok (henter c), run_bind_ok (run_loadBlock_over hl hp c), run_bind_ok (run_wordAt hi)]

/-- A level that cannot be entered stops the walk. -/
theorem run_enter_level_error {index : Nat}
    (h : ¬ (p < fs.layout.blockCount ∧ 4 * index + 4 ≤ fs.layout.blockSize))
    (rest : Nat → Action α) (c : Bytes) :
    ∃ e t, (do
      enter
      loadBlock p
      let block ← wordAt index
      rest block : Action α).run (fs.withCurrent c) = .error e t := by
  rw [run_bind_ok (henter c)]
  by_cases hp : p < fs.layout.blockCount
  · rw [run_bind_ok (run_loadBlock_over hl hp c)]
    exact ⟨_, _, run_bind_error (run_wordAt_of_gt fun hi => h ⟨hp, hi⟩)⟩
  · exact ⟨_, _, run_bind_error (run_loadBlock_of_ge (Nat.not_lt.mp hp))⟩

/-- A walk down a tree whose path can be walked hands the block found to `act`, with the last
indirect block in the scratch buffer. -/
theorem run_visitIndirected {depth : Nat}
    (h : fs.Walkable p (fs.layout.indices depth blkId)) (c : Bytes) :
    (visitIndirected enter act depth p blkId).run (fs.withCurrent c) =
      (act (fs.follow p (fs.layout.indices depth blkId))).run
        (fs.withCurrent (fs.block (fs.leaf p (fs.layout.indices depth blkId)))) := by
  induction depth generalizing p blkId c with
  | zero => exact run_enter_level henter hl h.1 h.2.1 act c
  | succ depth ih =>
    cases depth with
    | zero => exact run_enter_level henter hl h.1 h.2.1 act c
    | succ depth =>
      refine (run_enter_level henter hl h.1 h.2.1 _ c).trans ?_
      rw [layout_withCurrent, ih h.2.2]
      have hcons : ∃ i is, fs.layout.indices (depth + 1) (blkId % fs.layout.span (depth + 1)) =
          i :: is := by
        cases depth <;> exact ⟨_, _, rfl⟩
      obtain ⟨i, is, hindices⟩ := hcons
      show _ = (act (fs.follow (fs.entry p _) (fs.layout.indices (depth + 1) _))).run
        (fs.withCurrent (fs.block (fs.leaf p (_ :: fs.layout.indices (depth + 1) _))))
      rw [hindices]
      rfl

/-- A walk along a path that cannot be walked fails. -/
theorem run_visitIndirected_error {depth : Nat}
    (h : ¬ fs.Walkable p (fs.layout.indices depth blkId)) (c : Bytes) :
    ∃ e t, (visitIndirected enter act depth p blkId).run (fs.withCurrent c) = .error e t := by
  induction depth generalizing p blkId c with
  | zero =>
    exact run_enter_level_error henter hl (fun hlevel => h ⟨hlevel.1, hlevel.2, trivial⟩) act c
  | succ depth ih =>
    cases depth with
    | zero =>
      exact run_enter_level_error henter hl (fun hlevel => h ⟨hlevel.1, hlevel.2, trivial⟩) act c
    | succ depth =>
      unfold visitIndirected
      rw [run_get_bind]
      by_cases hlevel : p < fs.layout.blockCount ∧
          4 * (blkId / fs.layout.span (depth + 1)) + 4 ≤ fs.layout.blockSize
      · rw [layout_withCurrent, run_enter_level henter hl hlevel.1 hlevel.2]
        exact ih (fun hrest => h ⟨hlevel.1, hlevel.2, hrest⟩) _
      · exact run_enter_level_error henter hl hlevel _ c

/-- The walk from an inode: the four ranges of block indices. -/
theorem run_visitDataBlock {inode : Inode} (h : fs.Maps inode blkId) (c : Bytes) :
    (visitDataBlock enter act inode blkId).run (fs.withCurrent c) =
      (act (fs.blockNumber inode blkId)).run (fs.withCurrent (fs.scratch inode blkId c)) := by
  unfold visitDataBlock
  rw [run_get_bind, run_bind_ok (henter c), layout_withCurrent]
  unfold Maps at h
  unfold blockNumber scratch leafBlock
  unfold Layout.path at h ⊢
  split_ifs at h ⊢ with hdirect hsingle hdouble
  · rfl
  · exact run_visitIndirected henter hl h c
  · exact run_visitIndirected henter hl h c
  · exact run_visitIndirected henter hl h c

/-- A walk that leaves the volume fails. -/
theorem run_visitDataBlock_error {inode : Inode} (h : ¬ fs.Maps inode blkId) (c : Bytes) :
    ∃ e t, (visitDataBlock enter act inode blkId).run (fs.withCurrent c) = .error e t := by
  unfold visitDataBlock
  rw [run_get_bind, run_bind_ok (henter c), layout_withCurrent]
  unfold Maps Layout.path at h
  split_ifs at h ⊢ with hdirect hsingle hdouble
  · exact absurd trivial h
  · exact run_visitIndirected_error henter hl h c
  · exact run_visitIndirected_error henter hl h c
  · exact run_visitIndirected_error henter hl h c

end

end Walk

/-! ## What the functions return -/

section

variable (hl : Addressable fs.layout) {inode : Inode} {blkId : Nat}

include hl

theorem run_getDataBlock
    (h : fs.Maps inode blkId) (c : Bytes) : (getDataBlock inode blkId).run (fs.withCurrent c) =
      .ok (fs.blockNumber inode blkId) (fs.withCurrent (fs.scratch inode blkId c)) :=
  run_visitDataBlock (fun _ => rfl) hl h c

/-- What `get_data_block` returns does not depend on the scratch buffer. -/
theorem valueOf_getDataBlock_over {block : Nat}
    (c : Bytes) : valueOf (getDataBlock inode blkId) (fs.withCurrent c) = some block ↔
      fs.Maps inode blkId ∧ fs.blockNumber inode blkId = block := by
  by_cases h : fs.Maps inode blkId
  · rw [valueOf_of_run (run_getDataBlock hl h c)]
    simp [h]
  · have herror : ∃ e t, (getDataBlock inode blkId).run (fs.withCurrent c) = .error e t :=
      run_visitDataBlock_error (fun _ => rfl) hl h c
    obtain ⟨e, t, hrun⟩ := herror
    simp [valueOf_of_error hrun, h]

/-- `get_data_block` returns a number exactly when its walk stays on the volume. -/
theorem valueOf_getDataBlock {block : Nat} : valueOf (getDataBlock inode blkId) fs = some block ↔
      fs.Maps inode blkId ∧ fs.blockNumber inode blkId = block :=
  valueOf_getDataBlock_over hl fs.currentBlock

/-- `read_data_block` into a span of the block size gives the content of the block. -/
theorem run_readDataBlock
    (h : fs.Maps inode blkId) (hlt : fs.blockNumber inode blkId < fs.layout.blockCount)
    (c : Bytes) :
    (readDataBlock inode blkId fs.layout.blockSize).run (fs.withCurrent c) =
      .ok (fs.block (fs.blockNumber inode blkId))
        (fs.withCurrent (fs.scratch inode blkId c)) := by
  refine (run_visitDataBlock (fun _ => rfl) hl h c).trans ?_
  exact run_readBlock (show Addressable (fs.withCurrent _).layout from hl) hlt

/-- A span of another size fails the assertion of `read_block`. -/
theorem run_readDataBlock_of_size_ne {size : Nat} (hsize : size ≠ fs.layout.blockSize) (c : Bytes) :
    ∃ e t, (readDataBlock inode blkId size).run (fs.withCurrent c) = .error e t := by
  by_cases h : fs.Maps inode blkId
  · have hwalk : (readDataBlock inode blkId size).run (fs.withCurrent c) = _ :=
      run_visitDataBlock (fun _ => rfl) hl h c
    exact ⟨_, _, hwalk.trans (run_readBlock_of_size_ne hsize)⟩
  · exact run_visitDataBlock_error (fun _ => rfl) hl h c

end

/-! ## Inodes -/

/-- The block of the inode table that holds inode `n`. -/
def inodeTableBlock (fs : FileSystem) (n : Nat) : Nat :=
  wadd (fs.descriptor (fs.layout.inodeGroup n)).inodeTable (fs.layout.inodeBlock n)

/-- The block with the inode bitmap of the group of inode `n`. -/
def inodeBitmapBlock (fs : FileSystem) (n : Nat) : Nat :=
  (fs.descriptor (fs.layout.inodeGroup n)).inodeBitmap

/-- The structure `read_inode` finds for inode `n`. -/
def inodeAt (fs : FileSystem) (n : Nat) : Inode :=
  ⟨((fs.block (fs.inodeTableBlock n)).view (fs.layout.inodeSlot n * 128)).trunc 128⟩

/-- Inode `n` is present: its descriptor, its bit in the inode bitmap and its slot in the inode
table are on the volume, and the bit is set. -/
structure Present (fs : FileSystem) (n : Nat) : Prop where
  table_lt : fs.layout.tableBlock (fs.layout.inodeGroup n) < fs.layout.blockCount
  bitmap_lt : fs.inodeBitmapBlock n < fs.layout.blockCount
  index_lt : fs.layout.inodeIndex n / 8 < fs.layout.blockSize
  bit : (fs.block (fs.inodeBitmapBlock n)).bit (fs.layout.inodeIndex n) = true
  block_lt : fs.inodeTableBlock n < fs.layout.blockCount
  slot_le : fs.layout.inodeSlot n * 128 + 128 ≤ fs.layout.blockSize

section

variable (hl : Addressable fs.layout) (h : fs.Present n) (c : Bytes)

include hl h c

theorem run_checkInodePresence : (checkInodePresence n).run (fs.withCurrent c) =
      .ok true (fs.withCurrent (fs.block (fs.inodeBitmapBlock n))) := by
  unfold checkInodePresence
  rw [run_get_bind]
  refine (run_bind_ok (run_getBlockGroup_over hl h.table_lt c)).trans ?_
  refine (run_bind_ok (run_loadBlock_over hl h.bitmap_lt _)).trans ?_
  rw [run_get_bind]
  refine (run_check_bind h.index_lt).trans ?_
  show EStateM.Result.ok ((fs.block (fs.inodeBitmapBlock n)).bit (fs.layout.inodeIndex n)) _ = _
  rw [h.bit]

/-- `read_inode` of an inode that is present returns its structure and loads its block. -/
theorem run_readInode : (readInode n).run (fs.withCurrent c) =
      .ok (fs.inodeAt n) (fs.withCurrent (fs.block (fs.inodeTableBlock n))) := by
  unfold readInode
  rw [run_get_bind, run_bind_ok (run_checkInodePresence hl h c)]
  refine (run_bind_ok (EStateM.run_pure _ _)).trans ?_
  refine (run_bind_ok (run_getBlockGroup_over hl h.table_lt _)).trans ?_
  refine (run_bind_ok (run_loadBlock_over hl h.block_lt _)).trans ?_
  rw [run_get_bind]
  exact run_check_bind h.slot_le

end

/-- What `write_inode` stores to the block of the inode table. -/
def newInodeTable (fs : FileSystem) (n : Nat) (inode : Inode) : Bytes :=
  (fs.block (fs.inodeTableBlock n)).splice (fs.layout.inodeSlot n * 128) 128 inode.raw

/-- The slot of the inode holds the structure that is stored. -/
theorem newInodeTable_same (h : fs.Present n) (inode : Inode) :
    (((fs.newInodeTable n inode).trunc fs.layout.blockSize).view
      (fs.layout.inodeSlot n * 128)).trunc 128 = inode.raw.trunc 128 := by
  have hslot := h.slot_le
  unfold newInodeTable
  refine Bytes.trunc_eq_trunc.mpr fun i hi => ?_
  rw [Bytes.view_apply, Bytes.trunc_apply (by omega), Bytes.splice_inside (by omega) (by omega),
    Nat.add_sub_cancel_left]

/-- The other slots of the block hold what they held. -/
theorem newInodeTable_other {m : Nat} (h : fs.Present m)
    (hne : fs.layout.inodeSlot m ≠ fs.layout.inodeSlot n) (inode : Inode) :
    (((fs.newInodeTable n inode).trunc fs.layout.blockSize).view
      (fs.layout.inodeSlot m * 128)).trunc 128 =
      ((fs.block (fs.inodeTableBlock n)).view (fs.layout.inodeSlot m * 128)).trunc 128 := by
  have hslot := h.slot_le
  unfold newInodeTable
  refine Bytes.trunc_eq_trunc.mpr fun i hi => ?_
  rw [Bytes.view_apply, Bytes.view_apply, Bytes.trunc_apply (by omega),
    Bytes.splice_outside (by omega)]

/-- With inodes of 128 bytes, `write_inode` replaces the slot of the inode. -/
theorem run_writeInode (hl : Addressable fs.layout) (h : fs.Present n)
    (hsize : fs.layout.inodeSize = 128) (inode : Inode) (c : Bytes) :
    (writeInode n inode).run (fs.withCurrent c) =
      .ok () ((fs.withCurrent (fs.newInodeTable n inode)).putBlock (fs.inodeTableBlock n)
        (fs.newInodeTable n inode)) := by
  have hle : fs.layout.inodeSize ≤ Inode.size := hsize.le
  have hfit : fs.layout.inodeSlot n * fs.layout.inodeSize + fs.layout.inodeSize ≤
      fs.layout.blockSize := by
    rw [hsize]
    exact h.slot_le
  have htable : (fs.block (fs.inodeTableBlock n)).splice
      (fs.layout.inodeSlot n * fs.layout.inodeSize) fs.layout.inodeSize inode.raw =
      fs.newInodeTable n inode := by
    rw [hsize]
    rfl
  have hstore := run_storeBlock_over hl h.block_lt (fs.newInodeTable n inode)
  rw [← htable] at hstore ⊢
  unfold writeInode
  rw [run_get_bind, run_bind_ok (run_checkInodePresence hl h c), if_neg (by decide)]
  refine (run_bind_ok (run_getBlockGroup_over hl h.table_lt _)).trans ?_
  refine (run_bind_ok (run_loadBlock_over hl h.block_lt _)).trans ?_
  rw [run_get_bind]
  refine (run_check_bind hle).trans ?_
  refine (run_check_bind hfit).trans ?_
  rw [run_set_bind]
  exact hstore

/-- With larger inodes, `write_inode` reads past the end of the structure it is given. -/
theorem run_writeInode_of_gt (hl : Addressable fs.layout) (h : fs.Present n)
    (hsize : 128 < fs.layout.inodeSize) (inode : Inode) (c : Bytes) :
    (writeInode n inode).run (fs.withCurrent c) =
      .error .outOfBounds (fs.withCurrent (fs.block (fs.inodeTableBlock n))) := by
  have hgt : ¬ fs.layout.inodeSize ≤ Inode.size := Nat.not_le.mpr hsize
  unfold writeInode
  rw [run_get_bind, run_bind_ok (run_checkInodePresence hl h c), if_neg (by decide)]
  refine (run_bind_ok (run_getBlockGroup_over hl h.table_lt _)).trans ?_
  refine (run_bind_ok (run_loadBlock_over hl h.block_lt _)).trans ?_
  rw [run_get_bind]
  exact run_bind_error (run_check_neg hgt _)

end FileSystem

end LudOS.Ext2
