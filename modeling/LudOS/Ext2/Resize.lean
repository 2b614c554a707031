import LudOS.Ext2.FreeData
import LudOS.Ext2.InodeTable

/-!
# Resizing a file

`resize_inode` allocates or frees the blocks between the old and the new size one by one, and then
stores the new size in the inode. What it stores in the end concerns one block, on volumes of any
block size; frees are right with blocks of 1 KiB only.
-/

namespace LudOS.Ext2

open Lib

/-! ## The functions -/

/-- `size_lower = value`. -/
def Inode.setSizeLower (inode : Inode) (value : Nat) : Inode := ⟨inode.raw.putU32 4 value⟩

/-- `blocks_512 = value`. -/
def Inode.setBlocks512 (inode : Inode) (value : Nat) : Inode := ⟨inode.raw.putU32 28 value⟩

/-- `Ext2FS::count_used_blocks`. The subtractions wrap around for files of fewer than 12 blocks. -/
def countUsedBlocks (l : Layout) (inode : Inode) : Nat :=
  let blocks := dataBlocks l inode
  let blk := if 12 ≤ blocks then wadd blocks 1 else blocks
  if l.entriesPerBlock ≤ wsub blocks 12 then
    wadd blk (chunkCount (wsub blocks 12) l.entriesPerBlock)
  else blk

/-- The second loop of `resize_inode`: `count` blocks are freed, down to index `tgtBlocks`. -/
def freeDataBlocks (inode tgtBlocks : Nat) : (count : Nat) → Action Unit
  | 0 => pure ()
  | count + 1 => do
    freeDataBlock inode (tgtBlocks + count)
    freeDataBlocks inode tgtBlocks count

/-- What `resize_inode` does after its loops: it stores the new size and the number of sectors. -/
def recordSize (inode size : Nat) : Action Unit := do
  let layout ← getLayout
  let info ← readInode inode
  let info := info.setSizeLower size
  writeInode inode info
  let usedBlocks := wmul (countUsedBlocks layout info) layout.blockSize
  writeInode inode (info.setBlocks512 (chunkCount usedBlocks 512))

/-- The loops of `resize_inode`: the blocks between the old and the new size are allocated or
freed. -/
def resizeBlocks (inode size : Nat) : Action Unit := do
  let layout ← getLayout
  let info ← readInode inode
  let orgBlocks := dataBlocks layout info
  let tgtBlocks := chunkCount size layout.blockSize
  if orgBlocks < tgtBlocks then loop (allocDataBlock inode) orgBlocks (tgtBlocks - orgBlocks)
  else if tgtBlocks < orgBlocks then freeDataBlocks inode tgtBlocks (orgBlocks - tgtBlocks)
  else pure ()

/-- `Ext2FS::resize_inode`. -/
def resizeInode (inode size : Nat) : Action Unit := do
  resizeBlocks inode size
  recordSize inode size

namespace Inode

theorem blockPtr_setSizeLower (inode : Inode) (value r : Nat) :
    (inode.setSizeLower value).blockPtr r = inode.blockPtr r := Bytes.u32_putU32_other (by omega)

theorem blockPtr_setBlocks512 (inode : Inode) (value r : Nat) :
    (inode.setBlocks512 value).blockPtr r = inode.blockPtr r := Bytes.u32_putU32_other (by omega)

theorem sizeLower_setSizeLower (inode : Inode) (value : Nat) :
    (inode.setSizeLower value).sizeLower = value % 2 ^ 32 := Bytes.u32_putU32_same _ _ _

theorem sizeLower_setBlocks512 (inode : Inode) (value : Nat) :
    (inode.setBlocks512 value).sizeLower = inode.sizeLower := Bytes.u32_putU32_other (by omega)

end Inode

/-! ## Paths -/

/-- The first block index behind the indirect block that the entries `js` lead to. -/
def Layout.firstIndex (l : Layout) : (js : List Nat) → Nat
  | [] => 12
  | [x] => 12 + l.entriesPerBlock + x * l.entriesPerBlock
  | x :: y :: _ => 12 + l.entriesPerBlock + l.entriesPerBlock ^ 2 +
      (x * l.entriesPerBlock ^ 2 + y * l.entriesPerBlock)

namespace Layout.Geometry

variable {l : Layout} (hg : l.Geometry) {k : Nat} {π : Nat × List Nat}

include hg

/-- The block indices behind one indirect block follow each other. -/
theorem index_eq {r i : Nat} {js : List Nat} (hk : k < l.mapSize)
    (hpath : l.path k = (r, js ++ [i])) : k = l.firstIndex js + i := by
  rcases hg.path_cases hk with ⟨hlt, hp⟩ | ⟨x, -, hsum, hp⟩ | ⟨x, -, y, -, hsum, hp⟩ |
    ⟨x, -, y, -, z, -, hsum, hp⟩ <;> rw [hp] at hpath <;> obtain ⟨-, hlist⟩ := Prod.mk.inj hpath
  · exact absurd hlist (by simp)
  · obtain ⟨rfl, hi⟩ := List.append_inj' (show [] ++ [x] = js ++ [i] from hlist) rfl
    cases hi
    exact hsum
  · obtain ⟨rfl, hi⟩ := List.append_inj' (show [x] ++ [y] = js ++ [i] from hlist) rfl
    cases hi
    show k = 12 + l.entriesPerBlock + x * l.entriesPerBlock + i
    omega
  · obtain ⟨rfl, hi⟩ := List.append_inj' (show [x, y] ++ [z] = js ++ [i] from hlist) rfl
    cases hi
    show k = 12 + l.entriesPerBlock + l.entriesPerBlock ^ 2 +
      (x * l.entriesPerBlock ^ 2 + y * l.entriesPerBlock) + i
    omega

/-- The first block index behind an indirect block is the first to need it. -/
theorem not_needs_leaf {r : Nat} {js : List Nat} (hk : k < l.mapSize)
    (hpath : l.path k = (r, js ++ [0])) : ¬ l.Needs k (r, js) := by
  rintro ⟨k', hk', ks, hpath'⟩
  have hmap' : k' < l.mapSize := Nat.lt_trans hk' hk
  -- Both paths go all the way down.
  have hlen := (hg.isPath_path hk).2
  have hlen' := (hg.isPath_path hmap').2
  rw [hpath, List.length_append] at hlen
  rw [hpath', List.length_append] at hlen'
  have hone : ks.length = 1 := Nat.add_left_cancel (hlen'.trans hlen.symm)
  obtain ⟨i, rfl⟩ := List.length_eq_one_iff.mp hone
  have hindex := hg.index_eq hk hpath
  have hindex' : k' = l.firstIndex js + i := hg.index_eq hmap' hpath'
  omega

/-- The direct blocks, and the first block behind the indirect block. -/
theorem path_low (hk : k ≤ 12) : k < 12 ∧ l.path k = (k, []) ∨ k = 12 ∧ l.path k = (12, [0]) := by
  have he := hg.entriesPerBlock_ge
  rcases Nat.lt_or_eq_of_le hk with hlt | rfl
  · exact .inl ⟨hlt, if_pos hlt⟩
  · refine .inr ⟨rfl, ?_⟩
    unfold Layout.path
    rw [if_neg (by decide), if_pos (by omega)]
    rfl

theorem root_low (hk : k ≤ 12) : (l.path k).1 = k := by
  rcases hg.path_low hk with ⟨-, hp⟩ | ⟨rfl, hp⟩ <;> rw [hp]

theorem isFirst_low (hk : k ≤ 12) : l.IsFirst k := by
  unfold Layout.IsFirst
  rcases hg.path_low hk with ⟨-, hp⟩ | ⟨-, hp⟩ <;> simp [hp]

/-- The paths that a file of up to 13 blocks needs. -/
theorem needs_iff {t : Nat} (ht : t ≤ 13) :
    l.Needs t π ↔ π.2 = [] ∧ π.1 < t ∨ t = 13 ∧ π = (12, [0]) := by
  constructor
  · rintro ⟨k, hk, ks, hpath⟩
    rcases hg.path_low (show k ≤ 12 by omega) with ⟨-, hp⟩ | ⟨rfl, hp⟩
    · rw [hp] at hpath
      obtain ⟨hroot, hnil⟩ := Prod.mk.inj hpath
      exact .inl ⟨(List.append_eq_nil_iff.mp hnil.symm).1, hroot ▸ hk⟩
    · rw [hp] at hpath
      obtain ⟨hroot, hcons⟩ := Prod.mk.inj hpath
      obtain ⟨r, is⟩ := π
      dsimp only at hroot hcons
      subst hroot
      cases is with
      | nil => exact .inl ⟨rfl, hk⟩
      | cons i is =>
        obtain ⟨rfl, hnil⟩ := List.cons.inj hcons
        obtain ⟨rfl, -⟩ := List.append_eq_nil_iff.mp hnil.symm
        exact .inr ⟨by omega, rfl⟩
  · obtain ⟨r, is⟩ := π
    rintro (⟨hnil, hlt⟩ | ⟨rfl, heq⟩)
    · dsimp only at hnil hlt
      have hneeds := l.needs_path hlt
      have hroot := hg.root_low (show r ≤ 12 by omega)
      have := hneeds.shorter (show (l.path r).2 = [] ++ _ from rfl)
      rwa [hroot, ← hnil] at this
    · have hneeds := l.needs_path (show 12 < 13 by decide)
      rcases hg.path_low (Nat.le_refl 12) with ⟨hlt, -⟩ | ⟨-, hp⟩
      · omega
      · rwa [hp, ← heq] at hneeds

/-- The path that comes with a direct block. -/
theorem new_direct (hk : k < 12) : l.Needs (k + 1) π ∧ ¬ l.Needs k π ↔ π = (k, []) := by
  obtain ⟨r, is⟩ := π
  rw [hg.needs_iff (by omega), hg.needs_iff (by omega), Prod.mk.injEq]
  have hlt : k + 1 ≠ 13 ∧ k ≠ 13 := by omega
  by_cases hnil : is = []
  · simp [hnil, hlt]
    omega
  · simp [hnil, hlt]

/-- The paths that come with the first block behind the indirect block. -/
theorem new_indirect : l.Needs 13 π ∧ ¬ l.Needs 12 π ↔ π = (12, []) ∨ π = (12, [0]) := by
  obtain ⟨r, is⟩ := π
  rw [hg.needs_iff (Nat.le_refl 13), hg.needs_iff (by decide), Prod.mk.injEq, Prod.mk.injEq]
  by_cases hnil : is = []
  · simp [hnil]
    omega
  · simp [hnil]

/-- The path of a block index is new with it. -/
theorem not_needs_low (hk : k ≤ 12) : ¬ l.Needs k (l.path k) ∧ ¬ l.Needs k (k, []) := by
  rw [hg.needs_iff (by omega), hg.needs_iff (by omega)]
  rcases hg.path_low hk with ⟨hlt, hp⟩ | ⟨rfl, hp⟩ <;> rw [hp] <;> simp

end Layout.Geometry

namespace FileSystem

variable {fs fs' fs₁ fs₂ : FileSystem} {n o t size : Nat}

/-! ## The last stores -/

/-- The number of blocks of inode `n`. -/
def blocks (fs : FileSystem) (n : Nat) : Nat := dataBlocks fs.layout (fs.inodeAt n)

/-- The number of blocks that a file of `size` bytes has. -/
def blocksFor (fs : FileSystem) (size : Nat) : Nat := chunkCount size fs.layout.blockSize

/-- The structure of inode `n` with a new size and the number of sectors that is computed from
it. -/
def resized (fs : FileSystem) (n size : Nat) : Inode :=
  ((fs.inodeAt n).setSizeLower size).setBlocks512
    (chunkCount (wmul (countUsedBlocks fs.layout ((fs.inodeAt n).setSizeLower size))
      fs.layout.blockSize) 512)

theorem blockPtr_resized (fs : FileSystem) (n size r : Nat) :
    (fs.resized n size).blockPtr r = (fs.inodeAt n).blockPtr r := by
  unfold resized
  rw [Inode.blockPtr_setBlocks512, Inode.blockPtr_setSizeLower]

theorem sizeLower_resized (fs : FileSystem) (n size : Nat) :
    (fs.resized n size).sizeLower = size % 2 ^ 32 := by
  unfold resized
  rw [Inode.sizeLower_setBlocks512, Inode.sizeLower_setSizeLower]

/-- Inode `n` is present, and its structure is neither in the block of its descriptor nor in that of
its bitmap. Blocks may have any size. -/
structure Storable (fs : FileSystem) (n : Nat) : Prop where
  addressable : Addressable fs.layout
  present : fs.Present n
  table_ne : fs.layout.tableBlock (fs.layout.inodeGroup n) ≠ fs.inodeTableBlock n
  bitmap_ne : fs.inodeBitmapBlock n ≠ fs.inodeTableBlock n

/-- The inodes of a volume whose tables are in order. -/
theorem InodeTables.storable (h : fs.InodeTables) (hn : fs.IsInode n) : fs.Storable n :=
  ⟨h.addressable, hn.toPresent, (h.not_descriptor n n _ hn hn (h.inInodeTable hn)).symm,
    (h.not_bitmap n n _ hn hn (h.inInodeTable hn)).symm⟩

namespace Storable

variable (h : fs.Storable n)

include h

/-- `resize_inode` once it has read the inode. -/
theorem run_resizeInode_start (size : Nat) :
    (resizeInode n size).run fs = (do
      (if fs.blocks n < fs.blocksFor size then
        loop (allocDataBlock n) (fs.blocks n) (fs.blocksFor size - fs.blocks n)
      else if fs.blocksFor size < fs.blocks n then
        freeDataBlocks n (fs.blocksFor size) (fs.blocks n - fs.blocksFor size)
      else pure ())
      recordSize n size : Action Unit).run (fs.withCurrent (fs.block (fs.inodeTableBlock n))) := by
  unfold resizeInode
  refine run_bind_congr ?_ _
  unfold resizeBlocks
  refine (run_getLayout_bind _ fs.currentBlock).trans ?_
  exact run_bind_ok (run_readInode h.addressable h.present fs.currentBlock)

/-- The block of the structure can be replaced without the inode getting lost. -/
theorem putBlock (table : Bytes) : (fs.putBlock (fs.inodeTableBlock n) table).Storable n ∧
      (fs.putBlock (fs.inodeTableBlock n) table).inodeTableBlock n = fs.inodeTableBlock n := by
  obtain ⟨hpresent, hblock⟩ := @Present.putBlock fs n _ table h.present h.table_ne h.bitmap_ne
  have hdesc := @descriptor_putBlock_other fs (fs.inodeTableBlock n) table _ h.table_ne
  refine ⟨⟨?_, hpresent, ?_, ?_⟩, hblock⟩
  · rw [layout_putBlock]
    exact h.addressable
  · rw [layout_putBlock, hblock]
    exact h.table_ne
  · unfold inodeBitmapBlock
    rw [hblock, layout_putBlock, hdesc]
    exact h.bitmap_ne

/-- With inodes of 128 bytes, `write_inode` replaces that block. -/
theorem run_writeInode (hsize : fs.layout.inodeSize = 128) {inode : Inode}
    (htrunc : inode.raw.trunc 128 = inode.raw) (c : Bytes) :
    ∃ table, (writeInode n inode).run (fs.withCurrent c) =
        .ok () ((fs.putBlock (fs.inodeTableBlock n) table).withCurrent table) ∧
      (fs.putBlock (fs.inodeTableBlock n) table).inodeAt n = inode := by
  have hrun := FileSystem.run_writeInode h.addressable h.present hsize inode c
  rw [withCurrent_putBlock] at hrun
  refine ⟨_, hrun, ?_⟩
  unfold inodeAt
  rw [(h.putBlock _).2, block_putBlock_same, layout_putBlock, newInodeTable_same h.present, htrunc]

/-- The new size is stored in two steps, to the same block. -/
theorem run_recordSize (hsize : fs.layout.inodeSize = 128) (size : Nat) (c : Bytes) :
    ∃ table, (recordSize n size).run (fs.withCurrent c) =
        .ok () ((fs.putBlock (fs.inodeTableBlock n) table).withCurrent table) ∧
      (fs.putBlock (fs.inodeTableBlock n) table).inodeAt n = fs.resized n size := by
  have hshort : ((fs.inodeAt n).setSizeLower size).raw.trunc 128 = _ :=
    trunc_putU32 fs n (by decide) size
  obtain ⟨table₁, hrun₁, hinode₁⟩ := h.run_writeInode hsize hshort (fs.block (fs.inodeTableBlock n))
  obtain ⟨h₁, hblock₁⟩ := h.putBlock table₁
  obtain ⟨sectors, hsectors⟩ : ∃ sectors, sectors = chunkCount (wmul (countUsedBlocks fs.layout
    ((fs.inodeAt n).setSizeLower size)) fs.layout.blockSize) 512 := ⟨_, rfl⟩
  have htrunc : (((fs.inodeAt n).setSizeLower size).setBlocks512 sectors).raw.trunc 128 = _ :=
    hinode₁ ▸ trunc_putU32 (fs.putBlock (fs.inodeTableBlock n) table₁) n (by decide) sectors
  obtain ⟨table₂, hrun₂, hinode₂⟩ := h₁.run_writeInode (by rw [layout_putBlock]; exact hsize) htrunc
    table₁
  rw [hblock₁, putBlock_putBlock] at hrun₂ hinode₂
  subst hsectors
  refine ⟨table₂, ?_, hinode₂⟩
  unfold recordSize
  refine (run_getLayout_bind _ c).trans ?_
  refine (run_bind_ok (run_readInode h.addressable h.present c)).trans ?_
  exact (run_bind_ok hrun₁).trans hrun₂

/-- Larger inodes cannot be written. -/
theorem run_recordSize_error (hsize : 128 < fs.layout.inodeSize) (size : Nat) (c : Bytes) :
    ∃ e fs', (recordSize n size).run (fs.withCurrent c) = .error e fs' := by
  have hwrite := run_writeInode_of_gt h.addressable h.present hsize
    ((fs.inodeAt n).setSizeLower size) (fs.block (fs.inodeTableBlock n))
  refine ⟨.outOfBounds, fs.withCurrent (fs.block (fs.inodeTableBlock n)), ?_⟩
  unfold recordSize
  refine (run_getLayout_bind _ c).trans ?_
  refine (run_bind_ok (run_readInode h.addressable h.present c)).trans ?_
  exact run_bind_error hwrite

/-- Where the number of blocks stays the same, `resize_inode` cannot succeed with larger inodes. -/
theorem inode_size_of_run (hge : 128 ≤ fs.layout.inodeSize)
    (hsame : fs.blocksFor size = fs.blocks n)
    (hrun : (resizeInode n size).run fs = .ok () fs') : fs.layout.inodeSize = 128 := by
  by_contra hsize
  rw [h.run_resizeInode_start, if_neg (by omega), if_neg (by omega)] at hrun
  obtain ⟨e, t, herror⟩ := h.run_recordSize_error (by omega) size (fs.block (fs.inodeTableBlock n))
  cases hrun.symm.trans ((run_bind_ok (EStateM.run_pure _ _)).trans herror)

end Storable

/-! ## What stays of a file -/

/-- Frees and stores that concern no block of the file, and leave the pointers in the inode that
lead to them, keep its block map. -/
theorem Backed.releases {freed touched : Nat → Prop} (hb : fs.Backed n t) (hn : fs.IsInode n)
    (hr : Releases fs freed touched fs')
    (hfreed : ∀ π, fs.layout.Needs t π → ¬ freed (fs.pointer (fs.inodeAt n) π))
    (htouched : ∀ π, fs.layout.Needs t π → ¬ touched (fs.pointer (fs.inodeAt n) π))
    (hroot : ∀ π, fs.layout.Needs t π →
      (fs'.inodeAt n).blockPtr π.1 = (fs.inodeAt n).blockPtr π.1) :
    fs'.Backed n t ∧ ∀ π, fs.layout.Needs t π →
      fs'.pointer (fs'.inodeAt n) π = fs.pointer (fs.inodeAt n) π := by
  have hpointer : ∀ π, fs.layout.Needs t π →
      fs'.pointer (fs'.inodeAt n) π = fs.pointer (fs.inodeAt n) π := by
    intro π hπ
    unfold pointer
    rw [hroot π hπ]
    refine (Walk.resolve_congr fun b hmem => ?_).symm
    obtain ⟨js, i, ks, -, hneeds, rfl⟩ := hb.visited hπ hmem
    exact (hr.entry (hb.inUse _ hneeds) (hfreed _ hneeds) (htouched _ hneeds)).symm
  have hg := hr.sameGroup hn
  refine ⟨?_, hpointer⟩
  constructor
  case le => rw [hr.layout]; exact hb.le
  all_goals
    intro π
    rw [hr.layout]
    intros
  case ne_zero hπ => rw [hpointer π hπ]; exact hb.ne_zero π hπ
  case inUse hπ => rw [hpointer π hπ]; exact hr.inUse (hb.inUse π hπ) (hfreed π hπ)
  case not_bitmap hπ => rw [hpointer π hπ, hg.inodeBitmapBlock]; exact hb.not_bitmap π hπ
  case not_table hπ => rw [hpointer π hπ, hg.inodeTableBlock]; exact hb.not_table π hπ
  case injective π' hπ hπ' heq =>
    rw [hpointer π hπ, hpointer π' hπ'] at heq
    exact hb.injective π π' hπ hπ' heq

/-- Of the first `o` blocks of inode `n`, those from index `t` on have been given back, together
with the indirect blocks that only they needed. -/
structure Shed (fs : FileSystem) (n o t : Nat) (fs' : FileSystem) : Prop where
  layout : fs'.layout = fs.layout
  hosted : fs'.Hosted n
  backed : fs'.Backed n t
  isFree : ∀ b, fs'.IsFree b ↔ fs.IsFree b ∨
    ∃ π, fs.layout.Needs o π ∧ ¬ fs.layout.Needs t π ∧ fs.pointer (fs.inodeAt n) π = b
  pointer : ∀ π, fs.layout.Needs t π → fs'.pointer (fs'.inodeAt n) π = fs.pointer (fs.inodeAt n) π

theorem Shed.refl (h : fs.Hosted n) (hb : fs.Backed n t) : Shed fs n t t fs := by
  refine ⟨rfl, h, hb, fun b => ?_, fun π _ => rfl⟩
  exact ⟨.inl, fun hor => hor.elim id fun ⟨π, hneeds, hnot, _⟩ => absurd hneeds hnot⟩

theorem Shed.trans {u : Nat} (h₁ : Shed fs n o t fs₁) (h₂ : Shed fs₁ n t u fs₂) (hot : t ≤ o)
    (htu : u ≤ t) : Shed fs n o u fs₂ := by
  have hlayout := h₁.layout
  constructor
  case layout => rw [h₂.layout, hlayout]
  case hosted => exact h₂.hosted
  case backed => exact h₂.backed
  case isFree =>
    intro b
    rw [h₂.isFree, h₁.isFree, hlayout, or_assoc]
    refine or_congr_right ⟨?_, ?_⟩
    · rintro (⟨π, hneeds, hnot, hb⟩ | ⟨π, hneeds, hnot, hb⟩)
      · exact ⟨π, hneeds, fun hu => hnot (hu.mono htu), hb⟩
      · exact ⟨π, hneeds.mono hot, hnot, h₁.pointer π hneeds ▸ hb⟩
    · rintro ⟨π, hneeds, hnot, hb⟩
      by_cases hπ : fs.layout.Needs t π
      · exact .inr ⟨π, hπ, hnot, (h₁.pointer π hπ).trans hb⟩
      · exact .inl ⟨π, hneeds, hπ, hb⟩
  case pointer =>
    intro π hπ
    rw [h₂.pointer π (by rw [hlayout]; exact hπ), h₁.pointer π (hπ.mono htu)]

section

variable (h : fs.Hosted n)

include h

/-- Where nothing has been freed. -/
theorem Shed.of_releases {touched : Nat → Prop} (hb : fs.Backed n t)
    (hr : Releases fs (fun _ => False) touched fs') (hbitmap : ¬ touched (fs.inodeBitmapBlock n))
    (htouched : ∀ π, fs.layout.Needs t π → ¬ touched (fs.pointer (fs.inodeAt n) π))
    (hroot : ∀ r, (fs'.inodeAt n).blockPtr r = (fs.inodeAt n).blockPtr r) : Shed fs n t t fs' := by
  obtain ⟨hb', hpointer⟩ := hb.releases h.isInode hr (fun _ _ => not_false) htouched
    fun π _ => hroot π.1
  refine ⟨hr.layout, h.releases hr not_false hbitmap not_false, hb', fun b => ?_, hpointer⟩
  rw [hr.isFree, or_false]
  exact ⟨.inl, fun hor => hor.elim id fun ⟨π, hneeds, hnot, _⟩ => absurd hneeds hnot⟩

/-- A new content of the scratch buffer takes nothing away. -/
theorem Hosted.shed_withCurrent (hb : fs.Backed n t) (c : Bytes) :
    Shed fs n t t (fs.withCurrent c) := by
  have hr := Releases.withCurrent h.placed h.balanced c
  refine Shed.of_releases h hb hr not_false (fun _ _ => not_false) fun r => ?_
  rw [(hr.sameGroup h.isInode).inodeAt (block_withCurrent _ _ _)]

/-! ## The new size -/

theorem Hosted.storable : fs.Storable n :=
  ⟨h.placed.addressable, h.isInode.toPresent,
    fun heq => h.table_inUse.not_reserved (.inr ⟨_, h.isInode.group_lt, .inl heq.symm⟩),
    h.bitmap_ne_table⟩

/-- The new size is stored to the block of the inode, and the pointers of the inode stay as they
are. -/
theorem Hosted.run_recordSize (hsize : fs.layout.inodeSize = 128) (size : Nat) :
    ∃ fs', (recordSize n size).run fs = .ok () fs' ∧
      Releases fs (fun _ => False) (· = fs.inodeTableBlock n) fs' ∧
      (∀ r, (fs'.inodeAt n).blockPtr r = (fs.inodeAt n).blockPtr r) ∧
      (fs'.inodeAt n).sizeLower = size % 2 ^ 32 := by
  obtain ⟨table, hrun, hinode⟩ := h.storable.run_recordSize hsize size fs.currentBlock
  refine ⟨_, hrun, Releases.store_current h.placed h.balanced h.table_inUse.not_reserved table,
    fun r => ?_, ?_⟩
  · show ((fs.putBlock _ table).inodeAt n).blockPtr r = _
    rw [hinode, blockPtr_resized]
  · show ((fs.putBlock _ table).inodeAt n).sizeLower = _
    rw [hinode, sizeLower_resized]

theorem Hosted.shed_recordSize (hb : fs.Backed n t)
    (hsize : fs.layout.inodeSize = 128) (size : Nat) :
    ∃ fs', (recordSize n size).run fs = .ok () fs' ∧ Shed fs n t t fs' ∧
      (fs'.inodeAt n).sizeLower = size % 2 ^ 32 := by
  obtain ⟨fs', hrun, hr, hroot, hlower⟩ := h.run_recordSize hsize size
  exact ⟨fs', hrun, Shed.of_releases h hb hr h.bitmap_ne_table hb.not_table hroot, hlower⟩

/-- Larger inodes cannot be written. -/
theorem Hosted.run_recordSize_error (hsize : fs.layout.inodeSize ≠ 128) (size : Nat) :
    ∃ e fs', (recordSize n size).run fs = .error e fs' := by
  have hge := h.inode_size_ge
  exact h.storable.run_recordSize_error (by omega) size fs.currentBlock

end

/-! ## Files of up to 13 blocks -/

/-- What `free_data_block` gives back of a file of up to 13 blocks is what the file no longer
needs. -/
theorem drops_iff (hg : fs.layout.Geometry) {k : Nat} (hk : k ≤ 12) (b : Nat) :
    fs.Drops n k b ↔ ∃ π, fs.layout.Needs (k + 1) π ∧ ¬ fs.layout.Needs k π ∧
      fs.pointer (fs.inodeAt n) π = b := by
  have hroot := hg.root_low hk
  have hnew := hg.not_needs_low hk
  have hpointer : fs.pointer (fs.inodeAt n) (k, []) = (fs.inodeAt n).blockPtr k :=
    Walk.resolve_nil _
  unfold Drops
  rw [hroot]
  constructor
  · rintro (rfl | ⟨-, rfl⟩)
    · exact ⟨_, fs.layout.needs_path (Nat.lt_succ_self k), hnew.1, rfl⟩
    · exact ⟨(k, []), (hg.needs_iff (by omega)).mpr (.inl ⟨rfl, Nat.lt_succ_self k⟩), hnew.2,
        hpointer⟩
  · rintro ⟨⟨r, is⟩, hneeds, hnot, rfl⟩
    rw [hg.needs_iff (by omega)] at hneeds hnot
    rcases hneeds with ⟨hnil, hlt⟩ | ⟨hk13, hpath⟩
    · dsimp only at hnil hlt
      subst hnil
      obtain rfl : r = k := by
        by_contra hne
        exact hnot (.inl ⟨rfl, by show r < k; omega⟩)
      exact .inr ⟨hg.isFirst_low hk, hpointer⟩
    · refine .inl ?_
      rcases hg.path_low hk with ⟨hlt, -⟩ | ⟨-, hp⟩
      · omega
      · rw [hpath, hp]

/-- One block. -/
theorem Backed.run_freeDataBlock_low {k : Nat} (hb : fs.Backed n (k + 1)) (h : fs.Hosted n)
    (hsize : fs.layout.inodeSize = 128) (hk : k ≤ 12) :
    ∃ fs', (freeDataBlock n k).run fs = .ok () fs' ∧ Shed fs n (k + 1) k fs' := by
  have hg := h.placed.geometry
  have hroot := hg.root_low hk
  have hdrops := drops_iff (n := n) hg hk
  obtain ⟨fs₁, hd, hrun⟩ := hb.run_freeDataBlock h (Nat.lt_succ_self k) fs.currentBlock
  rw [withCurrent_currentBlock, if_pos (hg.isFirst_low hk), hroot] at hrun
  obtain ⟨h₁, hinode₁⟩ := hd.hosted h hb (Nat.lt_succ_self k)
  obtain ⟨fs', hrun', hr', hinode'⟩ := h₁.run_writeInode (by rw [hd.releases.layout]; exact hsize)
    (trunc_setBlockPtr fs n 0 (show k < 15 by omega))
  have htable := (hd.releases.sameGroup h.isInode).inodeTableBlock
  have hr := hd.releases.trans hr'
  rw [htable] at hr
  have hnew := hg.not_needs_low hk
  -- Nothing that the first `k` blocks need is freed or stored to.
  have hother : ∀ π, fs.layout.Needs k π → ∀ π', fs.layout.Needs (k + 1) π' →
      ¬ fs.layout.Needs k π' → fs.pointer (fs.inodeAt n) π ≠ fs.pointer (fs.inodeAt n) π' := by
    rintro π hπ π' hπ' hnot heq
    exact hnot (hb.injective π π' (hπ.mono (Nat.le_succ k)) hπ' heq ▸ hπ)
  have hkept := (hb.mono (Nat.le_succ k)).releases h.isInode hr ?_ ?_ ?_
  · refine ⟨fs', hrun.trans hrun', hr.layout, ?_, hkept.1, fun b => ?_, hkept.2⟩
    · exact h₁.releases hr' not_false h₁.bitmap_ne_table not_false
    · rw [hr.isFree, or_false, hdrops]
  · rintro π hπ (hdrop | hfalse)
    · obtain ⟨π', hπ', hnot, heq⟩ := (hdrops _).mp hdrop
      exact hother π hπ π' hπ' hnot heq.symm
    · exact hfalse
  · rintro π hπ (⟨js, i, hsplit, heq⟩ | heq)
    · -- The indirect block, which goes with block index 12.
      rcases hg.path_low hk with ⟨-, hp⟩ | ⟨rfl, hp⟩
      · rw [hp] at hsplit
        exact absurd hsplit (by simp)
      · rw [hp] at hsplit heq
        obtain ⟨rfl, -⟩ := List.append_inj' (show [] ++ [0] = js ++ [i] from hsplit) rfl
        exact hother π hπ (12, []) ((hg.needs_iff (by decide)).mpr (.inl ⟨rfl, by decide⟩))
          hnew.2 heq
    · exact hb.not_table π (hπ.mono (Nat.le_succ k)) heq
  · intro π hπ
    rw [hinode', Inode.blockPtr_setBlockPtr_other]
    rcases (hg.needs_iff (by omega)).mp hπ with ⟨-, hlt⟩ | ⟨heq, -⟩ <;> omega

/-- The loop. -/
theorem Backed.run_freeDataBlocks {count : Nat} (hb : fs.Backed n (t + count)) (h : fs.Hosted n)
    (hsize : fs.layout.inodeSize = 128) (hle : t + count ≤ 13) :
    ∃ fs', (freeDataBlocks n t count).run fs = .ok () fs' ∧ Shed fs n (t + count) t fs' := by
  induction count generalizing fs with
  | zero => exact ⟨fs, rfl, Shed.refl h hb⟩
  | succ count ih =>
    obtain ⟨fs₁, hrun₁, hs₁⟩ := hb.run_freeDataBlock_low h hsize (k := t + count) (by omega)
    obtain ⟨fs', hrun, hs⟩ := ih hs₁.backed hs₁.hosted (by rw [hs₁.layout]; exact hsize) (by omega)
    refine ⟨fs', ?_, hs₁.trans hs (by omega) (by omega)⟩
    rw [freeDataBlocks, run_bind_ok hrun₁, hrun]

/-! ## Shrinking -/

/-- `resize_inode` frees exactly the blocks beyond the new size and the indirect blocks that no
remaining block needs, and the remaining blocks keep their mapping. -/
def Shrinks (fs : FileSystem) (n size : Nat) : Prop :=
  ∃ fs', (resizeInode n size).run fs = .ok () fs' ∧
    (∀ b, fs'.IsFree b ↔ fs.IsFree b ∨ ∃ π, fs.layout.Needs (fs.blocks n) π ∧
      ¬ fs.layout.Needs (fs.blocksFor size) π ∧ fs.pointer (fs.inodeAt n) π = b) ∧
    ∀ k < fs.blocksFor size, valueOf (lookup n k) fs' = valueOf (lookup n k) fs

/-! ## Files that keep their blocks -/

/-- The structure of inode `n` is in a block that holds no group descriptor, no bitmap and no
indirect block of the file. Blocks may have any size. -/
structure Seated (fs : FileSystem) (n : Nat) : Prop extends fs.Storable n where
  inode_size_ge : 128 ≤ fs.layout.inodeSize
  not_descriptor : ∀ g < fs.layout.blockGroups, fs.layout.tableBlock g ≠ fs.inodeTableBlock n
  not_bitmap : ∀ g < fs.layout.blockGroups, fs.bitmapBlock g ≠ fs.inodeTableBlock n
  not_visited : ∀ k < fs.blocks n, fs.inodeTableBlock n ∉ fs.visitedBlocks (fs.inodeAt n) k

/-- All bitmaps and counters and the block map of inode `n` are as before. -/
structure SameBlocks (fs : FileSystem) (n : Nat) (fs' : FileSystem) : Prop where
  layout : fs'.layout = fs.layout
  unallocated : fs'.superblock.unallocatedBlocks = fs.superblock.unallocatedBlocks
  groups : ∀ g < fs.layout.blockGroups,
    fs'.freeBits g = fs.freeBits g ∧ fs'.freeCount g = fs.freeCount g
  lookup : ∀ k < fs.blocks n, valueOf (lookup n k) fs' = valueOf (lookup n k) fs
  seated : fs'.Seated n
  blocks : fs'.blocks n = fs.blocks n

theorem SameBlocks.trans (h : SameBlocks fs n fs₁) (h' : SameBlocks fs₁ n fs₂) :
    SameBlocks fs n fs₂ := by
  refine ⟨h'.layout.trans h.layout, h'.unallocated.trans h.unallocated, fun g hg => ?_,
    fun k hk => ?_, h'.seated, h'.blocks.trans h.blocks⟩
  · obtain ⟨hbits, hcount⟩ := h'.groups g (by rw [h.layout]; exact hg)
    exact ⟨hbits.trans (h.groups g hg).1, hcount.trans (h.groups g hg).2⟩
  · rw [h'.lookup k (by rw [h.blocks]; exact hk), h.lookup k hk]

/-- The scratch buffer plays no part. -/
theorem SameBlocks.withCurrent (h : SameBlocks fs n fs') (c : Bytes) :
    SameBlocks fs n (fs'.withCurrent c) := by
  have hs := h.seated
  refine ⟨h.layout, h.unallocated, h.groups, fun k hk => ?_, ?_, h.blocks⟩
  · rw [valueOf_lookup_withCurrent hs.addressable hs.present, h.lookup k hk]
  · exact ⟨⟨hs.addressable, { hs.present with }, hs.table_ne, hs.bitmap_ne⟩, hs.inode_size_ge,
      hs.not_descriptor, hs.not_bitmap, hs.not_visited⟩

theorem SameBlocks.isFree (h : SameBlocks fs n fs') (b : Nat) : fs'.IsFree b ↔ fs.IsFree b := by
  unfold IsFree
  rw [h.layout]
  refine exists_congr fun g => and_congr_right fun hg => ?_
  rw [(h.groups g hg).1]

namespace Seated

variable (h : fs.Seated n)

include h

/-- A new structure with the same pointers and the same number of blocks. -/
theorem sameBlocks_putBlock {table : Bytes}
    (hptr : ∀ r, ((fs.putBlock (fs.inodeTableBlock n) table).inodeAt n).blockPtr r =
      (fs.inodeAt n).blockPtr r)
    (hblocks : (fs.putBlock (fs.inodeTableBlock n) table).blocks n = fs.blocks n) :
    SameBlocks fs n (fs.putBlock (fs.inodeTableBlock n) table) := by
  obtain ⟨hstorable, hblock⟩ := h.toStorable.putBlock table
  generalize hfs' : fs.putBlock (fs.inodeTableBlock n) table = fs' at *
  have hlayout : fs'.layout = fs.layout := by rw [← hfs', layout_putBlock]
  have hother : ∀ k, k ≠ fs.inodeTableBlock n → fs'.block k = fs.block k := by
    intro k hk
    rw [← hfs', block_putBlock_other hk]
  have hdesc : ∀ g < fs.layout.blockGroups, fs'.descriptor g = fs.descriptor g := by
    intro g hg
    rw [← hfs', descriptor_putBlock_other (h.not_descriptor g hg)]
  have hbitmap : ∀ g < fs.layout.blockGroups, fs'.bitmapBlock g = fs.bitmapBlock g := by
    intro g hg
    unfold bitmapBlock
    rw [hdesc g hg]
  have hwalk : ∀ k < fs.blocks n,
      fs'.visitedBlocks (fs'.inodeAt n) k = fs.visitedBlocks (fs.inodeAt n) k ∧
      fs'.blockNumber (fs'.inodeAt n) k = fs.blockNumber (fs.inodeAt n) k ∧
      (fs'.Maps (fs'.inodeAt n) k ↔ fs.Maps (fs.inodeAt n) k) := by
    intro k hk
    have hsame : ∀ m ∈ fs.visitedBlocks (fs.inodeAt n) k, fs'.block m = fs.block m :=
      fun m hm => hother m fun heq => h.not_visited k hk (heq ▸ hm)
    obtain ⟨hnumber, -, hmaps⟩ := walk_congr hlayout hsame
    refine ⟨visitedBlocks_congr hlayout hptr hsame, ?_, ?_⟩
    · rw [← hnumber]
      unfold blockNumber
      rw [hptr]
    · rw [← hmaps]
      unfold Maps
      rw [hptr]
  constructor
  case layout => exact hlayout
  case unallocated => rw [← hfs', superblock_putBlock]
  case groups =>
    intro g hg
    unfold freeBits bitmap freeCount
    rw [hbitmap g hg, hother _ (h.not_bitmap g hg), hdesc g hg, hlayout]
    exact ⟨rfl, rfl⟩
  case lookup =>
    intro k hk
    refine Option.ext fun v => ?_
    rw [valueOf_lookup hstorable.addressable hstorable.present,
      valueOf_lookup h.addressable h.present, (hwalk k hk).2.1, (hwalk k hk).2.2]
  case seated =>
    refine ⟨hstorable, by rw [hlayout]; exact h.inode_size_ge, ?_, ?_, fun k hk => ?_⟩
    · rw [hlayout, hblock]
      exact h.not_descriptor
    · rw [hlayout, hblock]
      intro g hg
      rw [hbitmap g hg]
      exact h.not_bitmap g hg
    · rw [hblocks] at hk
      rw [hblock, (hwalk k hk).1]
      exact h.not_visited k hk
  case blocks => exact hblocks

/-- With inodes of 128 bytes, a size for which the file needs the same number of blocks is stored
and nothing else changes. -/
theorem run_resizeInode_same (hsize : fs.layout.inodeSize = 128) (hlt : size < 2 ^ 32)
    (hsame : fs.blocksFor size = fs.blocks n) :
    ∃ fs', (resizeInode n size).run fs = .ok () fs' ∧ SameBlocks fs n fs' := by
  obtain ⟨table, hrun, hinode⟩ := h.toStorable.run_recordSize hsize size
    (fs.block (fs.inodeTableBlock n))
  have hblocks : (fs.putBlock (fs.inodeTableBlock n) table).blocks n = fs.blocks n := by
    unfold blocks dataBlocks
    rw [hinode, sizeLower_resized, Nat.mod_eq_of_lt hlt, layout_putBlock]
    exact hsame
  have hstored := h.sameBlocks_putBlock (fun r => by rw [hinode, blockPtr_resized]) hblocks
  refine ⟨_, ?_, hstored.withCurrent table⟩
  rw [h.run_resizeInode_start, if_neg (by omega), if_neg (by omega)]
  exact (run_bind_ok (EStateM.run_pure _ _)).trans hrun

/-- No block is freed, and the file keeps its mapping, exactly with inodes of 128 bytes. -/
theorem shrinks_iff (hlt : size < 2 ^ 32) (hsame : fs.blocksFor size = fs.blocks n) :
    fs.Shrinks n size ↔ fs.layout.inodeSize = 128 := by
  constructor
  · rintro ⟨fs', hrun, -⟩
    exact h.toStorable.inode_size_of_run h.inode_size_ge hsame hrun
  · intro hsize
    obtain ⟨fs', hrun, hs⟩ := h.run_resizeInode_same hsize hlt hsame
    refine ⟨fs', hrun, fun b => ?_, fun k hk => hs.lookup k (hsame ▸ hk)⟩
    rw [hs.isFree, hsame]
    exact ⟨.inl, fun hor => hor.elim id fun ⟨π, hneeds, hnot, _⟩ => absurd hneeds hnot⟩

end Seated

/-! ## Files of 1 KiB blocks -/

namespace Hosted

variable {size : Nat} (h : fs.Hosted n) (hb : fs.Backed n (fs.blocks n))
  (hsize : fs.layout.inodeSize = 128) (hle : fs.blocksFor size ≤ fs.blocks n)
  (hright : fs.blocksFor size = fs.blocks n ∨ fs.blocks n ≤ 13)

include h hb hsize hle hright

theorem run_resizeInode_shrink : ∃ fs', (resizeInode n size).run fs = .ok () fs' ∧
      Shed fs n (fs.blocks n) (fs.blocksFor size) fs' := by
  rw [h.storable.run_resizeInode_start, if_neg (Nat.not_lt.mpr hle)]
  have hc := h.shed_withCurrent hb (fs.block (fs.inodeTableBlock n))
  generalize fs.withCurrent (fs.block (fs.inodeTableBlock n)) = fs₀ at hc ⊢
  obtain ⟨fs₁, hrun₁, hs₁⟩ : ∃ fs₁, (if fs.blocksFor size < fs.blocks n then
      freeDataBlocks n (fs.blocksFor size) (fs.blocks n - fs.blocksFor size)
      else pure () : Action Unit).run fs₀ = .ok () fs₁ ∧
        Shed fs₀ n (fs.blocks n) (fs.blocksFor size) fs₁ := by
    rcases Nat.lt_or_eq_of_le hle with hlt | heq
    · obtain ⟨count, hcount⟩ := Nat.exists_eq_add_of_le hle
      have hb₀ := hc.backed
      rw [if_pos hlt, hcount, Nat.add_sub_cancel_left]
      rw [hcount] at hb₀ hright
      exact hb₀.run_freeDataBlocks hc.hosted (by rw [hc.layout]; exact hsize) (by omega)
    · rw [if_neg (by omega), heq]
      exact ⟨fs₀, rfl, Shed.refl hc.hosted hc.backed⟩
  obtain ⟨fs', hrun', hs', -⟩ := hs₁.hosted.shed_recordSize hs₁.backed
    (by rw [hs₁.layout, hc.layout]; exact hsize) size
  refine ⟨fs', (run_bind_ok hrun₁).trans hrun', ?_⟩
  exact (hc.trans hs₁ (Nat.le_refl _) hle).trans hs' hle (Nat.le_refl _)

/-- A file of up to 13 blocks is shrunk correctly, and so is every file whose number of blocks stays
the same. -/
theorem shrinks : fs.Shrinks n size := by
  obtain ⟨fs', hrun, hs⟩ := h.run_resizeInode_shrink hb hsize hle hright
  refine ⟨fs', hrun, hs.isFree, fun k hk => ?_⟩
  have hneeds := fs.layout.needs_path hk
  rw [hb.lookup h (Nat.lt_of_lt_of_le hk hle), hs.backed.lookup hs.hosted hk, hs.layout,
    hs.pointer _ hneeds]

end Hosted

/-- `resize_inode` by at most one block, up to the point where the new size is stored. -/
theorem Hosted.run_resizeInode_last (h : fs.Hosted n) (hb : fs.Backed n (fs.blocks n))
    (hlast : fs.blocksFor size + 1 = fs.blocks n) :
    ∃ fs₁, Dropped fs n (fs.blocksFor size) fs₁ ∧ fs₁.Hosted n ∧ fs₁.inodeAt n = fs.inodeAt n ∧
      (resizeInode n size).run fs = (do
        (if fs.layout.IsFirst (fs.blocksFor size) then
          writeInode n ((fs.inodeAt n).setBlockPtr (fs.layout.path (fs.blocksFor size)).1 0)
        else pure ())
        recordSize n size : Action Unit).run fs₁ := by
  have hk : fs.blocksFor size < fs.blocks n := by omega
  obtain ⟨fs₁, hd, hrun⟩ := hb.run_freeDataBlock h hk (fs.block (fs.inodeTableBlock n))
  obtain ⟨h₁, hinode₁⟩ := hd.hosted h hb hk
  refine ⟨fs₁, hd, h₁, hinode₁, ?_⟩
  have hone : fs.blocks n - fs.blocksFor size = 1 := by omega
  rw [h.storable.run_resizeInode_start, if_neg (by omega), if_pos hk, hone]
  refine run_bind_congr ?_ _
  rw [freeDataBlocks, freeDataBlocks, bind_pure_unit]
  exact hrun

/-- With larger inodes, it does not succeed. -/
theorem Hosted.inode_size_of_run (h : fs.Hosted n) (hb : fs.Backed n (fs.blocks n))
    (hlast : fs.blocksFor size = fs.blocks n ∨ fs.blocksFor size + 1 = fs.blocks n)
    (hrun : (resizeInode n size).run fs = .ok () fs') : fs.layout.inodeSize = 128 := by
  rcases hlast with heq | hlast
  · exact h.storable.inode_size_of_run h.inode_size_ge heq hrun
  · by_contra hsize
    obtain ⟨fs₁, hd, h₁, -, hrun₁⟩ := h.run_resizeInode_last hb hlast
    have hsize₁ : fs₁.layout.inodeSize ≠ 128 := by
      rw [hd.releases.layout]
      exact hsize
    have hrun := hrun.symm.trans hrun₁
    split at hrun
    case isTrue =>
      obtain ⟨e, t, herror⟩ := h₁.run_writeInode_error hsize₁
        ((fs.inodeAt n).setBlockPtr (fs.layout.path (fs.blocksFor size)).1 0)
      cases hrun.trans (run_bind_error herror)
    case isFalse =>
      obtain ⟨e, t, herror⟩ := h₁.run_recordSize_error hsize₁ size
      cases hrun.trans ((run_bind_ok (EStateM.run_pure _ _)).trans herror)

namespace Dropped

variable {k r : Nat} {js : List Nat} (hd : Dropped fs n k fs₁) (hb : fs.Backed n t) (hk : k < t)

include hd hb hk

/-- The first block index behind the overwritten indirect block is mapped to a block bitmap. -/
theorem lookup_lost (h : fs.Hosted n) {i k' v : Nat} (hfirst : ¬ fs.layout.IsFirst k)
    (hpath : fs.layout.path k = (r, js ++ [i])) (hi : i ≠ 0)
    (hr : Releases fs₁ (fun _ => False) (· = fs₁.inodeTableBlock n) fs')
    (hroot : ∀ r, (fs'.inodeAt n).blockPtr r = (fs₁.inodeAt n).blockPtr r)
    (hpath' : fs.layout.path k' = (r, js ++ [0])) (hlookup : valueOf (lookup n k') fs' = some v) :
    fs.IsReserved v := by
  obtain ⟨h₁, hinode₁⟩ := hd.hosted h hb hk
  have h' := h₁.releases hr not_false h₁.bitmap_ne_table not_false
  have hneeds := fs.layout.needs_path hk
  rw [hpath] at hneeds
  have hleaf : fs.layout.Needs t (r, js) := hneeds.shorter rfl
  have hkept : ∀ π, fs.layout.Needs t π → π ≠ (r, js ++ [i]) →
      ¬ fs.Drops n k (fs.pointer (fs.inodeAt n) π) ∧
        fs.pointer (fs.inodeAt n) π ≠ fs₁.inodeTableBlock n := by
    intro π hπ hne
    rw [(hd.releases.sameGroup h.isInode).inodeTableBlock]
    refine ⟨?_, hb.not_table π hπ⟩
    rintro (heq | ⟨hf, -⟩)
    · rw [hpath] at heq
      exact hne (hb.injective _ _ hπ hneeds heq)
    · exact hfirst hf
  have hlen : ∀ js' i' ks', js = js' ++ i' :: ks' →
      (r, js') ≠ (r, js ++ [i]) ∧ (r, js') ≠ (r, js) := by
    rintro js' i' ks' rfl
    constructor <;> intro heq <;> have := congrArg (fun π => π.2.length) heq <;> simp at this
  -- The indirect blocks above the overwritten one keep their entries.
  have habove : ∀ b ∈ Walk.visited fs.entry ((fs.inodeAt n).blockPtr r) js,
      fs.entry b = fs'.entry b := by
    intro b hmem
    obtain ⟨js', i', ks, hsplit, hneeds', rfl⟩ := hb.visited hleaf hmem
    obtain ⟨hne, hne'⟩ := hlen js' i' ks hsplit
    obtain ⟨hdrop, htable⟩ := hkept _ hneeds' hne
    have huse := hb.inUse _ hneeds'
    rw [hr.entry (hd.releases.inUse huse hdrop) not_false htable, hd.releases.entry huse hdrop]
    rintro ⟨js₁, i₁, hsplit₁, heq⟩
    rw [hpath] at hsplit₁ heq
    obtain ⟨rfl, -⟩ := List.append_inj' hsplit₁ rfl
    exact hne' (hb.injective _ _ hneeds' hleaf heq)
  obtain ⟨hdrop, htable⟩ := hkept _ hleaf (by simp)
  have hq := hd.releases.inUse (hb.inUse _ hleaf) hdrop
  obtain ⟨g, hg, hoverwritten⟩ := hd.overwritten js i (by rw [hpath]) hfirst
  rw [hpath] at hoverwritten
  obtain ⟨g₀, hg₀, hbitmap⟩ := exists_bitmapBlock_eq h₁.placed (hd.releases.layout ▸ hg)
  have hentry : fs'.entry (fs.pointer (fs.inodeAt n) (r, js)) 0 = fs₁.bitmapBlock g₀ := by
    unfold entry
    rw [hr.frame _ hq.not_reserved hq.not_free not_false htable, hoverwritten,
      Bytes.u32_putU32_other (by omega), ← hd.releases.layout, hbitmap]
  obtain ⟨-, hnumber⟩ := (valueOf_lookup h'.placed.addressable h'.isInode.toPresent).mp hlookup
  unfold blockNumber FileSystem.follow at hnumber
  rw [hr.layout, hd.releases.layout, hpath', hroot, hinode₁, Walk.follow_append] at hnumber
  dsimp only at hnumber
  rw [← (Walk.follow_congr habove).1, hb.follow_eq hleaf] at hnumber
  rw [← (hd.releases.isReserved v), ← hnumber]
  exact .inr ⟨g₀, hg₀, .inr hentry⟩

/-- An indirect block that is freed neither as the data block nor as the root is not freed. -/
theorem leaf_kept (hpath : fs.layout.path k = (r, js ++ [0])) (hne : js ≠ []) :
    ¬ fs₁.IsFree (fs.pointer (fs.inodeAt n) (r, js)) := by
  have hneeds := fs.layout.needs_path hk
  rw [hpath] at hneeds
  have hleaf : fs.layout.Needs t (r, js) := hneeds.shorter rfl
  have hroot : fs.layout.Needs t (r, []) := hleaf.shorter (List.nil_append js).symm
  rw [hd.releases.isFree, not_or]
  refine ⟨(hb.inUse _ hleaf).not_free, ?_⟩
  rintro (heq | ⟨-, heq⟩)
  · rw [hpath] at heq
    exact absurd (congrArg Prod.snd (hb.injective _ _ hleaf hneeds heq)) (by simp)
  · rw [hpath] at heq
    exact hne (congrArg Prod.snd
      (hb.injective _ _ hleaf hroot (heq.trans (Walk.resolve_nil _).symm)))

end Dropped

/-- What follows the frees only stores inodes. -/
theorem Hosted.releases_of_run (h : fs.Hosted n) (hsize : fs.layout.inodeSize = 128)
    {first : Prop} [Decidable first] {inode : Inode} (htrunc : inode.raw.trunc 128 = inode.raw)
    (hrun : (do
        (if first then writeInode n inode else pure ())
        recordSize n size : Action Unit).run fs = .ok () fs') :
    ∃ touched, Releases fs (fun _ => False) touched fs' := by
  split at hrun
  case isTrue =>
    obtain ⟨fs₁, hrun₁, hr₁, -⟩ := h.run_writeInode hsize htrunc
    have h₁ := h.releases hr₁ not_false h.bitmap_ne_table not_false
    obtain ⟨fs₂, hrun₂, hr₂, -⟩ := h₁.run_recordSize (by rw [hr₁.layout]; exact hsize) size
    have hsame := hrun.symm.trans ((run_bind_ok hrun₁).trans hrun₂)
    injection hsame with _ hsame
    exact ⟨_, hsame ▸ (hr₁.trans hr₂).congr (fun _ => or_self_iff) fun _ _ => id⟩
  case isFalse =>
    obtain ⟨fs₁, hrun₁, hr₁, -⟩ := h.run_recordSize hsize size
    have hsame := hrun.symm.trans ((run_bind_ok (EStateM.run_pure _ _)).trans hrun₁)
    injection hsame with _ hsame
    exact ⟨_, hsame ▸ hr₁⟩

/-- Shrinking a file by one block, or by less, cannot go well otherwise. -/
theorem Hosted.of_shrinks (h : fs.Hosted n) (hb : fs.Backed n (fs.blocks n))
    (hlast : fs.blocksFor size = fs.blocks n ∨ fs.blocksFor size + 1 = fs.blocks n)
    (hs : fs.Shrinks n size) :
    fs.layout.inodeSize = 128 ∧ (fs.blocksFor size = fs.blocks n ∨ fs.blocks n ≤ 13) := by
  obtain ⟨fs', hrun, hfree, hlookup⟩ := hs
  have hsize := h.inode_size_of_run hb hlast hrun
  refine ⟨hsize, hlast.imp id fun hlast => ?_⟩
  by_contra hgt
  obtain ⟨fs₁, hd, h₁, -, hrun₁⟩ := h.run_resizeInode_last hb hlast
  have hg := h.placed.geometry
  have hk : fs.blocksFor size < fs.blocks n := by omega
  have hge : 13 ≤ fs.blocksFor size := by omega
  generalize fs.blocksFor size = k at *
  have hmap : k < fs.layout.mapSize := Nat.lt_of_lt_of_le hk hb.le
  have hsize₁ : fs₁.layout.inodeSize = 128 := by
    rw [hd.releases.layout]
    exact hsize
  rcases List.eq_nil_or_concat' (fs.layout.path k).2 with hnil | ⟨js, i, hsplit⟩
  · exact absurd hnil (hg.path_ne_nil hmap (by omega))
  obtain ⟨r, hπ⟩ : ∃ r, fs.layout.path k = (r, js ++ [i]) := ⟨_, by rw [← hsplit]⟩
  have hneeds := fs.layout.needs_path hk
  rw [hπ] at hneeds
  have hleaf : fs.layout.Needs (fs.blocks n) (r, js) := hneeds.shorter rfl
  by_cases hi : i = 0
  · -- The indirect block is no longer needed, but it stays allocated.
    subst hi
    have hne : js ≠ [] := by
      rintro rfl
      have hindex : k = 12 + 0 := hg.index_eq hmap hπ
      omega
    refine hd.leaf_kept hb hk hπ hne ?_
    obtain ⟨touched, hr⟩ := h₁.releases_of_run hsize₁
      (trunc_setBlockPtr fs n 0 (hg.isPath_path hmap).1.root_lt) (hrun₁.symm.trans hrun)
    have hfreed := (hfree _).mpr (.inr ⟨(r, js), hleaf, hg.not_needs_leaf hmap hπ, rfl⟩)
    rwa [hr.isFree, or_false] at hfreed
  · -- The indirect block is needed, but it has been overwritten.
    have hfirst : ¬ fs.layout.IsFirst k := fun hf => hi (hf i (by rw [hπ]; simp))
    rw [if_neg hfirst] at hrun₁
    obtain ⟨fs'', hrecord, hr, hroot, -⟩ := h₁.run_recordSize hsize₁ size
    obtain rfl : fs' = fs'' := by
      have := hrun.symm.trans (hrun₁.trans ((run_bind_ok (EStateM.run_pure _ _)).trans hrecord))
      injection this
    obtain ⟨k', hk', hπ'⟩ := hg.exists_sibling hmap hπ (show 0 < _ from
      Nat.lt_of_lt_of_le (by decide) hg.entriesPerBlock_ge)
    have hlt : k' < k := by
      have hindex := hg.index_eq hmap hπ
      have hindex' := hg.index_eq hk' hπ'
      omega
    have hlookup' := (hlookup k' hlt).trans (hb.lookup h (Nat.lt_trans hlt hk))
    refine (hb.inUse _ (fs.layout.needs_path (Nat.lt_trans hlt hk))).not_reserved ?_
    exact hd.lookup_lost hb hk h hfirst hπ hi hr hroot hπ' hlookup'

end FileSystem

end LudOS.Ext2
