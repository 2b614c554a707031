import LudOS.Ext2.Accounting
import LudOS.Ext2.Ownership

/-!
# Allocating blocks of a file

`alloc_data_block` hangs a new block into the block map of an inode, together with the indirect
blocks that are missing on the way. `alloc_indirected` holds on to the scratch buffer as the
indirect block while `alloc_block` uses the same buffer for bitmaps and descriptors. When it comes
back, the buffer holds a block of the descriptor table, and that block, with the new entry set in
it, is what is stored over the indirect block.

`Grows` is the frame of all of this: what a sequence of allocations and stores leaves alone.
`run_allocIndirected` is the walk down a tree with everything it does on the way.
-/

namespace LudOS.Ext2

open Lib

/-! ## The functions -/

/-- `block[index] = value`, where `block` is the scratch buffer as an array of 32-bit numbers. -/
def setWordAt (index value : Nat) : Action Unit := do
  let fs ← get
  check .outOfBounds (4 * index + 4 ≤ fs.layout.blockSize)
  set (fs.withCurrent (fs.currentBlock.putU32 (4 * index) value))

/-- `block[index] = alloc_block(block_group); write_block(indirected_block, m_current_block)`. -/
def allocEntry (blockGroup indirectedBlock index : Nat) : Action Unit := do
  let block ← allocBlock blockGroup
  setWordAt index block
  storeBlock indirectedBlock

/-- `Ext2FS::alloc_indirected`. -/
def allocIndirected (blockGroup : Nat) : (depth indirectedBlock blkId : Nat) → Action Unit
  | 0, indirectedBlock, blkId | 1, indirectedBlock, blkId => do
    loadBlock indirectedBlock
    allocEntry blockGroup indirectedBlock blkId
  | depth + 2, indirectedBlock, blkId => do
    let layout ← getLayout
    let tgtBlockIdx := blkId / layout.span (depth + 1)
    let offset := blkId % layout.span (depth + 1)
    loadBlock indirectedBlock
    let block ← wordAt tgtBlockIdx
    (if block = 0 then allocEntry blockGroup indirectedBlock tgtBlockIdx else pure ())
    let block ← wordAt tgtBlockIdx
    allocIndirected blockGroup (depth + 1) block offset

/-- The part of `Ext2FS::alloc_data_block` for a block index behind `block_ptr[root]`: a missing
root is allocated and stored in the inode first. -/
def allocTree (inode : Nat) (info : Inode) (blockGroup root depth blkId : Nat) : Action Unit := do
  let info ←
    (if info.blockPtr root = 0 then do
      let block ← allocBlock blockGroup
      writeInode inode (info.setBlockPtr root block)
      pure (info.setBlockPtr root block)
    else pure info)
  allocIndirected blockGroup depth (info.blockPtr root) blkId

/-- `Ext2FS::alloc_data_block`. -/
def allocDataBlock (inode blkId : Nat) : Action Unit := do
  let layout ← getLayout
  let entries := layout.entriesPerBlock
  let info ← readInode inode
  let blockGroup := inode / layout.inodesInBlockGroup
  if blkId < 12 then do
    let block ← allocBlock blockGroup
    writeInode inode (info.setBlockPtr blkId block)
  else if blkId - 12 < entries then allocTree inode info blockGroup 12 1 (blkId - 12)
  else if blkId - 12 - entries < wmul entries entries then
    allocTree inode info blockGroup 13 2 (blkId - 12 - entries)
  else allocTree inode info blockGroup 14 3 (blkId - 12 - entries - wmul entries entries)

namespace FileSystem

variable {fs fs' fs₁ fs₂ : FileSystem} {g preferredGroup p k : Nat}

/-! ## Stores that the accounting does not see -/

/-- The superblock and all blocks that hold allocation metadata are the same. -/
structure SameAccounting (fs fs' : FileSystem) : Prop where
  superblock : fs'.superblock = fs.superblock
  zeroes : fs'.zeroes = fs.zeroes
  block : ∀ k, fs.IsReserved k → fs'.block k = fs.block k

namespace SameAccounting

variable (hs : SameAccounting fs fs')

include hs

theorem layout : fs'.layout = fs.layout := congrArg Superblock.layout hs.superblock

theorem isCopy (k : Nat) : fs'.IsCopy k ↔ fs.IsCopy k := by
  unfold IsCopy hasBackup
  rw [hs.layout]

theorem descriptor {g₀ : Nat} (hg₀ : g₀ < fs.layout.blockGroups)
    (hslot : fs.layout.tableBlock g = fs.layout.tableBlock g₀) :
    fs'.descriptor g = fs.descriptor g := by
  unfold FileSystem.descriptor
  rw [hs.layout, hs.block _ (.inr ⟨g₀, hg₀, .inl hslot⟩)]

theorem bitmapBlock (hg : g < fs.layout.blockGroups) : fs'.bitmapBlock g = fs.bitmapBlock g := by
  unfold FileSystem.bitmapBlock
  rw [hs.descriptor hg rfl]

theorem freeBits (hg : g < fs.layout.blockGroups) : fs'.freeBits g = fs.freeBits g := by
  unfold FileSystem.freeBits FileSystem.bitmap
  rw [hs.layout, hs.bitmapBlock hg, hs.block _ (.inr ⟨g, hg, .inr rfl⟩)]

theorem freeCount {g₀ : Nat} (hg₀ : g₀ < fs.layout.blockGroups)
    (hslot : fs.layout.tableBlock g = fs.layout.tableBlock g₀) :
    fs'.freeCount g = fs.freeCount g := by
  unfold FileSystem.freeCount
  rw [hs.descriptor hg₀ hslot]

theorem isReserved (k : Nat) : fs'.IsReserved k ↔ fs.IsReserved k :=
  isReserved_congr hs.layout hs.isCopy (fun _ hg => hs.bitmapBlock hg) k

theorem isFree (k : Nat) : fs'.IsFree k ↔ fs.IsFree k := by
  unfold IsFree
  rw [hs.layout]
  refine exists_congr fun g => and_congr_right fun hg => ?_
  rw [hs.freeBits hg]

theorem placed (h : Placed fs) : Placed fs' := by
  refine h.of_same_blocks hs.layout (hs.zeroes ▸ h.zeroes) hs.isCopy
    (fun _ hg => hs.bitmapBlock hg) fun g hg j hj => ?_
  rw [hs.freeBits hg] at hj
  exact ⟨h.free_in_group g hg j hj, h.blockOf_lt hg hj, h.free_not_reserved _ ⟨g, hg, j, hj, rfl⟩⟩

theorem balanced (h : Balanced fs) : Balanced fs' := by
  constructor
  case counts =>
    intro g hg
    rw [hs.layout] at hg
    rw [hs.freeCount hg rfl, hs.freeBits hg]
    exact h.counts g hg
  case total =>
    rw [hs.superblock, hs.layout, h.total]
    exact Finset.sum_congr rfl fun g hg => (hs.freeCount (Finset.mem_range.mp hg) rfl).symm

end SameAccounting

/-- A block without allocation metadata can be replaced. -/
theorem sameAccounting_putBlock (hk : ¬ fs.IsReserved k) (data : Bytes) :
    SameAccounting fs (fs.putBlock k data) :=
  ⟨rfl, rfl, fun k' hk' => block_putBlock_other (fun heq : k' = k => hk (heq ▸ hk')) data⟩

/-! ## The frame of an allocation -/

/-- `alloc_block` can be called with this preferred group: it exists, or it is the unused slot of a
descriptor in a block of the table that promises nothing. -/
def Usable (fs : FileSystem) (g : Nat) : Prop :=
  g < fs.layout.blockGroups ∨
    (∃ g₀ < fs.layout.blockGroups, fs.layout.tableBlock g = fs.layout.tableBlock g₀) ∧
      fs.freeCount g = 0

theorem Usable.acceptable (hu : fs.Usable g) (h : Placed fs) : Acceptable fs g := by
  rcases hu with hlt | ⟨⟨g₀, hg₀, hslot⟩, hcount⟩
  · exact .inl hlt
  · exact .inr ⟨hslot ▸ h.table_lt hg₀, hcount⟩

/-- What allocations and stores to the `touched` blocks leave alone. Blocks that are in use and hold
no allocation metadata keep their content, the metadata stays where it is and consistent, and no
block becomes free. -/
structure Grows (fs : FileSystem) (touched : Nat → Prop) (fs' : FileSystem) : Prop where
  layout : fs'.layout = fs.layout
  placed : Placed fs'
  balanced : Balanced fs'
  isReserved : ∀ k, fs'.IsReserved k ↔ fs.IsReserved k
  isFree : ∀ k, fs'.IsFree k → fs.IsFree k
  descriptor : ∀ g < fs.layout.blockGroups, ∀ off, off + 4 ≤ 12 →
    (fs'.descriptor g).raw.u32 off = (fs.descriptor g).raw.u32 off
  usable : ∀ g, fs.Usable g → fs'.Usable g
  frame : ∀ k, ¬ fs.IsReserved k → ¬ fs.IsFree k → ¬ touched k → fs'.block k = fs.block k

namespace Grows

variable {touched touched₁ touched₂ : Nat → Prop}

/-- The scratch buffer plays no part in the frame. -/
theorem of_withCurrent {c : Bytes} (h : Grows (fs.withCurrent c) touched fs') :
    Grows fs touched fs' :=
  { h with }

theorem mono (h : Grows fs touched₁ fs') (hsub : ∀ k, touched₁ k → touched₂ k) :
    Grows fs touched₂ fs' :=
  { h with frame := fun k hreserved hfree hk => h.frame k hreserved hfree fun ht => hk (hsub k ht) }

/-- Blocks that were free to begin with are not part of the frame. -/
theorem trans (h₁ : Grows fs touched₁ fs₁) (h₂ : Grows fs₁ touched₂ fs₂)
    (htouched : ∀ k, ¬ fs.IsFree k → touched₁ k ∨ touched₂ k → touched k) :
    Grows fs touched fs₂ := by
  constructor
  case layout => rw [h₂.layout, h₁.layout]
  case placed => exact h₂.placed
  case balanced => exact h₂.balanced
  case isReserved => exact fun k => (h₂.isReserved k).trans (h₁.isReserved k)
  case isFree => exact fun k hk => h₁.isFree k (h₂.isFree k hk)
  case descriptor =>
    intro g hg off hoff
    rw [h₂.descriptor g (h₁.layout ▸ hg) off hoff, h₁.descriptor g hg off hoff]
  case usable => exact fun g hg => h₂.usable g (h₁.usable g hg)
  case frame =>
    intro k hreserved hfree hk
    rw [h₂.frame k (fun hr => hreserved ((h₁.isReserved k).mp hr))
      (fun hf => hfree (h₁.isFree k hf))
      fun ht => hk (htouched k hfree (.inr ht))]
    exact h₁.frame k hreserved hfree fun ht => hk (htouched k hfree (.inl ht))

section

variable (h : Placed fs) (hb : Balanced fs) (hk : ¬ fs.IsReserved k)

include h hb hk

/-- A store to a block without allocation metadata. -/
theorem store (data : Bytes) : Grows fs (· = k) (fs.putBlock k data) := by
  have hs := sameAccounting_putBlock hk data
  constructor
  case layout => rfl
  case placed => exact hs.placed h
  case balanced => exact hs.balanced hb
  case isReserved => exact hs.isReserved
  case isFree => exact fun k hk => (hs.isFree k).mp hk
  case descriptor =>
    intro g hg off _
    rw [hs.descriptor hg rfl]
  case usable =>
    rintro g (hlt | ⟨⟨g₀, hg₀, hslot⟩, hcount⟩)
    · exact .inl hlt
    · exact .inr ⟨⟨g₀, hg₀, hslot⟩, (hs.freeCount hg₀ hslot).trans hcount⟩
  case frame => exact fun k' _ _ hne => block_putBlock_other hne data

/-- A store of the scratch buffer to such a block. -/
theorem store_current (c : Bytes) : Grows fs (· = k) ((fs.withCurrent c).putBlock k c) :=
  (store (h.withCurrent c) (hb.withCurrent c) hk c).of_withCurrent

end

end Grows

/-- Allocations whose number the counter shows have taken these blocks and no others. -/
theorem Grows.isFree_iff {touched : Nat → Prop} (hgrows : Grows fs touched fs') (h : Placed fs)
    (hb : Balanced fs) {taken : Finset Nat} (htaken : ∀ v ∈ taken, fs.IsFree v ∧ ¬ fs'.IsFree v)
    (hcount : fs'.superblock.unallocatedBlocks + taken.card = fs.superblock.unallocatedBlocks)
    (k : Nat) : fs.IsFree k ↔ fs'.IsFree k ∨ k ∈ taken := by
  have hsub : fs'.freeBlocks ∪ taken ⊆ fs.freeBlocks := by
    intro v hv
    rw [mem_freeBlocks]
    rcases Finset.mem_union.mp hv with hv | hv
    · exact hgrows.isFree v (mem_freeBlocks.mp hv)
    · exact (htaken v hv).1
  have hdisjoint : Disjoint fs'.freeBlocks taken :=
    Finset.disjoint_left.mpr fun v hv hv' => (htaken v hv').2 (mem_freeBlocks.mp hv)
  have heq := Finset.eq_of_subset_of_card_le hsub (by
    rw [Finset.card_union_of_disjoint hdisjoint, hgrows.balanced.card_freeBlocks hgrows.placed,
      hb.card_freeBlocks h, hcount])
  rw [← mem_freeBlocks, ← heq, Finset.mem_union, mem_freeBlocks]

/-- What `alloc_block` leaves alone. -/
theorem Allocated.grows {j : Nat} (ha : Allocated fs g j fs') (h : Placed fs) (hb : Balanced fs)
    (hg : g < fs.layout.blockGroups) (hj : j ∈ fs.freeBits g) : Grows fs (fun _ => False) fs' := by
  constructor
  case layout => exact ha.layout
  case placed => exact ha.placed h hg
  case balanced => exact ha.balanced h hb hg hj
  case isReserved => exact ha.toRecounted.isReserved h hg
  case isFree => exact fun k hk => ((ha.isFree h hg hj k).mp hk).1
  case descriptor => exact fun g' hg' off hoff => ha.toRecounted.u32_descriptor h hg hg' hoff
  case usable =>
    rintro g' (hlt | ⟨⟨g₀, hg₀, hslot⟩, hcount⟩)
    · exact .inl (ha.layout ▸ hlt)
    · refine .inr ⟨⟨g₀, ha.layout ▸ hg₀, by rw [ha.layout]; exact hslot⟩, ?_⟩
      have hle := h.card_freeBits_le g
      have hcounts := hb.counts g hg
      rw [ha.toRecounted.freeCount h hg (by omega) hg₀ hslot]
      split
      case isTrue heq =>
        subst heq
        rw [hcount]
      case isFalse => exact hcount
  case frame =>
    intro k hreserved hfree _
    exact ha.frame k (fun hc => hreserved (.inl hc)) (fun heq => hreserved (.inr ⟨g, hg, .inr heq⟩))
      (fun heq => hreserved (.inr ⟨g, hg, .inl heq⟩)) hfree

/-! ## One new block -/

/-- What `alloc_block` leaves in the scratch buffer: the descriptor table block of the group it
takes the block from, with the counter of the group lowered. -/
def allocTable (fs : FileSystem) (preferredGroup : Nat) : Bytes :=
  match fs.chosenGroup preferredGroup with
  | some g => fs.newTable g (fs.recount g (fs.freeCount g - 1))
  | none => fun _ => 0

/-- Block `v` has been allocated. -/
structure Took (fs : FileSystem) (preferredGroup v : Nat) (fs' : FileSystem) : Prop where
  grows : Grows fs (fun _ => False) fs'
  free : fs.IsFree v
  taken : ¬ fs'.IsFree v
  fresh : fs'.block v = fun _ => 0
  current : fs'.currentBlock = fs.allocTable preferredGroup
  unallocated : fs'.superblock.unallocatedBlocks + 1 = fs.superblock.unallocatedBlocks

/-- A volume with unallocated blocks has a group to take one from. -/
theorem exists_chosenGroup (hb : Balanced fs)
    (hacc : Acceptable fs preferredGroup) (hpos : 0 < fs.superblock.unallocatedBlocks) :
    ∃ g, fs.chosenGroup preferredGroup = some g := by
  refine Option.ne_none_iff_exists'.mp fun hnone => ?_
  have hempty := (chosenGroup_eq_none hb hacc).mp hnone
  have hzero : ∑ g ∈ Finset.range fs.layout.blockGroups, fs.freeCount g = 0 := by
    refine Finset.sum_eq_zero fun g hg => ?_
    rw [hb.counts g (Finset.mem_range.mp hg), hempty g (Finset.mem_range.mp hg), Finset.card_empty]
  have htotal := hb.total
  omega

theorem run_allocBlock (h : Placed fs) (hb : Balanced fs)
    (hu : fs.Usable preferredGroup) (hpos : 0 < fs.superblock.unallocatedBlocks) :
    ∃ v fs', (allocBlock preferredGroup).run fs = .ok v fs' ∧ Took fs preferredGroup v fs' := by
  have hacc := hu.acceptable h
  obtain ⟨g, hchosen⟩ := exists_chosenGroup hb hacc hpos
  obtain ⟨hg, -⟩ := hacc.chosenGroup_lt hchosen
  obtain ⟨j, hj, fs', hrun, ha⟩ := run_allocBlock_some h hb hacc hchosen
  refine ⟨_, fs', hrun, ?_⟩
  constructor
  case grows => exact ha.grows h hb hg hj
  case free => exact ⟨g, hg, j, hj, rfl⟩
  case taken => exact fun hf => ((ha.isFree h hg hj _).mp hf).2 rfl
  case fresh => exact ha.fresh
  case current =>
    unfold allocTable
    rw [hchosen]
    exact ha.current
  case unallocated =>
    rw [ha.unallocated, wsub_of_le hpos (Bytes.u32_lt _ _)]
    omega

/-- Block `k` is on the volume, in use, and holds no allocation metadata. -/
structure InUse (fs : FileSystem) (k : Nat) : Prop where
  lt : k < fs.layout.blockCount
  not_reserved : ¬ fs.IsReserved k
  not_free : ¬ fs.IsFree k

theorem Grows.inUse {touched : Nat → Prop} (hgrows : Grows fs touched fs')
    (hk : fs.InUse k) : fs'.InUse k :=
  ⟨hgrows.layout ▸ hk.lt, fun hr => hk.not_reserved ((hgrows.isReserved k).mp hr),
    fun hf => hk.not_free (hgrows.isFree k hf)⟩

theorem IsFree.ne_zero (hk : fs.IsFree k) : k ≠ 0 := by
  obtain ⟨g, -, j, -, rfl⟩ := hk
  unfold Layout.blockOf
  omega

theorem Took.inUse {v : Nat} (ht : Took fs preferredGroup v fs') (h : Placed fs) : fs'.InUse v :=
  ⟨ht.grows.layout ▸ h.free_lt v ht.free,
    fun hr => h.free_not_reserved v ht.free ((ht.grows.isReserved v).mp hr), ht.taken⟩

/-- Block `v` has been allocated and entered at position `i` of the indirect block `p`. -/
structure Entered (fs : FileSystem) (preferredGroup p i v : Nat) (fs' : FileSystem) : Prop where
  grows : Grows fs (· = p) fs'
  free : fs.IsFree v
  inUse : fs'.InUse v
  fresh : fs'.block v = fun _ => 0
  stored : fs'.block p = (fs.allocTable preferredGroup).putU32 (4 * i) v
  current : fs'.currentBlock = fs'.block p
  unallocated : fs'.superblock.unallocatedBlocks + 1 = fs.superblock.unallocatedBlocks

theorem trunc_allocTable (h : Placed fs) (hchosen : ∃ g, fs.chosenGroup preferredGroup = some g) :
    (fs.allocTable preferredGroup).trunc fs.layout.blockSize = fs.allocTable preferredGroup := by
  obtain ⟨g, hchosen⟩ := hchosen
  unfold allocTable
  rw [hchosen]
  exact trunc_newTable h.addressable g _

theorem run_allocEntry {i : Nat} (h : Placed fs) (hb : Balanced fs)
    (hu : fs.Usable preferredGroup) (hpos : 0 < fs.superblock.unallocatedBlocks) (hp : fs.InUse p)
    (hi : 4 * i + 4 ≤ fs.layout.blockSize) :
    ∃ v fs', (allocEntry preferredGroup p i).run fs = .ok () fs' ∧
      Entered fs preferredGroup p i v fs' := by
  obtain ⟨v, fs₁, hrun, ht⟩ := run_allocBlock h hb hu hpos
  have hp₁ := ht.grows.inUse hp
  have hne : v ≠ p := fun heq => hp.not_free (heq ▸ ht.free)
  generalize hword : (fs.allocTable preferredGroup).putU32 (4 * i) v = word
  have htrunc : word.trunc fs₁.layout.blockSize = word := by
    rw [← hword, ht.grows.layout]
    unfold Bytes.putU32
    rw [Bytes.trunc_splice hi, trunc_allocTable h (exists_chosenGroup hb (hu.acceptable h) hpos)]
  have hset : (setWordAt i v).run fs₁ = .ok () (fs₁.withCurrent word) := by
    unfold setWordAt
    rw [run_get_bind, ← hword, ← ht.current]
    exact run_check_bind (ht.grows.layout ▸ hi)
  have hstore : (storeBlock p).run (fs₁.withCurrent word) =
      .ok () ((fs₁.withCurrent word).putBlock p word) :=
    run_storeBlock (show Addressable (fs₁.withCurrent word).layout from ht.grows.placed.addressable)
      hp₁.lt
  have hgrows := Grows.store_current ht.grows.placed ht.grows.balanced hp₁.not_reserved word
  refine ⟨v, (fs₁.withCurrent word).putBlock p word, ?_, ?_⟩
  · unfold allocEntry
    rw [run_bind_ok hrun, run_bind_ok hset, hstore]
  constructor
  case grows => exact ht.grows.trans hgrows fun k _ hk => hk.resolve_left id
  case free => exact ht.free
  case inUse => exact hgrows.inUse (ht.inUse h)
  case fresh => rw [block_putBlock_other hne, block_withCurrent, ht.fresh]
  case stored => rw [block_putBlock_same, layout_withCurrent, htrunc, hword]
  case current =>
    rw [block_putBlock_same, layout_withCurrent, htrunc]
    rfl
  case unallocated => exact ht.unallocated

namespace Entered

variable {preferredGroup p i v : Nat} (he : Entered fs preferredGroup p i v fs')

include he

/-- The new entry leads to the new block. -/
theorem entry_same (h : Placed fs) : fs'.entry p i = v := by
  have hlt := h.free_lt v he.free
  have hle := h.block_count_le
  unfold entry
  rw [he.stored, Bytes.u32_putU32_same, Nat.mod_eq_of_lt (by omega)]

/-- All other entries are what the descriptor table happens to hold. -/
theorem entry_other {j : Nat} (hj : j ≠ i) :
    fs'.entry p j = (fs.allocTable preferredGroup).u32 (4 * j) := by
  unfold entry
  rw [he.stored, Bytes.u32_putU32_other (by omega)]

/-- The new block has no entries. -/
theorem entry_fresh (j : Nat) : fs'.entry v j = 0 := by
  unfold entry
  rw [he.fresh]
  rfl

end Entered

/-! ## The walk down a tree -/

/-- What `alloc_indirected` needs for a path below block `p` that breaks off somewhere. -/
structure Ready (fs : FileSystem) (preferredGroup p : Nat) (is : List Nat) : Prop where
  placed : Placed fs
  balanced : Balanced fs
  usable : fs.Usable preferredGroup
  root : p ≠ 0
  inUse : ∀ n ∈ Walk.trail fs.entry 0 p is, fs.InUse n
  nodup : (Walk.trail fs.entry 0 p is).Nodup
  entries : ∀ i ∈ is, 4 * i + 4 ≤ fs.layout.blockSize
  unmapped : Walk.resolve fs.entry 0 p is = 0
  enough : is.length + 1 ≤ fs.superblock.unallocatedBlocks + (Walk.trail fs.entry 0 p is).length

/-- What `alloc_indirected` has done. The path leads to a new block `v`, and the indirect block
`last` where it used to break off has been overwritten, with all of its entries but `t`. -/
structure Hung (fs : FileSystem) (preferredGroup p : Nat) (is : List Nat) (last t v : Nat)
    (fs' : FileSystem) : Prop where
  gap : Walk.gap fs.entry 0 p is = some (last, t)
  grows : Grows fs (· = last) fs'
  free : fs.IsFree v
  follow : Walk.follow fs'.entry p is = v
  visited_lt : ∀ n ∈ Walk.visited fs'.entry p is, n < fs.layout.blockCount
  overwritten : ∀ j, j ≠ t → fs'.entry last j = (fs.allocTable preferredGroup).u32 (4 * j)

namespace Ready

variable {preferredGroup p i i' v : Nat} {is rest : List Nat}

theorem withCurrent (h : Ready fs preferredGroup p is) (c : Bytes) :
    Ready (fs.withCurrent c) preferredGroup p is :=
  { h with
    placed := h.placed.withCurrent c
    balanced := h.balanced.withCurrent c
    inUse := fun n hn => { h.inUse n hn with } }

section

variable (h : Ready fs preferredGroup p (i :: rest))

include h

theorem inUse_root : fs.InUse p := by
  refine h.inUse p ?_
  rw [Walk.trail_cons h.root]
  exact List.mem_cons_self

theorem entry_le : 4 * i + 4 ≤ fs.layout.blockSize := h.entries i List.mem_cons_self

/-- An existing entry leads on. -/
theorem below (hne : fs.entry p i ≠ 0) : Ready fs preferredGroup (fs.entry p i) rest := by
  have htrail : Walk.trail fs.entry 0 p (i :: rest) = _ := Walk.trail_cons h.root
  have hunmapped := h.unmapped
  have henough := h.enough
  rw [Walk.resolve_cons, if_neg h.root] at hunmapped
  rw [htrail, List.length_cons, List.length_cons] at henough
  exact { h with
    root := hne
    inUse := fun n hn => h.inUse n (htrail ▸ List.mem_cons_of_mem p hn)
    nodup := (List.nodup_cons.mp (htrail ▸ h.nodup)).2
    entries := fun j hj => h.entries j (List.mem_cons_of_mem i hj)
    unmapped := hunmapped
    enough := by omega }

theorem entry_eq_zero (hleaf : rest = []) : fs.entry p i = 0 := by
  have hunmapped := h.unmapped
  rwa [Walk.resolve_cons, if_neg h.root, hleaf, Walk.resolve_nil] at hunmapped

/-- At a missing entry there is at least one block left to be allocated. -/
theorem unallocated_pos (hnone : fs.entry p i = 0) :
    rest.length + 1 ≤ fs.superblock.unallocatedBlocks := by
  have henough := h.enough
  rw [Walk.trail_cons h.root, hnone, Walk.trail_null] at henough
  simp only [List.length_cons, List.length_nil] at henough
  omega

end

/-- A new block without entries is ready for a path. -/
theorem of_fresh {touched : Nat → Prop} (hg : Grows fs touched fs') (hu : fs.Usable preferredGroup)
    (hv : v ≠ 0) (huse : fs'.InUse v) (hentry : ∀ j, fs'.entry v j = 0)
    (hentries : ∀ j ∈ i :: rest, 4 * j + 4 ≤ fs.layout.blockSize)
    (henough : rest.length + 1 ≤ fs'.superblock.unallocatedBlocks) :
    Ready fs' preferredGroup v (i :: rest) := by
  have htrail : Walk.trail fs'.entry 0 v (i :: rest) = [v] := by
    rw [Walk.trail_cons hv, hentry, Walk.trail_null]
  constructor
  case placed => exact hg.placed
  case balanced => exact hg.balanced
  case usable => exact hg.usable _ hu
  case root => exact hv
  case inUse =>
    intro n hn
    rw [htrail, List.mem_singleton] at hn
    exact hn ▸ huse
  case nodup =>
    rw [htrail]
    exact List.nodup_singleton v
  case entries => exact hg.layout ▸ hentries
  case unmapped => rw [Walk.resolve_cons, if_neg hv, hentry, Walk.resolve_null]
  case enough =>
    rw [htrail, List.length_cons]
    exact Nat.succ_le_succ henough

/-- A new indirect block is ready for the rest of the path. -/
theorem fresh (h : Ready fs preferredGroup p (i :: i' :: rest)) (hnone : fs.entry p i = 0)
    (he : Entered fs preferredGroup p i v fs') : Ready fs' preferredGroup v (i' :: rest) := by
  have henough := h.unallocated_pos hnone
  have hunallocated := he.unallocated
  rw [List.length_cons] at henough
  exact of_fresh he.grows h.usable he.free.ne_zero he.inUse he.entry_fresh
    (fun j hj => h.entries j (List.mem_cons_of_mem i hj)) (by omega)

end Ready

namespace Hung

variable {preferredGroup p i i' last t v v₁ : Nat} {rest : List Nat}

/-- The entry of the last level. -/
theorem leaf (h : Ready fs preferredGroup p [i]) (he : Entered fs preferredGroup p i v fs') :
    Hung fs preferredGroup p [i] p i v fs' := by
  constructor
  case gap => rw [Walk.gap_cons h.root, if_pos (h.entry_eq_zero rfl)]
  case grows => exact he.grows
  case free => exact he.free
  case follow => exact he.entry_same h.placed
  case visited_lt =>
    intro n hn
    rw [List.mem_singleton.mp hn]
    exact h.inUse_root.lt
  case overwritten => exact fun j hj => he.entry_other hj

/-- Below a block without entries, everything is hung into that block itself. -/
theorem last_eq (hh : Hung fs preferredGroup p (i :: rest) last t v fs') (hp : p ≠ 0)
    (hnone : fs.entry p i = 0) : p = last := by
  have hgap := hh.gap
  rw [Walk.gap_cons hp, if_pos hnone] at hgap
  exact congrArg Prod.fst (Option.some.inj hgap)

/-- A missing entry, and what has been hung below the new block. -/
theorem above_fresh (h : Ready fs preferredGroup p (i :: i' :: rest)) (hnone : fs.entry p i = 0)
    (he : Entered fs preferredGroup p i v₁ fs₁)
    (hh : Hung fs₁ preferredGroup v₁ (i' :: rest) last t v fs') :
    Hung fs preferredGroup p (i :: i' :: rest) p i v fs' := by
  obtain rfl := hh.last_eq he.free.ne_zero (he.entry_fresh i')
  have hne : p ≠ v₁ := fun heq => h.inUse_root.not_free (heq ▸ he.free)
  have hp₁ := he.grows.inUse h.inUse_root
  have hblock : fs'.block p = fs₁.block p := hh.grows.frame p hp₁.not_reserved hp₁.not_free hne
  have hentry : ∀ j, fs'.entry p j = fs₁.entry p j := fun j => by
    unfold entry
    rw [hblock]
  have hnext : fs'.entry p i = v₁ := (hentry i).trans (he.entry_same h.placed)
  constructor
  case gap => rw [Walk.gap_cons h.root, if_pos hnone]
  case grows =>
    refine he.grows.trans hh.grows fun k hfree hk => ?_
    rcases hk with hk | rfl
    · exact hk
    · exact absurd he.free hfree
  case free => exact he.grows.isFree v hh.free
  case follow =>
    show Walk.follow fs'.entry (fs'.entry p i) (i' :: rest) = v
    rw [hnext, hh.follow]
  case visited_lt =>
    intro n hn
    rcases List.mem_cons.mp hn with rfl | hn
    · exact h.inUse_root.lt
    · rw [hnext] at hn
      rw [← he.grows.layout]
      exact hh.visited_lt n hn
  case overwritten => exact fun j hj => (hentry j).trans (he.entry_other hj)

/-- An existing entry, and what has been hung below it. -/
theorem above (h : Ready fs preferredGroup p (i :: rest)) (hne : fs.entry p i ≠ 0)
    (hh : Hung fs preferredGroup (fs.entry p i) rest last t v fs') :
    Hung fs preferredGroup p (i :: rest) last t v fs' := by
  have htrail : Walk.trail fs.entry 0 p (i :: rest) = _ := Walk.trail_cons h.root
  have hlast : p ≠ last := by
    rintro rfl
    exact (List.nodup_cons.mp (htrail ▸ h.nodup)).1 (Walk.gap_eq_some hh.gap).1
  have hp := h.inUse_root
  have hnext : fs'.entry p i = fs.entry p i := by
    unfold entry
    rw [hh.grows.frame p hp.not_reserved hp.not_free hlast]
  refine { hh with gap := ?_, follow := ?_, visited_lt := ?_ }
  · rw [Walk.gap_cons h.root, if_neg hne, hh.gap]
  · show Walk.follow fs'.entry (fs'.entry p i) rest = v
    rw [hnext, hh.follow]
  · intro n hn
    rcases List.mem_cons.mp hn with rfl | hn
    · exact hp.lt
    · rw [hnext] at hn
      exact hh.visited_lt n hn

theorem of_withCurrent {c : Bytes}
    (h : Hung (fs.withCurrent c) preferredGroup p rest last t v fs') :
    Hung fs preferredGroup p rest last t v fs' :=
  { h with grows := h.grows.of_withCurrent }

end Hung

theorem exists_indices_eq_cons (l : Layout) (depth blkId : Nat) :
    ∃ i is, l.indices (depth + 1) blkId = i :: is := by
  cases depth <;> exact ⟨_, _, rfl⟩

/-- The last level of `alloc_indirected`. -/
theorem run_allocLeaf {i : Nat} (h : Ready fs preferredGroup p [i]) :
    ∃ last t v fs', (do
        loadBlock p
        allocEntry preferredGroup p i : Action Unit).run fs = .ok () fs' ∧
      Hung fs preferredGroup p [i] last t v fs' := by
  have hr := h.withCurrent (fs.block p)
  obtain ⟨v, fs', hrun, he⟩ := run_allocEntry hr.placed hr.balanced hr.usable
    (hr.unallocated_pos (hr.entry_eq_zero rfl)) hr.inUse_root hr.entry_le
  refine ⟨p, i, v, fs', ?_, (Hung.leaf hr he).of_withCurrent⟩
  rw [run_bind_ok (run_loadBlock h.placed.addressable h.inUse_root.lt), hrun]

/-- `alloc_indirected` hangs a new block into the tree, with all indirect blocks on the way. -/
theorem run_allocIndirected {depth blkId : Nat}
    (h : Ready fs preferredGroup p (fs.layout.indices depth blkId)) :
    ∃ last t v fs', (allocIndirected preferredGroup depth p blkId).run fs = .ok () fs' ∧
      Hung fs preferredGroup p (fs.layout.indices depth blkId) last t v fs' := by
  induction depth generalizing p blkId fs with
  | zero => exact run_allocLeaf h
  | succ depth ih =>
    cases depth with
    | zero => exact run_allocLeaf h
    | succ depth =>
      unfold Layout.indices at h ⊢
      obtain ⟨i', rest, hindices⟩ := exists_indices_eq_cons fs.layout depth
        (blkId % fs.layout.span (depth + 1))
      generalize htgt : blkId / fs.layout.span (depth + 1) = tgt at h ⊢
      generalize hoffset : blkId % fs.layout.span (depth + 1) = offset at h hindices ⊢
      have hload := run_loadBlock h.placed.addressable h.inUse_root.lt
      have hword : (wordAt tgt).run (fs.withCurrent (fs.block p)) = _ := run_wordAt h.entry_le
      have hstart : (allocIndirected preferredGroup (depth + 2) p blkId).run fs = (do
          (if fs.entry p tgt = 0 then allocEntry preferredGroup p tgt else pure ())
          let block ← wordAt tgt
          allocIndirected preferredGroup (depth + 1) block offset : Action Unit).run
            (fs.withCurrent (fs.block p)) := by
        conv_lhs => unfold allocIndirected
        refine (run_getLayout_bind _ fs.currentBlock).trans ?_
        rw [htgt, hoffset]
        exact (run_bind_ok hload).trans (run_bind_ok hword)
      rw [hstart]
      by_cases hnone : fs.entry p tgt = 0
      · -- The entry is missing: a new indirect block is entered, and the walk goes on below it.
        have hr := h.withCurrent (fs.block p)
        rw [hindices] at hr
        obtain ⟨v₁, fs₁, hrun₁, he⟩ := run_allocEntry hr.placed hr.balanced hr.usable
          (Nat.lt_of_lt_of_le (Nat.succ_pos _) (hr.unallocated_pos hnone)) hr.inUse_root hr.entry_le
        have hready := hr.fresh hnone he
        have hcurrent : fs₁.withCurrent (fs₁.block p) = fs₁ := by
          rw [← he.current]
          rfl
        have hword₁ : (wordAt tgt).run (fs₁.withCurrent (fs₁.block p)) = _ :=
          run_wordAt (he.grows.layout ▸ h.entry_le)
        rw [hcurrent, he.entry_same hr.placed] at hword₁
        rw [← hindices, show fs.layout = fs₁.layout from he.grows.layout.symm] at hready
        obtain ⟨last, t, v, fs', hrun, hh⟩ := ih hready
        rw [he.grows.layout] at hh
        refine ⟨p, tgt, v, fs', ?_, ?_⟩
        · rw [if_pos hnone, run_bind_ok hrun₁, run_bind_ok hword₁, hrun]
        · rw [hindices]
          exact (Hung.above_fresh hr hnone he (hindices ▸ hh)).of_withCurrent
      · -- An existing entry leads to the next indirect block.
        obtain ⟨last, t, v, fs', hrun, hh⟩ := ih ((h.below hnone).withCurrent (fs.block p))
        refine ⟨last, t, v, fs', ?_, Hung.above h hnone hh.of_withCurrent⟩
        rw [if_neg hnone]
        exact (run_bind_ok hword).trans hrun

end FileSystem

end LudOS.Ext2
