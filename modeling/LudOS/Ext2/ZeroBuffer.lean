import LudOS.Ext2.Accounting

/-!
# One buffer of zeroes for all volumes

`alloc_block` clears the block it returns with a vector of zeroes that is a static variable of the
function. All mounted volumes share it, and it has the block size of the volume that allocated a
block first. On a volume with larger blocks the end of a block then keeps its old content, and on
one with smaller blocks the write runs into the blocks behind.

`System` is a list of volumes with the shared vector. `Sound` is the layout that the driver assumes,
for blocks of any size, and `TookWith` what `alloc_block` does with a vector of any length.
`zeroed_alone_iff` says when a call clears its block whole and alone.
-/

namespace LudOS.Ext2

open Lib

/-- The group of a block, as the driver counts. -/
def Layout.groupOf (l : Layout) (block : Nat) : Nat := (block - 1) / l.blocksInBlockGroup

namespace FileSystem

/-! ## The block that is taken -/

/-- The bit that `alloc_block_in_block_group` takes. -/
def candidate (fs : FileSystem) (g : Nat) : Option Nat :=
  if fs.freeCount g = 0 then none else (fs.bitmap g).firstClear (fs.layout.blockSize * 8)

/-- The group and the bit that `alloc_block` takes. -/
def target (fs : FileSystem) (preferredGroup : Nat) : Option (Nat × Nat) :=
  (fs.layout.groupOrder preferredGroup).findSome? fun g => (fs.candidate g).map fun j => (g, j)

/-- The metadata of a volume is where the driver looks for it, in blocks of its own that are marked
as used, and only existing blocks of a group are marked as free. -/
structure Sound (fs : FileSystem) : Prop where
  addressable : Addressable fs.layout
  group_size_pos : 0 < fs.layout.blocksInBlockGroup
  backup_lt : ∀ i ∈ fs.layout.backupGroups, fs.hasBackup i →
    fs.layout.backupBlock i < fs.layout.blockCount
  table_lt : ∀ g < fs.layout.blockGroups, fs.layout.tableBlock g < fs.layout.blockCount
  bitmap_lt : ∀ g < fs.layout.blockGroups, fs.bitmapBlock g < fs.layout.blockCount
  table_apart : ∀ g < fs.layout.blockGroups, ¬ fs.HoldsSuperblock (fs.layout.tableBlock g)
  bitmap_apart : ∀ g < fs.layout.blockGroups, ¬ fs.HoldsSuperblock (fs.bitmapBlock g)
  bitmap_ne_table : ∀ g < fs.layout.blockGroups, ∀ g' < fs.layout.blockGroups,
    fs.bitmapBlock g ≠ fs.layout.tableBlock g'
  bitmap_injective : ∀ g < fs.layout.blockGroups, ∀ g' < fs.layout.blockGroups,
    fs.bitmapBlock g = fs.bitmapBlock g' → g = g'
  free_in_group : ∀ g < fs.layout.blockGroups, ∀ j ∈ fs.freeBits g, j < fs.layout.blocksInBlockGroup
  free_lt : ∀ k, fs.IsFree k → k < fs.layout.blockCount
  free_not_superblock : ∀ k, fs.IsFree k → ¬ fs.HoldsSuperblock k
  free_not_group : ∀ k, fs.IsFree k → ∀ g < fs.layout.blockGroups,
    k ≠ fs.layout.tableBlock g ∧ k ≠ fs.bitmapBlock g

variable {fs fs' : FileSystem} {g j preferredGroup : Nat}

theorem Placed.sound (h : Placed fs) : Sound fs := by
  have hhold := holdsSuperblock_iff h.block_size
  constructor
  case addressable => exact h.addressable
  case group_size_pos => exact h.group_size_pos
  case backup_lt => exact fun i hi hb => h.copy_lt (.inr ⟨i, hi, hb, rfl⟩)
  case table_lt => exact fun g hg => h.table_lt hg
  case bitmap_lt => exact fun g hg => h.bitmap_lt hg
  case table_apart => exact fun g hg hk => h.table_not_copy g hg ((hhold _).mp hk)
  case bitmap_apart => exact fun g hg hk => h.bitmap_not_copy g hg ((hhold _).mp hk)
  case bitmap_ne_table => exact h.bitmap_ne_table
  case bitmap_injective => exact h.bitmap_injective
  case free_in_group => exact h.free_in_group
  case free_lt => exact h.free_lt
  case free_not_superblock => exact fun k hk hs => h.free_not_reserved k hk (.inl ((hhold k).mp hs))
  case free_not_group =>
    intro k hk g hg
    exact ⟨fun heq => h.free_not_reserved k hk (.inr ⟨g, hg, .inl heq⟩),
      fun heq => h.free_not_reserved k hk (.inr ⟨g, hg, .inr heq⟩)⟩

theorem Sound.groupPlaced (h : Sound fs) (hg : g < fs.layout.blockGroups) : GroupPlaced fs g :=
  ⟨h.addressable, h.table_lt g hg, h.bitmap_lt g hg, h.bitmap_ne_table g hg g hg⟩

/-- The buffers play no part. -/
theorem Sound.withBuffers (h : Sound fs) (currentBlock : Bytes) (zeroes : Option Nat) :
    Sound { fs with currentBlock, zeroes } :=
  { h with }

theorem candidate_eq_some (h : fs.candidate g = some j) :
    fs.freeCount g ≠ 0 ∧ (fs.bitmap g).firstClear (fs.layout.blockSize * 8) = some j := by
  unfold candidate at h
  split at h
  case isTrue => cases h
  case isFalse hcount => exact ⟨hcount, h⟩

/-- A bitmap without a clear bit gives no block, whatever the counter says. -/
theorem run_allocBlockInBlockGroup_full (h : GroupPlaced fs g) (hcount : fs.freeCount g ≠ 0)
    (hfull : (fs.bitmap g).firstClear (fs.layout.blockSize * 8) = none) :
    (allocBlockInBlockGroup g).run fs = .ok 0 (fs.withCurrent (fs.bitmap g)) := by
  unfold allocBlockInBlockGroup
  rw [run_bind_ok (run_getBlockGroup h.addressable h.table_lt),
    if_neg (show ¬ (fs.descriptor g).freeBlocksCount = 0 from hcount)]
  simp only [blockBitmap_descriptor]
  rw [run_bind_ok (run_loadBlock_over h.addressable h.bitmap_lt _), run_get_bind]
  have hscan : (fs.block (fs.bitmapBlock g)).firstClear (fs.layout.blockSize * 8) = none := hfull
  simp only [currentBlock_withCurrent, layout_withCurrent, hscan]
  rfl

/-- A group that has nothing to give. -/
theorem run_allocBlockInBlockGroup_empty (h : Sound fs) (hg : Acceptable fs g)
    (hnone : fs.candidate g = none) :
    ∃ c, (allocBlockInBlockGroup g).run fs = .ok 0 (fs.withCurrent c) := by
  by_cases hcount : fs.freeCount g = 0
  · have htable : fs.layout.tableBlock g < fs.layout.blockCount := by
      rcases hg with hlt | ⟨htable, -⟩
      · exact h.table_lt g hlt
      · exact htable
    exact ⟨_, run_allocBlockInBlockGroup_none h.addressable htable hcount⟩
  · have hlt : g < fs.layout.blockGroups := by
      rcases hg with hlt | ⟨-, hzero⟩
      · exact hlt
      · exact absurd hzero hcount
    have hfull : (fs.bitmap g).firstClear (fs.layout.blockSize * 8) = none := by
      rwa [candidate, if_neg hcount] at hnone
    exact ⟨_, run_allocBlockInBlockGroup_full (h.groupPlaced hlt) hcount hfull⟩

/-- The search takes the first bit that a group offers. -/
theorem run_allocBlockInGroups (h : Sound fs) {gs : List Nat} (hgs : ∀ g ∈ gs, Acceptable fs g)
    (c : Bytes) :
    match gs.findSome? fun g => (fs.candidate g).map fun j => (g, j) with
    | none => ∃ c', (allocBlockInGroups gs).run (fs.withCurrent c) = .ok 0 (fs.withCurrent c')
    | some (g, j) => g < fs.layout.blockGroups ∧ j ∈ fs.freeBits g ∧
        (allocBlockInGroups gs).run (fs.withCurrent c) = .ok (fs.layout.blockOf g j)
          (fs.updateGroup g ((fs.bitmap g).setBit j) (fs.freeCount g - 1)) := by
  induction gs generalizing c with
  | nil => exact ⟨c, rfl⟩
  | cons g gs ih =>
    have hg := hgs g List.mem_cons_self
    rw [List.findSome?_cons]
    cases hcand : fs.candidate g with
    | none =>
      obtain ⟨c', hfirst⟩ := run_allocBlockInBlockGroup_empty (h.withBuffers c fs.zeroes) hg hcand
      have hskip : (allocBlockInGroups (g :: gs)).run (fs.withCurrent c) =
          (allocBlockInGroups gs).run (fs.withCurrent c') := run_bind_ok hfirst
      rw [hskip]
      exact ih (fun g' hg' => hgs g' (List.mem_cons_of_mem g hg')) c'
    | some j =>
      obtain ⟨hcount, hscan⟩ := candidate_eq_some hcand
      have hlt : g < fs.layout.blockGroups := by
        rcases hg with hlt | ⟨-, hzero⟩
        · exact hlt
        · exact absurd hzero hcount
      have hj : j ∈ fs.freeBits g := Bytes.firstClear_eq_some hscan
      have hblock := h.free_lt _ ⟨g, hlt, j, hj, rfl⟩
      have hfits := h.addressable.mul_lt hblock
      have hsize := h.addressable.block_size_ge
      have hbound : fs.layout.blockOf g j < 2 ^ 32 :=
        Nat.lt_of_le_of_lt (Nat.le_mul_of_pos_right _ (by omega)) hfits
      have hfirst := run_allocBlockInBlockGroup_some ((h.groupPlaced hlt).withCurrent c) hcount
        hscan hbound
      refine ⟨hlt, hj, ?_⟩
      unfold allocBlockInGroups
      rw [run_bind_ok hfirst, if_pos (by unfold Layout.blockOf; omega)]
      rfl

/-! ## Clearing a block with a vector of any length -/

/-- What `alloc_block` does when it takes bit `j` of group `g` and the vector has `z` bytes. -/
structure TookWith (fs : FileSystem) (g j z : Nat) (fs' : FileSystem) : Prop where
  layout : fs'.layout = fs.layout
  zeroes : fs'.zeroes = some z
  block : ∀ k, ¬ fs.HoldsSuperblock k → fs'.block k =
    ((fs.updateGroup g ((fs.bitmap g).setBit j) (fs.freeCount g - 1)).disk.splice
      (fs.layout.blockOf g j * fs.layout.blockSize) z fun _ => 0).block fs.layout.blockSize k

section

variable (hlayout : fs'.layout = fs.layout)

include hlayout

theorem hasBackup_congr (i : Nat) : fs'.hasBackup i = fs.hasBackup i := by
  unfold hasBackup
  rw [hlayout]

theorem holdsSuperblock_congr (k : Nat) : fs'.HoldsSuperblock k ↔ fs.HoldsSuperblock k := by
  unfold HoldsSuperblock
  simp only [hlayout, hasBackup_congr hlayout]

end

theorem acceptable_of_mem (hpref : Acceptable fs preferredGroup) :
    ∀ g ∈ fs.layout.groupOrder preferredGroup, Acceptable fs g := by
  intro g hg
  rcases List.mem_cons.mp hg with rfl | hg
  · exact hpref
  · exact .inl (List.mem_range.mp (List.mem_filter.mp hg).1)

section

variable (h : Sound fs) (hpref : Acceptable fs preferredGroup)

include h hpref

/-- `alloc_block` with a block to take. -/
theorem run_allocBlock_target (htarget : fs.target preferredGroup = some (g, j)) :
    g < fs.layout.blockGroups ∧ j ∈ fs.freeBits g ∧
      ∃ fs', (allocBlock preferredGroup).run fs = .ok (fs.layout.blockOf g j) fs' ∧
        TookWith fs g j (fs.zeroes.getD fs.layout.blockSize) fs' := by
  have hsearch := run_allocBlockInGroups h (acceptable_of_mem hpref) fs.currentBlock
  unfold target at htarget
  simp only [htarget] at hsearch
  obtain ⟨hg, hj, hrun⟩ := hsearch
  obtain ⟨fs', halloc, hlayout, hzeroes, -, -, hblock⟩ := @run_allocate_any
    (fs.updateGroup g ((fs.bitmap g).setBit j) (fs.freeCount g - 1)) _ h.addressable h.backup_lt
    (h.free_lt _ ⟨g, hg, j, hj, rfl⟩)
  refine ⟨hg, hj, fs', ?_, hlayout, hzeroes, hblock⟩
  refine (run_bind_ok hrun).trans ?_
  rw [if_neg (by unfold Layout.blockOf; omega), halloc]

/-- `alloc_block` with no block to take. -/
theorem run_allocBlock_untargeted (htarget : fs.target preferredGroup = none) :
    ∃ c, (allocBlock preferredGroup).run fs = .ok 0 (fs.withCurrent c) := by
  have hsearch := run_allocBlockInGroups h (acceptable_of_mem hpref) fs.currentBlock
  unfold target at htarget
  simp only [htarget] at hsearch
  obtain ⟨c, hrun⟩ := hsearch
  refine ⟨c, ?_⟩
  exact run_bind_ok hrun

end

/-- Block `k` is none of those that `alloc_block` may change besides block `b` itself. -/
structure Unrelated (fs : FileSystem) (b k : Nat) : Prop where
  on_volume : k < fs.layout.blockCount
  ne_block : k ≠ b
  ne_bitmap : k ≠ fs.bitmapBlock (fs.layout.groupOf b)
  ne_table : k ≠ fs.layout.tableBlock (fs.layout.groupOf b)
  not_superblock : ¬ fs.HoldsSuperblock k

/-- Block `b` has been cleared as a whole, and every block but the bitmap and the descriptor of its
group and the superblock copies is as before. -/
structure ZeroedAlone (fs : FileSystem) (b : Nat) (fs' : FileSystem) : Prop where
  zeroed : fs'.block b = fun _ => 0
  alone : ∀ k, Unrelated fs b k → fs'.block k = fs.block k

/-- A vector of `z` zeroes does for block `b`: what it leaves of the block is zero already, and so
is what it reaches of other blocks. -/
structure ZeroesFit (fs : FileSystem) (z b : Nat) : Prop where
  short : ∀ i < fs.layout.blockSize, z ≤ i → fs.block b i = 0
  long : ∀ k, Unrelated fs b k → ∀ i < fs.layout.blockSize,
    b * fs.layout.blockSize ≤ k * fs.layout.blockSize + i →
    k * fs.layout.blockSize + i < b * fs.layout.blockSize + z → fs.block k i = 0

/-- A vector of the block size always does. -/
theorem zeroesFit_blockSize (fs : FileSystem) (b : Nat) : ZeroesFit fs fs.layout.blockSize b := by
  refine ⟨fun i hi hz => by omega, fun k hk i hi hge hlt => ?_⟩
  rcases Nat.lt_or_gt_of_ne hk.ne_block with hless | hgreater
  · have := Nat.mul_le_mul_right fs.layout.blockSize (Nat.succ_le_of_lt hless)
    rw [Nat.succ_mul] at this
    omega
  · have := Nat.mul_le_mul_right fs.layout.blockSize (Nat.succ_le_of_lt hgreater)
    rw [Nat.succ_mul] at this
    omega

theorem Sound.groupOf_blockOf (h : Sound fs) (hg : g < fs.layout.blockGroups)
    (hj : j ∈ fs.freeBits g) : fs.layout.groupOf (fs.layout.blockOf g j) = g := by
  unfold Layout.groupOf Layout.blockOf
  rw [Nat.add_sub_cancel, Nat.add_mul_div_right _ _ h.group_size_pos,
    Nat.div_eq_of_lt (h.free_in_group g hg j hj), Nat.zero_add]

/-- The blocks of the volume after bitmap and descriptor have been stored. -/
theorem block_updateGroup_other {bits : Bytes} {count k : Nat} (hbitmap : k ≠ fs.bitmapBlock g)
    (htable : k ≠ fs.layout.tableBlock g) : (fs.updateGroup g bits count).block k = fs.block k := by
  unfold updateGroup
  rw [block_withCurrent, block_putBlock_other htable, block_putBlock_other hbitmap]

/-- The bytes of a block that is no metadata. -/
theorem TookWith.byte {z k i : Nat} (ht : TookWith fs g j z fs') (hhold : ¬ fs.HoldsSuperblock k)
    (hbitmap : k ≠ fs.bitmapBlock g) (htable : k ≠ fs.layout.tableBlock g)
    (hi : i < fs.layout.blockSize) : fs'.block k i =
      if fs.layout.blockOf g j * fs.layout.blockSize ≤ k * fs.layout.blockSize + i ∧
        k * fs.layout.blockSize + i < fs.layout.blockOf g j * fs.layout.blockSize + z then 0
      else fs.block k i := by
  rw [ht.block k hhold, Bytes.block_apply hi]
  split
  case isTrue hin => rw [Bytes.splice_inside hin.1 hin.2]
  case isFalse hout =>
    rw [Bytes.splice_outside (by omega), ← block_updateGroup_other hbitmap htable]
    exact (Bytes.block_apply hi).symm

/-- Blocks are equal when their bytes are. -/
theorem block_ext {data : Bytes} {k : Nat} (hlayout : fs'.layout = fs.layout)
    (hdata : data.trunc fs.layout.blockSize = data) :
    fs'.block k = data ↔ ∀ i < fs.layout.blockSize, fs'.block k i = data i := by
  constructor
  · intro h i _
    rw [h]
  · intro h
    rw [← trunc_block, ← hdata, hlayout]
    exact Bytes.trunc_eq_trunc.mpr h

/-- A call clears its block whole and alone exactly when the vector does for the block. -/
theorem TookWith.zeroedAlone_iff {z : Nat} (ht : TookWith fs g j z fs') (h : Sound fs)
    (hg : g < fs.layout.blockGroups) (hj : j ∈ fs.freeBits g) :
    ZeroedAlone fs (fs.layout.blockOf g j) fs' ↔ ZeroesFit fs z (fs.layout.blockOf g j) := by
  have hfree : fs.IsFree (fs.layout.blockOf g j) := ⟨g, hg, j, hj, rfl⟩
  have hgroup := h.groupOf_blockOf hg hj
  obtain ⟨hnotTable, hnotBitmap⟩ := h.free_not_group _ hfree g hg
  have hzero : Bytes.trunc (fun _ => 0) fs.layout.blockSize = fun _ => 0 := by
    funext i
    unfold Bytes.trunc
    split <;> rfl
  have hown : (fs'.block (fs.layout.blockOf g j) = fun _ => 0) ↔
      ∀ i < fs.layout.blockSize, z ≤ i → fs.block (fs.layout.blockOf g j) i = 0 := by
    rw [block_ext ht.layout hzero]
    refine forall₂_congr fun i hi => ?_
    rw [ht.byte (h.free_not_superblock _ hfree) hnotBitmap hnotTable hi]
    split
    case isTrue hin => exact ⟨fun _ hz => by omega, fun _ => rfl⟩
    case isFalse hout => exact ⟨fun heq _ => heq, fun heq => heq (by omega)⟩
  have hother : ∀ k, Unrelated fs (fs.layout.blockOf g j) k → (fs'.block k = fs.block k ↔
      ∀ i < fs.layout.blockSize,
        fs.layout.blockOf g j * fs.layout.blockSize ≤ k * fs.layout.blockSize + i →
        k * fs.layout.blockSize + i < fs.layout.blockOf g j * fs.layout.blockSize + z →
          fs.block k i = 0) := by
    intro k hk
    rw [block_ext ht.layout (trunc_block fs k)]
    refine forall₂_congr fun i hi => ?_
    rw [ht.byte hk.not_superblock (hgroup ▸ hk.ne_bitmap) (hgroup ▸ hk.ne_table) hi]
    split
    case isTrue hin => exact ⟨fun heq _ _ => heq.symm, fun heq => (heq hin.1 hin.2).symm⟩
    case isFalse hout => exact ⟨fun _ hge hlt => absurd ⟨hge, hlt⟩ hout, fun _ => rfl⟩
  exact ⟨fun hz => ⟨hown.mp hz.zeroed, fun k hk => (hother k hk).mp (hz.alone k hk)⟩,
    fun hf => ⟨hown.mpr hf.short, fun k hk => (hother k hk).mpr (hf.long k hk)⟩⟩

/-- Metadata that stays in its blocks is still sound as long as nothing else is marked as free. -/
theorem Sound.of_same_bitmaps (h : Sound fs) (hlayout : fs'.layout = fs.layout)
    (hbitmap : ∀ g < fs.layout.blockGroups, fs'.bitmapBlock g = fs.bitmapBlock g)
    (hbits : ∀ g < fs.layout.blockGroups, fs'.freeBits g ⊆ fs.freeBits g) : Sound fs' := by
  have hhold := holdsSuperblock_congr hlayout
  have hfree : ∀ k, fs'.IsFree k → fs.IsFree k := by
    rintro k ⟨g, hg, j, hj, rfl⟩
    rw [hlayout] at hg ⊢
    exact ⟨g, hg, j, hbits g hg hj, rfl⟩
  constructor
  case addressable => exact hlayout ▸ h.addressable
  case group_size_pos => exact hlayout ▸ h.group_size_pos
  case backup_lt =>
    intro i hi hb
    rw [hlayout] at hi ⊢
    exact h.backup_lt i hi (hasBackup_congr hlayout i ▸ hb)
  case table_lt => exact hlayout ▸ h.table_lt
  case bitmap_lt =>
    intro g hg
    rw [hlayout] at hg ⊢
    rw [hbitmap g hg]
    exact h.bitmap_lt g hg
  case table_apart =>
    intro g hg
    rw [hlayout] at hg ⊢
    exact fun hk => h.table_apart g hg ((hhold _).mp hk)
  case bitmap_apart =>
    intro g hg hk
    rw [hlayout] at hg
    rw [hbitmap g hg, hhold] at hk
    exact h.bitmap_apart g hg hk
  case bitmap_ne_table =>
    intro g₁ hg₁ g₂ hg₂
    rw [hlayout] at hg₁ hg₂ ⊢
    rw [hbitmap g₁ hg₁]
    exact h.bitmap_ne_table g₁ hg₁ g₂ hg₂
  case bitmap_injective =>
    intro g₁ hg₁ g₂ hg₂ heq
    rw [hlayout] at hg₁ hg₂
    rw [hbitmap g₁ hg₁, hbitmap g₂ hg₂] at heq
    exact h.bitmap_injective g₁ hg₁ g₂ hg₂ heq
  case free_in_group =>
    intro g hg i hi
    rw [hlayout] at hg ⊢
    exact h.free_in_group g hg i (hbits g hg hi)
  case free_lt => exact fun k hk => hlayout ▸ h.free_lt k (hfree k hk)
  case free_not_superblock =>
    exact fun k hk hs => h.free_not_superblock k (hfree k hk) ((hhold k).mp hs)
  case free_not_group =>
    intro k hk g hg
    rw [hlayout] at hg ⊢
    rw [hbitmap g hg]
    exact h.free_not_group k (hfree k hk) g hg

/-! ## A vector of the block size keeps the volume sound -/

section

variable {g' : Nat}

/-- All metadata but that of the group is as before. -/
theorem TookWith.block_meta (ht : TookWith fs g j fs.layout.blockSize fs')
    (hg : g < fs.layout.blockGroups)
    (hj : j ∈ fs.freeBits g) {k : Nat} (hhold : ¬ fs.HoldsSuperblock k) (hfree : ¬ fs.IsFree k) :
    fs'.block k = (fs.updateGroup g ((fs.bitmap g).setBit j) (fs.freeCount g - 1)).block k := by
  have hne : k ≠ fs.layout.blockOf g j := fun heq => hfree (heq ▸ ⟨g, hg, j, hj, rfl⟩)
  rw [ht.block k hhold, Bytes.block_splice, if_neg hne]
  rfl

variable (ht : TookWith fs g j fs.layout.blockSize fs') (h : Sound fs)
  (hg : g < fs.layout.blockGroups) (hj : j ∈ fs.freeBits g)

include ht h hg hj

namespace TookWith

variable (hg' : g' < fs.layout.blockGroups)

include hg'

theorem block_table : fs'.block (fs.layout.tableBlock g') =
      (fs.updateGroup g ((fs.bitmap g).setBit j) (fs.freeCount g - 1)).block
        (fs.layout.tableBlock g') :=
  ht.block_meta hg hj (h.table_apart g' hg') fun hf => (h.free_not_group _ hf g' hg').1 rfl

/-- The bitmaps stay where they are. -/
theorem bitmapBlock : fs'.bitmapBlock g' = fs.bitmapBlock g' := by
  have htable : fs'.block (fs.layout.tableBlock g) =
      fs.newTable g (fs.recount g (fs.freeCount g - 1)) := by
    rw [ht.block_table h hg hj hg]
    unfold updateGroup
    rw [block_withCurrent, block_putBlock_same]
    exact trunc_newTable h.addressable g _
  have hother : fs.layout.tableBlock g' ≠ fs.layout.tableBlock g →
      fs'.block (fs.layout.tableBlock g') = fs.block (fs.layout.tableBlock g') := fun hne => by
    rw [ht.block_table h hg hj hg']
    exact block_updateGroup_other (h.bitmap_ne_table g hg g' hg').symm hne
  refine Bytes.u32_congr fun i hi => ?_
  rw [descriptor_of_newTable ht.layout htable hother (by omega)]
  split
  case isTrue heq =>
    subst heq
    exact Bytes.splice_outside (by omega)
  case isFalse => rfl

/-- One bit of the bitmap of the group has been set. -/
theorem freeBits_subset : fs'.freeBits g' ⊆ fs.freeBits g' := by
  have hblock : fs'.block (fs.bitmapBlock g') =
      (fs.updateGroup g ((fs.bitmap g).setBit j) (fs.freeCount g - 1)).block (fs.bitmapBlock g') :=
    ht.block_meta hg hj (h.bitmap_apart g' hg') fun hf => (h.free_not_group _ hf g' hg').2 rfl
  unfold freeBits FileSystem.bitmap
  rw [ht.layout, ht.bitmapBlock h hg hj hg', hblock]
  by_cases heq : g' = g
  · subst heq
    unfold updateGroup
    rw [block_withCurrent, block_putBlock_other (h.bitmap_ne_table g' hg' g' hg'),
      block_putBlock_same, Bytes.clearBits_trunc]
    intro i hi
    rw [Bytes.mem_clearBits, Bytes.bit_setBit] at hi
    exact Bytes.mem_clearBits.mpr ⟨hi.1, (Bool.or_eq_false_iff.mp hi.2).2⟩
  · rw [block_updateGroup_other (fun hsame => heq (h.bitmap_injective g' hg' g hg hsame))
      (h.bitmap_ne_table g' hg' g hg)]

end TookWith

theorem TookWith.sound : Sound fs' :=
  h.of_same_bitmaps ht.layout (fun _ hg' => ht.bitmapBlock h hg hj hg')
    fun _ hg' => ht.freeBits_subset h hg hj hg'

end

end FileSystem

/-! ## Several volumes -/

/-- The mounted volumes and the size of the vector that they share. -/
structure System where
  volumes : List FileSystem
  zeroes : Option Nat

/-- A call of `alloc_block` with the block it returned. -/
structure AllocCall where
  volume : Nat
  preferredGroup : Nat
  block : Nat
  deriving DecidableEq, Repr

namespace System

open FileSystem (Sound Acceptable ZeroedAlone ZeroesFit TookWith)

/-- `alloc_block` on one of the volumes, if it returns. -/
def allocBlock (sys : System) (volume preferredGroup : Nat) : Option (Nat × System) :=
  match sys.volumes[volume]? with
  | none => none
  | some fs =>
    match (Ext2.allocBlock preferredGroup).run { fs with zeroes := sys.zeroes } with
    | .ok block fs' => some (block, ⟨sys.volumes.set volume fs', fs'.zeroes⟩)
    | .error _ _ => none

/-- The call returns its block. -/
def Allocs (sys : System) (c : AllocCall) (sys' : System) : Prop :=
  sys.allocBlock c.volume c.preferredGroup = some (c.block, sys')

/-- The call is on an existing volume and prefers a group of it, or one whose descriptor promises
nothing. -/
def Accepts (sys : System) (c : AllocCall) : Prop :=
  ∃ fs, sys.volumes[c.volume]? = some fs ∧ Acceptable fs c.preferredGroup

/-- The volume that is called is sound. -/
def SoundAt (sys : System) (c : AllocCall) : Prop :=
  ∀ fs, sys.volumes[c.volume]? = some fs → Sound fs

/-- The call has cleared its block whole and alone. -/
def Zeroes (sys : System) (c : AllocCall) (sys' : System) : Prop :=
  ∀ fs fs', sys.volumes[c.volume]? = some fs → sys'.volumes[c.volume]? = some fs' →
    ZeroedAlone fs c.block fs'

/-- The vector does for the block that the call is about to take. -/
def VectorFits (sys : System) (c : AllocCall) : Prop :=
  ∀ fs g j, sys.volumes[c.volume]? = some fs → fs.target c.preferredGroup = some (g, j) →
    ZeroesFit fs (sys.zeroes.getD fs.layout.blockSize) (fs.layout.blockOf g j)

/-- All volumes are sound and have blocks of one size, which is that of the vector, too. -/
structure Uniform (size : Nat) (sys : System) : Prop where
  sound : ∀ fs ∈ sys.volumes, Sound fs
  block_size : ∀ fs ∈ sys.volumes, fs.layout.blockSize = size
  zeroes : ∀ z ∈ sys.zeroes, z = size

variable {sys sys' : System} {c : AllocCall} {size : Nat}

namespace Allocs

variable (hcall : Allocs sys c sys') (haccept : Accepts sys c) (hsound : SoundAt sys c)

include hcall haccept hsound

/-- What a call on a sound volume does. -/
theorem cases : ∃ fs fs', sys.volumes[c.volume]? = some fs ∧
    sys' = ⟨sys.volumes.set c.volume fs', fs'.zeroes⟩ ∧
    ((c.block = 0 ∧ fs.target c.preferredGroup = none ∧
        ∃ buf, fs' = { fs with currentBlock := buf, zeroes := sys.zeroes }) ∨
      ∃ g j, fs.target c.preferredGroup = some (g, j) ∧ c.block = fs.layout.blockOf g j ∧
        g < fs.layout.blockGroups ∧ j ∈ fs.freeBits g ∧
        TookWith fs g j (sys.zeroes.getD fs.layout.blockSize) fs') := by
  obtain ⟨fs, hfs, hpref⟩ := haccept
  have hs : Sound { fs with zeroes := sys.zeroes } :=
    (hsound fs hfs).withBuffers fs.currentBlock sys.zeroes
  unfold Allocs allocBlock at hcall
  simp only [hfs] at hcall
  cases htarget : fs.target c.preferredGroup with
  | none =>
    obtain ⟨buf, hrun⟩ := FileSystem.run_allocBlock_untargeted hs hpref htarget
    simp only [hrun, Option.some.injEq, Prod.mk.injEq] at hcall
    obtain ⟨hzero, rfl⟩ := hcall
    exact ⟨fs, _, hfs, rfl, .inl ⟨hzero.symm, htarget, buf, rfl⟩⟩
  | some gj =>
    obtain ⟨g, j⟩ := gj
    obtain ⟨hg, hj, fs', hrun, ht⟩ := FileSystem.run_allocBlock_target hs hpref htarget
    simp only [hrun, Option.some.injEq, Prod.mk.injEq] at hcall
    obtain ⟨hblock, rfl⟩ := hcall
    exact ⟨fs, fs', hfs, rfl, .inr ⟨g, j, htarget, hblock.symm, hg, hj,
      { ht with }⟩⟩

/-- A call that returns a block clears it whole and alone exactly when the vector does for it. -/
theorem zeroes_iff (hblock : c.block ≠ 0) : Zeroes sys c sys' ↔ VectorFits sys c := by
  obtain ⟨fs, fs', hfs, rfl, ⟨hzero, -⟩ | ⟨g, j, htarget, hb, hg, hj, ht⟩⟩ :=
    hcall.cases haccept hsound
  · exact absurd hzero hblock
  have hiff := ht.zeroedAlone_iff (hsound fs hfs) hg hj
  have hlt : c.volume < sys.volumes.length := (List.getElem?_eq_some_iff.mp hfs).1
  constructor
  · intro hz fs₁ g₁ j₁ hfs₁ htarget₁
    cases hfs.symm.trans hfs₁
    cases htarget.symm.trans htarget₁
    refine hiff.mp (hb ▸ hz fs fs' hfs ?_)
    exact List.getElem?_set_self hlt
  · intro hf fs₁ fs₂ hfs₁ hfs₂
    cases hfs.symm.trans hfs₁
    rw [List.getElem?_set_self hlt] at hfs₂
    cases hfs₂
    rw [hb]
    exact hiff.mpr (hf fs g j hfs htarget)

end Allocs

/-- With one block size for all volumes the vector always fits. -/
theorem Uniform.vectorFits (h : Uniform size sys) (c : AllocCall) : VectorFits sys c := by
  intro fs g j hfs _
  have hz : sys.zeroes.getD fs.layout.blockSize = fs.layout.blockSize := by
    cases hzero : sys.zeroes with
    | none => rfl
    | some z =>
      rw [Option.getD_some, h.zeroes z hzero, h.block_size fs (List.mem_of_getElem? hfs)]
  rw [hz]
  exact FileSystem.zeroesFit_blockSize fs _

theorem Uniform.soundAt (h : Uniform size sys) (c : AllocCall) : SoundAt sys c :=
  fun fs hfs => h.sound fs (List.mem_of_getElem? hfs)

/-- Every call keeps the volumes sound. -/
theorem Uniform.step (h : Uniform size sys) (haccept : Accepts sys c) (hcall : Allocs sys c sys') :
    Uniform size sys' := by
  obtain ⟨fs, fs', hfs, rfl, hcase⟩ := hcall.cases haccept (h.soundAt c)
  have hmem := List.mem_of_getElem? hfs
  have hsize := h.block_size fs hmem
  have hnew : Sound fs' ∧ fs'.layout.blockSize = size ∧ ∀ z ∈ fs'.zeroes, z = size := by
    rcases hcase with ⟨-, -, buf, rfl⟩ | ⟨g, j, -, -, hg, hj, ht⟩
    · exact ⟨(h.sound fs hmem).withBuffers buf sys.zeroes, hsize, h.zeroes⟩
    · have hz : sys.zeroes.getD fs.layout.blockSize = fs.layout.blockSize := by
        cases hzero : sys.zeroes with
        | none => rfl
        | some z => rw [Option.getD_some, h.zeroes z hzero, hsize]
      rw [hz] at ht
      refine ⟨ht.sound (h.sound fs hmem) hg hj, ht.layout ▸ hsize, fun z hzmem => ?_⟩
      rw [ht.zeroes] at hzmem
      exact (Option.some.inj hzmem).symm.trans hsize
  refine ⟨fun fs₁ hfs₁ => ?_, fun fs₁ hfs₁ => ?_, hnew.2.2⟩
  · rcases List.mem_or_eq_of_mem_set hfs₁ with hold | rfl
    · exact h.sound fs₁ hold
    · exact hnew.1
  · rcases List.mem_or_eq_of_mem_set hfs₁ with hold | rfl
    · exact h.block_size fs₁ hold
    · exact hnew.2.1

/-- A call on a sound volume that returns a block clears it whole and alone exactly when the shared
vector does for it. Along every history of calls on volumes that were sound at first, all with
blocks of one size, every call that returns a block does. -/
theorem zeroed_alone_iff (haccept : Accepts sys c) (hcall : Allocs sys c sys')
    (hblock : c.block ≠ 0) :
    (SoundAt sys c → (Zeroes sys c sys' ↔ VectorFits sys c)) ∧
      ∀ (size : Nat) (sys₀ : System) (cs : List AllocCall), sys₀.zeroes = none →
        (∀ fs ∈ sys₀.volumes, Sound fs ∧ fs.layout.blockSize = size) →
        Steps (Guarded Accepts Allocs) sys₀ cs sys → Zeroes sys c sys' := by
  refine ⟨fun hs => hcall.zeroes_iff haccept hs hblock,
    fun size sys₀ cs hboot hvolumes hrun => ?_⟩
  have hinit : Uniform size sys₀ :=
    ⟨fun fs hfs => (hvolumes fs hfs).1, fun fs hfs => (hvolumes fs hfs).2,
      fun z hz => by rw [hboot] at hz; cases hz⟩
  have huniform : Uniform size sys :=
    hrun.invariant (Uniform size) (fun s e t hs hstep => hs.step hstep.1 hstep.2) hinit
  exact (hcall.zeroes_iff haccept (huniform.soundAt c) hblock).mpr (huniform.vectorFits c)

end System

/-! ## A volume with blocks of 2 KiB -/

namespace FileSystem

/-- The superblock of a volume of 32 blocks of 2 KiB. -/
def largeSuperblock : Superblock := ⟨fun i => if i = 24 then 1 else sampleSuperblock.raw i⟩

/-- Its blocks: the descriptor table in block 1, the block bitmap in block 3, and the blocks 24 to
31 free. All other blocks are full of ones. -/
def largeBlock (n : Nat) : Bytes :=
  if n = 1 then sampleBlock (fun _ _ => 1) 2 else if n = 3 then sampleBlock (fun _ _ => 1) 3
  else fun _ => 1

/-- The volume. -/
def largeVolume : FileSystem :=
  { sampleVolume (fun _ _ => 1) with
    disk := fun a => largeBlock (a / 2048) (a % 2048)
    superblock := largeSuperblock }

theorem layout_largeVolume : largeVolume.layout = ⟨32, 1, 8192, 8, 0, 0, 0⟩ := by decide

theorem block_largeVolume (k : Nat) : largeVolume.block k = (largeBlock k).trunc 2048 := by
  refine Bytes.trunc_eq_trunc.mpr fun i hi => ?_
  have hi : i < 2048 := hi
  show largeBlock ((k * 2048 + i) / 2048) ((k * 2048 + i) % 2048) = _
  congr 1 <;> omega

theorem bitmapBlock_largeVolume : largeVolume.bitmapBlock 0 = 3 := by decide

theorem freeBits_largeVolume : largeVolume.freeBits 0 = (Finset.range 31).filter (23 ≤ ·) := by
  unfold freeBits bitmap
  rw [bitmapBlock_largeVolume, layout_largeVolume, block_largeVolume]
  show Bytes.clearBits _ (2048 * 8) = _
  rw [Bytes.clearBits_trunc]
  exact clearBits_sampleBlock (fun _ _ => 1) (by decide)

theorem holdsSuperblock_largeVolume (k : Nat) : largeVolume.HoldsSuperblock k ↔ k = 0 := by
  show (k = 0 ∨ ∃ i ∈ List.range' 1 (32 / 8192), _) ↔ _
  simp

theorem sizes_largeVolume : largeVolume.layout.blockCount = 32 ∧
    largeVolume.layout.blockGroups = 1 ∧ largeVolume.layout.blocksInBlockGroup = 8192 ∧
    largeVolume.layout.tableBlock 0 = 1 := by
  decide

theorem isFree_largeVolume (k : Nat) : largeVolume.IsFree k ↔ 24 ≤ k ∧ k < 32 := by
  unfold IsFree
  simp only [sizes_largeVolume, Nat.lt_one_iff, exists_eq_left, freeBits_largeVolume,
    Finset.mem_filter, Finset.mem_range, Layout.blockOf]
  constructor
  · rintro ⟨j, hj, rfl⟩
    omega
  · intro hk
    exact ⟨k - 1, by omega, by omega⟩

theorem sound_largeVolume : Sound largeVolume := by
  constructor
  case addressable => exact ⟨by decide, by decide⟩
  case backup_lt =>
    intro i hi
    exact absurd hi (by rw [layout_largeVolume]; decide +revert)
  all_goals
    simp [sizes_largeVolume, holdsSuperblock_largeVolume, bitmapBlock_largeVolume,
      freeBits_largeVolume, isFree_largeVolume]
  all_goals omega

end FileSystem

namespace System

open FileSystem (Sound sampleVolume largeVolume)

/-- After a block of one small volume has been allocated, the first block of another one. -/
theorem zeroed_alone_small_volumes : ∃ sys₀ c₁ sys c sys', sys₀.zeroes = none ∧
    Steps (Guarded Accepts Allocs) sys₀ [c₁] sys ∧ c₁.block ≠ 0 ∧ Allocs sys c sys' ∧
    c.block ≠ 0 ∧ Zeroes sys c sys' := by
  have hs : Sound (sampleVolume fun _ _ => 1) := (FileSystem.placed_sampleVolume _).sound
  have hrun : (do
      let r ← allocBlock ⟨[sampleVolume fun _ _ => 1, sampleVolume fun _ _ => 1], none⟩ 0 0
      let fs ← r.2.volumes[1]?
      let r' ← r.2.allocBlock 1 0
      pure (r.1, fs.layout.blockGroups, r'.1) : Option _) = some (24, 1, 24) := by
    decide +kernel
  simp only [Option.bind_eq_bind, Option.bind_eq_some_iff, Option.pure_def, Option.some.injEq,
    Prod.mk.injEq] at hrun
  obtain ⟨⟨b, sys⟩, hfirst, fs, hfs, ⟨b', sys'⟩, hsecond, rfl, hgroups, rfl⟩ := hrun
  have hsteps : Steps (Guarded Accepts Allocs)
      ⟨[sampleVolume fun _ _ => 1, sampleVolume fun _ _ => 1], none⟩ [⟨0, 0, 24⟩] sys :=
    Steps.snoc (Steps.refl _) ⟨⟨_, rfl, .inl (by decide)⟩, hfirst⟩
  have haccept : Accepts sys ⟨1, 0, 24⟩ := ⟨fs, hfs, .inl (by rw [hgroups]; decide)⟩
  have hcall : Allocs sys ⟨1, 0, 24⟩ sys' := hsecond
  refine ⟨_, _, sys, _, sys', rfl, hsteps, by decide, hcall, by decide,
    (zeroed_alone_iff haccept hcall (by decide)).2 1024 _ _ rfl ?_ hsteps⟩
  simp [hs, FileSystem.layout_sampleVolume, Layout.blockSize]

/-- After a block of the small volume has been allocated, the volume with larger blocks gets its
blocks cleared by half. -/
theorem large_block_half_cleared : ∃ sys₀ c₁ sys c sys', sys₀.zeroes = none ∧
    (∀ fs ∈ sys₀.volumes, Sound fs) ∧ Steps (Guarded Accepts Allocs) sys₀ [c₁] sys ∧
    Accepts sys c ∧ Allocs sys c sys' ∧ c.block ≠ 0 ∧ ¬ Zeroes sys c sys' := by
  have hs : Sound (sampleVolume fun _ _ => 1) := (FileSystem.placed_sampleVolume _).sound
  -- Block 24 of either volume is taken, and byte 1024 of the second one is still 1.
  have hrun : (do
      let r ← allocBlock ⟨[sampleVolume fun _ _ => 1, largeVolume], none⟩ 0 0
      let fs ← r.2.volumes[1]?
      let r' ← r.2.allocBlock 1 0
      let fs' ← r'.2.volumes[1]?
      pure (r.1, fs.layout.blockGroups, r'.1, fs'.block 24 1024) : Option _) =
        some (24, 1, 24, 1) := by
    decide +kernel
  simp only [Option.bind_eq_bind, Option.bind_eq_some_iff, Option.pure_def, Option.some.injEq,
    Prod.mk.injEq] at hrun
  obtain ⟨⟨b, sys⟩, hfirst, fs, hfs, ⟨b', sys'⟩, hsecond, fs', hfs', rfl, hgroups, rfl, hbyte⟩ :=
    hrun
  refine ⟨_, ⟨0, 0, 24⟩, sys, ⟨1, 0, 24⟩, sys', rfl, ?_,
    Steps.snoc (Steps.refl _) ⟨⟨_, rfl, .inl (by decide)⟩, hfirst⟩,
    ⟨fs, hfs, .inl (by rw [hgroups]; decide)⟩, hsecond, by decide, fun hzeroes => ?_⟩
  · simp [hs, FileSystem.sound_largeVolume]
  · rw [show fs'.block 24 = fun _ => 0 from (hzeroes fs fs' hfs hfs').zeroed] at hbyte
    cases hbyte

end System

end LudOS.Ext2
