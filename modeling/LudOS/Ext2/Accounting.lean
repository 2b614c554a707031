import Mathlib.Algebra.Order.BigOperators.Group.Finset
import LudOS.Lib.Transition
import LudOS.Ext2.Alloc

/-!
# Block accounting over whole histories

Every history of `alloc_block` and `free_block` calls keeps the three counts of free blocks in
agreement. The step lemmas are `Allocated.balanced` and `Freed.balanced`; the run lemma carries
them together with the blocks that have been handed out and not been given back.
-/

namespace LudOS.Ext2

open Lib

namespace FileSystem

variable {fs fs' : FileSystem} {g j : Nat}

/-! ## One call -/

/-- Replacing one summand. -/
theorem sum_recount {f f' : Nat → Nat} {n g c : Nat} (hg : g < n)
    (h : ∀ i < n, f' i = if i = g then c else f i) :
    ∑ i ∈ Finset.range n, f' i + f g = ∑ i ∈ Finset.range n, f i + c := by
  have hmem : g ∈ Finset.range n := Finset.mem_range.mpr hg
  have hrest : ∑ i ∈ (Finset.range n).erase g, f' i = ∑ i ∈ (Finset.range n).erase g, f i := by
    refine Finset.sum_congr rfl fun i hi => ?_
    obtain ⟨hne, hi⟩ := Finset.mem_erase.mp hi
    rw [h i (Finset.mem_range.mp hi), if_neg hne]
  rw [← Finset.add_sum_erase _ f' hmem, ← Finset.add_sum_erase _ f hmem, hrest, h g hg, if_pos rfl]
  omega

/-- A bitmap block has room for 8192 bits. -/
theorem Placed.card_freeBits_le (h : Placed fs) (g : Nat) : (fs.freeBits g).card ≤ 8192 := by
  unfold freeBits
  rw [h.block_size]
  calc ((fs.bitmap g).clearBits (1024 * 8)).card
      ≤ (Finset.range (1024 * 8)).card := Finset.card_filter_le _ _
    _ = 8192 := Finset.card_range _

/-- The bits of all bitmaps stand for different blocks. -/
theorem blockOf_injective {l : Layout} {g g' j j' : Nat} (hj : j < l.blocksInBlockGroup)
    (hj' : j' < l.blocksInBlockGroup) (h : l.blockOf g j = l.blockOf g' j') : g = g' ∧ j = j' := by
  have hsum : j + g * l.blocksInBlockGroup = j' + g' * l.blocksInBlockGroup := Nat.succ.inj h
  exact mul_add_inj hj hj' (by omega)

/-- There are no more free blocks than blocks. -/
theorem Placed.sum_card_le (h : Placed fs) :
    ∑ g ∈ Finset.range fs.layout.blockGroups, (fs.freeBits g).card ≤ fs.layout.blockCount := by
  rw [← Finset.card_sigma, ← Finset.card_range fs.layout.blockCount]
  refine Finset.card_le_card_of_injOn (fun p => fs.layout.blockOf p.1 p.2) ?_ ?_
  · rintro ⟨g, j⟩ hp
    obtain ⟨hg, hj⟩ := Finset.mem_sigma.mp hp
    exact Finset.mem_coe.mpr (Finset.mem_range.mpr (h.blockOf_lt (Finset.mem_range.mp hg) hj))
  · rintro ⟨g, j⟩ hp ⟨g', j'⟩ hp' heq
    obtain ⟨hg, hj⟩ := Finset.mem_sigma.mp hp
    obtain ⟨hg', hj'⟩ := Finset.mem_sigma.mp hp'
    obtain ⟨rfl, rfl⟩ := blockOf_injective (h.free_in_group g (Finset.mem_range.mp hg) j hj)
      (h.free_in_group g' (Finset.mem_range.mp hg') j' hj') heq
    rfl

/-- The blocks that are marked as free. -/
def freeBlocks (fs : FileSystem) : Finset Nat :=
  (Finset.range fs.layout.blockGroups).biUnion fun g => (fs.freeBits g).image (fs.layout.blockOf g)

theorem mem_freeBlocks {k : Nat} : k ∈ fs.freeBlocks ↔ fs.IsFree k := by
  unfold freeBlocks IsFree
  simp only [Finset.mem_biUnion, Finset.mem_range, Finset.mem_image]
  exact exists_congr fun g => and_congr_right fun _ => exists_congr fun j =>
    and_congr_right fun _ => eq_comm

/-- Volumes of one layout that agree on the free blocks agree on the clear bits of all bitmaps. -/
theorem freeBits_subset (h : Placed fs) (h' : Placed fs') (hlayout : fs'.layout = fs.layout)
    (hfree : ∀ k, fs'.IsFree k → fs.IsFree k) (hg : g < fs.layout.blockGroups) :
    fs'.freeBits g ⊆ fs.freeBits g := by
  intro j hj
  have hg' : g < fs'.layout.blockGroups := hlayout ▸ hg
  have hin := h'.free_in_group g hg' j hj
  obtain ⟨g₀, hg₀, j₀, hj₀, heq⟩ := hfree _ ⟨g, hg', j, hj, rfl⟩
  rw [hlayout] at hin heq
  obtain ⟨rfl, rfl⟩ := blockOf_injective hin (h.free_in_group g₀ hg₀ j₀ hj₀) heq
  exact hj₀

/-- The counter of the superblock is the number of free blocks. -/
theorem Balanced.card_freeBlocks (hb : Balanced fs) (h : Placed fs) :
    fs.freeBlocks.card = fs.superblock.unallocatedBlocks := by
  unfold freeBlocks
  rw [hb.total, Finset.card_biUnion]
  · refine Finset.sum_congr rfl fun g hg => ?_
    have hg := Finset.mem_range.mp hg
    rw [hb.counts g hg, Finset.card_image_of_injOn]
    intro j hj j' hj' heq
    exact (blockOf_injective (h.free_in_group g hg j hj) (h.free_in_group g hg j' hj') heq).2
  · intro g hg g' hg' hne
    refine Finset.disjoint_left.mpr fun k hk hk' => hne ?_
    obtain ⟨j, hj, rfl⟩ := Finset.mem_image.mp hk
    obtain ⟨j', hj', heq⟩ := Finset.mem_image.mp hk'
    exact (blockOf_injective (h.free_in_group g (Finset.mem_range.mp hg) j hj)
      (h.free_in_group g' (Finset.mem_range.mp hg') j' hj') heq.symm).1

namespace Allocated

section

variable (ha : Allocated fs g j fs') (h : Placed fs) (hg : g < fs.layout.blockGroups)

include ha h hg

theorem freeBits {g' : Nat} (hg' : g' < fs.layout.blockGroups) :
    fs'.freeBits g' = if g' = g then (fs.freeBits g).erase j else fs.freeBits g' := by
  rw [ha.toRecounted.freeBits h hg hg', Bytes.clearBits_setBit]
  rfl

theorem mem_freeBits {g' i : Nat} (hg' : g' < fs.layout.blockGroups) :
    i ∈ fs'.freeBits g' ↔ i ∈ fs.freeBits g' ∧ ¬ (g' = g ∧ i = j) := by
  rw [ha.freeBits h hg hg']
  split
  case isTrue heq => simp [heq, and_comm]
  case isFalse hne => simp [hne]

/-- No block becomes free, and the allocated one is not free any more. -/
theorem isFree (hj : j ∈ fs.freeBits g) (k : Nat) :
    fs'.IsFree k ↔ fs.IsFree k ∧ k ≠ fs.layout.blockOf g j := by
  unfold IsFree
  rw [ha.layout]
  constructor
  · rintro ⟨g', hg', i, hi, rfl⟩
    obtain ⟨hi, hne⟩ := (ha.mem_freeBits h hg hg').mp hi
    refine ⟨⟨g', hg', i, hi, rfl⟩, fun heq => hne ?_⟩
    exact blockOf_injective (h.free_in_group g' hg' i hi) (h.free_in_group g hg j hj) heq
  · rintro ⟨⟨g', hg', i, hi, rfl⟩, hne⟩
    refine ⟨g', hg', i, (ha.mem_freeBits h hg hg').mpr ⟨hi, ?_⟩, rfl⟩
    rintro ⟨rfl, rfl⟩
    exact hne rfl

theorem placed : Placed fs' := by
  refine ha.toRecounted.placed h hg fun i hi => ?_
  rw [Bytes.clearBits_setBit] at hi
  have hi : i ∈ fs.freeBits g := Finset.mem_of_mem_erase hi
  exact ⟨h.free_in_group g hg i hi, h.blockOf_lt hg hi, h.free_not_reserved _ ⟨g, hg, i, hi, rfl⟩⟩

end

/-- Allocating a block keeps the three counts in agreement. -/
theorem balanced (ha : Allocated fs g j fs') (h : Placed fs) (hb : Balanced fs)
    (hg : g < fs.layout.blockGroups) (hj : j ∈ fs.freeBits g) : Balanced fs' := by
  have hpos : 0 < (fs.freeBits g).card := Finset.card_pos.mpr ⟨j, hj⟩
  have hle := h.card_freeBits_le g
  have hcount := hb.counts g hg
  have hcounts : ∀ i < fs.layout.blockGroups,
      fs'.freeCount i = if i = g then fs.freeCount g - 1 else fs.freeCount i :=
    fun i hi => ha.toRecounted.freeCount h hg (by omega) hi rfl
  constructor
  case counts =>
    intro i hi
    rw [ha.layout] at hi
    rw [hcounts i hi, ha.freeBits h hg hi]
    split
    case isTrue => rw [hcount, Finset.card_erase_of_mem hj]
    case isFalse => exact hb.counts i hi
  case total =>
    have hsum := sum_recount hg hcounts
    have hlt : fs.superblock.unallocatedBlocks < 2 ^ 32 := Bytes.u32_lt _ _
    have htotal := hb.total
    rw [ha.unallocated, ha.layout, wsub_of_le (by omega) hlt]
    omega

end Allocated

namespace Freed

section

variable (hf : Freed fs g j fs') (h : Placed fs) (hg : g < fs.layout.blockGroups)
  (hbit : j < fs.layout.blockSize * 8)

include hf h hg hbit

theorem freeBits {g' : Nat} (hg' : g' < fs.layout.blockGroups) :
    fs'.freeBits g' = if g' = g then insert j (fs.freeBits g) else fs.freeBits g' := by
  rw [hf.toRecounted.freeBits h hg hg', Bytes.clearBits_clearBit _ hbit]
  rfl

theorem mem_freeBits {g' i : Nat} (hg' : g' < fs.layout.blockGroups) :
    i ∈ fs'.freeBits g' ↔ i ∈ fs.freeBits g' ∨ g' = g ∧ i = j := by
  rw [hf.freeBits h hg hbit hg']
  split
  case isTrue heq => simp [heq, or_comm]
  case isFalse hne => simp [hne]

theorem placed (hin : j < fs.layout.blocksInBlockGroup)
    (hlt : fs.layout.blockOf g j < fs.layout.blockCount)
    (hunreserved : ¬ fs.IsReserved (fs.layout.blockOf g j)) : Placed fs' := by
  refine hf.toRecounted.placed h hg fun i hi => ?_
  rw [Bytes.clearBits_clearBit _ hbit] at hi
  rcases Finset.mem_insert.mp hi with rfl | hi
  · exact ⟨hin, hlt, hunreserved⟩
  · have hi : i ∈ fs.freeBits g := hi
    exact ⟨h.free_in_group g hg i hi, h.blockOf_lt hg hi, h.free_not_reserved _ ⟨g, hg, i, hi, rfl⟩⟩

end

/-- Freeing a block that is marked as used keeps the three counts in agreement. -/
theorem balanced (hf : Freed fs g j fs') (h : Placed fs) (hb : Balanced fs) (hp : Placed fs')
    (hg : g < fs.layout.blockGroups) (hbit : j < fs.layout.blockSize * 8)
    (hused : j ∉ fs.freeBits g) : Balanced fs' := by
  have hle := h.card_freeBits_le g
  have hcount := hb.counts g hg
  have hcounts : ∀ i < fs.layout.blockGroups,
      fs'.freeCount i = if i = g then fs.freeCount g + 1 else fs.freeCount i :=
    fun i hi => hf.toRecounted.freeCount h hg (by omega) hi rfl
  have hagree : ∀ i < fs.layout.blockGroups, fs'.freeCount i = (fs'.freeBits i).card := by
    intro i hi
    rw [hcounts i hi, hf.freeBits h hg hbit hi]
    split
    case isTrue => rw [hcount, Finset.card_insert_of_notMem hused]
    case isFalse => exact hb.counts i hi
  constructor
  case counts =>
    intro i hi
    exact hagree i (hf.layout ▸ hi)
  case total =>
    -- The new sum counts blocks of the volume, so the counter cannot wrap.
    have hsum := sum_recount hg hcounts
    have hbound : ∑ i ∈ Finset.range fs.layout.blockGroups, fs'.freeCount i ≤ 2 ^ 22 := by
      rw [Finset.sum_congr rfl fun i hi => hagree i (Finset.mem_range.mp hi), ← hf.layout]
      exact hp.sum_card_le.trans hp.block_count_le
    have htotal := hb.total
    rw [hf.unallocated, hf.layout, wadd_of_lt (by omega)]
    omega

end Freed

/-! ## Histories -/

/-- A call of one of the two functions, with the block it returned or was given. -/
inductive Event where
  | alloc (preferredGroup block : Nat)
  | free (block : Nat)
  deriving DecidableEq, Repr

/-- The calls a history consists of: `alloc_block` with an existing group, and `free_block` of a
block that an earlier call returned and that has not been freed since. The second component holds
these outstanding blocks. -/
inductive Call : FileSystem × Finset Nat → Event → FileSystem × Finset Nat → Prop where
  | alloc {fs fs' : FileSystem} {out : Finset Nat} {preferredGroup block : Nat} :
      preferredGroup < fs.layout.blockGroups →
      (allocBlock preferredGroup).run fs = .ok block fs' →
      Call (fs, out) (.alloc preferredGroup block)
        (fs', if block = 0 then out else insert block out)
  | free {fs fs' : FileSystem} {out : Finset Nat} {block : Nat} :
      block ∈ out → (freeBlock block).run fs = .ok () fs' →
      Call (fs, out) (.free block) (fs', out.erase block)

/-- Block `k` is one that `alloc_block` may have handed out: it stands for a bit that is set. -/
def IsTaken (fs : FileSystem) (k : Nat) : Prop :=
  ∃ g < fs.layout.blockGroups, ∃ j < fs.layout.blocksInBlockGroup,
    j < fs.layout.blockSize * 8 ∧ k = fs.layout.blockOf g j ∧ k < fs.layout.blockCount ∧
      j ∉ fs.freeBits g ∧ ¬ fs.IsReserved k

/-- The invariant of a history. -/
structure Accounted (s : FileSystem × Finset Nat) : Prop where
  placed : Placed s.1
  balanced : Balanced s.1
  taken : ∀ k ∈ s.2, s.1.IsTaken k

/-- What one `alloc_block` call returns and leaves behind. -/
theorem allocBlock_cases {preferredGroup block : Nat} (h : Placed fs) (hb : Balanced fs)
    (hpref : preferredGroup < fs.layout.blockGroups)
    (hrun : (allocBlock preferredGroup).run fs = .ok block fs') :
    (block = 0 ∧ (∃ c, fs' = fs.withCurrent c) ∧ ∀ g < fs.layout.blockGroups, fs.freeBits g = ∅) ∨
      ∃ g < fs.layout.blockGroups, ∃ j ∈ fs.freeBits g, block = fs.layout.blockOf g j ∧
        Allocated fs g j fs' := by
  have hacc : Acceptable fs preferredGroup := .inl hpref
  cases hchosen : fs.chosenGroup preferredGroup with
  | none =>
    obtain ⟨c, hrun'⟩ := run_allocBlock_none h hacc hchosen
    rw [hrun'] at hrun
    cases hrun
    exact .inl ⟨rfl, ⟨c, rfl⟩, (chosenGroup_eq_none hb hacc).mp hchosen⟩
  | some g =>
    obtain ⟨j, hj, t, hrun', ha⟩ := run_allocBlock_some h hb hacc hchosen
    rw [hrun'] at hrun
    cases hrun
    exact .inr ⟨g, (hacc.chosenGroup_lt hchosen).1, j, hj, rfl, ha⟩

theorem isTaken_of_allocated (ha : Allocated fs g j fs') (h : Placed fs)
    (hg : g < fs.layout.blockGroups) (hj : j ∈ fs.freeBits g) :
    fs'.IsTaken (fs.layout.blockOf g j) := by
  unfold IsTaken
  rw [ha.layout]
  refine ⟨g, hg, j, h.free_in_group g hg j hj, (Bytes.mem_clearBits.mp hj).1, rfl,
    h.blockOf_lt hg hj, ?_, ?_⟩
  · rw [ha.freeBits h hg hg, if_pos rfl]
    exact Finset.notMem_erase j _
  · rw [ha.toRecounted.isReserved h hg]
    exact h.free_not_reserved _ ⟨g, hg, j, hj, rfl⟩

/-- A taken block stays taken as long as its bit does. -/
theorem IsTaken.mono {k : Nat} (ht : fs.IsTaken k) (hlayout : fs'.layout = fs.layout)
    (hbits : ∀ g < fs.layout.blockGroups, ∀ j ∈ fs'.freeBits g, k = fs.layout.blockOf g j →
      j ∈ fs.freeBits g) (hreserved : fs'.IsReserved k → fs.IsReserved k) : fs'.IsTaken k := by
  obtain ⟨g, hg, j, hin, hbit, hk, hlt, hused, hunreserved⟩ := ht
  unfold IsTaken
  rw [hlayout]
  exact ⟨g, hg, j, hin, hbit, hk, hlt, fun hj => hused (hbits g hg j hj hk),
    fun hr => hunreserved (hreserved hr)⟩

/-- Every call of a history keeps the invariant. -/
theorem Call.accounted {s t : FileSystem × Finset Nat} {e : Event} (hcall : Call s e t)
    (h : Accounted s) : Accounted t := by
  obtain ⟨hp, hb, htaken⟩ := h
  cases hcall with
  | @alloc fs fs' out pref block hpref hrun =>
    rcases allocBlock_cases hp hb hpref hrun with ⟨rfl, ⟨c, rfl⟩, -⟩ | ⟨g, hg, j, hj, rfl, ha⟩
    · rw [if_pos rfl]
      exact ⟨hp.withCurrent c, hb.withCurrent c, htaken⟩
    · rw [if_neg (by unfold Layout.blockOf; omega)]
      refine ⟨ha.placed hp hg, ha.balanced hp hb hg hj, fun k hk => ?_⟩
      rcases Finset.mem_insert.mp hk with rfl | hk
      · exact isTaken_of_allocated ha hp hg hj
      · refine (htaken k hk).mono ha.layout (fun g' hg' i hi _ => ?_)
          (ha.toRecounted.isReserved hp hg k).mp
        exact ((ha.mem_freeBits hp hg hg').mp hi).1
  | @free fs fs' out block hmem hrun =>
    obtain ⟨g, hg, j, hin, hbit, rfl, hlt, hused, hunreserved⟩ := htaken block hmem
    obtain ⟨t, hrun', hf, -⟩ := run_freeBlock hp hg hin hbit hlt hused
    rw [hrun'] at hrun
    cases hrun
    have hp' := hf.placed hp hg hbit hin hlt hunreserved
    refine ⟨hp', hf.balanced hp hb hp' hg hbit hused, fun k hk => ?_⟩
    obtain ⟨hne, hk⟩ := Finset.mem_erase.mp hk
    refine (htaken k hk).mono hf.layout (fun g' hg' i hi heq => ?_)
      (hf.toRecounted.isReserved hp hg k).mp
    rcases (hf.mem_freeBits hp hg hbit hg').mp hi with hi | ⟨rfl, rfl⟩
    · exact hi
    · exact absurd heq hne

/-- After every history the three counts agree. The next `alloc_block` returns a block whose bit is
clear and that is not outstanding, or 0, and 0 only if all bitmaps are full. -/
theorem accounting_exact {t : FileSystem} {out : Finset Nat} {es : List Event} (hplaced : Placed fs)
    (hbalanced : Balanced fs) (hrun : Steps Call (fs, ∅) es (t, out)) :
    Balanced t ∧ ∀ preferredGroup block t', preferredGroup < t.layout.blockGroups →
      (allocBlock preferredGroup).run t = .ok block t' →
        (block ≠ 0 → t.IsFree block ∧ block ∉ out) ∧
        (block = 0 → ∀ g < t.layout.blockGroups, t.freeBits g = ∅) := by
  have hinv : Accounted (t, out) := by
    refine hrun.invariant Accounted (fun s e u h hcall => hcall.accounted h) ?_
    exact ⟨hplaced, hbalanced, by simp⟩
  refine ⟨hinv.balanced, fun pref block t' hpref halloc => ?_⟩
  rcases allocBlock_cases hinv.placed hinv.balanced hpref halloc with
    ⟨rfl, -, hfull⟩ | ⟨g, hg, j, hj, rfl, -⟩
  · exact ⟨fun hne => absurd rfl hne, fun _ => hfull⟩
  · refine ⟨fun _ => ⟨⟨g, hg, j, hj, rfl⟩, fun hout => ?_⟩, ?_⟩
    · obtain ⟨g', hg', j', hin, hbit, heq, -, hused, -⟩ := hinv.taken _ hout
      obtain ⟨rfl, rfl⟩ := blockOf_injective (hinv.placed.free_in_group g hg j hj) hin heq
      exact hused hj
    · unfold Layout.blockOf
      omega

/-! ## A small volume -/

/-- The superblock of a volume of 32 blocks of 1 KiB with 8 inodes. -/
def sampleSuperblock : Superblock :=
  ⟨fun i => if i = 0 then 8 else if i = 4 then 32 else if i = 12 then 8 else if i = 33 then 32 else
    if i = 40 then 8 else if i = 56 then 0x53 else if i = 57 then 0xEF else 0⟩

/-- The blocks of a volume of one group: the superblock in block 1, the descriptor table in
block 2, the block bitmap in block 3, the inode bitmap in block 4, the inode table in block 5, and
the blocks 24 to 31 free. -/
def sampleBlock (rest : Nat → Bytes) (n : Nat) : Bytes :=
  if n = 1 then sampleSuperblock.raw
  else if n = 2 then fun i => if i = 0 then 3 else if i = 4 then 4 else if i = 8 then 5 else
    if i = 12 then 8 else 0
  else if n = 3 then fun i => if i = 2 then 0x7F else if i = 3 then 0x80 else 0xFF
  else rest n

/-- The volume, with the blocks that are not named in `sampleBlock` given. -/
def sampleVolume (rest : Nat → Bytes) : FileSystem where
  disk := fun a => sampleBlock rest (a / 1024) (a % 1024)
  superblock := sampleSuperblock
  currentBlock := fun _ => 0
  zeroes := none
  clock := fun _ => 0
  hasError := 1

theorem layout_sampleSuperblock : sampleSuperblock.layout = ⟨32, 0, 8192, 8, 0, 0, 0⟩ := by decide

section

variable (rest : Nat → Bytes)

theorem layout_sampleVolume : (sampleVolume rest).layout = ⟨32, 0, 8192, 8, 0, 0, 0⟩ :=
  layout_sampleSuperblock

/-- The numbers that follow from it. -/
theorem sizes_sampleVolume : (sampleVolume rest).layout.blockCount = 32 ∧
    (sampleVolume rest).layout.blockSizeShift = 0 ∧ (sampleVolume rest).layout.blockSize = 1024 ∧
    (sampleVolume rest).layout.blockGroups = 1 ∧ (sampleVolume rest).layout.inodeSize = 128 ∧
    (sampleVolume rest).layout.blocksInBlockGroup = 8192 ∧
    (sampleVolume rest).layout.tableBlock 0 = 2 := by
  rw [layout_sampleVolume]
  decide

theorem block_sampleVolume (k : Nat) :
    (sampleVolume rest).block k = (sampleBlock rest k).trunc 1024 := by
  refine Bytes.trunc_eq_trunc.mpr fun i hi => ?_
  have hi : i < 1024 := hi
  show sampleBlock rest ((k * 1024 + i) / 1024) ((k * 1024 + i) % 1024) = _
  congr 1 <;> omega

theorem descriptor_sampleVolume {i : Nat} (hi : i < 32) :
    ((sampleVolume rest).descriptor 0).raw i = sampleBlock rest 2 i := by
  unfold descriptor
  rw [layout_sampleVolume, block_sampleVolume]
  show (sampleBlock rest 2).trunc 1024 (0 + i) = _
  rw [Nat.zero_add, Bytes.trunc_apply (by omega)]

theorem bitmapBlock_sampleVolume : (sampleVolume rest).bitmapBlock 0 = 3 :=
  Bytes.u32_congr fun i hi => descriptor_sampleVolume rest (by omega)

theorem freeCount_sampleVolume : (sampleVolume rest).freeCount 0 = 8 :=
  Bytes.u16_congr fun i hi => descriptor_sampleVolume rest (by omega)

/-- The bits 23 to 30 of the bitmap are clear, and no others. -/
theorem clearBits_sampleBlock {n : Nat} (hn : 31 ≤ n) :
    (sampleBlock rest 3).clearBits n = (Finset.range 31).filter (23 ≤ ·) := by
  ext j
  rw [Bytes.mem_clearBits, Finset.mem_filter, Finset.mem_range]
  show j < n ∧
    (UInt8.toBitVec (if j / 8 = 2 then 0x7F else if j / 8 = 3 then 0x80 else 0xFF)).getLsbD
    (j % 8) = false ↔ _
  have hmod : j % 8 < 8 := Nat.mod_lt _ (by decide)
  -- The bits of each of the three kinds of bytes.
  have hfirst : ∀ i < 8, (UInt8.toBitVec 0x7F).getLsbD i = false ↔ i = 7 := by decide
  have hsecond : ∀ i < 8, (UInt8.toBitVec 0x80).getLsbD i = false ↔ i ≠ 7 := by decide
  have hrest : ∀ i < 8, (UInt8.toBitVec 0xFF).getLsbD i = true := by decide
  split
  case isTrue h => rw [hfirst _ hmod]; omega
  case isFalse h =>
    split
    case isTrue h' => rw [hsecond _ hmod]; omega
    case isFalse h' => rw [hrest _ hmod]; simp; omega

theorem freeBits_sampleVolume :
    (sampleVolume rest).freeBits 0 = (Finset.range 31).filter (23 ≤ ·) := by
  unfold freeBits bitmap
  rw [bitmapBlock_sampleVolume, layout_sampleVolume, block_sampleVolume]
  show Bytes.clearBits _ (1024 * 8) = _
  rw [Bytes.clearBits_trunc, clearBits_sampleBlock rest (by decide)]

theorem isCopy_sampleVolume (k : Nat) : (sampleVolume rest).IsCopy k ↔ k = 1 := by
  unfold IsCopy
  rw [layout_sampleVolume]
  show (k = 1 ∨ ∃ i ∈ List.range' 1 (32 / 8192), _) ↔ _
  simp

theorem blockGroups_sampleVolume : (sampleVolume rest).layout.blockGroups = 1 :=
  (sizes_sampleVolume rest).2.2.2.1

theorem isReserved_sampleVolume (k : Nat) :
    (sampleVolume rest).IsReserved k ↔ k = 1 ∨ k = 2 ∨ k = 3 := by
  unfold IsReserved
  simp only [isCopy_sampleVolume, sizes_sampleVolume, Nat.lt_one_iff, exists_eq_left,
    bitmapBlock_sampleVolume]

theorem isFree_sampleVolume (k : Nat) : (sampleVolume rest).IsFree k ↔ 24 ≤ k ∧ k < 32 := by
  unfold IsFree
  simp only [sizes_sampleVolume, Nat.lt_one_iff, exists_eq_left, freeBits_sampleVolume,
    Finset.mem_filter, Finset.mem_range, Layout.blockOf]
  constructor
  · rintro ⟨j, hj, rfl⟩
    omega
  · intro hk
    exact ⟨k - 1, by omega, by omega⟩

theorem placed_sampleVolume : Placed (sampleVolume rest) := by
  constructor
  case addressable =>
    rw [layout_sampleVolume]
    exact ⟨by decide, by decide⟩
  case zeroes => exact nofun
  -- the rest is about the one group, and about the numbers of its blocks
  all_goals
    simp [sizes_sampleVolume, isCopy_sampleVolume, bitmapBlock_sampleVolume,
      freeBits_sampleVolume, isFree_sampleVolume, isReserved_sampleVolume]
  all_goals omega

theorem balanced_sampleVolume : Balanced (sampleVolume rest) := by
  constructor
  case counts =>
    simp only [sizes_sampleVolume, Nat.lt_one_iff, forall_eq, freeCount_sampleVolume,
      freeBits_sampleVolume]
    decide
  case total =>
    rw [blockGroups_sampleVolume, Finset.sum_range_one, freeCount_sampleVolume]
    show sampleSuperblock.unallocatedBlocks = 8
    decide

end

/-- The accounting of the small volume is still exact after a block has been allocated. -/
theorem accounting_exact_sample : ∃ block t, block ≠ 0 ∧
      Steps Call (sampleVolume fun _ _ => 0, ∅) [.alloc 0 block] (t, {block}) ∧ Balanced t := by
  have hp := placed_sampleVolume fun _ _ => 0
  have hb := balanced_sampleVolume fun _ _ => 0
  have hpref : 0 < (sampleVolume fun _ _ => 0).layout.blockGroups := by
    decide
  have hchosen : (sampleVolume fun _ _ => 0).chosenGroup 0 = some 0 := by
    rfl
  obtain ⟨j, hj, t, hrun, -⟩ := run_allocBlock_some hp hb (.inl hpref) hchosen
  have hne : (sampleVolume fun _ _ => 0).layout.blockOf 0 j ≠ 0 := by
    unfold Layout.blockOf
    omega
  have hcall : Call (sampleVolume fun _ _ => 0, ∅) _ _ := Call.alloc hpref hrun
  have hsteps := Steps.snoc (Steps.refl _) hcall
  exact ⟨_, t, hne, hsteps, (accounting_exact hp hb hsteps).1⟩

end FileSystem

end LudOS.Ext2
