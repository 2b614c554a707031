import LudOS.Ext2.Resize

/-!
# Growing a file and shrinking it back

Up to 13 blocks, the growth of a file by `resize_inode` and the shrinking that undoes it take and
give back the same blocks. `Gained` is the counterpart of `Shed`.
-/

namespace LudOS.Ext2

open Lib

/-- The number of blocks that are allocated when a file of `o` blocks grows to `t` blocks: the data
blocks, and one indirect block. -/
def growthCost (o t : Nat) : Nat := (t - o) + if o ≤ 12 ∧ 12 < t then 1 else 0

theorem growthCost_add {o t u : Nat} (hot : o ≤ t) (htu : t ≤ u) :
    growthCost o u = growthCost o t + growthCost t u := by
  unfold growthCost
  split <;> split <;> split <;> omega

namespace FileSystem

variable {fs fs' fs₁ fs₂ : FileSystem} {n o t : Nat}

/-- Inode `n` has grown from `o` to `t` blocks, and nothing but its new blocks has been taken. -/
structure Gained (fs : FileSystem) (n o t : Nat) (fs' : FileSystem) : Prop where
  layout : fs'.layout = fs.layout
  hosted : fs'.Hosted n
  backed : fs'.Backed n t
  isFree : ∀ b, fs.IsFree b ↔ fs'.IsFree b ∨
    ∃ π, fs.layout.Needs t π ∧ ¬ fs.layout.Needs o π ∧ fs'.pointer (fs'.inodeAt n) π = b
  pointer : ∀ π, fs.layout.Needs o π → fs'.pointer (fs'.inodeAt n) π = fs.pointer (fs.inodeAt n) π
  root : ∀ r, t ≤ r → (fs'.inodeAt n).blockPtr r = (fs.inodeAt n).blockPtr r
  unallocated : fs'.superblock.unallocatedBlocks + growthCost o t = fs.superblock.unallocatedBlocks
  usable : ∀ g, fs.Usable g → fs'.Usable g

theorem Gained.refl (h : fs.Hosted n) (hb : fs.Backed n t) : Gained fs n t t fs := by
  refine ⟨rfl, h, hb, fun b => ?_, fun _ _ => rfl, fun _ _ => rfl, ?_, fun _ hu => hu⟩
  · exact ⟨.inl, fun hor => hor.elim id fun ⟨π, hneeds, hnot, _⟩ => absurd hneeds hnot⟩
  · unfold growthCost
    rw [if_neg (by omega)]
    omega

/-- A new content of the scratch buffer. -/
theorem Hosted.gained_withCurrent (h : fs.Hosted n) (hb : fs.Backed n t) (c : Bytes) :
    Gained fs n t t (fs.withCurrent c) := by
  have hs := h.shed_withCurrent hb c
  have hgain := Gained.refl hs.hosted hs.backed
  have hinode := ((Releases.withCurrent h.placed h.balanced c).sameGroup h.isInode).inodeAt
    (block_withCurrent _ _ _)
  refine ⟨rfl, hs.hosted, hs.backed, fun b => ?_, hs.pointer, fun r _ => by rw [hinode],
    hgain.unallocated, fun _ hu => hu⟩
  exact ⟨.inl, fun hor => hor.elim id fun ⟨π, hneeds, hnot, _⟩ => absurd hneeds hnot⟩

theorem Gained.trans {u : Nat} (h₁ : Gained fs n o t fs₁) (h₂ : Gained fs₁ n t u fs₂) (hot : o ≤ t)
    (htu : t ≤ u) : Gained fs n o u fs₂ := by
  have hlayout := h₁.layout
  constructor
  case layout => rw [h₂.layout, hlayout]
  case hosted => exact h₂.hosted
  case backed => exact h₂.backed
  case isFree =>
    intro b
    rw [h₁.isFree, h₂.isFree, hlayout, or_assoc]
    refine or_congr_right ⟨?_, ?_⟩
    · rintro (⟨π, hneeds, hnot, hb⟩ | ⟨π, hneeds, hnot, hb⟩)
      · exact ⟨π, hneeds, fun hu => hnot (hu.mono hot), hb⟩
      · refine ⟨π, hneeds.mono htu, hnot, ?_⟩
        rw [h₂.pointer π (by rw [hlayout]; exact hneeds)]
        exact hb
    · rintro ⟨π, hneeds, hnot, hb⟩
      by_cases hπ : fs.layout.Needs t π
      · refine .inr ⟨π, hπ, hnot, ?_⟩
        rw [← h₂.pointer π (by rw [hlayout]; exact hπ)]
        exact hb
      · exact .inl ⟨π, hneeds, hπ, hb⟩
  case pointer =>
    intro π hπ
    rw [h₂.pointer π (by rw [hlayout]; exact hπ.mono hot), h₁.pointer π hπ]
  case root => exact fun r hr => (h₂.root r hr).trans (h₁.root r (by omega))
  case unallocated =>
    have hcost := growthCost_add hot htu
    have hu₁ := h₁.unallocated
    have hu₂ := h₂.unallocated
    omega
  case usable => exact fun g hu => h₂.usable g (h₁.usable g hu)

/-! ## One block -/

section

variable (h : fs.Hosted n)

include h

/-- What a step of the loop has to provide, for the first 13 blocks: the new paths lead to
different blocks that were free. -/
theorem Gained.of_step {k : Nat} (hb : fs.Backed n k) (hk : k ≤ 12)
    {touched : Nat → Prop} (hgrows : Grows fs touched fs')
    (hbitmap : ¬ touched (fs.inodeBitmapBlock n))
    (hroot : ∀ r, r ≠ k → (fs'.inodeAt n).blockPtr r = (fs.inodeAt n).blockPtr r)
    (hnew : ∀ π, fs.layout.Needs (k + 1) π → ¬ fs.layout.Needs k π →
      fs.IsFree (fs'.pointer (fs'.inodeAt n) π) ∧ fs'.InUse (fs'.pointer (fs'.inodeAt n) π))
    (hinj : ∀ π π', fs.layout.Needs (k + 1) π → ¬ fs.layout.Needs k π →
      fs.layout.Needs (k + 1) π' → ¬ fs.layout.Needs k π' →
      fs'.pointer (fs'.inodeAt n) π = fs'.pointer (fs'.inodeAt n) π' → π = π')
    (taken : Finset Nat) (htaken : ∀ b, b ∈ taken ↔ ∃ π, fs.layout.Needs (k + 1) π ∧
      ¬ fs.layout.Needs k π ∧ fs'.pointer (fs'.inodeAt n) π = b)
    (hcard : taken.card = growthCost k (k + 1))
    (hcount : fs'.superblock.unallocatedBlocks + growthCost k (k + 1) =
      fs.superblock.unallocatedBlocks) : Gained fs n k (k + 1) fs' := by
  set ptr := fs'.pointer (fs'.inodeAt n)
  have hg := h.placed.geometry
  have hsame := hgrows.sameGroup h.isInode
  have hold : ∀ π, fs.layout.Needs k π → ptr π = fs.pointer (fs.inodeAt n) π := by
    rintro ⟨r, is⟩ hπ
    rcases (hg.needs_iff (by omega)).mp hπ with ⟨hnil, hlt⟩ | ⟨heq, -⟩
    · dsimp only at hnil hlt
      subst hnil
      exact hroot r (by omega)
    · omega
  have hblock : ∀ π, fs.layout.Needs (k + 1) π → ptr π ≠ 0 ∧ fs'.InUse (ptr π) ∧
      ptr π ≠ fs'.inodeBitmapBlock n ∧ ptr π ≠ fs'.inodeTableBlock n := by
    intro π hπ
    rw [hsame.inodeBitmapBlock, hsame.inodeTableBlock]
    by_cases hπk : fs.layout.Needs k π
    · rw [hold π hπk]
      exact ⟨hb.ne_zero π hπk, hgrows.inUse (hb.inUse π hπk), hb.not_bitmap π hπk,
        hb.not_table π hπk⟩
    · obtain ⟨hfree, huse⟩ := hnew π hπ hπk
      exact ⟨hfree.ne_zero, huse, fun heq => h.bitmap_inUse.not_free (heq ▸ hfree),
        fun heq => h.table_inUse.not_free (heq ▸ hfree)⟩
  constructor
  case layout => exact hgrows.layout
  case hosted => exact h.grows hgrows hbitmap
  case backed =>
    constructor
    case le =>
      have he := hg.entriesPerBlock_ge
      rw [hgrows.layout]
      unfold Layout.mapSize
      omega
    case ne_zero => exact fun π hπ => (hblock π (hgrows.layout ▸ hπ)).1
    case inUse => exact fun π hπ => (hblock π (hgrows.layout ▸ hπ)).2.1
    case not_bitmap => exact fun π hπ => (hblock π (hgrows.layout ▸ hπ)).2.2.1
    case not_table => exact fun π hπ => (hblock π (hgrows.layout ▸ hπ)).2.2.2
    case injective =>
      intro π π' hπ hπ' (heq : ptr π = ptr π')
      rw [hgrows.layout] at hπ hπ'
      -- No block is both old and new, since the new ones were free.
      have hmixed : ∀ π π', fs.layout.Needs k π → fs.layout.Needs (k + 1) π' →
          ¬ fs.layout.Needs k π' → ptr π ≠ ptr π' := by
        intro π π' hπ hπ' hnot heq
        rw [hold π hπ] at heq
        exact (hb.inUse π hπ).not_free (heq ▸ (hnew π' hπ' hnot).1)
      by_cases hold₁ : fs.layout.Needs k π <;> by_cases hold₂ : fs.layout.Needs k π'
      · rw [hold π hold₁, hold π' hold₂] at heq
        exact hb.injective π π' hold₁ hold₂ heq
      · exact absurd heq (hmixed π π' hold₁ hπ' hold₂)
      · exact absurd heq.symm (hmixed π' π hold₂ hπ hold₁)
      · exact hinj π π' hπ hold₁ hπ' hold₂ heq
  case isFree =>
    intro b
    rw [hgrows.isFree_iff h.placed h.balanced ?_ (by rw [hcard]; exact hcount), htaken]
    intro v hv
    obtain ⟨π, hneeds, hnot, rfl⟩ := (htaken v).mp hv
    exact ⟨(hnew π hneeds hnot).1, (hnew π hneeds hnot).2.not_free⟩
  case pointer => exact hold
  case root => exact fun r hr => hroot r (by omega)
  case unallocated => exact hcount
  case usable => exact hgrows.usable

/-- A direct block. -/
theorem Hosted.run_allocDirect {k : Nat} (hb : fs.Backed n k) (hk : k < 12)
    (hsize : fs.layout.inodeSize = 128) (hu : fs.Usable (fs.preferredGroup n))
    (hpos : 0 < fs.superblock.unallocatedBlocks) :
    ∃ fs', (allocDataBlock n k).run fs = .ok () fs' ∧ Gained fs n k (k + 1) fs' := by
  have hg := h.placed.geometry
  have hcost : growthCost k (k + 1) = 1 := by
    unfold growthCost
    rw [if_neg (by omega)]
    omega
  obtain ⟨v, fs₁, fs', hrun, hwrite, -, -, hp⟩ := run_plant h.placed h.balanced h.isInode
    h.bitmap_inUse h.table_inUse hu hpos hsize (show k < 15 by omega)
    (fs.block (fs.inodeTableBlock n))
  have hpointer : fs'.pointer (fs'.inodeAt n) (k, []) = v :=
    (Walk.resolve_nil _).trans (hp.blockPtr_same h.placed)
  refine ⟨fs', ?_, ?_⟩
  · rw [run_allocDataBlock_start h.placed.addressable h.isInode.toPresent, if_pos hk,
      run_bind_ok hrun, hwrite]
  refine Gained.of_step h hb hk.le hp.grows h.bitmap_ne_table (fun r hr => ?_)
    (fun π hneeds hnot => ?_) (fun π π' hneeds hnot hneeds' hnot' _ => ?_) {v} (fun b => ?_) ?_ ?_
  · rw [hp.same, Inode.blockPtr_setBlockPtr_other hr]
  · rw [(hg.new_direct hk).mp ⟨hneeds, hnot⟩, hpointer]
    exact ⟨hp.free, hp.inUse⟩
  · rw [(hg.new_direct hk).mp ⟨hneeds, hnot⟩, (hg.new_direct hk).mp ⟨hneeds', hnot'⟩]
  · simp only [← and_assoc, hg.new_direct hk, exists_eq_left, hpointer, Finset.mem_singleton]
    exact eq_comm
  · rw [hcost, Finset.card_singleton]
  · rw [hcost]
    exact hp.unallocated

/-- The first block behind the indirect block, together with the indirect block. -/
theorem Hosted.run_allocFirstIndirect (hb : fs.Backed n 12)
    (hsize : fs.layout.inodeSize = 128) (hu : fs.Usable (fs.preferredGroup n))
    (hnull : (fs.inodeAt n).blockPtr 12 = 0) (hpos : 2 ≤ fs.superblock.unallocatedBlocks) :
    ∃ fs', (allocDataBlock n 12).run fs = .ok () fs' ∧ Gained fs n 12 13 fs' := by
  have hg := h.placed.geometry
  have he := hg.entriesPerBlock_ge
  have hcost : growthCost 12 13 = 2 := rfl
  obtain ⟨v, fs₁, fs₂, hrun, hwrite, -, -, hp⟩ := run_plant h.placed h.balanced h.isInode
    h.bitmap_inUse h.table_inUse hu (by omega) hsize (show 12 < 15 by decide)
    (fs.block (fs.inodeTableBlock n))
  have hv : v ≠ 0 := hp.free.ne_zero
  have h₂ := h.grows hp.grows h.bitmap_ne_table
  have hunallocated := hp.unallocated
  obtain ⟨w, fs', hrun', he'⟩ := run_allocEntry (i := 0) (h₂.placed.withCurrent (fs₂.block v))
    (h₂.balanced.withCurrent _) (hp.grows.usable _ hu) (show 0 < fs₂.superblock.unallocatedBlocks by
      omega) (hp.inUse.withCurrent _) (show 4 * 0 + 4 ≤ fs₂.layout.blockSize by
        rw [h₂.placed.block_size]; decide)
  have hgrows' : Grows fs₂ (· = v) fs' := he'.grows.of_withCurrent
  have hw : fs₂.IsFree w := he'.free
  have htable : fs₂.inodeTableBlock n ≠ v := fun heq => by
    rw [hp.grows.inodeTableBlock h.isInode] at heq
    exact h.table_inUse.not_free (heq ▸ hp.free)
  have hgrows : Grows fs (· = fs.inodeTableBlock n) fs' :=
    hp.grows.trans hgrows' fun k hfree hk => hk.resolve_right fun heq => hfree (heq ▸ hp.free)
  have hinode : fs'.inodeAt n = (fs.inodeAt n).setBlockPtr 12 v := by
    rw [hgrows'.inodeAt h₂.isInode h₂.table_inUse htable, hp.same]
  have hroot : (fs'.inodeAt n).blockPtr 12 = v := by
    rw [hinode, ← hp.same, hp.blockPtr_same h.placed]
  have hpointer : fs'.pointer (fs'.inodeAt n) (12, []) = v := (Walk.resolve_nil _).trans hroot
  have hpointer' : fs'.pointer (fs'.inodeAt n) (12, [0]) = w := by
    unfold pointer
    rw [hroot, Walk.resolve_cons, if_neg hv, Walk.resolve_nil]
    exact he'.entry_same (h₂.placed.withCurrent _)
  have hvw : v ≠ w := fun heq => hp.inUse.not_free (heq ▸ hw)
  refine ⟨fs', ?_, ?_⟩
  · rw [run_allocDataBlock_start h.placed.addressable h.isInode.toPresent, if_neg (by decide),
      if_pos (by omega)]
    unfold allocTree
    rw [if_pos hnull]
    refine (run_bind_ok ((run_bind_ok hrun).trans (run_bind_ok hwrite))).trans ?_
    rw [← hp.same, hp.blockPtr_same h.placed]
    exact (run_bind_ok (run_loadBlock h₂.placed.addressable hp.inUse.lt)).trans hrun'
  refine Gained.of_step h hb (Nat.le_refl 12) hgrows h.bitmap_ne_table (fun r hr => ?_)
    (fun π hneeds hnot => ?_) (fun π π' hneeds hnot hneeds' hnot' heq => ?_) {v, w}
    (fun b => ?_) ?_ ?_
  · rw [hinode, Inode.blockPtr_setBlockPtr_other hr]
  · rcases hg.new_indirect.mp ⟨hneeds, hnot⟩ with rfl | rfl
    · rw [hpointer]
      exact ⟨hp.free, hgrows'.inUse hp.inUse⟩
    · rw [hpointer']
      exact ⟨hp.grows.isFree w hw, he'.inUse⟩
  · rcases hg.new_indirect.mp ⟨hneeds, hnot⟩ with rfl | rfl <;>
      rcases hg.new_indirect.mp ⟨hneeds', hnot'⟩ with rfl | rfl
    · rfl
    · rw [hpointer, hpointer'] at heq
      exact absurd heq hvw
    · rw [hpointer, hpointer'] at heq
      exact absurd heq.symm hvw
    · rfl
  · simp only [← and_assoc, hg.new_indirect, or_and_right, exists_or, exists_eq_left, hpointer,
      hpointer', Finset.mem_insert, Finset.mem_singleton]
    exact or_congr eq_comm eq_comm
  · rw [hcost, Finset.card_pair hvw]
  · have hunallocated' : fs'.superblock.unallocatedBlocks + 1 = fs₂.superblock.unallocatedBlocks :=
      he'.unallocated
    rw [hcost]
    omega

/-! ## The loop -/

theorem Hosted.run_allocDataBlocks {count : Nat} (hb : fs.Backed n o)
    (hsize : fs.layout.inodeSize = 128) (hu : fs.Usable (fs.preferredGroup n))
    (hnull : o ≤ 12 → 12 < o + count → (fs.inodeAt n).blockPtr 12 = 0) (hle : o + count ≤ 13)
    (henough : growthCost o (o + count) ≤ fs.superblock.unallocatedBlocks) :
    ∃ fs', (loop (allocDataBlock n) o count).run fs = .ok () fs' ∧
      Gained fs n o (o + count) fs' := by
  induction count generalizing o fs with
  | zero => exact ⟨fs, rfl, Gained.refl h hb⟩
  | succ count ih =>
    have hcost := growthCost_add (show o ≤ o + 1 by omega) (show o + 1 ≤ o + (count + 1) by omega)
    obtain ⟨fs₁, hrun₁, hgain₁⟩ : ∃ fs₁, (allocDataBlock n o).run fs = .ok () fs₁ ∧
        Gained fs n o (o + 1) fs₁ := by
      rcases Nat.lt_or_eq_of_le (show o ≤ 12 by omega) with hlt | rfl
      · have hone : 1 ≤ growthCost o (o + 1) := by
          unfold growthCost
          omega
        exact h.run_allocDirect hb hlt hsize hu (by omega)
      · have htwo : growthCost 12 (12 + 1) = 2 := rfl
        exact h.run_allocFirstIndirect hb hsize hu (hnull (Nat.le_refl 12) (by omega)) (by omega)
    have hgroup : fs₁.preferredGroup n = fs.preferredGroup n := by
      unfold preferredGroup
      rw [hgain₁.layout]
    have hunallocated := hgain₁.unallocated
    rw [show o + (count + 1) = o + 1 + count by omega] at *
    obtain ⟨fs', hrun, hgain⟩ := ih hgain₁.hosted hgain₁.backed
      (by rw [hgain₁.layout]; exact hsize) (by rw [hgroup]; exact hgain₁.usable _ hu)
      (fun hle hlt => by rw [hgain₁.root 12 hle]; exact hnull (by omega) hlt) hle (by omega)
    exact ⟨fs', by rw [loop, run_bind_ok hrun₁, hrun],
      hgain₁.trans hgain (Nat.le_succ o) (Nat.le_add_right _ _)⟩

end

/-! ## There and back -/

/-- When a file grows to `size` bytes and back without a trace. The file must stay within 13 blocks,
and the blocks it needs must be there. -/
structure GrowsBack (fs : FileSystem) (n size : Nat) : Prop where
  inode_size : fs.layout.inodeSize = 128
  small : fs.blocksFor size = fs.blocks n ∨ fs.blocksFor size ≤ 13
  usable : fs.blocks n < fs.blocksFor size → fs.Usable (fs.preferredGroup n)
  unmapped : fs.blocks n ≤ 12 → 12 < fs.blocksFor size → (fs.inodeAt n).blockPtr 12 = 0
  enough : growthCost (fs.blocks n) (fs.blocksFor size) ≤ fs.superblock.unallocatedBlocks

/-- Growing the file to `size` bytes and shrinking it back to its old size restores every bitmap and
every free counter. -/
def Restores (fs : FileSystem) (n size : Nat) : Prop :=
  ∃ fs₁ fs₂, (resizeInode n size).run fs = .ok () fs₁ ∧
    (resizeInode n (fs.inodeAt n).sizeLower).run fs₁ = .ok () fs₂ ∧
    (∀ g < fs.layout.blockGroups, fs₂.freeBits g = fs.freeBits g ∧
      fs₂.freeCount g = fs.freeCount g) ∧
    fs₂.superblock.unallocatedBlocks = fs.superblock.unallocatedBlocks

theorem Hosted.run_resizeInode_grow (h : fs.Hosted n) (hb : fs.Backed n (fs.blocks n)) {size : Nat}
    (hle : fs.blocks n ≤ fs.blocksFor size) (hright : fs.GrowsBack n size) :
    ∃ fs₁ fs', (resizeInode n size).run fs = .ok () fs' ∧
      Gained fs n (fs.blocks n) (fs.blocksFor size) fs₁ ∧
      Shed fs₁ n (fs.blocksFor size) (fs.blocksFor size) fs' ∧
      (fs'.inodeAt n).sizeLower = size % 2 ^ 32 := by
  rw [h.storable.run_resizeInode_start]
  obtain ⟨fs₁, hrun₁, hgain⟩ : ∃ fs₁, (if fs.blocks n < fs.blocksFor size then
      loop (allocDataBlock n) (fs.blocks n) (fs.blocksFor size - fs.blocks n)
      else if fs.blocksFor size < fs.blocks n then
        freeDataBlocks n (fs.blocksFor size) (fs.blocks n - fs.blocksFor size)
      else pure () : Action Unit).run (fs.withCurrent (fs.block (fs.inodeTableBlock n))) =
        .ok () fs₁ ∧ Gained fs n (fs.blocks n) (fs.blocksFor size) fs₁ := by
    rcases Nat.lt_or_eq_of_le hle with hlt | heq
    · have hsmall := hright.small
      have henough := hright.enough
      have hnull := hright.unmapped
      obtain ⟨count, hcount⟩ := Nat.exists_eq_add_of_lt hlt
      rw [if_pos hlt]
      rw [show fs.blocksFor size = fs.blocks n + (count + 1) by omega] at hsmall henough hnull ⊢
      obtain ⟨fs₁, hrun, hgain⟩ := h.run_allocDataBlocks hb hright.inode_size (hright.usable hlt)
        hnull (by omega) henough
      refine ⟨fs₁, ?_, hgain⟩
      rw [Nat.add_sub_cancel_left, loop, run_bind_congr (run_allocDataBlock_over
        h.placed.addressable h.isInode.toPresent (fs.blocks n) _)]
      exact hrun
    · rw [← heq, if_neg (Nat.lt_irrefl _), if_neg (Nat.lt_irrefl _)]
      exact ⟨_, rfl, h.gained_withCurrent hb _⟩
  obtain ⟨fs', hrun', hs, hlower⟩ := hgain.hosted.shed_recordSize hgain.backed
    (by rw [hgain.layout]; exact hright.inode_size) size
  exact ⟨fs₁, fs', (run_bind_ok hrun₁).trans hrun', hgain, hs, hlower⟩

/-- A file that stays within 13 blocks grows and shrinks back without a trace, and so does every
file whose number of blocks stays the same. -/
theorem Hosted.restores (h : fs.Hosted n) (hb : fs.Backed n (fs.blocks n)) {size : Nat}
    (hlt : size < 2 ^ 32) (hle : fs.blocks n ≤ fs.blocksFor size) (hright : fs.GrowsBack n size) :
    fs.Restores n size := by
  obtain ⟨fs₁, fs₂, hrun, hgain, hs, hlower⟩ := h.run_resizeInode_grow hb hle hright
  have hlayout : fs₂.layout = fs.layout := hs.layout.trans hgain.layout
  have hblocks : fs₂.blocks n = fs.blocksFor size := by
    unfold blocks dataBlocks blocksFor
    rw [hlower, Nat.mod_eq_of_lt hlt, hlayout]
  have hback : fs₂.blocksFor (fs.inodeAt n).sizeLower = fs.blocks n := by
    unfold blocks dataBlocks blocksFor
    rw [hlayout]
  have hb₂ := hs.backed
  rw [← hblocks] at hb₂
  obtain ⟨fs₃, hrun₃, hs₃⟩ := hs.hosted.run_resizeInode_shrink hb₂
    (by rw [hlayout]; exact hright.inode_size) (by rw [hback, hblocks]; exact hle)
    (by rw [hback, hblocks]; exact hright.small.imp Eq.symm id)
  rw [hback, hblocks] at hs₃
  have hlayout₃ : fs₃.layout = fs.layout := hs₃.layout.trans hlayout
  -- What the growth has taken is what the shrinking gives back.
  have hshed := hs.trans hs₃ (Nat.le_refl _) hle
  have hfree : ∀ b, fs₃.IsFree b ↔ fs.IsFree b := by
    intro b
    rw [hshed.isFree, hgain.isFree, hgain.layout]
  have hbits : ∀ g < fs.layout.blockGroups, fs₃.freeBits g = fs.freeBits g := by
    intro g hg
    refine Finset.Subset.antisymm ?_ ?_
    · exact freeBits_subset h.placed hs₃.hosted.placed hlayout₃ (fun b => (hfree b).mp) hg
    · exact freeBits_subset hs₃.hosted.placed h.placed hlayout₃.symm (fun b => (hfree b).mpr)
        (hlayout₃ ▸ hg)
  have hcounts : ∀ g < fs.layout.blockGroups, fs₃.freeCount g = fs.freeCount g := by
    intro g hg
    rw [hs₃.hosted.balanced.counts g (hlayout₃ ▸ hg), h.balanced.counts g hg, hbits g hg]
  refine ⟨fs₂, fs₃, hrun, hrun₃, fun g hg => ⟨hbits g hg, hcounts g hg⟩, ?_⟩
  rw [hs₃.hosted.balanced.total, h.balanced.total, hlayout₃]
  exact Finset.sum_congr rfl fun g hg => hcounts g (Finset.mem_range.mp hg)

/-- A file that keeps its number of blocks comes back to its old size without a trace, exactly with
inodes of 128 bytes. -/
theorem Seated.restores_iff (h : fs.Seated n) {size : Nat} (hlt : size < 2 ^ 32)
    (hsame : fs.blocksFor size = fs.blocks n) :
    fs.Restores n size ↔ fs.layout.inodeSize = 128 := by
  constructor
  · rintro ⟨fs₁, fs₂, hrun, -⟩
    exact h.toStorable.inode_size_of_run h.inode_size_ge hsame hrun
  · intro hsize
    obtain ⟨fs₁, hrun₁, hs₁⟩ := h.run_resizeInode_same hsize hlt hsame
    have hback : fs₁.blocksFor (fs.inodeAt n).sizeLower = fs₁.blocks n := by
      unfold blocksFor
      rw [hs₁.layout, hs₁.blocks]
      rfl
    obtain ⟨fs₂, hrun₂, hs₂⟩ := hs₁.seated.run_resizeInode_same (by rw [hs₁.layout]; exact hsize)
      (Bytes.u32_lt _ _) hback
    have hs := hs₁.trans hs₂
    exact ⟨fs₁, fs₂, hrun₁, hrun₂, hs.groups, hs.unallocated⟩

/-- For every block size, a file that keeps its number of blocks is resized correctly exactly with
inodes of 128 bytes. With blocks of 1 KiB, shrinking a file of up to 13 blocks frees exactly what
the file no longer needs. Where one block at most is to be freed, it does so in no other case.
Growing such a file and shrinking it back restores all bitmaps and counters. -/
theorem resize_inode_frees_exactly :
    (fs.Seated n → ∀ size < 2 ^ 32, fs.blocksFor size = fs.blocks n →
      (fs.Shrinks n size ↔ fs.layout.inodeSize = 128) ∧
      (fs.Restores n size ↔ fs.layout.inodeSize = 128)) ∧
    (fs.Hosted n → fs.Backed n (fs.blocks n) →
      (∀ size < (fs.inodeAt n).sizeLower,
        (fs.layout.inodeSize = 128 ∧ (fs.blocksFor size = fs.blocks n ∨ fs.blocks n ≤ 13) →
          fs.Shrinks n size) ∧ (fs.blocks n ≤ fs.blocksFor size + 1 → fs.Shrinks n size →
          fs.layout.inodeSize = 128 ∧ (fs.blocksFor size = fs.blocks n ∨ fs.blocks n ≤ 13))) ∧
      ∀ size, (fs.inodeAt n).sizeLower < size → size < 2 ^ 32 → fs.GrowsBack n size →
        fs.Restores n size) := by
  refine ⟨fun h size hlt hsame => ⟨h.shrinks_iff hlt hsame, h.restores_iff hlt hsame⟩,
    fun h hb => ?_⟩
  have hpos : 0 < fs.layout.blockSize := by
    rw [h.placed.block_size]
    decide
  refine ⟨fun size hlt => ?_, fun size hgt hlt hright => ?_⟩
  · have hle : fs.blocksFor size ≤ fs.blocks n := chunk_count_mono hpos hlt.le
    refine ⟨fun hright => h.shrinks hb hright.1 hle hright.2, fun hlast => h.of_shrinks hb ?_⟩
    omega
  · exact h.restores hb hlt (chunk_count_mono hpos hgt.le) hright

/-! ## Three files -/

/-- An inode of the small volume. -/
theorem hosted_sampleVolume {rest : Nat → Bytes} (hpos : 1 ≤ n) (hle : n ≤ 8)
    (hbit : (rest 4).bit (n - 1) = true) : (sampleVolume rest).Hosted n := by
  constructor
  case placed => exact placed_sampleVolume rest
  case balanced => exact balanced_sampleVolume rest
  case isInode =>
    refine ⟨present_sampleVolume hpos hle hbit, hpos, by omega, ?_⟩
    rw [inodeGroup_sampleVolume hpos hle, blockGroups_sampleVolume]
    decide
  all_goals
    simp [GroupFits, sizes_sampleVolume, inodeBitmapBlock_sampleVolume hpos hle,
      inodeTableBlock_sampleVolume hpos hle, inUse_sampleVolume]

/-- A file of 11 blocks, the blocks 8 to 18. -/
def shortFile (n : Nat) : Bytes :=
  if n = 4 then fun i => if i = 0 then 1 else 0
  else if n = 5 then fun i => if i = 1 then 0x80 else if i = 5 then 0x2C else
    if 40 ≤ i ∧ i < 84 ∧ i % 4 = 0 then UInt8.ofNat (8 + (i - 40) / 4) else 0
  else fun _ => UInt8.ofNat n

/-- A file of 14 blocks: the blocks 8 to 19, and the blocks 7 and 20 behind the indirect block 6. -/
def longFile (n : Nat) : Bytes :=
  if n = 4 then fun i => if i = 0 then 1 else 0
  else if n = 5 then fun i => if i = 1 then 0x80 else if i = 5 then 0x38 else
    if 40 ≤ i ∧ i < 88 ∧ i % 4 = 0 then UInt8.ofNat (8 + (i - 40) / 4) else if i = 88 then 6 else 0
  else if n = 6 then fun i => if i = 0 then 7 else if i = 4 then 20 else 0
  else fun _ => UInt8.ofNat n

/-- The paths to the first `t` blocks of a file and to the indirect blocks on the way. -/
def neededPaths (l : Layout) (t : Nat) : List (Nat × List Nat) :=
  (List.range t).flatMap fun k => (l.path k).2.inits.map ((l.path k).1, ·)

theorem mem_neededPaths {l : Layout} {π : Nat × List Nat} : π ∈ neededPaths l t ↔ l.Needs t π := by
  simp [neededPaths, Layout.Needs, List.IsPrefix, Prod.ext_iff, eq_comm, and_comm]

/-- The pointers of a file whose blocks are all different and outside the metadata. -/
theorem backed_sampleVolume {rest : Nat → Bytes} (hpos : 1 ≤ n) (hle : n ≤ 8) (ht : t ≤ 14)
    (hptr : ∀ π ∈ neededPaths (sampleVolume rest).layout t,
      (sampleVolume rest).pointer ((sampleVolume rest).inodeAt n) π ∈ List.range' 6 18 ∧
      ∀ π' ∈ neededPaths (sampleVolume rest).layout t,
        (sampleVolume rest).pointer ((sampleVolume rest).inodeAt n) π =
          (sampleVolume rest).pointer ((sampleVolume rest).inodeAt n) π' → π = π') :
    (sampleVolume rest).Backed n t := by
  simp only [mem_neededPaths, List.mem_range'_1] at hptr
  constructor
  case le =>
    rw [layout_sampleVolume]
    exact Nat.le_trans ht (by decide)
  case ne_zero =>
    intro π hπ
    have := (hptr π hπ).1
    omega
  case inUse =>
    intro π hπ
    obtain ⟨hge, hlt⟩ := (hptr π hπ).1
    exact inUse_sampleVolume rest (by omega) hlt
  case not_bitmap =>
    intro π hπ
    rw [inodeBitmapBlock_sampleVolume hpos hle]
    have := (hptr π hπ).1
    omega
  case not_table =>
    intro π hπ
    rw [inodeTableBlock_sampleVolume hpos hle]
    have := (hptr π hπ).1
    omega
  case injective => exact fun π π' hπ hπ' => (hptr π hπ).2 π' hπ'

theorem shortFile_fields : ((sampleVolume shortFile).inodeAt 1).sizeLower = 11264 ∧
    ∀ i < 15, ((sampleVolume shortFile).inodeAt 1).blockPtr i = if i < 11 then 8 + i else 0 := by
  decide

theorem blocks_shortFile : (sampleVolume shortFile).blocks 1 = 11 := by decide

theorem backed_shortFile : (sampleVolume shortFile).Backed 1 11 :=
  backed_sampleVolume (by decide) (by decide) (by decide) (by decide)

/-- A volume with blocks of 2 KiB, and a file of 3000 bytes in the blocks 8 and 9. -/
def oddVolume : FileSystem where
  disk := fun a =>
    sampleBlock (fun n i =>
      if n = 4 then if i = 0 then 1 else 0
      else if n = 5 then if i = 1 then 0x80 else if i = 4 then 0xB8 else if i = 5 then 0x0B else
        if i = 40 then 8 else if i = 44 then 9 else 0
      else 0) (if a / 2048 = 1 then 2 else a / 2048) (a % 2048)
  superblock := ⟨fun i => if i = 24 then 1 else sampleSuperblock.raw i⟩
  currentBlock := fun _ => 0
  zeroes := none
  clock := fun _ => 0
  hasError := 1

theorem seated_oddVolume : oddVolume.Seated 1 := by
  refine ⟨⟨⟨?_, ?_⟩, ⟨?_, ?_, ?_, ?_, ?_, ?_⟩, ?_, ?_⟩, ?_, ?_, ?_, ?_⟩ <;> decide

/-- The short file can be emptied, and it can grow to 13 blocks and shrink back. The file of 3000
bytes can be shortened to 2500. -/
theorem resize_inode_frees_short_file : (sampleVolume shortFile).Shrinks 1 0 ∧
    (sampleVolume shortFile).Restores 1 13312 ∧ oddVolume.Shrinks 1 2500 := by
  have hblocks := blocks_shortFile
  have hsize : (sampleVolume shortFile).layout.inodeSize = 128 := by decide
  have hfor : (sampleVolume shortFile).blocksFor 13312 = 13 := by decide
  have h : (sampleVolume shortFile).Hosted 1 :=
    hosted_sampleVolume (by decide) (by decide) (by decide)
  have hright := resize_inode_frees_exactly.2 h (by rw [hblocks]; exact backed_shortFile)
  have hodd := resize_inode_frees_exactly.1 seated_oddVolume 2500 (by decide) (by decide)
  refine ⟨(hright.1 0 (by decide)).1 ⟨hsize, .inr (by decide)⟩, hright.2 13312 (by decide)
    (by decide) ⟨hsize, .inr hfor.le, fun _ => .inl ?_, fun _ _ => ?_, ?_⟩, hodd.1.mpr (by decide)⟩
  · rw [blockGroups_sampleVolume]
    decide
  · exact shortFile_fields.2 12 (by decide)
  · rw [hblocks, hfor]
    decide

theorem blocks_longFile : (sampleVolume longFile).blocks 1 = 14 := by decide

theorem backed_longFile : (sampleVolume longFile).Backed 1 14 :=
  backed_sampleVolume (by decide) (by decide) (Nat.le_refl 14) (by decide)

/-- The last block of a file of 14 blocks cannot be cut off: the indirect block is overwritten, and
the block before is lost. -/
theorem long_file_not_shrunk : (sampleVolume longFile).Hosted 1 ∧
      (sampleVolume longFile).Backed 1 ((sampleVolume longFile).blocks 1) ∧
      13312 < ((sampleVolume longFile).inodeAt 1).sizeLower ∧
      ¬ (sampleVolume longFile).Shrinks 1 13312 := by
  have hblocks := blocks_longFile
  have hfor : (sampleVolume longFile).blocksFor 13312 = 13 := by decide
  have h : (sampleVolume longFile).Hosted 1 :=
    hosted_sampleVolume (by decide) (by decide) (by decide)
  have hb : (sampleVolume longFile).Backed 1 ((sampleVolume longFile).blocks 1) := by
    exact backed_longFile
  refine ⟨h, hb, by decide, fun hs => ?_⟩
  have hright := (h.of_shrinks hb (.inr (by rw [hfor, hblocks])) hs).2
  omega

end FileSystem

end LudOS.Ext2
