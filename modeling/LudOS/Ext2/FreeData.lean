import LudOS.Ext2.ExtendMap

/-!
# Freeing blocks of a file

`free_data_block` takes a block out of the block map of an inode and gives it back. Like
`alloc_indirected`, `free_indirected` uses the scratch buffer as the indirect block while
`free_block` goes through bitmaps and descriptors in the same buffer, so the indirect block is
overwritten with a block of the descriptor table in which the entry of the freed block is zero.

`Releases` is the frame: what a sequence of frees and stores leaves alone. `run_freeIndirected` is
the walk down a tree.
-/

namespace LudOS.Ext2

open Lib

/-! ## The functions -/

/-- `Ext2FS::free_indirected`. -/
def freeIndirected : (depth indirectedBlock blkId : Nat) → Action Unit
  | 0, indirectedBlock, blkId | 1, indirectedBlock, blkId => do
    check .assertion (indirectedBlock ≠ 0)
    loadBlock indirectedBlock
    let block ← wordAt blkId
    freeBlock block
    setWordAt blkId 0
    storeBlock indirectedBlock
  | depth + 2, indirectedBlock, blkId => do
    let layout ← getLayout
    check .assertion (indirectedBlock ≠ 0)
    loadBlock indirectedBlock
    let block ← wordAt (blkId / layout.span (depth + 1))
    freeIndirected (depth + 1) block (blkId % layout.span (depth + 1))

/-- The part of `Ext2FS::free_data_block` for a block index behind `block_ptr[root]`: the root is
freed with the first block of its tree. -/
def freeTree (inode : Nat) (info : Inode) (root depth blkId : Nat) : Action Unit := do
  freeIndirected depth (info.blockPtr root) blkId
  if blkId = 0 then do
    freeBlock (info.blockPtr root)
    writeInode inode (info.setBlockPtr root 0)
  else pure ()

/-- `Ext2FS::free_data_block`. -/
def freeDataBlock (inode blkId : Nat) : Action Unit := do
  let layout ← getLayout
  let entries := layout.entriesPerBlock
  let info ← readInode inode
  if blkId < 12 then do
    freeBlock (info.blockPtr blkId)
    writeInode inode (info.setBlockPtr blkId 0)
  else if blkId - 12 < entries then freeTree inode info 12 1 (blkId - 12)
  else if blkId - 12 - entries < wmul entries entries then
    freeTree inode info 13 2 (blkId - 12 - entries)
  else freeTree inode info 14 3 (blkId - 12 - entries - wmul entries entries)

/-! ## The paths a file needs -/

/-- Path `π` leads to one of the first `t` blocks of a file, or to an indirect block on the way. -/
def Layout.Needs (l : Layout) (t : Nat) (π : Nat × List Nat) : Prop :=
  ∃ k < t, ∃ ks, l.path k = (π.1, π.2 ++ ks)

/-- Block index `k` is the first one behind its entry of `block_ptr`. -/
def Layout.IsFirst (l : Layout) (k : Nat) : Prop := ∀ i ∈ (l.path k).2, i = 0

instance (l : Layout) (k : Nat) : Decidable (l.IsFirst k) :=
  inferInstanceAs (Decidable (∀ i ∈ (l.path k).2, i = 0))

theorem Layout.indices_eq_zero (l : Layout) {depth blkId : Nat} :
    (∀ i ∈ l.indices depth blkId, i = 0) ↔ blkId = 0 := by
  induction depth generalizing blkId with
  | zero => simp [Layout.indices]
  | succ depth ih =>
    cases depth with
    | zero => simp [Layout.indices]
    | succ depth =>
      unfold Layout.indices
      rw [List.forall_mem_cons, ih]
      have hsum := Nat.div_add_mod blkId (l.span (depth + 1))
      constructor
      · rintro ⟨hdiv, hmod⟩
        rw [hdiv, hmod] at hsum
        exact hsum.symm
      · rintro rfl
        exact ⟨Nat.zero_div _, Nat.zero_mod _⟩

theorem Layout.needs_path (l : Layout) {t k : Nat} (hk : k < t) : l.Needs t (l.path k) :=
  ⟨k, hk, [], by rw [List.append_nil]⟩

theorem Layout.Needs.shorter {l : Layout} {t : Nat} {π : Nat × List Nat} (h : l.Needs t π)
    {js ks : List Nat} (hsplit : π.2 = js ++ ks) : l.Needs t (π.1, js) := by
  obtain ⟨k, hk, ls, hpath⟩ := h
  exact ⟨k, hk, ks ++ ls, by rw [hpath, hsplit, List.append_assoc]⟩

theorem Layout.Needs.mono {l : Layout} {t t' : Nat} {π : Nat × List Nat} (h : l.Needs t π)
    (hle : t ≤ t') : l.Needs t' π := by
  obtain ⟨k, hk, ks, hpath⟩ := h
  exact ⟨k, by omega, ks, hpath⟩

namespace FileSystem

variable {fs fs' fs₁ fs₂ : FileSystem} {n k t : Nat}

/-! ## The frame of frees -/

/-- What frees of the `freed` blocks and stores to the `touched` blocks leave alone. Blocks that
stay in use and hold no allocation metadata keep their content, the metadata stays where it is and
consistent, and no other block becomes free. -/
structure Releases (fs : FileSystem) (freed touched : Nat → Prop) (fs' : FileSystem) : Prop where
  layout : fs'.layout = fs.layout
  placed : Placed fs'
  balanced : Balanced fs'
  isReserved : ∀ k, fs'.IsReserved k ↔ fs.IsReserved k
  isFree : ∀ k, fs'.IsFree k ↔ fs.IsFree k ∨ freed k
  descriptor : ∀ g < fs.layout.blockGroups, ∀ off, off + 4 ≤ 12 →
    (fs'.descriptor g).raw.u32 off = (fs.descriptor g).raw.u32 off
  frame : ∀ k, ¬ fs.IsReserved k → ¬ fs.IsFree k → ¬ freed k → ¬ touched k →
    fs'.block k = fs.block k

namespace Releases

variable {freed freed₁ freed₂ touched touched₁ touched₂ : Nat → Prop}

/-- The scratch buffer plays no part in the frame. -/
theorem of_withCurrent {c : Bytes} (h : Releases (fs.withCurrent c) freed touched fs') :
    Releases fs freed touched fs' :=
  { h with }

theorem congr (h : Releases fs freed₁ touched₁ fs') (hfreed : ∀ k, freed₁ k ↔ freed₂ k)
    (htouched : ∀ k, ¬ freed₂ k → touched₁ k → touched₂ k) : Releases fs freed₂ touched₂ fs' := by
  refine { h with isFree := fun k => ?_, frame := fun k hreserved hfree hk hne => ?_ }
  · rw [h.isFree, hfreed]
  · exact h.frame k hreserved hfree (fun hf => hk ((hfreed k).mp hf))
      fun ht => hne (htouched k hk ht)

theorem trans (h₁ : Releases fs freed₁ touched₁ fs₁) (h₂ : Releases fs₁ freed₂ touched₂ fs₂) :
    Releases fs (fun k => freed₁ k ∨ freed₂ k) (fun k => touched₁ k ∨ touched₂ k) fs₂ := by
  constructor
  case layout => rw [h₂.layout, h₁.layout]
  case placed => exact h₂.placed
  case balanced => exact h₂.balanced
  case isReserved => exact fun k => (h₂.isReserved k).trans (h₁.isReserved k)
  case isFree => exact fun k => by rw [h₂.isFree, h₁.isFree, or_assoc]
  case descriptor =>
    intro g hg off hoff
    rw [h₂.descriptor g (h₁.layout ▸ hg) off hoff, h₁.descriptor g hg off hoff]
  case frame =>
    intro k hreserved hfree hfreed htouched
    rw [not_or] at hfreed htouched
    have hfree₁ : ¬ fs₁.IsFree k := by
      rw [h₁.isFree, not_or]
      exact ⟨hfree, hfreed.1⟩
    rw [h₂.frame k (fun hr => hreserved ((h₁.isReserved k).mp hr)) hfree₁ hfreed.2 htouched.2]
    exact h₁.frame k hreserved hfree hfreed.1 htouched.1

section

variable (h : Placed fs) (hb : Balanced fs)

include h hb

/-- A new content of the scratch buffer. -/
theorem withCurrent (c : Bytes) :
    Releases fs (fun _ => False) (fun _ => False) (fs.withCurrent c) := by
  refine ⟨rfl, h.withCurrent c, hb.withCurrent c, fun _ => Iff.rfl, fun k => ?_,
    fun _ _ _ _ => rfl, fun _ _ _ _ _ => rfl⟩
  rw [or_false]
  exact Iff.rfl

/-- A store to a block without allocation metadata. -/
theorem store (hk : ¬ fs.IsReserved k) (data : Bytes) :
    Releases fs (fun _ => False) (· = k) (fs.putBlock k data) := by
  have hs := sameAccounting_putBlock hk data
  have hgrows := Grows.store h hb hk data
  refine { hgrows with
    isFree := fun k' => ?_
    frame := fun k' hreserved hfree _ hne => hgrows.frame k' hreserved hfree hne }
  rw [hs.isFree, or_false]

/-- A store of the scratch buffer to such a block. -/
theorem store_current (hk : ¬ fs.IsReserved k)
    (c : Bytes) : Releases fs (fun _ => False) (· = k) ((fs.withCurrent c).putBlock k c) :=
  (store (h.withCurrent c) (hb.withCurrent c) hk c).of_withCurrent

end

section

variable (h : Releases fs freed touched fs') (hk : fs.InUse k) (hfreed : ¬ freed k)

include h hk hfreed

/-- What has been in use and is not freed still is. -/
theorem inUse : fs'.InUse k := by
  refine ⟨h.layout ▸ hk.lt, fun hr => hk.not_reserved ((h.isReserved k).mp hr), ?_⟩
  rw [h.isFree, not_or]
  exact ⟨hk.not_free, hfreed⟩

/-- A block that stays in use and is not stored to keeps its entries. -/
theorem entry (htouched : ¬ touched k) : fs'.entry k = fs.entry k := by
  funext i
  unfold FileSystem.entry
  rw [h.frame k hk.not_reserved hk.not_free hfreed htouched]

end

end Releases

/-- The freed block is free, and no other block has become free. -/
theorem Freed.isFree {g j : Nat} (hf : Freed fs g j fs') (h : Placed fs)
    (hg : g < fs.layout.blockGroups) (hbit : j < fs.layout.blockSize * 8) (k : Nat) :
    fs'.IsFree k ↔ fs.IsFree k ∨ k = fs.layout.blockOf g j := by
  unfold IsFree
  rw [hf.layout]
  constructor
  · rintro ⟨g', hg', i, hi, rfl⟩
    rcases (hf.mem_freeBits h hg hbit hg').mp hi with hi | ⟨rfl, rfl⟩
    · exact .inl ⟨g', hg', i, hi, rfl⟩
    · exact .inr rfl
  · rintro (⟨g', hg', i, hi, rfl⟩ | rfl)
    · exact ⟨g', hg', i, (hf.mem_freeBits h hg hbit hg').mpr (.inl hi), rfl⟩
    · exact ⟨g, hg, j, (hf.mem_freeBits h hg hbit hg).mpr (.inr ⟨rfl, rfl⟩), rfl⟩

/-- Every bit of a group is in its bitmap block. -/
def GroupFits (fs : FileSystem) : Prop :=
  fs.layout.blocksInBlockGroup ≤ fs.layout.blockSize * 8

/-- `free_block` of a block that is in use. The scratch buffer is left with a block of the
descriptor table. -/
theorem run_freeBlock_inUse (h : Placed fs) (hb : Balanced fs) (hfits : fs.GroupFits) {v : Nat}
    (hv : fs.InUse v) (hne : v ≠ 0) :
    ∃ fs', (freeBlock v).run fs = .ok () fs' ∧ Releases fs (· = v) (fun _ => False) fs' ∧
      ∃ g < fs.layout.blockGroups, fs'.currentBlock = fs'.block (fs.layout.tableBlock g) := by
  have hpos := h.group_size_pos
  obtain ⟨g, hgdef⟩ : ∃ g, (v - 1) / fs.layout.blocksInBlockGroup = g := ⟨_, rfl⟩
  obtain ⟨j, hjdef⟩ : ∃ j, (v - 1) % fs.layout.blocksInBlockGroup = j := ⟨_, rfl⟩
  have hin : j < fs.layout.blocksInBlockGroup := hjdef ▸ Nat.mod_lt _ hpos
  have hbit : j < fs.layout.blockSize * 8 := Nat.lt_of_lt_of_le hin hfits
  have hv_eq : v = fs.layout.blockOf g j := by
    have hdiv := Nat.div_add_mod' (v - 1) fs.layout.blocksInBlockGroup
    rw [hgdef, hjdef] at hdiv
    unfold Layout.blockOf
    omega
  have hg : g < fs.layout.blockGroups := by
    rw [← hgdef, Nat.div_lt_iff_lt_mul hpos]
    have hlt := hv.lt
    exact Nat.lt_of_lt_of_le (by omega) (chunk_count_mul_ge hpos)
  have hused : j ∉ fs.freeBits g := fun hj => hv.not_free ⟨g, hg, j, hj, hv_eq⟩
  have hlt := hv.lt
  have hunreserved := hv.not_reserved
  rw [hv_eq] at hlt hunreserved ⊢
  obtain ⟨fs', hrun, hf, hcurrent⟩ := run_freeBlock h hg hin hbit hlt hused
  have hp' := hf.placed h hg hbit hin hlt hunreserved
  refine ⟨fs', hrun, ?_, g, hg, by rw [hcurrent, hf.table]⟩
  constructor
  case layout => exact hf.layout
  case placed => exact hp'
  case balanced => exact hf.balanced h hb hp' hg hbit hused
  case isReserved => exact hf.toRecounted.isReserved h hg
  case isFree => exact hf.isFree h hg hbit
  case descriptor => exact fun g' hg' off hoff => hf.toRecounted.u32_descriptor h hg hg' hoff
  case frame =>
    intro k hreserved hfree _ _
    exact hf.frame k (fun hc => hreserved (.inl hc)) (fun heq => hreserved (.inr ⟨g, hg, .inr heq⟩))
      (fun heq => hreserved (.inr ⟨g, hg, .inl heq⟩)) hfree

/-- The descriptor table begins with the numbers of block bitmaps. -/
theorem exists_bitmapBlock_eq (h : Placed fs) {g : Nat} (hg : g < fs.layout.blockGroups) :
    ∃ g₀ < fs.layout.blockGroups,
      (fs.block (fs.layout.tableBlock g)).u32 0 = fs.bitmapBlock g₀ := by
  have hper : fs.layout.groupDescPerBlock = 32 := by
    unfold Layout.groupDescPerBlock
    rw [h.block_size]
  refine ⟨g / 32 * 32, by omega, ?_⟩
  have htable : fs.layout.tableBlock (g / 32 * 32) = fs.layout.tableBlock g := by
    unfold Layout.tableBlock
    rw [hper, Nat.mul_div_cancel _ (by decide)]
  have hoffset : fs.layout.tableOffset (g / 32 * 32) = 0 := by
    unfold Layout.tableOffset
    rw [hper, Nat.mul_mod_left, Nat.zero_mul]
  unfold bitmapBlock BlockGroupDescriptor.blockBitmap descriptor
  rw [htable, hoffset]
  rfl

/-! ## The walk down a tree -/

/-- What `free_indirected` has done: block `v` is free, and the indirect block `q` with its entry
`i` has been overwritten. -/
structure Cleared (fs : FileSystem) (q i v : Nat) (fs' : FileSystem) : Prop where
  releases : Releases fs (· = v) (· = q) fs'
  overwritten : ∃ g < fs.layout.blockGroups,
    fs'.block q = (fs'.block (fs.layout.tableBlock g)).putU32 (4 * i) 0

theorem Cleared.of_withCurrent {c : Bytes} {q i v : Nat}
    (h : Cleared (fs.withCurrent c) q i v fs') : Cleared fs q i v fs' :=
  ⟨h.releases.of_withCurrent, h.overwritten⟩

/-- What `free_indirected` needs for a path below block `p`. -/
structure Freeable (fs : FileSystem) (p : Nat) (is : List Nat) : Prop where
  placed : Placed fs
  balanced : Balanced fs
  fits : fs.GroupFits
  inUse : ∀ k ∈ Walk.visited fs.entry p is, fs.InUse k
  reaches : 0 ∉ Walk.visited fs.entry p is
  entries : ∀ i ∈ is, 4 * i + 4 ≤ fs.layout.blockSize
  last_inUse : fs.InUse (Walk.follow fs.entry p is)
  last_ne_zero : Walk.follow fs.entry p is ≠ 0
  last_not_visited : Walk.follow fs.entry p is ∉ Walk.visited fs.entry p is

namespace Freeable

variable {p i : Nat} {is : List Nat}

theorem withCurrent (h : Freeable fs p is) (c : Bytes) : Freeable (fs.withCurrent c) p is :=
  { h with
    placed := h.placed.withCurrent c
    balanced := h.balanced.withCurrent c
    inUse := fun k hk => { h.inUse k hk with }
    last_inUse := { h.last_inUse with } }

section

variable (h : Freeable fs p (i :: is))

include h

theorem root_inUse : fs.InUse p := h.inUse p List.mem_cons_self

theorem root_ne_zero : p ≠ 0 := fun heq =>
  h.reaches (heq ▸ List.mem_cons_self)

theorem entry_le : 4 * i + 4 ≤ fs.layout.blockSize := h.entries i List.mem_cons_self

theorem below : Freeable fs (fs.entry p i) is :=
  ⟨h.placed, h.balanced, h.fits, fun k hk => h.inUse k (List.mem_cons_of_mem p hk),
    fun hk => h.reaches (List.mem_cons_of_mem p hk),
    fun j hj => h.entries j (List.mem_cons_of_mem i hj), h.last_inUse, h.last_ne_zero,
    fun hk => h.last_not_visited (List.mem_cons_of_mem p hk)⟩

/-- What both kinds of levels begin with. -/
theorem run_enter {α : Type} (f : Nat → Action α) :
    (do
      check .assertion (p ≠ 0)
      loadBlock p
      let block ← wordAt i
      f block : Action α).run fs = (f (fs.entry p i)).run (fs.withCurrent (fs.block p)) := by
  rw [run_check_bind h.root_ne_zero,
    run_bind_ok (run_loadBlock h.placed.addressable h.root_inUse.lt)]
  exact run_bind_ok (run_wordAt h.entry_le)

end

end Freeable

/-- The last level of `free_indirected`. -/
theorem run_freeLeaf {p i : Nat} (h : Freeable fs p [i]) :
    ∃ fs', (do
        check .assertion (p ≠ 0)
        loadBlock p
        let block ← wordAt i
        freeBlock block
        setWordAt i 0
        storeBlock p : Action Unit).run fs = .ok () fs' ∧ Cleared fs p i (fs.entry p i) fs' := by
  have hc := h.withCurrent (fs.block p)
  have hne : p ≠ fs.entry p i := fun heq =>
    h.last_not_visited (List.mem_singleton.mpr heq.symm)
  obtain ⟨fs₁, hrun, hr, g, hg, hcurrent⟩ := run_freeBlock_inUse hc.placed hc.balanced hc.fits
    hc.last_inUse hc.last_ne_zero
  have hr : Releases fs (· = fs.entry p i) (fun _ => False) fs₁ := hr.of_withCurrent
  have hp₁ := hr.inUse h.root_inUse hne
  have htable : p ≠ fs.layout.tableBlock g := fun heq =>
    h.root_inUse.not_reserved (.inr ⟨g, hg, .inl heq⟩)
  generalize hword : (fs₁.block (fs.layout.tableBlock g)).putU32 (4 * i) 0 = word
  have htrunc : word.trunc fs₁.layout.blockSize = word := by
    rw [← hword, hr.layout]
    unfold Bytes.putU32
    rw [Bytes.trunc_splice h.entry_le, ← hr.layout, trunc_block]
  have hset : (setWordAt i 0).run fs₁ = .ok () (fs₁.withCurrent word) := by
    unfold setWordAt
    rw [run_get_bind, ← hword]
    have hcurrent : fs₁.currentBlock = fs₁.block (fs.layout.tableBlock g) := hcurrent
    rw [← hcurrent]
    exact run_check_bind (hr.layout ▸ h.entry_le)
  have hstore : (storeBlock p).run (fs₁.withCurrent word) =
      .ok () ((fs₁.withCurrent word).putBlock p word) :=
    run_storeBlock (show Addressable (fs₁.withCurrent word).layout from hr.placed.addressable)
      hp₁.lt
  refine ⟨(fs₁.withCurrent word).putBlock p word, ?_, ?_, g, hg, ?_⟩
  · rw [h.run_enter]
    exact (run_bind_ok hrun).trans ((run_bind_ok hset).trans hstore)
  · have hput := Releases.store_current hr.placed hr.balanced hp₁.not_reserved word
    refine (hr.trans hput).congr (fun k => ?_) fun k _ hk => ?_
    · rw [or_false]
    · exact hk.resolve_left id
  · rw [block_putBlock_same, block_putBlock_other htable.symm, layout_withCurrent, htrunc,
      block_withCurrent, hword]

/-- `free_indirected` frees the block a path leads to, and overwrites the last indirect block. -/
theorem run_freeIndirected {depth p blkId : Nat}
    (h : Freeable fs p (fs.layout.indices depth blkId)) :
    ∃ js i fs', fs.layout.indices depth blkId = js ++ [i] ∧
      (freeIndirected depth p blkId).run fs = .ok () fs' ∧ Cleared fs (Walk.follow fs.entry p js) i
        (Walk.follow fs.entry p (fs.layout.indices depth blkId)) fs' := by
  induction depth generalizing p blkId fs with
  | zero =>
    obtain ⟨fs', hrun, hc⟩ := run_freeLeaf h
    exact ⟨[], blkId, fs', rfl, hrun, hc⟩
  | succ depth ih =>
    cases depth with
    | zero =>
      obtain ⟨fs', hrun, hc⟩ := run_freeLeaf h
      exact ⟨[], blkId, fs', rfl, hrun, hc⟩
    | succ depth =>
      unfold Layout.indices at h ⊢
      generalize htgt : blkId / fs.layout.span (depth + 1) = tgt at h ⊢
      generalize hoffset : blkId % fs.layout.span (depth + 1) = offset at h ⊢
      have hstart : (freeIndirected (depth + 2) p blkId).run fs =
          (freeIndirected (depth + 1) (fs.entry p tgt) offset).run
            (fs.withCurrent (fs.block p)) := by
        conv_lhs => unfold freeIndirected
        refine (run_getLayout_bind _ fs.currentBlock).trans ?_
        rw [htgt, hoffset]
        exact h.run_enter _
      obtain ⟨js, i, fs', hsplit, hrun, hc⟩ := ih (h.below.withCurrent (fs.block p))
      refine ⟨tgt :: js, i, fs', congrArg (tgt :: ·) hsplit, hstart.trans hrun, ?_⟩
      exact hc.of_withCurrent

/-! ## Inodes under frees -/

theorem Releases.sameGroup {freed touched : Nat → Prop} (hr : Releases fs freed touched fs')
    (hn : fs.IsInode n) : SameGroup fs n fs' :=
  ⟨hr.layout, hr.descriptor _ hn.group_lt⟩

/-- Inode `n` is present on a volume with 1 KiB blocks whose metadata is consistent, and its bitmap
and its block of the inode table are blocks of their own. -/
structure Hosted (fs : FileSystem) (n : Nat) : Prop where
  placed : Placed fs
  balanced : Balanced fs
  fits : fs.GroupFits
  inode_size_ge : 128 ≤ fs.layout.inodeSize
  isInode : fs.IsInode n
  bitmap_inUse : fs.InUse (fs.inodeBitmapBlock n)
  table_inUse : fs.InUse (fs.inodeTableBlock n)
  bitmap_ne_table : fs.inodeBitmapBlock n ≠ fs.inodeTableBlock n

namespace Hosted

variable (h : fs.Hosted n)

include h

/-- A volume with the same accounting structure on which the inode is still present and its blocks
are still in use. -/
theorem of_sameGroup (hg : SameGroup fs n fs') (hp : Placed fs') (hb : Balanced fs')
    (hbitmap : fs'.InUse (fs.inodeBitmapBlock n)) (htable : fs'.InUse (fs.inodeTableBlock n))
    (hblock : fs'.block (fs.inodeBitmapBlock n) = fs.block (fs.inodeBitmapBlock n)) :
    fs'.Hosted n := by
  constructor
  case placed => exact hp
  case balanced => exact hb
  case fits =>
    unfold GroupFits
    rw [hg.layout]
    exact h.fits
  case inode_size_ge => rw [hg.layout]; exact h.inode_size_ge
  case isInode => exact hg.isInode h.isInode hblock
  case bitmap_inUse => rw [hg.inodeBitmapBlock]; exact hbitmap
  case table_inUse => rw [hg.inodeTableBlock]; exact htable
  case bitmap_ne_table => rw [hg.inodeBitmapBlock, hg.inodeTableBlock]; exact h.bitmap_ne_table

/-- Frees and stores elsewhere keep the inode. -/
theorem releases {freed touched : Nat → Prop} (hr : Releases fs freed touched fs')
    (hbitmap : ¬ freed (fs.inodeBitmapBlock n)) (hbitmap' : ¬ touched (fs.inodeBitmapBlock n))
    (htable : ¬ freed (fs.inodeTableBlock n)) : fs'.Hosted n :=
  h.of_sameGroup (hr.sameGroup h.isInode) hr.placed hr.balanced (hr.inUse h.bitmap_inUse hbitmap)
    (hr.inUse h.table_inUse htable) (hr.frame _ h.bitmap_inUse.not_reserved h.bitmap_inUse.not_free
      hbitmap hbitmap')

/-- So do allocations. -/
theorem grows {touched : Nat → Prop} (hgrows : Grows fs touched fs')
    (hbitmap : ¬ touched (fs.inodeBitmapBlock n)) : fs'.Hosted n :=
  h.of_sameGroup (hgrows.sameGroup h.isInode) hgrows.placed hgrows.balanced
    (hgrows.inUse h.bitmap_inUse) (hgrows.inUse h.table_inUse)
    (hgrows.frame _ h.bitmap_inUse.not_reserved h.bitmap_inUse.not_free hbitmap)

theorem run_readInode (c : Bytes) : (readInode n).run (fs.withCurrent c) =
      .ok (fs.inodeAt n) (fs.withCurrent (fs.block (fs.inodeTableBlock n))) :=
  FileSystem.run_readInode h.placed.addressable h.isInode.toPresent c

/-- `write_inode` stores to the block of the inode and to no other. -/
theorem run_writeInode (hsize : fs.layout.inodeSize = 128) {inode : Inode}
    (htrunc : inode.raw.trunc 128 = inode.raw) : ∃ fs', (writeInode n inode).run fs = .ok () fs' ∧
      Releases fs (fun _ => False) (· = fs.inodeTableBlock n) fs' ∧ fs'.inodeAt n = inode := by
  obtain ⟨fs', hrun, hw⟩ := run_writeInode_wrote h.placed h.balanced h.isInode h.table_inUse hsize
    htrunc
  have hrun' := FileSystem.run_writeInode h.placed.addressable h.isInode.toPresent hsize inode
    fs.currentBlock
  rw [withCurrent_currentBlock, hrun] at hrun'
  generalize fs.newInodeTable n inode = table at hrun'
  injection hrun' with _ hstate
  refine ⟨fs', hrun, ?_, hw.same⟩
  rw [hstate]
  exact Releases.store_current h.placed h.balanced h.table_inUse.not_reserved table

/-- It reads past the end of the structure if inodes are larger. -/
theorem run_writeInode_error (hsize : fs.layout.inodeSize ≠ 128) (inode : Inode) :
    ∃ e fs', (writeInode n inode).run fs = .error e fs' := by
  have hge := h.inode_size_ge
  have hrun := run_writeInode_of_gt h.placed.addressable h.isInode.toPresent (by omega) inode
    fs.currentBlock
  exact ⟨_, _, hrun⟩

end Hosted

/-! ## The blocks of a file -/

/-- The first `t` blocks of inode `n` and the indirect blocks they need are allocated, and each of
them is a block of its own. -/
structure Backed (fs : FileSystem) (n t : Nat) : Prop where
  le : t ≤ fs.layout.mapSize
  ne_zero : ∀ π, fs.layout.Needs t π → fs.pointer (fs.inodeAt n) π ≠ 0
  inUse : ∀ π, fs.layout.Needs t π → fs.InUse (fs.pointer (fs.inodeAt n) π)
  not_bitmap : ∀ π, fs.layout.Needs t π → fs.pointer (fs.inodeAt n) π ≠ fs.inodeBitmapBlock n
  not_table : ∀ π, fs.layout.Needs t π → fs.pointer (fs.inodeAt n) π ≠ fs.inodeTableBlock n
  injective : ∀ π π', fs.layout.Needs t π → fs.layout.Needs t π' →
    fs.pointer (fs.inodeAt n) π = fs.pointer (fs.inodeAt n) π' → π = π'

namespace Backed

variable {t k : Nat} (hb : fs.Backed n t)

include hb

theorem mono {t' : Nat} (hle : t' ≤ t) : fs.Backed n t' :=
  ⟨Nat.le_trans hle hb.le, fun π hπ => hb.ne_zero π (hπ.mono hle),
    fun π hπ => hb.inUse π (hπ.mono hle), fun π hπ => hb.not_bitmap π (hπ.mono hle),
    fun π hπ => hb.not_table π (hπ.mono hle),
    fun π π' hπ hπ' => hb.injective π π' (hπ.mono hle) (hπ'.mono hle)⟩

/-- The indirect blocks on a path are blocks of the file too. -/
theorem visited {π : Nat × List Nat} (hneeds : fs.layout.Needs t π) {b : Nat}
    (h : b ∈ Walk.visited fs.entry ((fs.inodeAt n).blockPtr π.1) π.2) :
    ∃ js i ks, π.2 = js ++ i :: ks ∧ fs.layout.Needs t (π.1, js) ∧
      fs.pointer (fs.inodeAt n) (π.1, js) = b := by
  have hreach := (Walk.resolve_ne_null (hb.ne_zero π hneeds)).1
  obtain ⟨js, i, ks, hsplit, heq, -⟩ := Walk.exists_resolve_eq_of_mem_visited hreach h
  exact ⟨js, i, ks, hsplit, hneeds.shorter hsplit, heq⟩

theorem blockNumber_eq (hk : k < t) :
    fs.blockNumber (fs.inodeAt n) k = fs.pointer (fs.inodeAt n) (fs.layout.path k) :=
  blockNumber_eq_pointer (not_mem_visitedBlocks (hb.ne_zero _ (fs.layout.needs_path hk)))

theorem follow_eq {π : Nat × List Nat} (hneeds : fs.layout.Needs t π) :
    Walk.follow fs.entry ((fs.inodeAt n).blockPtr π.1) π.2 = fs.pointer (fs.inodeAt n) π :=
  (Walk.resolve_ne_null (hb.ne_zero π hneeds)).2.symm

/-- The entry of `block_ptr` that a block index is behind. -/
theorem needs_root (hk : k < t) : (fs.inodeAt n).blockPtr (fs.layout.path k).1 ≠ 0 ∧
      fs.InUse ((fs.inodeAt n).blockPtr (fs.layout.path k).1) := by
  have hneeds := (fs.layout.needs_path hk).shorter (show (fs.layout.path k).2 = [] ++ _ from rfl)
  exact ⟨hb.ne_zero _ hneeds, hb.inUse _ hneeds⟩

variable (h : fs.Hosted n)

include h

theorem freeable (hk : k < t) :
    Freeable fs ((fs.inodeAt n).blockPtr (fs.layout.path k).1) (fs.layout.path k).2 := by
  have hneeds := fs.layout.needs_path hk
  have hreach := not_mem_visitedBlocks (hb.ne_zero _ hneeds)
  have hfollow : Walk.follow fs.entry ((fs.inodeAt n).blockPtr (fs.layout.path k).1)
      (fs.layout.path k).2 = fs.pointer (fs.inodeAt n) (fs.layout.path k) := hb.blockNumber_eq hk
  have hgeo := h.placed.geometry
  constructor
  case placed => exact h.placed
  case balanced => exact h.balanced
  case fits => exact h.fits
  case inUse =>
    intro b hmem
    obtain ⟨js, i, ks, -, hneeds', rfl⟩ := hb.visited hneeds hmem
    exact hb.inUse _ hneeds'
  case reaches => exact hreach
  case entries =>
    intro i hi
    exact hgeo.entry_le (hgeo.isPath_path (Nat.lt_of_lt_of_le hk hb.le)).1 hi
  case last_inUse => rw [hfollow]; exact hb.inUse _ hneeds
  case last_ne_zero => rw [hfollow]; exact hb.ne_zero _ hneeds
  case last_not_visited =>
    rw [hfollow]
    intro hmem
    obtain ⟨js, i, ks, hsplit, hneeds', heq⟩ := hb.visited hneeds hmem
    have hsame := hb.injective _ _ hneeds' hneeds heq
    have hlen := congrArg (fun π => π.2.length) hsame
    rw [hsplit] at hlen
    simp at hlen

/-- The block indices of the file can be looked up. -/
theorem lookup (hk : k < t) :
    valueOf (lookup n k) fs = some (fs.pointer (fs.inodeAt n) (fs.layout.path k)) := by
  have hf := hb.freeable h hk
  refine (valueOf_lookup h.placed.addressable h.isInode.toPresent).mpr ⟨?_, hb.blockNumber_eq hk⟩
  exact walkable_iff.mpr ⟨fun b hmem => (hf.inUse b hmem).lt, hf.entries⟩

end Backed

/-! ## One block -/

/-- The blocks that `free_data_block` gives back. -/
def Drops (fs : FileSystem) (n k b : Nat) : Prop :=
  b = fs.pointer (fs.inodeAt n) (fs.layout.path k) ∨
    fs.layout.IsFirst k ∧ b = (fs.inodeAt n).blockPtr (fs.layout.path k).1

/-- What `free_data_block` has done before it writes the inode. -/
structure Dropped (fs : FileSystem) (n k : Nat) (fs' : FileSystem) : Prop where
  releases : Releases fs (fs.Drops n k) (fun b => ∃ js i, (fs.layout.path k).2 = js ++ [i] ∧
    b = fs.pointer (fs.inodeAt n) ((fs.layout.path k).1, js)) fs'
  overwritten : ∀ js i, (fs.layout.path k).2 = js ++ [i] → ¬ fs.layout.IsFirst k →
    ∃ g < fs.layout.blockGroups, fs'.block (fs.pointer (fs.inodeAt n) ((fs.layout.path k).1, js)) =
      (fs'.block (fs.layout.tableBlock g)).putU32 (4 * i) 0

/-- Everything it frees is a block of the file. -/
theorem Drops.needs {b : Nat} (hd : fs.Drops n k b) (hk : k < t) :
    ∃ π, fs.layout.Needs t π ∧ fs.pointer (fs.inodeAt n) π = b := by
  have hneeds := fs.layout.needs_path hk
  rcases hd with rfl | ⟨-, rfl⟩
  · exact ⟨_, hneeds, rfl⟩
  · exact ⟨_, hneeds.shorter (show (fs.layout.path k).2 = [] ++ _ from rfl), Walk.resolve_nil _⟩

/-- The inode itself is not concerned yet. -/
theorem Dropped.hosted (hd : Dropped fs n k fs') (h : fs.Hosted n)
    (hb : fs.Backed n t) (hk : k < t) : fs'.Hosted n ∧ fs'.inodeAt n = fs.inodeAt n := by
  have hfreed : ∀ b, fs.Drops n k b → b ≠ fs.inodeBitmapBlock n ∧ b ≠ fs.inodeTableBlock n := by
    intro b hdrop
    obtain ⟨π, hneeds, rfl⟩ := hdrop.needs hk
    exact ⟨hb.not_bitmap π hneeds, hb.not_table π hneeds⟩
  have htouched : ∀ b, (∃ js i, (fs.layout.path k).2 = js ++ [i] ∧
      b = fs.pointer (fs.inodeAt n) ((fs.layout.path k).1, js)) →
      b ≠ fs.inodeBitmapBlock n ∧ b ≠ fs.inodeTableBlock n := by
    rintro b ⟨js, i, hsplit, rfl⟩
    have hneeds := (fs.layout.needs_path hk).shorter hsplit
    exact ⟨hb.not_bitmap _ hneeds, hb.not_table _ hneeds⟩
  refine ⟨h.releases hd.releases (fun hf => (hfreed _ hf).1 rfl) (fun ht => (htouched _ ht).1 rfl)
    fun hf => (hfreed _ hf).2 rfl, ?_⟩
  exact (hd.releases.sameGroup h.isInode).inodeAt (hd.releases.frame _ h.table_inUse.not_reserved
    h.table_inUse.not_free (fun hf => (hfreed _ hf).2 rfl) fun ht => (htouched _ ht).2 rfl)

theorem InUse.withCurrent (h : fs.InUse k) (c : Bytes) : (fs.withCurrent c).InUse k :=
  ⟨h.lt, h.not_reserved, h.not_free⟩

/-- `free_data_block` once it has read the inode. -/
theorem Hosted.run_freeDataBlock_start (h : fs.Hosted n) (k : Nat) (c : Bytes) :
    (freeDataBlock n k).run (fs.withCurrent c) =
      (if k < 12 then do
        freeBlock ((fs.inodeAt n).blockPtr k)
        writeInode n ((fs.inodeAt n).setBlockPtr k 0)
      else if k - 12 < fs.layout.entriesPerBlock then freeTree n (fs.inodeAt n) 12 1 (k - 12)
      else if k - 12 - fs.layout.entriesPerBlock <
          wmul fs.layout.entriesPerBlock fs.layout.entriesPerBlock then
        freeTree n (fs.inodeAt n) 13 2 (k - 12 - fs.layout.entriesPerBlock)
      else
        freeTree n (fs.inodeAt n) 14 3
          (k - 12 - fs.layout.entriesPerBlock -
            wmul fs.layout.entriesPerBlock fs.layout.entriesPerBlock) : Action Unit).run
        (fs.withCurrent (fs.block (fs.inodeTableBlock n))) := by
  refine (run_getLayout_bind _ c).trans ?_
  exact run_bind_ok (h.run_readInode c)

/-- `free_data_block` of a block of the file. The inode is written if its pointer has been freed. -/
theorem Backed.run_freeDataBlock (hb : fs.Backed n t) (h : fs.Hosted n) (hk : k < t)
    (c₀ : Bytes) : ∃ fs', Dropped fs n k fs' ∧ (freeDataBlock n k).run (fs.withCurrent c₀) =
      (if fs.layout.IsFirst k then writeInode n ((fs.inodeAt n).setBlockPtr (fs.layout.path k).1 0)
      else pure () : Action Unit).run fs' := by
  have hneeds := fs.layout.needs_path hk
  have hfree := hb.freeable h hk
  generalize hcdef : fs.block (fs.inodeTableBlock n) = c
  have hstart := h.run_freeDataBlock_start k c₀
  rw [hcdef] at hstart
  by_cases hdirect : k < 12
  · have hpath : fs.layout.path k = (k, []) := if_pos hdirect
    have hpointer : fs.pointer (fs.inodeAt n) (fs.layout.path k) = (fs.inodeAt n).blockPtr k := by
      rw [hpath]
      exact Walk.resolve_nil _
    obtain ⟨fs', hrun, hr, -⟩ := run_freeBlock_inUse (h.placed.withCurrent c)
      (h.balanced.withCurrent c) h.fits (hpointer ▸ (hb.inUse _ hneeds).withCurrent c)
      (hpointer ▸ hb.ne_zero _ hneeds)
    refine ⟨fs', ⟨hr.of_withCurrent.congr (fun b => ?_) fun b _ hfalse => hfalse.elim, ?_⟩, ?_⟩
    · unfold Drops
      rw [hpointer, hpath]
      exact ⟨.inl, fun hd => hd.elim id And.right⟩
    · intro js i hsplit
      rw [hpath] at hsplit
      exact absurd hsplit (by simp)
    · rw [hstart, if_pos hdirect, if_pos (by unfold Layout.IsFirst; rw [hpath]; simp),
        run_bind_ok hrun, hpath]
  · obtain ⟨r, depth, rest, -, hpath, htree⟩ := fs.layout.exists_tree hdirect
      (freeTree n (fs.inodeAt n))
    have hfirst : fs.layout.IsFirst k ↔ rest = 0 := by
      unfold Layout.IsFirst
      rw [hpath]
      exact fs.layout.indices_eq_zero
    have hroot := hb.needs_root hk
    rw [hpath] at hfree hroot
    obtain ⟨js, i, fs₁, hsplit, hrun, hc⟩ := run_freeIndirected (hfree.withCurrent c)
    have hc : Cleared fs (Walk.follow fs.entry ((fs.inodeAt n).blockPtr r) js) i
        (Walk.follow fs.entry ((fs.inodeAt n).blockPtr r) (fs.layout.indices (depth + 1) rest))
          fs₁ :=
      hc.of_withCurrent
    have hsplit : (fs.layout.path k).2 = js ++ [i] := by
      rw [hpath]
      exact hsplit
    have hleaf := hb.follow_eq (hneeds.shorter hsplit)
    have hlast := hb.follow_eq hneeds
    rw [hpath] at hleaf hlast
    rw [hleaf, hlast] at hc
    have htouched : ∀ b, b = fs.pointer (fs.inodeAt n) (r, js) → ∃ js i,
        (fs.layout.path k).2 = js ++ [i] ∧
          b = fs.pointer (fs.inodeAt n) ((fs.layout.path k).1, js) := by
      rintro b rfl
      exact ⟨js, i, hsplit, by rw [hpath]⟩
    by_cases hzero : rest = 0
    · -- The root goes with the first block of its tree.
      have hne : (fs.inodeAt n).blockPtr r ≠
          fs.pointer (fs.inodeAt n) (r, fs.layout.indices (depth + 1) rest) := by
        intro heq
        refine hfree.last_not_visited ?_
        obtain ⟨i', is, hcons⟩ := exists_indices_eq_cons fs.layout depth rest
        rw [hlast, ← heq, hcons]
        exact List.mem_cons_self
      obtain ⟨fs₂, hrun₂, hr₂, -⟩ := run_freeBlock_inUse hc.releases.placed hc.releases.balanced
        (by unfold GroupFits; rw [hc.releases.layout]; exact h.fits)
        (hc.releases.inUse hroot.2 hne) hroot.1
      refine ⟨fs₂, ⟨(hc.releases.trans hr₂).congr (fun b => ?_) fun b _ hb' =>
        htouched b (hb'.resolve_right id), ?_⟩, ?_⟩
      · unfold Drops
        rw [hfirst, hpath]
        exact or_congr_right ⟨fun heq => ⟨hzero, heq⟩, And.right⟩
      · exact fun _ _ _ hnot => absurd (hfirst.mpr hzero) hnot
      · rw [hstart, if_neg hdirect, htree, if_pos (hfirst.mpr hzero)]
        unfold freeTree
        rw [run_bind_ok hrun, if_pos hzero, run_bind_ok hrun₂, hpath]
    · refine ⟨fs₁, ⟨hc.releases.congr (fun b => ?_) fun b _ hb' => htouched b hb', ?_⟩, ?_⟩
      · unfold Drops
        rw [hfirst, hpath]
        exact ⟨.inl, fun hd => hd.elim id fun hand => absurd hand.1 hzero⟩
      · intro js' i' hsplit' _
        obtain ⟨rfl, hi⟩ := List.append_inj' (hsplit.symm.trans hsplit') rfl
        cases hi
        rw [hpath]
        exact hc.overwritten
      · rw [hstart, if_neg hdirect, htree, if_neg fun hf => hzero (hfirst.mp hf)]
        unfold freeTree
        rw [run_bind_ok hrun, if_neg hzero]

/-! ## Histories of calls -/

theorem IsTaken.not_isFree (ht : fs.IsTaken k) (h : Placed fs) : ¬ fs.IsFree k := by
  obtain ⟨g, hg, j, hin, -, rfl, -, hused, -⟩ := ht
  rintro ⟨g', hg', j', hj', heq⟩
  obtain ⟨rfl, rfl⟩ := blockOf_injective hin (h.free_in_group g' hg' j' hj') heq
  exact hused hj'

/-- A call moves at most one block between the free ones and those handed out. -/
theorem Call.conserves {s t : FileSystem × Finset Nat} {e : Event} (hcall : Call s e t)
    (h : Accounted s) : t.1.IsFree k ∨ k ∈ t.2 ↔ s.1.IsFree k ∨ k ∈ s.2 := by
  obtain ⟨hp, hb, htaken⟩ := h
  cases hcall with
  | @alloc fs fs' out pref block hpref hrun =>
    rcases allocBlock_cases hp hb hpref hrun with ⟨rfl, ⟨c, rfl⟩, -⟩ | ⟨g, hg, j, hj, rfl, ha⟩
    · rfl
    · have hfree : fs.IsFree (fs.layout.blockOf g j) := ⟨g, hg, j, hj, rfl⟩
      rw [if_neg (by unfold Layout.blockOf; omega), ha.isFree hp hg hj, Finset.mem_insert]
      by_cases hk : k = fs.layout.blockOf g j <;> simp [hk, hfree]
  | @free fs fs' out block hmem hrun =>
    obtain ⟨g, hg, j, hin, hbit, rfl, hlt, hused, -⟩ := htaken block hmem
    obtain ⟨t, hrun', hf, -⟩ := run_freeBlock hp hg hin hbit hlt hused
    cases hrun'.symm.trans hrun
    rw [hf.isFree hp hg hbit, Finset.mem_erase]
    by_cases hk : k = fs.layout.blockOf g j <;> simp [hk, hmem]

/-- No block is lost and none is handed out twice: after every history, the free blocks and those
handed out are together the ones that were free before, and the superblock counts them. -/
theorem blocks_conserved {t : FileSystem} {out : Finset Nat} {es : List Event} (hplaced : Placed fs)
    (hbalanced : Balanced fs) (hrun : Steps Call (fs, ∅) es (t, out)) :
    Disjoint t.freeBlocks out ∧ t.freeBlocks ∪ out = fs.freeBlocks ∧
      t.superblock.unallocatedBlocks + out.card = fs.superblock.unallocatedBlocks := by
  obtain ⟨hacc, hsame⟩ := hrun.invariant
    (fun s => Accounted s ∧ ∀ k, s.1.IsFree k ∨ k ∈ s.2 ↔ fs.IsFree k)
    (fun s e u h hcall => ⟨hcall.accounted h.1, fun k => (hcall.conserves h.1).trans (h.2 k)⟩)
    ⟨⟨hplaced, hbalanced, by simp⟩, by simp⟩
  have hdisjoint : Disjoint t.freeBlocks out := Finset.disjoint_right.mpr fun k hk hfree =>
    (hacc.taken k hk).not_isFree hacc.placed (mem_freeBlocks.mp hfree)
  have hunion : t.freeBlocks ∪ out = fs.freeBlocks := by
    ext k
    rw [Finset.mem_union, mem_freeBlocks, mem_freeBlocks, hsame k]
  refine ⟨hdisjoint, hunion, ?_⟩
  rw [← hacc.balanced.card_freeBlocks hacc.placed, ← hbalanced.card_freeBlocks hplaced, ← hunion,
    Finset.card_union_of_disjoint hdisjoint]

/-- One of the free blocks of the small volume has been handed out. -/
theorem blocks_conserved_sample : ∃ block t,
    Steps Call (sampleVolume fun _ _ => 0, ∅) [.alloc 0 block] (t, {block}) ∧
      t.freeBlocks ∪ {block} = (sampleVolume fun _ _ => 0).freeBlocks := by
  have hp := placed_sampleVolume fun _ _ => 0
  have hb := balanced_sampleVolume fun _ _ => 0
  have hpref : 0 < (sampleVolume fun _ _ => 0).layout.blockGroups := by decide
  obtain ⟨j, -, t, hrun, -⟩ := run_allocBlock_some hp hb (.inl hpref) (show _ = some 0 from rfl)
  have hsteps : Steps Call (_, ∅) _ _ := .snoc (.refl _) (.alloc hpref hrun)
  exact ⟨_, t, hsteps, (blocks_conserved hp hb hsteps).2.1⟩

end FileSystem

end LudOS.Ext2
