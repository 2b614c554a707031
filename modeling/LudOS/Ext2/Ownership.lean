import LudOS.Ext2.BlockMap

/-!
# Block maps that share nothing

The pointers of an inode form trees: `pointer` is the block a path of entries leads to, or 0 when
the path is not mapped. In a sound block map no block is reached on two paths. The blocks that a
walk to one index visits are then different from all data blocks, so that storing to data blocks
does not disturb any walk.
-/

namespace LudOS.Ext2

open Lib

/-! ## Block sizes and paths -/

/-- A volume with one of the block sizes of ext2, 1 KiB to 64 KiB, that 32-bit byte addresses can
reach. -/
structure Layout.Geometry (l : Layout) : Prop where
  shift_le : l.blockSizeShift ≤ 6
  fits : l.blockCount * l.blockSize ≤ 2 ^ 32

/-- A path of entries below one of the fifteen pointers of an inode, not deeper than the trees. -/
structure Layout.IsPath (l : Layout) (π : Nat × List Nat) : Prop where
  root_lt : π.1 < 15
  length_le : π.2.length ≤ π.1 - 11
  entry_lt : ∀ i ∈ π.2, i < l.entriesPerBlock

/-- The first entries of a path are a path. -/
theorem Layout.IsPath.shorter {l : Layout} {π : Nat × List Nat} (h : l.IsPath π)
    {js ks : List Nat} (hsplit : π.2 = js ++ ks) : l.IsPath (π.1, js) := by
  refine ⟨h.root_lt, ?_, fun j hj => h.entry_lt j ?_⟩
  · have hle := h.length_le
    rw [hsplit, List.length_append] at hle
    show js.length ≤ _
    omega
  · rw [hsplit]
    exact List.mem_append_left _ hj

/-- The number of block indices that the trees have room for. -/
def Layout.mapSize (l : Layout) : Nat :=
  12 + l.entriesPerBlock + l.entriesPerBlock ^ 2 + l.entriesPerBlock ^ 3

namespace Layout.Geometry

variable {l : Layout} (hg : l.Geometry) {k : Nat}

include hg

theorem blockSize_eq : l.blockSize = 1024 * 2 ^ l.blockSizeShift := by
  have hpow : 2 ^ l.blockSizeShift ≤ 2 ^ 6 := Nat.pow_le_pow_right (by decide) hg.shift_le
  exact Nat.mod_eq_of_lt (by omega)

theorem entriesPerBlock_eq : l.entriesPerBlock = 256 * 2 ^ l.blockSizeShift := by
  unfold Layout.entriesPerBlock
  rw [hg.blockSize_eq]
  omega

theorem mul_entriesPerBlock : 4 * l.entriesPerBlock = l.blockSize := by
  rw [hg.blockSize_eq, hg.entriesPerBlock_eq]
  omega

/-- The entries along a path lie inside their blocks. -/
theorem entry_le {π : Nat × List Nat} (hπ : l.IsPath π) {i : Nat} (hi : i ∈ π.2) :
    4 * i + 4 ≤ l.blockSize := by
  have hlt := hπ.entry_lt i hi
  have hmul := hg.mul_entriesPerBlock
  omega

theorem entriesPerBlock_ge : 256 ≤ l.entriesPerBlock := by
  have hpow : 0 < 2 ^ l.blockSizeShift := Nat.two_pow_pos _
  rw [hg.entriesPerBlock_eq]
  omega

theorem entriesPerBlock_le : l.entriesPerBlock ≤ 2 ^ 14 := by
  have hpow : 2 ^ l.blockSizeShift ≤ 2 ^ 6 := Nat.pow_le_pow_right (by decide) hg.shift_le
  rw [hg.entriesPerBlock_eq]
  omega

theorem blockSize_lt : l.blockSize < 2 ^ 32 := by
  have hmul := hg.mul_entriesPerBlock
  have hle := hg.entriesPerBlock_le
  omega

/-- Lowering an offset by a block, with wrap-around below zero, does not change its position inside
the block. -/
theorem wsub_mod_blockSize (offset : Nat) :
    wsub offset l.blockSize % l.blockSize = offset % l.blockSize := by
  have hle := hg.shift_le
  have hpow : l.blockSize = 2 ^ (10 + l.blockSizeShift) := by
    rw [hg.blockSize_eq, pow_add]
    norm_num
  rw [hpow]
  exact wsub_mod_pow (by omega)

theorem addressable : FileSystem.Addressable l := by
  have hpow : 0 < 2 ^ l.blockSizeShift := Nat.two_pow_pos _
  refine ⟨?_, hg.fits⟩
  rw [hg.blockSize_eq]
  omega

theorem square_lt : l.entriesPerBlock * l.entriesPerBlock < 2 ^ 32 :=
  Nat.lt_of_le_of_lt (Nat.mul_le_mul hg.entriesPerBlock_le hg.entriesPerBlock_le) (by decide)

theorem span_one : l.span 1 = l.entriesPerBlock := by
  have hle := hg.entriesPerBlock_le
  unfold Layout.span
  rw [Utils.ipow_eq, pow_one, Nat.mod_eq_of_lt (by omega)]

theorem span_two : l.span 2 = l.entriesPerBlock * l.entriesPerBlock := by
  unfold Layout.span
  rw [Utils.ipow_eq, pow_two, Nat.mod_eq_of_lt hg.square_lt]

section

variable (hk : k < l.mapSize)

include hk

/-- The four ranges of block indices with their paths. -/
theorem path_cases : (k < 12 ∧ l.path k = (k, [])) ∨
    (∃ x < l.entriesPerBlock, k = 12 + x ∧ l.path k = (12, [x])) ∨
    (∃ x < l.entriesPerBlock, ∃ y < l.entriesPerBlock,
      k = 12 + l.entriesPerBlock + (x * l.entriesPerBlock + y) ∧ l.path k = (13, [x, y])) ∨
    (∃ x < l.entriesPerBlock, ∃ y < l.entriesPerBlock, ∃ z < l.entriesPerBlock,
      k = 12 + l.entriesPerBlock + l.entriesPerBlock ^ 2 +
        (x * l.entriesPerBlock ^ 2 + (y * l.entriesPerBlock + z)) ∧
          l.path k = (14, [x, y, z])) := by
  have he := hg.entriesPerBlock_ge
  have hpos : 0 < l.entriesPerBlock := by omega
  have hsq : wmul l.entriesPerBlock l.entriesPerBlock = l.entriesPerBlock ^ 2 := by
    rw [wmul_of_lt hg.square_lt, pow_two]
  have hone := hg.span_one
  have htwo : l.span 2 = l.entriesPerBlock ^ 2 := by rw [hg.span_two, pow_two]
  unfold mapSize at hk
  unfold Layout.path
  rw [hsq]
  generalize l.entriesPerBlock = e at *
  by_cases hdirect : k < 12
  · exact .inl ⟨hdirect, if_pos hdirect⟩
  rw [if_neg hdirect]
  by_cases hsingle : k - 12 < e
  · rw [if_pos hsingle]
    exact .inr (.inl ⟨k - 12, hsingle, by omega, rfl⟩)
  rw [if_neg hsingle]
  by_cases hdouble : k - 12 - e < e ^ 2
  · rw [if_pos hdouble]
    have hx : (k - 12 - e) / e < e := by
      rw [Nat.div_lt_iff_lt_mul hpos, ← pow_two]
      exact hdouble
    have hsum := Nat.div_add_mod' (k - 12 - e) e
    refine .inr (.inr (.inl ⟨(k - 12 - e) / e, hx, (k - 12 - e) % e, Nat.mod_lt _ hpos,
      by omega, ?_⟩))
    show (13, [(k - 12 - e) / l.span 1, (k - 12 - e) % l.span 1]) = _
    rw [hone]
  · rw [if_neg hdouble]
    have hpos' : 0 < e ^ 2 := Nat.pow_pos hpos
    have hcube : e ^ 3 = e * e ^ 2 := by ring
    have hx : (k - 12 - e - e ^ 2) / e ^ 2 < e := by
      rw [Nat.div_lt_iff_lt_mul hpos', ← hcube]
      omega
    have hrest := Nat.mod_lt (k - 12 - e - e ^ 2) hpos'
    have hy : (k - 12 - e - e ^ 2) % e ^ 2 / e < e := by
      rw [Nat.div_lt_iff_lt_mul hpos, ← pow_two]
      exact hrest
    have hsum := Nat.div_add_mod' (k - 12 - e - e ^ 2) (e ^ 2)
    have hsum' := Nat.div_add_mod' ((k - 12 - e - e ^ 2) % e ^ 2) e
    refine .inr (.inr (.inr ⟨_, hx, _, hy, (k - 12 - e - e ^ 2) % e ^ 2 % e, Nat.mod_lt _ hpos,
      by omega, ?_⟩))
    show (14, [_ / l.span 2, _ % l.span 2 / l.span 1, _ % l.span 2 % l.span 1]) = _
    rw [hone, htwo]

/-- The path of a block index goes all the way down. -/
theorem isPath_path : l.IsPath (l.path k) ∧ (l.path k).2.length = (l.path k).1 - 11 := by
  rcases hg.path_cases hk with ⟨hlt, hp⟩ | ⟨x, hx, -, hp⟩ | ⟨x, hx, y, hy, -, hp⟩ |
    ⟨x, hx, y, hy, z, hz, -, hp⟩ <;> rw [hp]
  · exact ⟨⟨by show k < 15; omega, by simp, by simp⟩, by show 0 = k - 11; omega⟩
  · exact ⟨⟨by simp, by simp, by simpa using hx⟩, rfl⟩
  · exact ⟨⟨by simp, by simp, by simpa using ⟨hx, hy⟩⟩, rfl⟩
  · exact ⟨⟨by simp, by simp, by simpa using ⟨hx, hy, hz⟩⟩, rfl⟩

/-- Only the direct blocks are reached without an indirect block. -/
theorem path_ne_nil (h : 12 ≤ k) : (l.path k).2 ≠ [] := by
  rcases hg.path_cases hk with ⟨hlt, -⟩ | ⟨x, -, -, hp⟩ | ⟨x, -, y, -, -, hp⟩ |
    ⟨x, -, y, -, z, -, -, hp⟩
  · omega
  all_goals
    rw [hp]
    exact List.cons_ne_nil _ _

/-- Different block indices have different paths. -/
theorem path_injective {k' : Nat} (hk' : k' < l.mapSize) (h : l.path k = l.path k') : k = k' := by
  -- The path determines the range, and the entries determine the index within it.
  rcases hg.path_cases hk with ⟨hlt, hp⟩ | ⟨x, hx, hsum, hp⟩ | ⟨x, hx, y, hy, hsum, hp⟩ |
    ⟨x, hx, y, hy, z, hz, hsum, hp⟩ <;>
  rcases hg.path_cases hk' with ⟨hlt', hp'⟩ | ⟨x', hx', hsum', hp'⟩ |
    ⟨x', hx', y', hy', hsum', hp'⟩ | ⟨x', hx', y', hy', z', hz', hsum', hp'⟩ <;>
  rw [hp, hp'] at h <;> cases h
  case inl.inl => rfl
  all_goals exact hsum.trans hsum'.symm

end

/-- Every path that goes all the way down belongs to a block index. -/
theorem exists_path {π : Nat × List Nat} (h : l.IsPath π) (hlen : π.2.length = π.1 - 11) :
    ∃ k < l.mapSize, l.path k = π := by
  obtain ⟨r, is⟩ := π
  have hr : r < 15 := h.root_lt
  have he := h.entry_lt
  have hmap : l.mapSize = 12 + l.entriesPerBlock + l.entriesPerBlock ^ 2 + l.entriesPerBlock ^ 3 :=
    rfl
  have hcases := fun k (hk : k < l.mapSize) => hg.path_cases hk
  generalize l.entriesPerBlock = e at *
  -- The indices below the entries of a block follow each other.
  have htwo : ∀ x < e, ∀ y < e, x * e + y < e ^ 2 := fun x hx y hy => by
    have := Nat.mul_le_mul_right e (Nat.succ_le_of_lt hx)
    rw [Nat.succ_mul] at this
    rw [pow_two]
    omega
  have hthree : ∀ x < e, ∀ y < e ^ 2, x * e ^ 2 + y < e ^ 3 := fun x hx y hy => by
    have := Nat.mul_le_mul_right (e ^ 2) (Nat.succ_le_of_lt hx)
    rw [Nat.succ_mul] at this
    rw [show e ^ 3 = e * e ^ 2 by ring]
    omega
  dsimp only at hlen he
  rcases (by omega : r < 12 ∨ r = 12 ∨ r = 13 ∨ r = 14) with hlt | rfl | rfl | rfl
  · obtain rfl : is = [] := List.length_eq_zero_iff.mp (by omega)
    exact ⟨r, by omega, if_pos hlt⟩
  · obtain ⟨x, rfl⟩ := List.length_eq_one_iff.mp hlen
    have hx := he x (by simp)
    have hk : 12 + x < l.mapSize := by omega
    refine ⟨12 + x, hk, ?_⟩
    rcases hcases _ hk with ⟨hlt, -⟩ | ⟨x', hx', hsum, hp⟩ | ⟨x', -, y', -, hsum, -⟩ |
      ⟨x', -, y', -, z', -, hsum, -⟩
    case inr.inl =>
      obtain rfl : x = x' := by omega
      exact hp
    all_goals omega
  · obtain ⟨x, y, rfl⟩ := List.length_eq_two.mp hlen
    have hx := he x (by simp)
    have hy := he y (by simp)
    have hlt := htwo x hx y hy
    have hk : 12 + e + (x * e + y) < l.mapSize := by omega
    refine ⟨_, hk, ?_⟩
    rcases hcases _ hk with ⟨hlt, -⟩ | ⟨x', hx', hsum, -⟩ | ⟨x', -, y', hy', hsum, hp⟩ |
      ⟨x', -, y', -, z', -, hsum, -⟩
    case inr.inr.inl =>
      obtain ⟨rfl, rfl⟩ := mul_add_inj hy hy' (Nat.add_left_cancel hsum)
      exact hp
    all_goals omega
  · obtain ⟨x, y, z, rfl⟩ := List.length_eq_three.mp hlen
    have hx := he x (by simp)
    have hy := he y (by simp)
    have hz := he z (by simp)
    have hlt := htwo y hy z hz
    have hlt' := hthree x hx _ hlt
    have hk : 12 + e + e ^ 2 + (x * e ^ 2 + (y * e + z)) < l.mapSize := by omega
    refine ⟨_, hk, ?_⟩
    rcases hcases _ hk with ⟨hlt, -⟩ | ⟨x', hx', hsum, -⟩ | ⟨x', hx', y', hy', hsum, -⟩ |
      ⟨x', -, y', hy', z', hz', hsum, hp⟩
    · omega
    · omega
    · have hbelow := htwo x' hx' y' hy'
      omega
    · obtain ⟨rfl, hrest⟩ := mul_add_inj hlt (htwo y' hy' z' hz') (Nat.add_left_cancel hsum)
      obtain ⟨rfl, rfl⟩ := mul_add_inj hz hz' hrest
      exact hp

/-- Every other entry of the last indirect block on a path belongs to a block index too. -/
theorem exists_sibling {r i i' : Nat} {js : List Nat} (hk : k < l.mapSize)
    (hpath : l.path k = (r, js ++ [i])) (hi : i' < l.entriesPerBlock) :
    ∃ k' < l.mapSize, l.path k' = (r, js ++ [i']) := by
  obtain ⟨hp, hlen⟩ := hg.isPath_path hk
  rw [hpath] at hp hlen
  refine hg.exists_path ⟨hp.root_lt, ?_, fun j hj => ?_⟩ ?_
  · exact Nat.le_trans (by simp) hp.length_le
  · rcases List.mem_append.mp hj with hj | hj
    · exact hp.entry_lt j (List.mem_append_left _ hj)
    · rwa [List.mem_singleton.mp hj]
  · simpa using hlen

end Layout.Geometry

namespace FileSystem

variable {fs fs' : FileSystem} {inode : Inode}

/-! ## Walks that stay on the volume -/

theorem walkable_iff {p : Nat} {is : List Nat} :
    fs.Walkable p is ↔ (∀ n ∈ Walk.visited fs.entry p is, n < fs.layout.blockCount) ∧
      ∀ i ∈ is, 4 * i + 4 ≤ fs.layout.blockSize := by
  induction is generalizing p with
  | nil => simp [Walkable, Walk.visited]
  | cons i is ih =>
    unfold Walkable Walk.visited
    rw [ih]
    simp only [List.mem_cons, forall_eq_or_imp]
    tauto

/-- The indirect blocks on the way to block `blkId` of an inode. -/
def visitedBlocks (fs : FileSystem) (inode : Inode) (blkId : Nat) : List Nat :=
  Walk.visited fs.entry (inode.blockPtr (fs.layout.path blkId).1) (fs.layout.path blkId).2

/-- A walk is the same on every volume that agrees on the indirect blocks it visits. -/
theorem walk_congr (hlayout : fs'.layout = fs.layout) {blkId : Nat}
    (h : ∀ n ∈ fs.visitedBlocks inode blkId, fs'.block n = fs.block n) :
    fs'.blockNumber inode blkId = fs.blockNumber inode blkId ∧
      fs'.leafBlock inode blkId = fs.leafBlock inode blkId ∧
      (fs'.Maps inode blkId ↔ fs.Maps inode blkId) := by
  have hentry : ∀ n ∈ fs.visitedBlocks inode blkId, fs.entry n = fs'.entry n := by
    intro n hn
    funext i
    unfold entry
    rw [h n hn]
  unfold blockNumber leafBlock Maps follow leaf
  rw [walkable_iff, walkable_iff, hlayout]
  obtain ⟨hfollow, hvisited⟩ := Walk.follow_congr hentry
  refine ⟨hfollow.symm, (Walk.leaf_congr hentry).symm, ?_⟩
  rw [hvisited]

/-- So are the blocks that it visits, also for another inode with the same pointers. -/
theorem visitedBlocks_congr {inode' : Inode} (hlayout : fs'.layout = fs.layout) {blkId : Nat}
    (hptr : ∀ r, inode'.blockPtr r = inode.blockPtr r)
    (h : ∀ n ∈ fs.visitedBlocks inode blkId, fs'.block n = fs.block n) :
    fs'.visitedBlocks inode' blkId = fs.visitedBlocks inode blkId := by
  unfold visitedBlocks at h ⊢
  rw [hlayout, hptr]
  refine (Walk.follow_congr fun n hn => ?_).2.symm
  funext i
  unfold entry
  rw [h n hn]

theorem leafBlock_mem_visitedBlocks (hg : fs.layout.Geometry) {blkId : Nat}
    (hk : blkId < fs.layout.mapSize) (h : 12 ≤ blkId) :
    fs.leafBlock inode blkId ∈ fs.visitedBlocks inode blkId :=
  Walk.leaf_mem_visited (hg.path_ne_nil hk h)

/-! ## Pointers -/

/-- The block that a path leads to, or 0 if it is not mapped. -/
def pointer (fs : FileSystem) (inode : Inode) (π : Nat × List Nat) : Nat :=
  Walk.resolve fs.entry 0 (inode.blockPtr π.1) π.2

/-- The pointers of an inode lead to blocks of the volume, and to no block on two paths. -/
structure OwnsOnce (fs : FileSystem) (inode : Inode) : Prop where
  lt : ∀ π, fs.layout.IsPath π → fs.pointer inode π ≠ 0 → fs.pointer inode π < fs.layout.blockCount
  injective : ∀ π π', fs.layout.IsPath π → fs.layout.IsPath π' → fs.pointer inode π ≠ 0 →
    fs.pointer inode π = fs.pointer inode π' → π = π'

theorem blockNumber_eq_pointer {k : Nat} (hreach : 0 ∉ fs.visitedBlocks inode k) :
    fs.blockNumber inode k = fs.pointer inode (fs.layout.path k) :=
  (if_neg hreach).symm

theorem not_mem_visitedBlocks {k : Nat} (h : fs.pointer inode (fs.layout.path k) ≠ 0) :
    0 ∉ fs.visitedBlocks inode k :=
  (Walk.resolve_ne_null h).1

namespace OwnsOnce

variable (h : fs.OwnsOnce inode) (hg : fs.layout.Geometry) {k : Nat} (hk : k < fs.layout.mapSize)

include h hg hk

section

variable (hreach : 0 ∉ fs.visitedBlocks inode k)

include hreach

/-- An indirect block on the way to a block index is what a shorter path leads to. -/
theorem visited {n : Nat} (hn : n ∈ fs.visitedBlocks inode k) :
    n ≠ 0 ∧ n < fs.layout.blockCount ∧ ∃ js, fs.layout.IsPath ((fs.layout.path k).1, js) ∧
      js.length < (fs.layout.path k).2.length ∧
      fs.pointer inode ((fs.layout.path k).1, js) = n := by
  obtain ⟨js, i, ks, hsplit, rfl, hne⟩ := Walk.exists_resolve_eq_of_mem_visited hreach hn
  have hpath := (hg.isPath_path hk).1
  have hlen : (fs.layout.path k).2.length = js.length + (ks.length + 1) := by
    rw [hsplit, List.length_append, List.length_cons]
  have hshort := hpath.shorter hsplit
  exact ⟨hne, h.lt _ hshort hne, js, hshort, by omega, rfl⟩

/-- The walk to a block index whose indirect blocks exist stays on the volume. -/
theorem maps : fs.Maps inode k := by
  refine walkable_iff.mpr ⟨fun n hn => (h.visited hg hk hreach hn).2.1, fun i hi => ?_⟩
  exact hg.entry_le (hg.isPath_path hk).1 hi

theorem blockNumber_lt (hpos : 0 < fs.layout.blockCount) :
    fs.blockNumber inode k < fs.layout.blockCount := by
  rw [blockNumber_eq_pointer hreach]
  by_cases hmapped : fs.pointer inode (fs.layout.path k) = 0
  · rwa [hmapped]
  · exact h.lt _ (hg.isPath_path hk).1 hmapped

/-- The indirect blocks on the way to a block index are not data blocks. -/
theorem visited_ne {n k' : Nat} (hn : n ∈ fs.visitedBlocks inode k) (hk' : k' < fs.layout.mapSize) :
    n ≠ fs.pointer inode (fs.layout.path k') := by
  intro heq
  obtain ⟨hne, -, js, hshort, hlt, rfl⟩ := h.visited hg hk hreach hn
  have hsame := h.injective _ _ hshort (hg.isPath_path hk').1 hne heq
  -- Only the path of an index goes all the way down.
  have hlen := (hg.isPath_path hk).2
  have hlen' := (hg.isPath_path hk').2
  rw [← hsame] at hlen'
  dsimp only at hlen'
  omega

end

/-- No block is a data block of two indices. -/
theorem index_unique {k' : Nat} (hk' : k' < fs.layout.mapSize)
    (hmapped : fs.pointer inode (fs.layout.path k) ≠ 0)
    (heq : fs.pointer inode (fs.layout.path k) = fs.pointer inode (fs.layout.path k')) : k = k' :=
  hg.path_injective hk hk'
    (h.injective _ _ (hg.isPath_path hk).1 (hg.isPath_path hk').1 hmapped heq)

end OwnsOnce

end FileSystem

end LudOS.Ext2
