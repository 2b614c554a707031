import LudOS.Ext2.WriteFile

/-!
# The standard path of a block index

The ext2 format says where the number of a data block stands: twelve numbers in the inode, then the
entries of one indirect block, of the indirect blocks below one doubly indirect block, and of those
below one triply indirect block. `standardPath` is this rule, in numbers without a bound. The walks
of the driver compute with 32-bit numbers and powers from `ipow`; they all follow this path.
-/

namespace LudOS.Ext2

open Lib Utils

/-- The entry of `block_ptr` the number of block `k` is found from, and the entries of the indirect
blocks on the way, where an indirect block has `e` entries. -/
def standardPath (e k : Nat) : Nat × List Nat :=
  if k < 12 then (k, [])
  else if k < 12 + e then (12, [k - 12])
  else if k < 12 + e + e ^ 2 then (13, [(k - 12 - e) / e, (k - 12 - e) % e])
  else (14, [(k - 12 - e - e ^ 2) / e ^ 2, (k - 12 - e - e ^ 2) / e % e, (k - 12 - e - e ^ 2) % e])

/-- The walks divide by powers from `ipow`, which are the true powers reduced once. -/
theorem Layout.span_eq_pow (l : Layout) (k : Nat) : l.span k = l.entriesPerBlock ^ k % 2 ^ 32 :=
  ipow_eq _ _

/-- The two digits of a number below a square. -/
theorem div_mod_of_digits {x y e : Nat} (hy : y < e) :
    (x * e + y) / e = x ∧ (x * e + y) % e = y :=
  (Nat.div_mod_unique (Nat.zero_lt_of_lt hy)).mpr ⟨by ring, hy⟩

theorem digits_lt {x y e : Nat} (hx : x < e) (hy : y < e) : x * e + y < e ^ 2 := by
  have hle := Nat.mul_le_mul_right e (Nat.succ_le_of_lt hx)
  rw [Nat.succ_mul, ← pow_two] at hle
  omega

/-- The driver goes along the standard path. -/
theorem Layout.Geometry.path_eq_standardPath {l : Layout} (hg : l.Geometry) {k : Nat}
    (hk : k < l.mapSize) : l.path k = standardPath l.entriesPerBlock k := by
  have he := hg.entriesPerBlock_ge
  unfold standardPath
  rcases hg.path_cases hk with ⟨hlt, hp⟩ | ⟨x, hx, hsum, hp⟩ | ⟨x, hx, y, hy, hsum, hp⟩ |
    ⟨x, hx, y, hy, z, hz, hsum, hp⟩ <;> rw [hp]
  · rw [if_pos hlt]
  · rw [if_neg (by omega), if_pos (by omega), hsum, Nat.add_sub_cancel_left]
  · have hlt := digits_lt hx hy
    have hrest : k - 12 - l.entriesPerBlock = x * l.entriesPerBlock + y := by omega
    obtain ⟨hdiv, hmod⟩ := div_mod_of_digits (x := x) hy
    rw [if_neg (by omega), if_neg (by omega), if_pos (by omega), hrest, hdiv, hmod]
  · have hlt := digits_lt hy hz
    have hrest : k - 12 - l.entriesPerBlock - l.entriesPerBlock ^ 2 =
        x * l.entriesPerBlock ^ 2 + (y * l.entriesPerBlock + z) := by omega
    obtain ⟨htop, -⟩ := div_mod_of_digits (x := x) hlt
    obtain ⟨hdiv, hmod⟩ := div_mod_of_digits (x := x * l.entriesPerBlock + y) hz
    obtain ⟨-, hmid⟩ := div_mod_of_digits (x := x) hy
    have hregroup : x * l.entriesPerBlock ^ 2 + (y * l.entriesPerBlock + z) =
        (x * l.entriesPerBlock + y) * l.entriesPerBlock + z := by ring
    rw [if_neg (by omega), if_neg (by omega), if_neg (by omega), hrest, htop, hregroup, hdiv, hmod,
      hmid]

/-- Where the number of a data block stands: in the inode, or in an indirect block. -/
inductive Slot where
  | inode (k : Nat)
  | entry (block i : Nat)
  deriving DecidableEq

namespace FileSystem

variable {fs : FileSystem} {inode : Inode}

/-- The block a path of an inode leads to. -/
def reached (fs : FileSystem) (inode : Inode) (π : Nat × List Nat) : Nat :=
  fs.follow (inode.blockPtr π.1) π.2

/-- The place of the indirect block whose entry ends a path. -/
def holder (π : Nat × List Nat) : Nat × List Nat := (π.1, π.2.dropLast)

/-- The slot at the end of a path. -/
def slot (fs : FileSystem) (inode : Inode) (π : Nat × List Nat) : Slot :=
  match π.2.getLast? with
  | none => .inode π.1
  | some i => .entry (fs.reached inode (holder π)) i

/-- Two paths end in the same slot only if one indirect block stands at two places. -/
theorem holder_of_slot_eq {π π' : Nat × List Nat} (hne : π' ≠ π)
    (h : fs.slot inode π' = fs.slot inode π) :
    holder π' ≠ holder π ∧ fs.reached inode (holder π') = fs.reached inode (holder π) := by
  obtain ⟨r, is⟩ := π
  obtain ⟨r', is'⟩ := π'
  unfold slot at h
  rcases List.eq_nil_or_concat' is with rfl | ⟨js, i, rfl⟩ <;>
    rcases List.eq_nil_or_concat' is' with rfl | ⟨js', i', rfl⟩ <;>
    simp only [List.getLast?_nil, List.getLast?_concat, Slot.inode.injEq, Slot.entry.injEq,
      reduceCtorEq] at h
  · exact absurd (by rw [h]) hne
  · obtain ⟨hblock, rfl⟩ := h
    refine ⟨fun hsame => hne ?_, hblock⟩
    unfold holder at hsame
    simp only [List.dropLast_concat, Prod.mk.injEq] at hsame
    rw [hsame.1, hsame.2]

/-- All pointers on a path lead to blocks of the volume. -/
def InRange (fs : FileSystem) (inode : Inode) (π : Nat × List Nat) : Prop :=
  ∀ js ks, π.2 = js ++ ks → fs.reached inode (π.1, js) < fs.layout.blockCount

/-- There are finitely many such pointers. -/
theorem inRange_iff {π : Nat × List Nat} : fs.InRange inode π ↔
    ∀ js ∈ π.2.inits, fs.reached inode (π.1, js) < fs.layout.blockCount := by
  simp only [List.mem_inits]
  constructor
  · rintro h js ⟨ks, hsplit⟩
    exact h js ks hsplit.symm
  · intro h js ks hsplit
    exact h js ⟨ks, hsplit.symm⟩

/-- A walk along a path with pointers in range stays on the volume. -/
theorem InRange.maps (hg : fs.layout.Geometry) {k : Nat} (hk : k < fs.layout.mapSize)
    (h : fs.InRange inode (fs.layout.path k)) : fs.Maps inode k := by
  refine walkable_iff.mpr ⟨fun n hn => ?_, fun i hi => ?_⟩
  · obtain ⟨js, i, ks, hsplit, rfl⟩ := Walk.mem_visited.mp hn
    exact h js (i :: ks) hsplit
  · exact hg.entry_le (hg.isPath_path hk).1 hi

/-- `write_data_block` with data outside the scratch buffer stores to the block its walk leads
to. -/
theorem run_writeDataBlock_const (hl : Addressable fs.layout) {k size : Nat}
    (h : fs.Maps inode k) (hlt : fs.blockNumber inode k < fs.layout.blockCount)
    (hsize : size ≤ fs.layout.blockSize) (data : Bytes) (c : Bytes) :
    (writeDataBlock (fun _ => data) size inode k).run (fs.withCurrent c) =
      .ok () ((fs.withCurrent (fs.scratch inode k c)).withDisk
        (fs.disk.splice (fs.blockNumber inode k * fs.layout.blockSize) size data)) := by
  have henter : ∀ c, (do
      let fs ← get
      check .assertion (size ≤ fs.layout.blockSize) : Action Unit).run (fs.withCurrent c) =
        .ok () (fs.withCurrent c) := fun c => run_check_pos hsize _
  refine (run_visitDataBlock henter hl h c).trans ?_
  rw [run_get_bind]
  unfold writeBlock
  rw [run_get_bind, layout_withCurrent, run_check_bind hlt, wmul_of_lt (hl.mul_lt hlt)]
  rfl

/-- The standard path of block `k` on a volume. -/
def route (fs : FileSystem) (k : Nat) : Nat × List Nat := standardPath fs.layout.entriesPerBlock k

/-- On every volume with blocks of 1 KiB to 64 KiB, for every inode and every block index of its map
whose pointers are in range, `get_data_block` returns, `read_data_block` reads and
`write_data_block` writes the block at the end of the standard path. Different indices have
different paths, so that they share a slot only if one indirect block stands at two places of the
map. -/
theorem block_walks_agree (hg : fs.layout.Geometry) (inode : Inode) {k : Nat}
    (hk : k < fs.layout.mapSize) (hrange : fs.InRange inode (fs.route k)) :
    (∃ c, (getDataBlock inode k).run fs =
        .ok (fs.reached inode (fs.route k)) (fs.withCurrent c) ∧
      (readDataBlock inode k fs.layout.blockSize).run fs =
        .ok (fs.block (fs.reached inode (fs.route k))) (fs.withCurrent c) ∧
      ∀ data size, size ≤ fs.layout.blockSize →
        (writeDataBlock (fun _ => data) size inode k).run fs =
          .ok () ((fs.withCurrent c).withDisk
            (fs.disk.splice (fs.reached inode (fs.route k) * fs.layout.blockSize) size data))) ∧
    ∀ k' < fs.layout.mapSize, k' ≠ k → fs.route k' ≠ fs.route k ∧
      (fs.slot inode (fs.route k') = fs.slot inode (fs.route k) →
        holder (fs.route k') ≠ holder (fs.route k) ∧
          fs.reached inode (holder (fs.route k')) = fs.reached inode (holder (fs.route k))) := by
  have hroute : ∀ j < fs.layout.mapSize, fs.layout.path j = fs.route j := fun j hj =>
    hg.path_eq_standardPath hj
  have hnumber : fs.blockNumber inode k = fs.reached inode (fs.route k) := by
    rw [← hroute k hk]
    rfl
  rw [← hnumber]
  rw [← hroute k hk] at hrange
  have hmaps := hrange.maps hg hk
  have hlt : fs.blockNumber inode k < fs.layout.blockCount := hrange _ [] (List.append_nil _).symm
  refine ⟨⟨fs.scratch inode k fs.currentBlock, ?_, ?_, fun data size hsize => ?_⟩,
    fun k' hk' hne => ?_⟩
  · exact run_getDataBlock hg.addressable hmaps fs.currentBlock
  · exact run_readDataBlock hg.addressable hmaps hlt fs.currentBlock
  · exact run_writeDataBlock_const hg.addressable hmaps hlt hsize data fs.currentBlock
  · have hdiffer : fs.route k' ≠ fs.route k := by
      rw [← hroute k hk, ← hroute k' hk']
      exact fun heq => hne (hg.path_injective hk' hk heq)
    exact ⟨hdiffer, holder_of_slot_eq hdiffer⟩

theorem block_walks_agree_behind_indirect_block :
    ∃ c, (getDataBlock indirectInode 12).run indirectVolume = .ok 7 (indirectVolume.withCurrent c) ∧
      (readDataBlock indirectInode 12 indirectVolume.layout.blockSize).run indirectVolume =
        .ok (indirectVolume.block 7) (indirectVolume.withCurrent c) := by
  have hroute : indirectVolume.route 12 = (12, [0]) := by decide
  have hroot : indirectInode.blockPtr 12 = 6 := by decide
  have hreached : indirectVolume.reached indirectInode (12, [0]) = 7 := by decide
  have hrange : indirectVolume.InRange indirectInode (indirectVolume.route 12) := by
    rw [hroute]
    intro js ks hsplit
    rw [layout_sampleVolume]
    rcases js with _ | ⟨j, js⟩
    · show indirectInode.blockPtr 12 < 32
      omega
    · obtain ⟨rfl, hnil⟩ := List.cons.inj hsplit
      obtain ⟨rfl, -⟩ := List.append_eq_nil_iff.mp hnil.symm
      rw [hreached]
      decide
  obtain ⟨⟨c, hget, hread, -⟩, -⟩ :=
    block_walks_agree (k := 12) (geometry_sampleVolume indirectFile)
    indirectInode (by rw [layout_sampleVolume]; decide) hrange
  rw [hroute, hreached] at hget hread
  exact ⟨c, hget, hread⟩

/-- A volume whose block 7 has block 6 as its first entry. -/
def sharedVolume : FileSystem := sampleVolume fun n i => if n = 7 ∧ i = 0 then 6 else 0

/-- An inode with block 6 as its singly and block 7 as its doubly indirect block. -/
def sharedInode : Inode := ⟨fun i => if i = 88 then 6 else if i = 92 then 7 else 0⟩

/-- Block 6 stands at two places of the map, so the block indices 12 and 268 have one slot. -/
theorem shared_slot : sharedVolume.layout.Geometry ∧
    (∀ k ∈ [12, 268], k < sharedVolume.layout.mapSize ∧
      sharedVolume.InRange sharedInode (sharedVolume.route k)) ∧
    sharedVolume.slot sharedInode (sharedVolume.route 12) = .entry 6 0 ∧
    sharedVolume.slot sharedInode (sharedVolume.route 268) = .entry 6 0 := by
  have hlow : sharedVolume.route 12 = (12, [0]) := by decide
  have hhigh : sharedVolume.route 268 = (13, [0, 0]) := by decide
  have hlayout : sharedVolume.layout = ⟨32, 0, 8192, 8, 0, 0, 0⟩ := layout_sampleVolume _
  refine ⟨geometry_sampleVolume _, ?_, ?_⟩
  · simp only [List.forall_mem_cons, inRange_iff, hlow, hhigh, hlayout]
    decide
  · rw [hlow, hhigh]
    decide

end FileSystem

end LudOS.Ext2
