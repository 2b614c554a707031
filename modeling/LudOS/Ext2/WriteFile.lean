import LudOS.Ext2.ReadFile
import LudOS.Ext2.Ownership

/-!
# Writing a file

`Ext2FS::write_data` cuts the data into chunks of the block size, and each chunk reads and rewrites
the two blocks of the file that it may straddle. The block to rewrite is prepared in the scratch
buffer, and `write_data_block` is handed a span over that buffer. For a direct block this is a
splice. For a block behind an indirect block, the walk to the block loads the indirect block into
the same buffer first, so that the pointers of the indirect block are stored over the data.

`Written` says what all rewrites up to some index have done, and `write_data_splices_iff` for which
writes the file nevertheless ends up with the right content.
-/

namespace LudOS.Ext2

open Lib

/-! ## The functions -/

/-- One of the two passes of `write_offsetted_data`: read a block of the file into the scratch
buffer, overwrite its bytes from `byteOff` on, and write the buffer back. -/
def rewriteDataBlock (inode : Inode) (blkId byteOff : Nat) (src : Span) : Action Unit := do
  let layout ← getLayout
  let block ← readDataBlock inode blkId layout.blockSize
  modify fun fs => fs.withCurrent block
  check .assertion (src.size ≤ wsub layout.blockSize byteOff)
  modify fun fs => fs.withCurrent (fs.currentBlock.splice byteOff src.size src.bytes)
  writeDataBlock (·.currentBlock) layout.blockSize inode blkId

/-- `Ext2FS::write_offsetted_data`. -/
def writeOffsettedData (data : Span) (block byteOff : Nat) (inode : Inode) : Action Unit := do
  let layout ← getLayout
  let blkSize := layout.blockSize
  check .assertion (data.size ≤ blkSize)
  let first := data.sub 0 (min (wsub blkSize byteOff) data.size)
  let second :=
    if wsub blkSize byteOff < data.size then
      data.sub (wsub blkSize byteOff) (data.size - wsub blkSize byteOff)
    else Span.empty
  rewriteDataBlock inode block byteOff first
  rewriteDataBlock inode (wadd block 1) 0 second

/-- The loop of `Ext2FS::write_data`, with `count` chunks left from index `i` on. The offset is
lowered by a block each time round. -/
def writeDataChunks (inode : Inode) (chunks : List Span) (blockOffset : Nat) :
    (count i byteOffset : Nat) → Action Unit
  | 0, _, _ => pure ()
  | count + 1, i, byteOffset =>
    match chunks[i]? with
    | none => throw .outOfBounds
    | some chunk => do
      let layout ← getLayout
      writeOffsettedData chunk (wadd blockOffset i) (byteOffset % layout.blockSize) inode
      writeDataChunks inode chunks blockOffset count (i + 1) (wsub byteOffset layout.blockSize)

/-- `Ext2FS::write_data`. -/
def writeData (data : Span) (byteOffset : Nat) (inode : Inode) : Action Unit := do
  let layout ← getLayout
  let blocks := dataBlocks layout inode
  let blockOffset := byteOffset / layout.blockSize
  let count := chunkCount data.size layout.blockSize
  check .assertion (wadd blockOffset count ≤ blocks)
  writeDataChunks inode (split data layout.blockSize) blockOffset count 0 byteOffset

namespace FileSystem

variable {fs fs' : FileSystem} {inode : Inode} {src : Span}

/-! ## One rewrite -/

/-- A rewrite stores the spliced block, or what the walk has left in the scratch buffer instead. -/
theorem run_rewriteDataBlock (hl : Addressable fs.layout) {blkId : Nat} (byteOff : Nat) (src : Span)
    (hmaps : fs.Maps inode blkId) (hlt : fs.blockNumber inode blkId < fs.layout.blockCount)
    (hfit : byteOff + src.size ≤ fs.layout.blockSize) (hbs : fs.layout.blockSize < 2 ^ 32) :
    ∃ fs', (rewriteDataBlock inode blkId byteOff src).run fs = .ok () fs' ∧
      fs'.layout = fs.layout ∧ ∀ b, fs'.block b =
        if b = fs.blockNumber inode blkId then fs.scratch inode blkId
          ((fs.block (fs.blockNumber inode blkId)).splice byteOff src.size src.bytes)
        else fs.block b := by
  have hroom : src.size ≤ wsub fs.layout.blockSize byteOff := by
    rw [wsub_of_le (by omega) hbs]
    omega
  have henter : ∀ c, ((do
      let t ← get
      check .assertion (fs.layout.blockSize ≤ t.layout.blockSize) : Action Unit).run
        (fs.withCurrent c)) = .ok () (fs.withCurrent c) :=
    fun c => run_check_pos (Nat.le_refl _) _
  generalize hstored : fs.scratch inode blkId
    ((fs.block (fs.blockNumber inode blkId)).splice byteOff src.size src.bytes) = stored
  refine ⟨(fs.withCurrent stored).putBlock (fs.blockNumber inode blkId) stored, ?_, rfl, ?_⟩
  · unfold rewriteDataBlock
    refine (run_getLayout_bind _ fs.currentBlock).trans ?_
    rw [run_bind_ok (run_readDataBlock hl hmaps hlt fs.currentBlock), run_modify_bind]
    refine (run_check_bind hroom).trans ?_
    -- The span over the scratch buffer is read after the walk.
    refine (run_visitDataBlock henter hl hmaps _).trans ?_
    subst hstored
    exact run_writeBlock (show Addressable (fs.withCurrent (fs.scratch inode blkId
      ((fs.block (fs.blockNumber inode blkId)).splice byteOff src.size src.bytes))).layout from hl)
      hlt _
  · have htrunc : stored.trunc fs.layout.blockSize = stored := by
      rw [← hstored]
      unfold scratch
      split
      · rw [Bytes.trunc_splice hfit, trunc_block]
      · rw [trunc_block]
    intro b
    rw [block_putBlock, layout_withCurrent, htrunc, block_withCurrent]

/-- A rewrite of a block that the volume does not have fails. -/
theorem blockNumber_lt_of_run_rewriteDataBlock (hl : Addressable fs.layout) {blkId byteOff : Nat}
    (hmaps : fs.Maps inode blkId)
    (hrun : (rewriteDataBlock inode blkId byteOff src).run fs = .ok () fs') :
    fs.blockNumber inode blkId < fs.layout.blockCount := by
  by_contra hge
  have hwalk :
      (readDataBlock inode blkId fs.layout.blockSize).run (fs.withCurrent fs.currentBlock) =
      _ := run_visitDataBlock (fun _ => rfl) hl hmaps _
  have hcount : (fs.withCurrent (fs.scratch inode blkId fs.currentBlock)).layout.blockCount ≤
      fs.blockNumber inode blkId := Nat.not_lt.mp hge
  have hread := hwalk.trans (run_readBlock_of_ge hcount _)
  have herror : (rewriteDataBlock inode blkId byteOff src).run fs = .error _ _ :=
    (run_getLayout_bind _ fs.currentBlock).trans (run_bind_error hread)
  rw [herror] at hrun
  cases hrun

/-! ## Files with a sound block map -/

/-- All blocks of the file are mapped, and no block of the volume is used twice by it. -/
structure SoundFile (fs : FileSystem) (inode : Inode) : Prop extends fs.OwnsOnce inode where
  mapped : ∀ k < dataBlocks fs.layout inode, fs.pointer inode (fs.layout.path k) ≠ 0

/-- Block `b` is a data block of the file. -/
def IsDataBlock (fs : FileSystem) (inode : Inode) (b : Nat) : Prop :=
  ∃ k < dataBlocks fs.layout inode, b = fs.blockNumber inode k

theorem dataBlocks_le {l : Layout} (hg : l.Geometry) (inode : Inode) :
    dataBlocks l inode ≤ 2 ^ 22 := by
  have hsize : inode.sizeLower < 2 ^ 32 := Bytes.u32_lt _ _
  have hge := hg.addressable.block_size_ge
  by_contra hgt
  have hlt := chunk_count_pred_lt (show 0 < l.blockSize by omega) (Nat.not_le.mp hgt)
  omega

/-- The trees have room for more blocks than a 32-bit file size needs. -/
theorem dataBlocks_lt_mapSize {l : Layout} (hg : l.Geometry) (inode : Inode) :
    dataBlocks l inode < l.mapSize := by
  have hcount := dataBlocks_le hg inode
  have hcube : 256 ^ 3 ≤ l.entriesPerBlock ^ 3 := Nat.pow_le_pow_left hg.entriesPerBlock_ge 3
  unfold Layout.mapSize
  omega

namespace SoundFile

variable (h : fs.SoundFile inode) (hg : fs.layout.Geometry) {k k' : Nat}

include h

theorem blockNumber_eq (hk : k < dataBlocks fs.layout inode) :
    fs.blockNumber inode k = fs.pointer inode (fs.layout.path k) :=
  blockNumber_eq_pointer (not_mem_visitedBlocks (h.mapped k hk))

include hg

theorem maps (hk : k < dataBlocks fs.layout inode) : fs.Maps inode k :=
  h.toOwnsOnce.maps hg (hk.trans (dataBlocks_lt_mapSize hg inode))
    (not_mem_visitedBlocks (h.mapped k hk))

theorem blockNumber_lt (hk : k < dataBlocks fs.layout inode) :
    fs.blockNumber inode k < fs.layout.blockCount := by
  rw [h.blockNumber_eq hk]
  exact h.lt _ (hg.isPath_path (hk.trans (dataBlocks_lt_mapSize hg inode))).1 (h.mapped k hk)

theorem fileMapped : fs.FileMapped inode := by
  intro k hk
  exact ⟨_, h.blockNumber_lt hg hk, (valueOf_getDataBlock hg.addressable).mpr ⟨h.maps hg hk, rfl⟩⟩

/-- A data block of the file belongs to one index, also among the indices past its end. -/
theorem blockNumber_ne (hk : k < dataBlocks fs.layout inode) (hk' : k' < fs.layout.mapSize)
    (hreach : 0 ∉ fs.visitedBlocks inode k') (hne : k ≠ k') :
    fs.blockNumber inode k ≠ fs.blockNumber inode k' := by
  intro heq
  rw [h.blockNumber_eq hk, blockNumber_eq_pointer hreach] at heq
  exact hne (h.toOwnsOnce.index_unique hg (hk.trans (dataBlocks_lt_mapSize hg inode)) hk'
    (h.mapped k hk) heq)

/-- The indirect blocks of the file are not data blocks. -/
theorem not_isDataBlock (hk : k < fs.layout.mapSize) (hreach : 0 ∉ fs.visitedBlocks inode k)
    {n : Nat} (hn : n ∈ fs.visitedBlocks inode k) : ¬ fs.IsDataBlock inode n := by
  rintro ⟨k', hk', rfl⟩
  exact h.toOwnsOnce.visited_ne hg hk hreach hn (hk'.trans (dataBlocks_lt_mapSize hg inode))
    (h.blockNumber_eq hk')

end SoundFile

/-! ## What the rewrites have done -/

/-- More data changes nothing before and behind it. -/
theorem splice_grow {m data : Bytes} {offset done n i : Nat}
    (h : i < offset + done ∨ offset + done + n ≤ i) :
    m.splice offset (done + n) data i = m.splice offset done data i := by
  by_cases hin : offset ≤ i ∧ i < offset + done
  · rw [Bytes.splice_inside hin.1 (by omega), Bytes.splice_inside hin.1 hin.2]
  · rw [Bytes.splice_outside (by omega), Bytes.splice_outside (by omega)]

/-- The bytes of a rewrite lie within one block, so that the splice of all other blocks stays as it
was. -/
theorem splice_other_block {m data : Bytes} {s offset done n k k' g j : Nat}
    (hn : n ≠ 0 → k * s + g = offset + done) (hfit : g + n ≤ s) (hne : k' ≠ k) (hj : j < s) :
    m.splice offset (done + n) data (k' * s + j) = m.splice offset done data (k' * s + j) := by
  refine splice_grow ?_
  by_cases hzero : n = 0
  · omega
  have hrange : k' * s + s ≤ k * s ∨ k * s + s ≤ k' * s := by
    rcases Nat.lt_or_gt_of_ne hne with hlt | hgt
    · left
      rw [← Nat.succ_mul]
      exact Nat.mul_le_mul_right s hlt
    · right
      rw [← Nat.succ_mul]
      exact Nat.mul_le_mul_right s hgt
  omega

/-- The volume after the first `done` bytes of the data have gone through rewrites of the blocks
below `hi`: the direct blocks of the file have them spliced in, the other data blocks that were
rewritten hold their indirect blocks, and nothing else has changed. -/
structure Written (fs : FileSystem) (inode : Inode) (offset : Nat) (data : Bytes) (hi done : Nat)
    (fs' : FileSystem) : Prop where
  layout : fs'.layout = fs.layout
  direct : ∀ k < dataBlocks fs.layout inode, k < 12 → ∀ j < fs.layout.blockSize,
    fs'.block (fs.blockNumber inode k) j =
      Bytes.splice (fs.fileByte inode) offset done data (k * fs.layout.blockSize + j)
  indirect : ∀ k < dataBlocks fs.layout inode, 12 ≤ k → fs'.block (fs.blockNumber inode k) =
    if offset / fs.layout.blockSize ≤ k ∧ k < hi then fs.block (fs.leafBlock inode k)
    else fs.block (fs.blockNumber inode k)
  other : ∀ b, ¬ fs.IsDataBlock inode b → fs'.block b = fs.block b

namespace Written

variable {offset hi done : Nat} {data : Bytes}

/-- Before the first rewrite nothing has changed. -/
theorem start (h : fs.SoundFile inode) (hg : fs.layout.Geometry) (offset : Nat) (data : Bytes) :
    Written fs inode offset data (offset / fs.layout.blockSize) 0 fs := by
  refine ⟨rfl, fun k hk _ j hj => ?_, fun k hk _ => ?_, fun _ _ => rfl⟩
  · obtain ⟨-, -, hfile⟩ := (h.fileMapped hg).block hg.addressable hk
    rw [Bytes.splice_zero, hfile j hj]
  · rw [if_neg (by omega)]

/-- The walk to an index all of whose indirect blocks are no data blocks is still the same. -/
theorem walk (hw : Written fs inode offset data hi done fs') {k : Nat}
    (hclear : ∀ n ∈ fs.visitedBlocks inode k, ¬ fs.IsDataBlock inode n) :
    fs'.blockNumber inode k = fs.blockNumber inode k ∧
      fs'.leafBlock inode k = fs.leafBlock inode k ∧ (fs'.Maps inode k ↔ fs.Maps inode k) :=
  walk_congr hw.layout fun n hn => hw.other n (hclear n hn)

/-- A rewrite of a block of the file, with the next bytes of the data. -/
theorem step (hw : Written fs inode offset data hi done fs') (h : fs.SoundFile inode)
    (hg : fs.layout.Geometry) {k g : Nat} {src : Span} (hk : k < dataBlocks fs.layout inode)
    (hhi : k = hi ∨ k + 1 = hi) (hlo : offset / fs.layout.blockSize ≤ k)
    (hpos : src.size ≠ 0 → k * fs.layout.blockSize + g = offset + done)
    (hfit : g + src.size ≤ fs.layout.blockSize)
    (hsrc : ∀ i < src.size, src.bytes i = data (done + i)) :
    ∃ fs'', (rewriteDataBlock inode k g src).run fs' = .ok () fs'' ∧
      Written fs inode offset data (k + 1) (done + src.size) fs'' := by
  have hbs := hg.blockSize_lt
  have hreach := not_mem_visitedBlocks (h.mapped k hk)
  have hkm := hk.trans (dataBlocks_lt_mapSize hg inode)
  obtain ⟨hnum, hleaf, hmaps⟩ := hw.walk fun n hn => h.not_isDataBlock hg hkm hreach hn
  have hl' : Addressable fs'.layout := hw.layout ▸ hg.addressable
  obtain ⟨fs'', hrun, hlayout, hblock⟩ := run_rewriteDataBlock hl' g src
    (hmaps.mpr (h.maps hg hk)) (by rw [hnum, hw.layout]; exact h.blockNumber_lt hg hk)
    (by rw [hw.layout]; exact hfit) (by rw [hw.layout]; exact hbs)
  unfold scratch at hblock
  rw [hnum, hleaf] at hblock
  have hother : ∀ k' < dataBlocks fs.layout inode, k' ≠ k →
      fs.blockNumber inode k' ≠ fs.blockNumber inode k :=
    fun k' hk' hne => h.blockNumber_ne hg hk' hkm hreach hne
  refine ⟨fs'', hrun, hlayout.trans hw.layout, ?_, ?_, ?_⟩
  · intro k' hk' hdirect j hj
    rw [hblock]
    by_cases hkk : k' = k
    case neg =>
      rw [if_neg (hother k' hk' hkk), hw.direct k' hk' hdirect j hj,
        splice_other_block hpos hfit hkk hj]
    subst hkk
    rw [if_pos rfl, if_pos hdirect]
    by_cases hin : g ≤ j ∧ j < g + src.size
    · have := hpos (by omega)
      rw [Bytes.splice_inside hin.1 hin.2, hsrc _ (by omega),
        Bytes.splice_inside (by omega) (by omega)]
      congr 1
      omega
    · rw [Bytes.splice_outside (by omega), hw.direct k' hk' hdirect j hj, splice_grow]
      by_cases hzero : src.size = 0
      · omega
      · have := hpos hzero
        omega
  · intro k' hk' hindirect
    rw [hblock]
    by_cases hkk : k' = k
    case neg =>
      rw [if_neg (hother k' hk' hkk), hw.indirect k' hk' hindirect]
      exact if_congr (by omega) rfl rfl
    subst hkk
    have hL := h.not_isDataBlock hg hkm hreach (leafBlock_mem_visitedBlocks hg hkm hindirect)
    rw [if_pos rfl, if_neg (by omega), if_pos ⟨hlo, by omega⟩, hw.other _ hL]
  · intro b hb
    rw [hblock, if_neg fun heq => hb ⟨k, hk, heq⟩, hw.other b hb]

/-- After the first pass of a chunk, its second pass is left, with the bytes of the chunk that the
first block has no room for. -/
theorem first_pass {data : Span} (hw : Written fs inode offset data.bytes hi done fs')
    (h : fs.SoundFile inode) (hg : fs.layout.Geometry) {k n : Nat}
    (hk : k < dataBlocks fs.layout inode) (hhi : k = hi ∨ k + 1 = hi)
    (hpos : k * fs.layout.blockSize + offset % fs.layout.blockSize = offset + done)
    (hn : n ≤ fs.layout.blockSize) (hend : done + n ≤ data.size) : ∃ done' second fs₁,
      (writeOffsettedData (data.sub done n) k (offset % fs.layout.blockSize) inode).run fs' =
        (rewriteDataBlock inode (k + 1) 0 second).run fs₁ ∧
      Written fs inode offset data.bytes (k + 1) done' fs₁ ∧ done' + second.size = done + n ∧
      second.size ≤ fs.layout.blockSize ∧
      (second.size ≠ 0 → (k + 1) * fs.layout.blockSize = offset + done') ∧
      ∀ i < second.size, second.bytes i = data.bytes (done' + i) := by
  set s := fs.layout.blockSize
  have hbs := hg.blockSize_lt
  have hge := hg.addressable.block_size_ge
  have hf : offset % s < s := Nat.mod_lt _ (by omega)
  have hlo : offset / s ≤ k := by
    have hle : offset / s * s ≤ k * s := by
      have := Nat.div_add_mod' offset s
      omega
    exact Nat.le_of_mul_le_mul_right hle (by omega)
  have hnext : wadd k 1 = k + 1 := wadd_of_lt (by have := dataBlocks_le hg inode; omega)
  have hwsub : wsub s (offset % s) =
      s - offset % s := wsub_of_le (by omega) hbs
  have hsize : (data.sub done n).size = n := Span.size_sub hend
  -- The two spans of the source, whether or not the chunk straddles the end of the block.
  obtain ⟨first, second, hfirst, hsum, hbytes, hbytes', hrun⟩ : ∃ first second : Span,
      first.size = min (s - offset % s) n ∧
      first.size + second.size = n ∧ (∀ i, first.bytes i = data.bytes (done + i)) ∧
      (∀ i < second.size, second.bytes i = data.bytes (done + first.size + i)) ∧
      (writeOffsettedData (data.sub done n) k (offset % s) inode).run fs' =
        (do
          rewriteDataBlock inode k (offset % s) first
          rewriteDataBlock inode (k + 1) 0 second : Action Unit).run fs' := by
    have hcheck : (data.sub done n).size ≤ fs'.layout.blockSize := by
      rw [hw.layout, hsize]
      exact hn
    have hrun : (writeOffsettedData (data.sub done n) k (offset % s) inode).run
        fs' = _ := (run_getLayout_bind _ fs'.currentBlock).trans (run_check_bind hcheck)
    rw [hw.layout, hwsub, hsize, hnext] at hrun
    by_cases hstraddle : s - offset % s < n
    · rw [if_pos hstraddle] at hrun
      refine ⟨_, _, ?_, ?_, fun i => ?_, fun i hi => ?_, hrun⟩
      · rw [Span.size_sub (by omega)]
      · rw [Span.size_sub (by omega), Span.size_sub (by omega)]
        omega
      · rw [Span.bytes_sub, Span.bytes_sub, Bytes.view_zero, Bytes.view_apply]
      · rw [Span.size_sub (by omega), Nat.min_eq_left hstraddle.le, Span.bytes_sub, Span.bytes_sub,
          Bytes.view_apply, Bytes.view_apply]
        congr 1
        omega
    · rw [if_neg hstraddle] at hrun
      refine ⟨_, _, ?_, ?_, fun i => ?_, fun i hi => absurd hi (Nat.not_lt_zero _), hrun⟩
      · rw [Span.size_sub (by omega)]
      · rw [Span.size_sub (by omega), Span.size_empty]
        omega
      · rw [Span.bytes_sub, Span.bytes_sub, Bytes.view_zero, Bytes.view_apply]
  obtain ⟨fs₁, hpass, hw₁⟩ := hw.step h hg hk hhi hlo (fun _ => hpos)
    (show offset % s + first.size ≤ s by omega)
    fun i _ => hbytes i
  refine ⟨done + first.size, second, fs₁, ?_, hw₁, by omega, by omega, fun hne => ?_, hbytes'⟩
  · rw [hrun, run_bind_ok hpass]
  · rw [Nat.add_mul]
    omega

section

variable {data : Span} {i q : Nat}
  (hw : Written fs inode offset data.bytes hi (i * fs.layout.blockSize) fs')
  (h : fs.SoundFile inode) (hg : fs.layout.Geometry) (hend : offset + data.size ≤ inode.sizeLower)
  (hq : offset / fs.layout.blockSize = q)

include hw h hg hend hq

/-- The first pass of the chunk with index `i`, as part of the loop. -/
theorem chunk {cur : Nat}
    (hi_lt : i < chunkCount data.size fs.layout.blockSize)
    (hcur : cur % fs.layout.blockSize = offset % fs.layout.blockSize)
    (hhi : q + i = hi ∨ q + i + 1 = hi) : ∃ done' second fs₁, (∀ count,
      (writeDataChunks inode (split data fs.layout.blockSize) q (count + 1) i cur).run fs' =
        (do
          rewriteDataBlock inode (q + i + 1) 0 second
          writeDataChunks inode (split data fs.layout.blockSize) q count (i + 1)
            (wsub cur fs.layout.blockSize) : Action Unit).run fs₁) ∧
      Written fs inode offset data.bytes (q + i + 1) done' fs₁ ∧
      done' + second.size = min ((i + 1) * fs.layout.blockSize) data.size ∧
      second.size ≤ fs.layout.blockSize ∧
      (second.size ≠ 0 → (q + i + 1) * fs.layout.blockSize = offset + done') ∧
      ∀ j < second.size, second.bytes j = data.bytes (done' + j) := by
  have hs := hg.addressable.block_size_pos
  have hoff := Nat.div_add_mod' offset fs.layout.blockSize
  rw [hq] at hoff
  have hmul := Nat.add_mul q i fs.layout.blockSize
  have hlt := chunk_count_pred_lt hs hi_lt
  have hk : q + i < dataBlocks fs.layout inode := by
    have hblock := div_lt_dataBlocks hg.addressable
      (show (q + i) * fs.layout.blockSize < inode.sizeLower by omega)
    rwa [Nat.mul_div_cancel _ hs] at hblock
  have hindex : wadd q i = q + i := wadd_of_lt (by have := dataBlocks_le hg inode; omega)
  obtain ⟨done', second, fs₁, hrun, hw₁, hsum, hrest⟩ := hw.first_pass h hg hk hhi (by omega)
    (Nat.min_le_left fs.layout.blockSize (data.size - i * fs.layout.blockSize)) (by omega)
  refine ⟨done', second, fs₁, fun count => ?_, hw₁, ?_, hrest⟩
  · conv_lhs => unfold writeDataChunks
    rw [split_get data hs hi_lt]
    refine (run_getLayout_bind _ fs'.currentBlock).trans ?_
    rw [hw.layout, hindex, hcur]
    show EStateM.run (_ >>= _) fs' = _
    rw [EStateM.run_bind, hrun, ← EStateM.run_bind]
  · rw [hsum, Nat.add_mul]
    omega

/-- All chunks from index `i` on: the very last pass is left. -/
theorem chunks {count cur : Nat}
    (hcount : i + (count + 1) = chunkCount data.size fs.layout.blockSize)
    (hcur : cur % fs.layout.blockSize = offset % fs.layout.blockSize)
    (hhi : q + i = hi ∨ q + i + 1 = hi) : ∃ done' second fs₁,
      (writeDataChunks inode (split data fs.layout.blockSize) q (count + 1) i cur).run fs' =
        (rewriteDataBlock inode (q + (i + (count + 1))) 0 second).run fs₁ ∧
      Written fs inode offset data.bytes (q + (i + (count + 1))) done' fs₁ ∧
      done' + second.size = data.size ∧ second.size ≤ fs.layout.blockSize ∧
      (second.size ≠ 0 → (q + (i + (count + 1))) * fs.layout.blockSize = offset + done') ∧
      ∀ j < second.size, second.bytes j = data.bytes (done' + j) := by
  have hs := hg.addressable.block_size_pos
  have hoff := Nat.div_add_mod' offset fs.layout.blockSize
  rw [hq] at hoff
  induction count generalizing i cur hi fs' with
  | zero =>
    obtain ⟨done', second, fs₁, hrun, hw₁, hsum, hrest⟩ := hw.chunk h hg hend hq (by omega) hcur hhi
    have hall : data.size ≤ chunkCount data.size fs.layout.blockSize * fs.layout.blockSize :=
      chunk_count_mul_ge hs
    rw [← hcount] at hall
    refine ⟨done', second, fs₁, (hrun 0).trans ?_, hw₁, hsum.trans (Nat.min_eq_right hall), hrest⟩
    exact congrArg (EStateM.run · fs₁) (bind_pure _)
  | succ count ih =>
    obtain ⟨done', second, fs₁, hrun, hw₁, hsum, hfit, hpos, hbytes⟩ :=
      hw.chunk h hg hend hq (by omega) hcur hhi
    -- The block of the second pass is the one where the next chunk starts.
    have hlt : (i + 1) * fs.layout.blockSize < data.size := chunk_count_pred_lt hs (by omega)
    have hk : q + i + 1 < dataBlocks fs.layout inode := by
      have hblock := div_lt_dataBlocks hg.addressable
        (show (q + (i + 1)) * fs.layout.blockSize < inode.sizeLower by
          rw [Nat.add_mul]
          omega)
      rwa [Nat.mul_div_cancel _ hs] at hblock
    obtain ⟨fs₂, hpass, hw₂⟩ := hw₁.step h hg hk (.inl rfl) (by omega) (fun hne => hpos hne)
      (show 0 + second.size ≤ fs.layout.blockSize by omega) hbytes
    rw [hsum, Nat.min_eq_left hlt.le] at hw₂
    obtain ⟨done'', second', fs₃, hrun', hrest⟩ := ih hw₂ (by omega)
      ((hg.wsub_mod_blockSize cur).trans hcur) (.inr rfl)
    have hindex : i + (count + 1 + 1) = i + 1 + (count + 1) := by omega
    rw [hindex]
    exact ⟨done'', second', fs₃, by rw [hrun, run_bind_ok hpass, hrun'], hrest⟩

end

end Written

/-! ## The whole write -/

/-- What a block may be left with: a data block with the bytes of the new file content, any other
block with what it held. -/
structure Agrees (fs : FileSystem) (inode : Inode) (offset : Nat) (data : Span) (b : Nat)
    (m : Bytes) : Prop where
  file : ∀ k < dataBlocks fs.layout inode, b = fs.blockNumber inode k →
    ∀ j < fs.layout.blockSize, k * fs.layout.blockSize + j < inode.sizeLower →
      m j = Bytes.splice (fs.fileByte inode) offset data.size data.bytes
        (k * fs.layout.blockSize + j)
  other : ¬ fs.IsDataBlock inode b → m = fs.block b

/-- The file has the data in its place and its other bytes as they were, and no block has changed
that is not a data block of the file. -/
structure Spliced (fs : FileSystem) (inode : Inode) (offset : Nat) (data : Span)
    (fs' : FileSystem) : Prop where
  file : ∀ i < inode.sizeLower, fs'.fileByte inode i =
    Bytes.splice (fs.fileByte inode) offset data.size data.bytes i
  other : ∀ b, ¬ fs.IsDataBlock inode b → fs'.block b = fs.block b

/-- The write succeeds and is a splice of the file. -/
def WritesFile (fs : FileSystem) (inode : Inode) (offset : Nat) (data : Span) : Prop :=
  ∃ fs', (writeData data offset inode).run fs = .ok () fs' ∧ fs.Spliced inode offset data fs'

/-- The writes that go well. A rewrite of a block behind an indirect block stores that indirect
block over it, so all of these must be right by chance. The last chunk rewrites the block that
follows those of the data as well. -/
def OverwritesRight (fs : FileSystem) (inode : Inode) (offset : Nat) (data : Span) : Prop :=
  0 < data.size → ∀ k, 12 ≤ k → offset / fs.layout.blockSize ≤ k →
    k ≤ offset / fs.layout.blockSize + chunkCount data.size fs.layout.blockSize →
    fs.blockNumber inode k < fs.layout.blockCount ∧
      fs.Agrees inode offset data (fs.blockNumber inode k) (fs.block (fs.leafBlock inode k))

variable {offset hi : Nat} {data : Span}

/-- The same, block by block. -/
theorem spliced_iff (h : fs.SoundFile inode) (hg : fs.layout.Geometry)
    (hlayout : fs'.layout = fs.layout) :
    fs.Spliced inode offset data fs' ↔ ∀ b, fs.Agrees inode offset data b (fs'.block b) := by
  have hs := hg.addressable.block_size_pos
  -- Once the indirect blocks are unchanged, the file is read from the same blocks as before.
  have hsame : (∀ b, ¬ fs.IsDataBlock inode b → fs'.block b = fs.block b) →
      ∀ k < dataBlocks fs.layout inode, ∀ j < fs.layout.blockSize,
        fs'.fileByte inode (k * fs.layout.blockSize + j) =
          fs'.block (fs.blockNumber inode k) j := by
    intro hother
    have hwalk : ∀ k < dataBlocks fs.layout inode, _ := fun k hk =>
      walk_congr hlayout fun n hn => hother n (h.not_isDataBlock hg
        (hk.trans (dataBlocks_lt_mapSize hg inode)) (not_mem_visitedBlocks (h.mapped k hk)) hn)
    have hmapped : fs'.FileMapped inode := by
      intro k hk
      rw [hlayout] at hk ⊢
      obtain ⟨hnum, -, hmaps⟩ := hwalk k hk
      refine ⟨_, h.blockNumber_lt hg hk, (valueOf_getDataBlock ?_).mpr ⟨?_, hnum⟩⟩
      · rw [hlayout]
        exact hg.addressable
      · exact hmaps.mpr (h.maps hg hk)
    intro k hk j hj
    obtain ⟨-, -, hfile⟩ := hmapped.block (hlayout ▸ hg.addressable) (hlayout ▸ hk)
    rw [hlayout, (hwalk k hk).1] at hfile
    exact hfile j hj
  constructor
  · rintro ⟨hfile, hother⟩ b
    refine ⟨fun k hk hb j hj hend => ?_, hother b⟩
    rw [hb, ← hsame hother k hk j hj, hfile _ hend]
  · intro hagrees
    have hother : ∀ b, ¬ fs.IsDataBlock inode b → fs'.block b = fs.block b :=
      fun b hb => (hagrees b).other hb
    refine ⟨fun i hi => ?_, hother⟩
    have hk := div_lt_dataBlocks hg.addressable hi
    have hj := Nat.mod_lt i hs
    have hsum := Nat.div_add_mod' i fs.layout.blockSize
    have hbyte := (hagrees (fs.blockNumber inode (i / fs.layout.blockSize))).file _ hk rfl _ hj
      (by omega)
    rw [← hsame hother _ hk _ hj, hsum] at hbyte
    exact hbyte

namespace Written

variable (hw : Written fs inode offset data.bytes hi data.size fs') (h : fs.SoundFile inode)
  (hg : fs.layout.Geometry)
  (hhi : offset / fs.layout.blockSize + chunkCount data.size fs.layout.blockSize < hi ∨
    dataBlocks fs.layout inode ≤ hi)

include hw h hg hhi

/-- Everything but the blocks behind indirect blocks that were rewritten is as it should be. -/
theorem agrees {b : Nat}
    (hb : ∀ k < dataBlocks fs.layout inode, 12 ≤ k → offset / fs.layout.blockSize ≤ k → k < hi →
      b = fs.blockNumber inode k →
        fs.Agrees inode offset data b (fs.block (fs.leafBlock inode k))) :
    fs.Agrees inode offset data b (fs'.block b) := by
  by_cases hdata : fs.IsDataBlock inode b
  case neg =>
    exact ⟨fun k hk heq => absurd ⟨k, hk, heq⟩ hdata, fun _ => hw.other b hdata⟩
  obtain ⟨k, hk, rfl⟩ := hdata
  by_cases hrewritten : 12 ≤ k ∧ offset / fs.layout.blockSize ≤ k ∧ k < hi
  case pos =>
    obtain ⟨hindirect, hlo, hlt⟩ := hrewritten
    rw [hw.indirect k hk hindirect, if_pos ⟨hlo, hlt⟩]
    exact hb k hk hindirect hlo hlt rfl
  refine ⟨fun k' hk' heq j hj _ => ?_, fun hno => absurd ⟨k, hk, rfl⟩ hno⟩
  -- The block belongs to one index only, and no byte of the data belongs there.
  obtain rfl : k = k' := by
    by_contra hne
    exact h.blockNumber_ne hg hk (hk'.trans (dataBlocks_lt_mapSize hg inode))
      (not_mem_visitedBlocks (h.mapped k' hk')) hne heq
  by_cases hdirect : k < 12
  · exact hw.direct k hk hdirect j hj
  obtain ⟨-, -, hfile⟩ := (h.fileMapped hg).block hg.addressable hk
  rw [hw.indirect k hk (by omega), if_neg (by omega), Bytes.splice_outside ?_, hfile j hj]
  have hoff := Nat.div_add_mod' offset fs.layout.blockSize
  have hmod := Nat.mod_lt offset (show 0 < fs.layout.blockSize by omega)
  have hlen : data.size ≤ chunkCount data.size fs.layout.blockSize * fs.layout.blockSize :=
    chunk_count_mul_ge (by omega)
  by_cases hlo : k < offset / fs.layout.blockSize
  · have := Nat.mul_le_mul_right fs.layout.blockSize (Nat.succ_le_of_lt hlo)
    rw [Nat.succ_mul] at this
    omega
  · have hpast :
        offset / fs.layout.blockSize + chunkCount data.size fs.layout.blockSize + 1 ≤ k := by
      omega
    have := Nat.mul_le_mul_right fs.layout.blockSize hpast
    rw [Nat.add_mul, Nat.add_mul] at this
    omega

/-- Where the rewrites end within the file, only the blocks behind indirect blocks matter. -/
theorem agrees_iff : (∀ b, fs.Agrees inode offset data b (fs'.block b)) ↔
      ∀ k < dataBlocks fs.layout inode, 12 ≤ k → offset / fs.layout.blockSize ≤ k → k < hi →
        fs.Agrees inode offset data (fs.blockNumber inode k) (fs.block (fs.leafBlock inode k)) := by
  constructor
  · intro hall k hk hindirect hlo hlt
    have hagrees := hall (fs.blockNumber inode k)
    rwa [hw.indirect k hk hindirect, if_pos ⟨hlo, hlt⟩] at hagrees
  · intro hright b
    refine hw.agrees h hg hhi fun k hk hindirect hlo hlt heq => ?_
    rw [heq]
    exact hright k hk hindirect hlo hlt

end Written

/-- The index after those of the data can be walked to, over blocks that hold no data of the file,
if its indirect blocks exist or it is the first one behind an indirect block. -/
theorem SoundFile.next_walk (h : fs.SoundFile inode) (hg : fs.layout.Geometry) {k : Nat}
    (hk : k ≤ dataBlocks fs.layout inode) (hpos : 0 < dataBlocks fs.layout inode)
    (hreach : k = 12 ∨ 0 ∉ fs.visitedBlocks inode k) :
    fs.Maps inode k ∧ ∀ n ∈ fs.visitedBlocks inode k, ¬ fs.IsDataBlock inode n := by
  have hkm : k < fs.layout.mapSize := Nat.lt_of_le_of_lt hk (dataBlocks_lt_mapSize hg inode)
  by_cases hno : 0 ∉ fs.visitedBlocks inode k
  · exact ⟨h.toOwnsOnce.maps hg hkm hno, fun n hn => h.not_isDataBlock hg hkm hno hn⟩
  obtain rfl : k = 12 := hreach.resolve_right hno
  have hpath : fs.layout.path 12 = (12, [0]) := by
    have hge := hg.entriesPerBlock_ge
    unfold Layout.path
    rw [if_neg (by decide), if_pos (by omega)]
    rfl
  have hvisited : fs.visitedBlocks inode 12 = [inode.blockPtr 12] := by
    unfold visitedBlocks
    rw [hpath]
    rfl
  have hzero : inode.blockPtr 12 = 0 := by
    rw [hvisited] at hno
    exact (List.mem_singleton.mp (not_not.mp hno)).symm
  have hlt := h.blockNumber_lt hg hpos
  have hge := hg.addressable.block_size_ge
  constructor
  · refine walkable_iff.mpr ⟨fun n hn => ?_, fun i hi => ?_⟩
    · have hn : n ∈ fs.visitedBlocks inode 12 := hn
      rw [hvisited, hzero, List.mem_singleton] at hn
      omega
    · rw [hpath, List.mem_singleton] at hi
      omega
  · rintro n hn ⟨k, hk, rfl⟩
    rw [hvisited, hzero, List.mem_singleton, h.blockNumber_eq hk] at hn
    exact h.mapped k hk hn

/-- The pass over the block that follows the last one of the file, without data. -/
theorem Written.run_past_end (hw : Written fs inode offset data.bytes hi data.size fs')
    (h : fs.SoundFile inode) (hg : fs.layout.Geometry) (hhi : hi = dataBlocks fs.layout inode)
    (hpos : 0 < hi) (hreach : hi = 12 ∨ 0 ∉ fs.visitedBlocks inode hi)
    (hsrc : src.size = 0) (hlt : fs.blockNumber inode hi < fs.layout.blockCount) :
    ∃ fs'', (rewriteDataBlock inode hi 0 src).run fs' = .ok () fs'' ∧ fs''.layout = fs.layout ∧
      ∀ b, fs''.block b = if 12 ≤ hi ∧ b = fs.blockNumber inode hi then
        fs.block (fs.leafBlock inode hi) else fs'.block b := by
  obtain ⟨hmaps, hclear⟩ := h.next_walk hg hhi.le (hhi ▸ hpos) hreach
  have hkm : hi < fs.layout.mapSize := hhi ▸ dataBlocks_lt_mapSize hg inode
  obtain ⟨hnum, hleaf, hmaps'⟩ := hw.walk hclear
  obtain ⟨fs'', hrun, hlayout, hblock⟩ := run_rewriteDataBlock (hw.layout ▸ hg.addressable) 0
    src (hmaps'.mpr hmaps) (by rw [hnum, hw.layout]; exact hlt) (by omega)
    (by rw [hw.layout]; exact hg.blockSize_lt)
  refine ⟨fs'', hrun, hlayout.trans hw.layout, fun b => ?_⟩
  unfold scratch at hblock
  rw [hblock, hnum, hleaf, hsrc, Bytes.splice_zero]
  by_cases hb : b = fs.blockNumber inode hi
  · subst hb
    by_cases hdirect : hi < 12
    · rw [if_pos rfl, if_pos hdirect, if_neg (by omega)]
    · rw [if_pos rfl, if_neg hdirect, if_pos ⟨by omega, rfl⟩]
      exact hw.other _ (hclear _ (leafBlock_mem_visitedBlocks hg hkm (by omega)))
  · rw [if_neg hb, if_neg fun hand => hb hand.2]

/-- The condition of `OverwritesRight` on the blocks up to the last one. -/
def RightUpTo (fs : FileSystem) (inode : Inode) (offset : Nat) (data : Span) (last : Nat) : Prop :=
  ∀ k, 12 ≤ k → offset / fs.layout.blockSize ≤ k → k ≤ last →
    fs.blockNumber inode k < fs.layout.blockCount ∧
      fs.Agrees inode offset data (fs.blockNumber inode k) (fs.block (fs.leafBlock inode k))

/-- A last pass over a block of the file. -/
theorem Written.finishes_within {done last : Nat} {fs₁ : FileSystem}
    (hw : Written fs inode offset data.bytes last done fs₁) (h : fs.SoundFile inode)
    (hg : fs.layout.Geometry)
    (hlast : offset / fs.layout.blockSize + chunkCount data.size fs.layout.blockSize = last)
    (hlt : last < dataBlocks fs.layout inode) (hsum : done + src.size = data.size)
    (hfit : src.size ≤ fs.layout.blockSize)
    (hpos : src.size ≠ 0 → last * fs.layout.blockSize = offset + done)
    (hbytes : ∀ j < src.size, src.bytes j = data.bytes (done + j)) :
    (∃ fs₂, (rewriteDataBlock inode last 0 src).run fs₁ = .ok () fs₂ ∧
      fs.Spliced inode offset data fs₂) ↔ fs.RightUpTo inode offset data last := by
  obtain ⟨fs₂, hrun, hw₂⟩ := hw.step h hg hlt (.inl rfl) (by omega) (fun hne => hpos hne)
    (show 0 + src.size ≤ fs.layout.blockSize by omega) hbytes
  rw [hsum] at hw₂
  have hiff := hw₂.agrees_iff h hg (.inl (by omega))
  rw [← spliced_iff h hg hw₂.layout] at hiff
  constructor
  · rintro ⟨fs₂', hrun', hright⟩ k hindirect hlo hle
    rw [hrun] at hrun'
    cases hrun'
    have hk : k < dataBlocks fs.layout inode := by omega
    exact ⟨h.blockNumber_lt hg hk, hiff.mp hright k hk hindirect hlo (by omega)⟩
  · intro hright
    exact ⟨fs₂, hrun, hiff.mpr fun k _ hindirect hlo hle => (hright k hindirect hlo (by omega)).2⟩

/-- A last pass over the block that follows the file. -/
theorem Written.finishes_past {last : Nat} {fs₁ : FileSystem}
    (hw : Written fs inode offset data.bytes last data.size fs₁) (h : fs.SoundFile inode)
    (hg : fs.layout.Geometry) (hlast : last = dataBlocks fs.layout inode) (hpos : 0 < last)
    (hreach : last = 12 ∨ 0 ∉ fs.visitedBlocks inode last) (hsrc : src.size = 0)
    (hlo : offset / fs.layout.blockSize ≤ last) :
    (∃ fs₂, (rewriteDataBlock inode last 0 src).run fs₁ = .ok () fs₂ ∧
      fs.Spliced inode offset data fs₂) ↔ fs.RightUpTo inode offset data last := by
  have hkm : last < fs.layout.mapSize := hlast ▸ dataBlocks_lt_mapSize hg inode
  obtain ⟨hmaps, hclear⟩ := h.next_walk hg hlast.le (hlast ▸ hpos) hreach
  obtain ⟨hnum, -, hmaps'⟩ := hw.walk hclear
  have hrest := hw.agrees_iff h hg (.inr hlast.ge)
  -- The block of the last pass is none of the blocks behind indirect blocks.
  have hne : ∀ k < last, 12 ≤ k → fs.blockNumber inode k ≠ fs.blockNumber inode last :=
    fun k hk hindirect => h.blockNumber_ne hg (hlast ▸ hk) hkm
      (hreach.resolve_left (by omega)) (by omega)
  constructor
  · rintro ⟨fs₂, hrun, hright⟩ k hindirect hlo' hle
    have hlt := blockNumber_lt_of_run_rewriteDataBlock (hw.layout ▸ hg.addressable)
      (hmaps'.mpr hmaps) hrun
    rw [hnum, hw.layout] at hlt
    obtain ⟨fs₂', hrun', hlayout, hblock⟩ := hw.run_past_end h hg hlast hpos hreach hsrc hlt
    rw [hrun] at hrun'
    cases hrun'
    have hagrees := (spliced_iff h hg hlayout).mp hright (fs.blockNumber inode k)
    rcases Nat.lt_or_eq_of_le hle with hk | rfl
    · rw [hblock, if_neg fun hand => hne k hk hindirect hand.2,
        hw.indirect k (hlast ▸ hk) hindirect, if_pos ⟨hlo', hk⟩] at hagrees
      exact ⟨h.blockNumber_lt hg (hlast ▸ hk), hagrees⟩
    · rw [hblock, if_pos ⟨hindirect, rfl⟩] at hagrees
      exact ⟨hlt, hagrees⟩
  · intro hright
    have hlt : fs.blockNumber inode last < fs.layout.blockCount := by
      by_cases hindirect : 12 ≤ last
      · exact (hright last hindirect hlo (Nat.le_refl _)).1
      · exact h.toOwnsOnce.blockNumber_lt hg hkm (hreach.resolve_left (by omega))
          (Nat.zero_lt_of_lt (h.blockNumber_lt hg (hlast ▸ hpos)))
    obtain ⟨fs₂, hrun, hlayout, hblock⟩ := hw.run_past_end h hg hlast hpos hreach hsrc hlt
    refine ⟨fs₂, hrun, (spliced_iff h hg hlayout).mpr fun b => ?_⟩
    rw [hblock]
    split
    case isTrue hb =>
      rw [hb.2]
      exact (hright last hb.1 hlo (Nat.le_refl _)).2
    case isFalse hb =>
      exact hrest.mpr (fun k _ hindirect hlo' hk => (hright k hindirect hlo' hk.le).2) b

/-- The assertion of `write_data` holds for every write within the file. -/
theorem last_index_le (hl : Addressable fs.layout) (hend : offset + data.size ≤ inode.sizeLower) :
    offset / fs.layout.blockSize + chunkCount data.size fs.layout.blockSize ≤
      dataBlocks fs.layout inode := by
  set s := fs.layout.blockSize
  have hs : 0 < s := hl.block_size_pos
  have hoff := Nat.div_add_mod' offset s
  rcases Nat.eq_zero_or_pos (chunkCount data.size s) with hzero | hpos
  · have hall : inode.sizeLower ≤ dataBlocks fs.layout inode * s :=
      chunk_count_mul_ge hs
    rw [hzero, Nat.add_zero]
    exact Nat.le_of_mul_le_mul_right (by omega : offset / s *
      s ≤ dataBlocks fs.layout inode * s) hs
  · obtain ⟨count, hcount⟩ := Nat.exists_eq_succ_of_ne_zero (Nat.pos_iff_ne_zero.mp hpos)
    have hlt := chunk_count_pred_lt hs (show count < chunkCount data.size s by omega)
    have hblock := div_lt_dataBlocks hl
      (show (offset / s + count) * s < inode.sizeLower by
        rw [Nat.add_mul]
        omega)
    rw [Nat.mul_div_cancel _ hs] at hblock
    omega

/-- So the loop over the chunks is entered. -/
theorem run_writeData (hg : fs.layout.Geometry) (hend : offset + data.size ≤ inode.sizeLower) :
    (writeData data offset inode).run fs =
      (writeDataChunks inode (split data fs.layout.blockSize) (offset / fs.layout.blockSize)
        (chunkCount data.size fs.layout.blockSize) 0 offset).run fs := by
  have hle : offset / fs.layout.blockSize + chunkCount data.size fs.layout.blockSize ≤
    dataBlocks fs.layout inode := last_index_le hg.addressable hend
  have hcheck : wadd (offset / fs.layout.blockSize) (chunkCount data.size fs.layout.blockSize) ≤
      dataBlocks fs.layout inode := by
    rw [wadd_of_lt (by have := dataBlocks_le hg inode; omega)]
    exact hle
  exact (run_getLayout_bind _ fs.currentBlock).trans (run_check_bind hcheck)

/-- A write of at least one byte is a splice exactly when the rewritten blocks are right. -/
theorem writesFile_iff_of_pos (hg : fs.layout.Geometry) (h : fs.SoundFile inode)
    (hend : offset + data.size ≤ inode.sizeLower) {last : Nat}
    (hlast : offset / fs.layout.blockSize + chunkCount data.size fs.layout.blockSize = last)
    (hreach : last = 12 ∨ 0 ∉ fs.visitedBlocks inode last) (hsize : 0 < data.size) :
    fs.WritesFile inode offset data ↔ fs.RightUpTo inode offset data last := by
  have hs := hg.addressable.block_size_pos
  have hle : last ≤ dataBlocks fs.layout inode := hlast ▸ last_index_le hg.addressable hend
  unfold WritesFile
  rw [run_writeData hg hend]
  have hall : data.size ≤ chunkCount data.size fs.layout.blockSize * fs.layout.blockSize :=
    chunk_count_mul_ge hs
  obtain ⟨count, hcount⟩ : ∃ count, chunkCount data.size fs.layout.blockSize = count + 1 := by
    refine Nat.exists_eq_succ_of_ne_zero fun hzero => ?_
    rw [hzero, Nat.zero_mul] at hall
    omega
  have hbegin := Written.start h hg offset data.bytes
  rw [← Nat.zero_mul fs.layout.blockSize] at hbegin
  obtain ⟨done, second, fs₁, hrun, hw, hsum, hfit, hpos, hbytes⟩ :=
    hbegin.chunks h hg hend rfl (by omega : 0 + (count + 1) = _) rfl (.inl rfl)
  rw [Nat.zero_add, ← hcount, hlast] at hrun hw hpos
  rw [hrun]
  by_cases hk : last < dataBlocks fs.layout inode
  · exact hw.finishes_within h hg hlast hk hsum hfit hpos hbytes
  · -- No byte of the data is left for a block that follows the file.
    have hnone : second.size = 0 := by
      by_contra hne
      have hblock := div_lt_dataBlocks hg.addressable
        (show last * fs.layout.blockSize < inode.sizeLower by have := hpos hne; omega)
      rw [Nat.mul_div_cancel _ hs] at hblock
      exact hk hblock
    rw [hnone, Nat.add_zero] at hsum
    rw [hsum] at hw
    exact hw.finishes_past h hg (by omega) (hlast ▸ hcount ▸ Nat.succ_pos _) hreach hnone
      (hlast ▸ Nat.le_add_right _ _)

/-- `write_data` splices the data into the file and changes nothing else exactly when all blocks
behind indirect blocks that it rewrites end up right by chance. -/
theorem write_data_splices_iff (hg : fs.layout.Geometry) (h : fs.SoundFile inode) (offset : Nat)
    (data : Span) (hend : offset + data.size ≤ inode.sizeLower)
    (hreach : 0 < data.size →
      offset / fs.layout.blockSize + chunkCount data.size fs.layout.blockSize = 12 ∨
        0 ∉ fs.visitedBlocks inode
          (offset / fs.layout.blockSize + chunkCount data.size fs.layout.blockSize)) :
    fs.WritesFile inode offset data ↔ fs.OverwritesRight inode offset data := by
  unfold OverwritesRight
  rcases Nat.eq_zero_or_pos data.size with hsize | hsize
  · -- Without data, the loop does not run.
    have hzero : chunkCount data.size fs.layout.blockSize = 0 := by simp [chunkCount, hsize]
    refine ⟨fun _ hpos => absurd hpos (by omega), fun _ => ⟨fs, ?_, ?_⟩⟩
    · rw [run_writeData hg hend, hzero]
      rfl
    · exact ⟨fun i _ => by rw [hsize, Bytes.splice_zero], fun b _ => rfl⟩
  · rw [forall_prop_of_true hsize]
    exact writesFile_iff_of_pos hg h hend rfl (hreach hsize) hsize

/-! ## A file with an indirect block -/

/-- Inode 1 of the small volume as a regular file of thirteen blocks: the blocks 8 to 19, and
block 7 behind the indirect block 6. -/
def indirectFile (n : Nat) : Bytes :=
  if n = 4 then fun i => if i = 0 then 1 else 0
  else if n = 5 then fun i => if i = 1 then 0x80 else if i = 5 then 0x34 else
    if 40 ≤ i ∧ i < 88 ∧ i % 4 = 0 then UInt8.ofNat (8 + (i - 40) / 4) else if i = 88 then 6 else 0
  else if n = 6 then fun i => if i = 0 then 7 else 0
  else fun _ => UInt8.ofNat n

theorem geometry_sampleVolume (rest : Nat → Bytes) : (sampleVolume rest).layout.Geometry := by
  rw [layout_sampleVolume]
  exact ⟨by decide, by decide⟩

/-- The volume with this file. -/
abbrev indirectVolume : FileSystem := sampleVolume indirectFile

/-- The inode of this file. -/
abbrev indirectInode : Inode := indirectVolume.inodeAt 1

theorem indirectInode_fields : indirectInode.HasType .regular ∧ indirectInode.sizeLower = 13312 ∧
      ∀ i < 15, indirectInode.blockPtr i = if i < 12 then 8 + i else if i = 12 then 6 else 0 := by
  decide

theorem entry_indirectVolume : ∀ i < 256, indirectVolume.entry 6 i = if i = 0 then 7 else 0 := by
  decide +kernel

/-- All mapped paths of the file. -/
theorem pointer_indirectVolume {π : Nat × List Nat} (hπ : indirectVolume.layout.IsPath π)
    (hne : indirectVolume.pointer indirectInode π ≠ 0) :
    (∃ i < 12, π = (i, []) ∧ indirectVolume.pointer indirectInode π = 8 + i) ∨
      (π = (12, []) ∧ indirectVolume.pointer indirectInode π = 6) ∨
      (π = (12, [0]) ∧ indirectVolume.pointer indirectInode π = 7) := by
  obtain ⟨-, -, hptr⟩ := indirectInode_fields
  obtain ⟨r, is⟩ := π
  have hlen := hπ.length_le
  have hroot := hptr r hπ.root_lt
  unfold pointer at hne ⊢
  dsimp only at hne hlen ⊢
  cases is with
  | nil => grind [Walk.resolve_nil]
  | cons i is =>
    rw [List.length_cons] at hlen
    rw [Walk.resolve_cons] at hne ⊢
    obtain rfl : r = 12 := by grind
    obtain rfl : is = [] := List.length_eq_zero_iff.mp (by omega)
    have hi : i < 256 := hπ.entry_lt i List.mem_cons_self
    grind [Walk.resolve_nil, entry_indirectVolume i hi]

theorem soundFile_indirectVolume : indirectVolume.SoundFile indirectInode := by
  refine ⟨⟨fun π hπ hne => ?_, fun π π' hπ hπ' hne heq => ?_⟩, fun k hk => ?_⟩
  · rw [layout_sampleVolume]
    show _ < 32
    rcases pointer_indirectVolume hπ hne with ⟨i, hi, -, h⟩ | ⟨-, h⟩ | ⟨-, h⟩ <;> omega
  · rcases pointer_indirectVolume hπ hne with ⟨i, hi, rfl, h⟩ | ⟨rfl, h⟩ | ⟨rfl, h⟩ <;>
    rcases pointer_indirectVolume hπ' (heq ▸ hne) with ⟨i', hi', rfl, h'⟩ | ⟨rfl, h'⟩ | ⟨rfl, h'⟩
    case inl.inl =>
      obtain rfl : i = i' := by omega
      rfl
    all_goals first | rfl | omega
  · have hmapped : ∀ k < 13,
        indirectVolume.pointer indirectInode (indirectVolume.layout.path k) ≠ 0 := by
      decide
    exact hmapped k (Nat.lt_of_lt_of_eq hk (by decide))

/-- Three bytes across the border between the first two blocks are written correctly. -/
theorem write_data_splices_direct_blocks :
    indirectVolume.WritesFile indirectInode 1023 ⟨fun _ => 170, 3, by decide⟩ := by
  obtain ⟨-, hsize, -⟩ := indirectInode_fields
  refine (write_data_splices_iff (geometry_sampleVolume _) soundFile_indirectVolume 1023 _
    (by rw [hsize]; decide) fun _ => .inr ?_).mpr ?_
  · unfold visitedBlocks
    exact List.not_mem_nil
  · intro _ k hindirect _ hle
    have hle : k ≤ 1 := hle
    omega

/-- One byte behind the indirect block is not: block 7 is overwritten with block 6. -/
theorem write_data_fails_behind_indirect_block :
    indirectVolume.layout.Geometry ∧ indirectVolume.SoundFile indirectInode ∧
      12288 + 1 ≤ indirectInode.sizeLower ∧
      ¬ indirectVolume.WritesFile indirectInode 12288 ⟨fun _ => 170, 1, by decide⟩ := by
  obtain ⟨-, hsize, -⟩ := indirectInode_fields
  have hend : 12288 + 1 ≤ indirectInode.sizeLower := by rw [hsize]; decide
  refine ⟨geometry_sampleVolume _, soundFile_indirectVolume, hend, fun hwrites => ?_⟩
  have hleaf : indirectVolume.leafBlock indirectInode 12 = 6 := by decide
  have hblocks : 12 < dataBlocks indirectVolume.layout indirectInode := by decide
  have hright := (writesFile_iff_of_pos (geometry_sampleVolume _) soundFile_indirectVolume hend rfl
    (.inr ?_) (by decide)).mp hwrites 12 (Nat.le_refl _) ?_ ?_
  · -- The first byte of block 6 is the number 7, not the byte that was written.
    have hbyte := hright.2.file 12 hblocks rfl 0
    exact absurd (hbyte (by decide) (by decide)) (by decide)
  all_goals decide

end FileSystem

end LudOS.Ext2
