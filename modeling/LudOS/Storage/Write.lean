import LudOS.Storage.Disk

/-!
# Byte-level disk writes

`Disk::write` cuts the data into sector-sized chunks. Each chunk goes through a read and a
rewrite of the two sectors it may straddle, so consecutive chunks rewrite the same sector. The
invariant of the loop is that the image is the old image with the chunks so far spliced in;
`write_splices` is the whole call.
-/

namespace LudOS.Storage.Disk

open Lib

variable {σ : Type} {d : Disk σ} {image : σ → Bytes}

/-- Rewriting part of an existing sector splices it into the image. -/
theorem rewrite_sector_splices (hread : d.ReadsImage image) (hwrite : d.WritesImage image)
    (hlt : d.sectorSize < 2 ^ 31) (sector byteOff : Nat) (src : Span) (st : σ)
    (hsector : sector < d.diskSize / d.sectorSize) (hfit : byteOff + src.size ≤ d.sectorSize) :
    ∃ st', (d.rewriteSector sector byteOff src).run st = .ok () st' ∧
      image st' = (image st).splice (sector * d.sectorSize + byteOff) src.size src.bytes := by
  obtain ⟨sect, st1, hget, hsize, himg1, hbytes⟩ :=
    hread sector 1 ⟨fun _ => 0, d.sectorSize, hlt⟩ st (by simp) hsector
  obtain ⟨st2, hput, himg2⟩ :=
    hwrite sector 1 (sect.put byteOff src.size src.bytes) st1 (by simp [hsize]) hsector
  have hroom : src.size ≤ wsub sect.size byteOff := by
    rw [hsize, wsub_of_le (show byteOff ≤ d.sectorSize by omega) (by omega)]
    exact Nat.le_sub_of_add_le' hfit
  refine ⟨st2, ?_, ?_⟩
  · rw [rewriteSector, run_bind_ok (run_buffer_of_lt hlt _), run_bind_ok (run_attempt _ _), hget]
    dsimp only
    rw [run_check_bind hroom]
    exact run_perform_eq_ok.mpr hput
  · rw [himg2, himg1, Span.size_put, Span.bytes_put, hsize]
    exact Bytes.splice_of_rewrite hfit hbytes

/-- A chunk at an offset inside a sector is two rewrites: of the sector it starts in and, with what
is left of it, of the next one. -/
theorem run_write_offseted_sector (hdisk : d.diskSize < 2 ^ 32) (base byteOff : Nat) (data : Span)
    (hroom : 2 * d.sectorSize ≤ d.diskSize) (hbase : base + 1 < 2 ^ 32)
    (hoff : byteOff < d.sectorSize) (hsize : data.size ≤ d.sectorSize) :
    ∃ first second : Span, byteOff + first.size ≤ d.sectorSize ∧ second.size ≤ d.sectorSize ∧
      first.bytes = data.bytes ∧ first.size + second.size = data.size ∧
      (0 < second.size → byteOff + first.size = d.sectorSize ∧
        second.bytes = data.bytes.view first.size) ∧
      d.writeOffsetedSector base byteOff data =
        (do d.rewriteSector base byteOff first; d.rewriteSector (base + 1) 0 second) := by
  have hwsub : wsub d.sectorSize byteOff = d.sectorSize - byteOff :=
    wsub_of_le (by omega) (by omega)
  have hchecks : d.writeOffsetedSector base byteOff data = (do
      d.rewriteSector base byteOff (data.sub 0 (min (d.sectorSize - byteOff) data.size))
      d.rewriteSector (base + 1) 0 (if d.sectorSize - byteOff < data.size then
        data.sub (d.sectorSize - byteOff) (data.size - (d.sectorSize - byteOff))
        else Span.empty)) := by
    funext st
    show (d.writeOffsetedSector base byteOff data).run st = _
    rw [writeOffsetedSector, run_check_bind hsize,
      run_check_bind (by rw [wadd_of_lt (by omega)]; omega), hwsub,
      wadd_of_lt hbase]
    rfl
  rw [hchecks]
  refine ⟨_, _, ?_, ?_, ?_, ?_, ?_, rfl⟩
  · rw [Span.size_sub (by omega)]
    omega
  · split
    · rw [Span.size_sub (by omega)]
      omega
    · simp
  · simp
  · rw [Span.size_sub (by omega)]
    split
    · rw [Span.size_sub (by omega)]
      omega
    · simp only [Span.size_empty]
      omega
  · intro hpos
    split at hpos
    case isTrue hstraddle =>
      rw [if_pos hstraddle, Span.size_sub (by omega), Nat.min_eq_left hstraddle.le]
      exact ⟨by omega, rfl⟩
    case isFalse => simp at hpos

/-- A chunk written at an offset inside a sector is spliced into the image, across the boundary to
the next sector where it straddles it. -/
theorem write_offseted_sector_splices (hread : d.ReadsImage image) (hwrite : d.WritesImage image)
    (hdisk : d.diskSize < 2 ^ 32) (base byteOff : Nat) (data : Span) (st : σ)
    (hbase : base + 1 < d.diskSize / d.sectorSize) (hoff : byteOff < d.sectorSize)
    (hsize : data.size ≤ d.sectorSize) :
    ∃ st', (d.writeOffsetedSector base byteOff data).run st = .ok () st' ∧
      image st' = (image st).splice (base * d.sectorSize + byteOff) data.size data.bytes := by
  have hroom : (base + 2) * d.sectorSize ≤ d.diskSize :=
    (Nat.le_div_iff_mul_le (by omega)).mp hbase
  have htwo : 2 * d.sectorSize ≤ (base + 2) * d.sectorSize := Nat.mul_le_mul_right _ (by omega)
  have hlt : d.sectorSize < 2 ^ 31 := by omega
  have hsectors := Nat.div_le_self d.diskSize d.sectorSize
  obtain ⟨first, second, hfit1, hfit2, hbytes1, hsum, hnext, heq⟩ :=
    run_write_offseted_sector hdisk base byteOff data (by omega) (by omega) hoff hsize
  obtain ⟨st1, hrun1, himg1⟩ := rewrite_sector_splices hread hwrite hlt base byteOff first st
    (by omega) hfit1
  obtain ⟨st2, hrun2, himg2⟩ := rewrite_sector_splices hread hwrite hlt (base + 1) 0 second st1
    hbase (by omega)
  refine ⟨st2, by rw [heq, run_bind_ok hrun1, hrun2], ?_⟩
  rw [himg2, himg1, hbytes1]
  rcases Nat.eq_zero_or_pos second.size with hzero | hpos
  · rw [hzero, Bytes.splice_zero, ← hsum, hzero, Nat.add_zero]
  · obtain ⟨hend, hbytes2⟩ := hnext hpos
    have hbound : (base + 1) * d.sectorSize + 0 = base * d.sectorSize + byteOff + first.size := by
      rw [Nat.add_mul]
      omega
    rw [hbound, hbytes2, Bytes.splice_append, hsum]

/-- Lowering the offset by a sector, with wrap-around below zero, does not change its position
inside the sector, because the sector size divides the modulus. -/
theorem offset_mod_lowered {s k : Nat} (hs : s = 2 ^ k) (hlt : s < 2 ^ 32) (offset : Nat) :
    wsub offset s % s = offset % s := by
  subst hs
  exact wsub_mod_pow ((Nat.pow_lt_pow_iff_right (by decide)).mp hlt).le

/-- The invariant rule of the loop: if every chunk is written and carries the invariant from its
index to the next, the chunks from index `i` on are. -/
theorem write_chunks_invariant (hsector : ∃ k, d.sectorSize = 2 ^ k) (hlt : d.sectorSize < 2 ^ 32)
    (data : Span) {offset count : Nat} (inv : Nat → σ → Prop) (i cur : Nat) (st : σ)
    (hcount : i + count = chunkCount data.size d.sectorSize)
    (hbase : offset / d.sectorSize + (i + count) ≤ 2 ^ 32)
    (hcur : cur % d.sectorSize = offset % d.sectorSize)
    (hchunk : ∀ j st, j * d.sectorSize < data.size → j < i + count → inv j st →
      ∃ st', (d.writeOffsetedSector (offset / d.sectorSize + j) (offset % d.sectorSize)
        (data.sub (j * d.sectorSize) (min d.sectorSize (data.size - j * d.sectorSize)))).run st =
          .ok () st' ∧ inv (j + 1) st') (hst : inv i st) :
    ∃ st', (d.writeChunks (split data d.sectorSize) (offset / d.sectorSize) count i cur).run st =
        .ok () st' ∧ inv (i + count) st' := by
  obtain ⟨k, hk⟩ := hsector
  have hpos : 0 < d.sectorSize := hk ▸ Nat.two_pow_pos k
  induction count generalizing i cur st with
  | zero => exact ⟨st, rfl, hst⟩
  | succ count ih =>
    obtain ⟨st1, hrun1, hst1⟩ := hchunk i st (chunk_count_pred_lt hpos (by omega)) (by omega) hst
    obtain ⟨st2, hrun2, hst2⟩ := ih (i + 1) (wsub cur d.sectorSize) st1 (by omega) (by omega)
      ((offset_mod_lowered hk hlt cur).trans hcur)
      (fun j st hj hlt => hchunk j st hj (by omega)) hst1
    refine ⟨st2, ?_, by rwa [show i + (count + 1) = i + 1 + count by omega]⟩
    rw [writeChunks, split_get data hpos (by omega), wadd_of_lt (by omega), hcur]
    dsimp only
    rw [run_bind_ok hrun1, hrun2]

/-- `Disk::write` splices the data into the image and changes no other byte, provided the sector
that follows those of the chunks, which the last chunk rewrites as well, exists. -/
theorem write_splices (hread : d.ReadsImage image) (hwrite : d.WritesImage image)
    (hdisk : d.diskSize < 2 ^ 32) (hwritable : d.readOnly = false)
    (hsector : ∃ k, d.sectorSize = 2 ^ k) (offset : Nat) (data : Span) (st : σ)
    (hroom : 0 < data.size →
      offset / d.sectorSize + chunkCount data.size d.sectorSize < d.diskSize / d.sectorSize) :
    ∃ st', (d.write offset data).run st = .ok () st' ∧
      image st' = (image st).splice offset data.size data.bytes := by
  have hpos : 0 < d.sectorSize := by
    obtain ⟨k, hk⟩ := hsector
    exact hk ▸ Nat.two_pow_pos k
  rcases Nat.eq_zero_or_pos data.size with hzero | hsize
  · refine ⟨st, ?_, by rw [hzero, Bytes.splice_zero]⟩
    rw [write, hwritable, hzero, show chunkCount 0 d.sectorSize = 0 by simp [chunkCount]]
    rfl
  have hroom := hroom hsize
  have hsectors := Nat.div_le_self d.diskSize d.sectorSize
  have hlt : d.sectorSize < 2 ^ 32 := by
    by_contra hge
    rw [Nat.div_eq_of_lt (show d.diskSize < d.sectorSize by omega)] at hroom
    exact Nat.not_lt_zero _ hroom
  -- After `j` chunks the image is the old one with that much of the data spliced in.
  obtain ⟨st', hrun, himg⟩ := write_chunks_invariant hsector hlt data
    (fun j s => image s = (image st).splice offset (min (j * d.sectorSize) data.size) data.bytes)
    0 offset st (Nat.zero_add _) (by omega) rfl
    (fun j s hj hlast himg => by
      obtain ⟨s', hrun, himg'⟩ := write_offseted_sector_splices hread hwrite hdisk
        (offset / d.sectorSize + j) (offset % d.sectorSize)
        (data.sub (j * d.sectorSize) (min d.sectorSize (data.size - j * d.sectorSize))) s
        (by omega) (Nat.mod_lt _ hpos) (by rw [Span.size_sub (by omega)]; omega)
      have hstep : (offset / d.sectorSize + j) * d.sectorSize + offset % d.sectorSize =
          offset + j * d.sectorSize := by
        have := Nat.div_add_mod' offset d.sectorSize
        rw [Nat.add_mul]
        omega
      refine ⟨s', hrun, ?_⟩
      rw [himg', himg, hstep, Span.bytes_sub, Span.size_sub (by omega), Nat.min_eq_left hj.le,
        Bytes.splice_append, Nat.add_mul]
      congr 1
      omega) (by simp)
  refine ⟨st', by rw [write, hwritable]; exact hrun, ?_⟩
  have hall : data.size ≤ chunkCount data.size d.sectorSize * d.sectorSize :=
    chunk_count_mul_ge hpos
  rw [himg, Nat.zero_add, Nat.min_eq_right hall]

/-- Two chunks written across three sectors, the second of which both of them rewrite. -/
theorem write_splices_across_sectors :
    ∃ m', ((memoryDisk 2048 false).write 500 ⟨fun _ => 7, 600, by decide⟩).run (fun _ => 0) =
        .ok () m' ∧ m' = Bytes.splice (fun _ => 0) 500 600 fun _ => 7 :=
  write_splices (memory_disk_reads_image false (by decide))
    (memory_disk_writes_image (by decide)) (by decide) rfl ⟨9, rfl⟩ 500 _ _ fun _ => by decide

end LudOS.Storage.Disk
