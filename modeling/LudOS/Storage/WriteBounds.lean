import LudOS.Storage.Slice
import LudOS.Storage.Write

/-!
# Writes at the end of a disk

Every chunk of `Disk::write` is handled as a pair of adjacent sectors, also when it ends inside the
first of them. A write that the disk has room for therefore asks for one sector more than it needs,
and fails the assertion on its read when that sector is past the end of the disk.
`write_stays_on_disk_iff` says that it completes exactly when the sector exists.
-/

namespace LudOS.Storage.Disk

open Lib

variable {σ : Type} {d : Disk σ} {data : Span}

/-- The disk is not cached, and its sector operations fail with `OutOfBounds` exactly for the
requests that reach past its last sector. -/
structure Bounded (d : Disk σ) : Prop where
  caching : d.caching = false
  reads : ∀ sector n (data : Span) st, data.size = n * d.sectorSize → 0 < n → sector + n < 2 ^ 32 →
    if sector + n ≤ d.diskSize / d.sectorSize then
      ∃ filled st', d.readSectors sector data st = (.ok filled, st') ∧ filled.size = data.size
    else (d.readSectors sector data st).1 = .error .outOfBounds
  writes : ∀ sector n (data : Span) st, data.size = n * d.sectorSize → 0 < n →
    sector + n < 2 ^ 32 →
    if sector + n ≤ d.diskSize / d.sectorSize then
      ∃ st', d.writeSectors sector data st = (.ok (), st')
    else (d.writeSectors sector data st).1 = .error .outOfBounds

/-- The call returns success and asks only for sectors of the disk. -/
def StaysOnDisk (d : Disk σ) (offset : Nat) (data : Span) (st : σ) : Prop :=
  ∃ st' log, (d.logged.write offset data).run (st, []) = .ok () (st', log) ∧ ∀ r ∈ log, d.InRange r

theorem logged_write_cache_sectors (d : Disk σ) (sector : Nat) (data : Span) (st : σ)
    (log : List Request) (hwritable : d.readOnly = false) :
    d.logged.writeCacheSectors sector data (st, log) = ((d.writeCacheSectors sector data st).1,
        (d.writeCacheSectors sector data st).2, log ++ [⟨sector, data.size⟩]) := by
  by_cases h : d.caching <;> simp [writeCacheSectors, logged, h, hwritable]

/-- Requests for one sector of the disk succeed. -/
theorem Bounded.sector (h : Bounded d) (hwritable : d.readOnly = false) {sector : Nat}
    (hsector : sector < d.diskSize / d.sectorSize) (hlt : sector + 1 < 2 ^ 32)
    (hdata : data.size = d.sectorSize) (st : σ) :
    (∃ filled st', d.readCacheSectors sector data st = (.ok filled, st') ∧
      filled.size = data.size) ∧ ∃ st', d.writeCacheSectors sector data st = (.ok (), st') := by
  have hone : data.size = 1 * d.sectorSize := by omega
  have hread := h.reads sector 1 data st hone (by omega) hlt
  have hwrite := h.writes sector 1 data st hone (by omega) hlt
  rw [if_pos (by omega)] at hread hwrite
  rw [readCacheSectors, writeCacheSectors, h.caching, hwritable]
  exact ⟨hread, hwrite⟩

/-! ## What a call that completes has asked for -/

section

variable (hwritable : d.readOnly = false)

include hwritable

/-- A sector that was rewritten has been requested. -/
theorem rewrite_sector_log {sector byteOff : Nat} {src : Span} {st st' : σ × List Request}
    (hrun : (d.logged.rewriteSector sector byteOff src).run st = .ok () st') :
    st.2 ⊆ st'.2 ∧ (⟨sector, d.sectorSize⟩ : Request) ∈ st'.2 := by
  rw [rewriteSector, run_bind_eq_ok] at hrun
  obtain ⟨buf, s, hbuf, hrun⟩ := hrun
  obtain ⟨⟨-, hsize, -⟩, rfl⟩ := run_buffer_eq_ok.mp hbuf
  rw [run_bind_ok (run_attempt _ _), logged_read_cache_sectors] at hrun
  split at hrun
  case h_1 => cases hrun
  case h_2 sect _ =>
    simp only [run_bind_eq_ok, run_check_eq_ok, run_perform_eq_ok] at hrun
    obtain ⟨_, _, ⟨-, rfl⟩, hwrite⟩ := hrun
    rw [logged_write_cache_sectors _ _ _ _ _ hwritable] at hwrite
    rw [← congrArg (·.2.2) hwrite]
    refine ⟨fun r hr => by simp [hr], ?_⟩
    rw [show d.sectorSize = buf.size from hsize.symm]
    simp

/-- So has the sector behind the one a chunk starts in. -/
theorem write_offseted_sector_log {base byteOff : Nat} {st st' : σ × List Request}
    (hrun : (d.logged.writeOffsetedSector base byteOff data).run st = .ok () st') :
    st.2 ⊆ st'.2 ∧ (⟨wadd base 1, d.sectorSize⟩ : Request) ∈ st'.2 := by
  simp only [writeOffsetedSector, run_bind_eq_ok, run_check_eq_ok] at hrun
  obtain ⟨_, _, ⟨-, rfl⟩, _, _, ⟨-, rfl⟩, _, s, hfirst, hsecond⟩ := hrun
  obtain ⟨hsub, -⟩ := rewrite_sector_log hwritable hfirst
  obtain ⟨hsub', hmem⟩ := rewrite_sector_log hwritable hsecond
  exact ⟨List.Subset.trans hsub hsub', hmem⟩

/-- And the one behind the sectors of all chunks. -/
theorem write_chunks_log {chunks : List Span} {base count i cur : Nat} {st st' : σ × List Request}
    (hrun : (d.logged.writeChunks chunks base count i cur).run st = .ok () st') : st.2 ⊆ st'.2 ∧
      (0 < count → (⟨wadd (wadd base (i + count - 1)) 1, d.sectorSize⟩ : Request) ∈ st'.2) := by
  induction count generalizing i cur st with
  | zero =>
    cases hrun
    exact ⟨List.Subset.refl _, fun h => absurd h (Nat.lt_irrefl 0)⟩
  | succ count ih =>
    rw [writeChunks] at hrun
    split at hrun
    case h_1 => cases hrun
    case h_2 chunk _ =>
      rw [run_bind_eq_ok] at hrun
      obtain ⟨_, s, hfirst, hrest⟩ := hrun
      obtain ⟨hsub, hmem⟩ := write_offseted_sector_log hwritable hfirst
      obtain ⟨hsub', hlast⟩ := ih hrest
      refine ⟨List.Subset.trans hsub hsub', fun _ => ?_⟩
      rcases Nat.eq_zero_or_pos count with rfl | hpos
      · exact hsub' hmem
      · rw [show i + (count + 1) - 1 = i + 1 + count - 1 by omega]
        exact hlast hpos

end

/-! ## Which calls complete -/

/-- All requests in the log are for sectors of the disk. -/
def LogInRange (d : Disk σ) (st : σ × List Request) : Prop := ∀ r ∈ st.2, d.InRange r

theorem LogInRange.append {st : σ} {log : List Request} {sector : Nat}
    (h : d.LogInRange (st, log)) (hsector : sector < d.diskSize / d.sectorSize)
    (hdata : data.size = d.sectorSize) (st' : σ) :
    d.LogInRange (st', log ++ [⟨sector, data.size⟩]) := by
  intro r hr
  rcases List.mem_append.mp hr with hr | hr
  · exact h r hr
  · rw [List.mem_singleton] at hr
    subst hr
    intro k hk
    have hdiv := Nat.div_self (Nat.pos_of_ne_zero fun hzero : d.sectorSize = 0 => by
      rw [hzero, Nat.div_zero] at hsector
      omega)
    simp only [hdata, hdiv] at hk
    show sector + k < _
    omega

/-- A sector of the disk can be rewritten. -/
theorem Bounded.run_rewrite (h : Bounded d) (hwritable : d.readOnly = false)
    (hlt : d.sectorSize < 2 ^ 31) {sector byteOff : Nat} {src : Span}
    (hsector : sector < d.diskSize / d.sectorSize) (hnext : sector + 1 < 2 ^ 32)
    (hfit : byteOff + src.size ≤ d.sectorSize) (st : σ × List Request) (hlog : d.LogInRange st) :
    ∃ st', (d.logged.rewriteSector sector byteOff src).run st = .ok () st' ∧ d.LogInRange st' := by
  obtain ⟨s, log⟩ := st
  obtain ⟨⟨sect, s1, hread, hsize⟩, -⟩ := h.sector hwritable hsector hnext
    (show (⟨fun _ => 0, d.sectorSize, hlt⟩ : Span).size = _ from rfl) s
  have hput : (sect.put byteOff src.size src.bytes).size = d.sectorSize := by
    rw [Span.size_put, hsize]
  obtain ⟨-, s2, hwrite⟩ := h.sector hwritable hsector hnext hput s1
  have hroom : src.size ≤ wsub sect.size byteOff := by
    rw [hsize, wsub_of_le (show byteOff ≤ d.sectorSize by omega) (by omega)]
    exact Nat.le_sub_of_add_le' hfit
  refine ⟨_, ?_, (hlog.append hsector
    (show (⟨fun _ => 0, d.sectorSize, hlt⟩ : Span).size = d.sectorSize from rfl) s1).append
      hsector hput s2⟩
  rw [rewriteSector, logged_sector_size, run_bind_ok (run_buffer_of_lt hlt _),
    run_bind_ok (run_attempt _ _), logged_read_cache_sectors, hread]
  rw [run_check_bind hroom]
  refine run_perform_eq_ok.mpr ?_
  rw [logged_write_cache_sectors _ _ _ _ _ hwritable, hwrite]

/-- The call completes when the sector behind those of its chunks exists. -/
theorem Bounded.run_write (h : Bounded d) (hwritable : d.readOnly = false)
    (hdisk : d.diskSize < 2 ^ 32) (hsector : ∃ k, d.sectorSize = 2 ^ k) (offset : Nat)
    (data : Span) (hroom : offset / d.sectorSize + chunkCount data.size d.sectorSize <
      d.diskSize / d.sectorSize) (hcount : 0 < chunkCount data.size d.sectorSize) (st : σ) :
    d.StaysOnDisk offset data st := by
  obtain ⟨k, hk⟩ := hsector
  have hpos : 0 < d.sectorSize := hk ▸ Nat.two_pow_pos k
  have hsectors := Nat.div_le_self d.diskSize d.sectorSize
  have hfirst := Nat.zero_le (offset / d.sectorSize)
  have htwo : 2 * d.sectorSize ≤ d.diskSize := (Nat.le_div_iff_mul_le hpos).mp (by omega)
  obtain ⟨⟨st', log⟩, hrun, hlog⟩ := write_chunks_invariant (d := d.logged) ⟨k, hk⟩
    (show d.sectorSize < 2 ^ 32 by omega) data (fun _ => d.LogInRange) 0 offset
    (st, []) (Nat.zero_add _)
    (show offset / d.sectorSize + (0 + chunkCount data.size d.sectorSize) ≤ _ by omega) rfl
    (fun j s hj hlast hs => by
      simp only [logged_sector_size, Nat.zero_add] at hj hlast ⊢
      obtain ⟨first, second, hfit1, hfit2, -, -, -, heq⟩ := run_write_offseted_sector
        (d := d.logged) hdisk (offset / d.sectorSize + j) (offset % d.sectorSize)
        (data.sub (j * d.sectorSize) (min d.sectorSize (data.size - j * d.sectorSize))) htwo
        (by omega) (Nat.mod_lt _ hpos) (by
          rw [Span.size_sub (by omega)]
          exact Nat.min_le_left _ _)
      obtain ⟨s1, hrun1, hs1⟩ := h.run_rewrite hwritable (by omega)
        (show offset / d.sectorSize + j < _ by omega) (by omega) hfit1 s hs
      obtain ⟨s2, hrun2, hs2⟩ := h.run_rewrite hwritable (by omega)
        (show offset / d.sectorSize + j + 1 < _ by omega) (by omega)
        (show 0 + second.size ≤ _ by rw [Nat.zero_add]; exact hfit2) s1 hs1
      exact ⟨s2, by rw [heq, run_bind_ok hrun1, hrun2], hs2⟩)
    (by simp [LogInRange])
  refine ⟨st', log, ?_, hlog⟩
  rw [Disk.write, show d.logged.readOnly = false from hwritable]
  exact hrun

/-- `Disk::write` of data that the disk has room for stays on the disk and succeeds exactly when
the sector behind those of the chunks exists as well. -/
theorem write_stays_on_disk_iff (h : Bounded d) (hwritable : d.readOnly = false)
    (hdisk : d.diskSize < 2 ^ 32) (hsector : ∃ k, d.sectorSize = 2 ^ k) (offset : Nat)
    (data : Span) (hend : offset + data.size ≤ d.diskSize) (st : σ) :
    d.StaysOnDisk offset data st ↔ (0 < data.size →
      offset / d.sectorSize + chunkCount data.size d.sectorSize < d.diskSize / d.sectorSize) := by
  have hpos : 0 < d.sectorSize := by
    obtain ⟨k, hk⟩ := hsector
    exact hk ▸ Nat.two_pow_pos k
  have hcount : 0 < data.size → 0 < chunkCount data.size d.sectorSize := by
    intro hsize
    by_contra hzero
    have hall : data.size ≤ _ := chunk_count_mul_ge hpos
    rw [show chunkCount data.size d.sectorSize = 0 by omega, Nat.zero_mul] at hall
    omega
  refine ⟨fun ⟨st', log, hrun, hlog⟩ hsize => ?_, fun hroom => ?_⟩
  · -- The last chunk starts in a sector of the disk, so its number and the next do not wrap.
    have hpred := chunk_count_pred_lt hpos (Nat.sub_lt (hcount hsize) Nat.one_pos)
    have hlast : offset / d.sectorSize + (chunkCount data.size d.sectorSize - 1) < 2 ^ 32 - 1 := by
      have hoff := Nat.div_mul_le_self offset d.sectorSize
      have hle := Nat.le_mul_of_pos_right
        (offset / d.sectorSize + (chunkCount data.size d.sectorSize - 1)) hpos
      rw [Nat.add_mul] at hle
      omega
    have hcount := hcount hsize
    rw [write, show d.logged.readOnly = false from hwritable] at hrun
    have hmem := (write_chunks_log hwritable hrun).2 hcount
    have hrange := (in_range_sector hpos).mp (hlog _ hmem)
    rw [logged_sector_size, Nat.zero_add,
      wadd_of_lt
        (show offset / d.sectorSize + (chunkCount data.size d.sectorSize - 1) < _ by omega),
      wadd_of_lt (by omega)] at hrange
    omega
  · rcases Nat.eq_zero_or_pos data.size with hzero | hsize
    · refine ⟨st, [], ?_, by simp⟩
      rw [write, show d.logged.readOnly = false from hwritable, hzero]
      simp [chunkCount, writeChunks]
    · exact h.run_write hwritable hdisk hsector offset data (hroom hsize) (hcount hsize) st

/-- A slice of an in-memory disk that it fits on refuses exactly the requests past its end. -/
theorem bounded_memory_slice {capacity offset size : Nat} (hcapacity : capacity < 2 ^ 32)
    (hfit : (offset + size) * 512 ≤ capacity) :
    Bounded (diskSlice (memoryDisk capacity false) offset size) := by
  have hsize : (diskSlice (memoryDisk capacity false) offset size).diskSize /
      (diskSlice (memoryDisk capacity false) offset size).sectorSize = size := by
    show wmul size 512 / 512 = size
    rw [wmul_of_lt (by omega), Nat.mul_div_cancel _ (by omega)]
  -- Both operations compare the end of the request with the size of the slice.
  have hcheck : ∀ sector n (data : Span), data.size = n * 512 → sector + n < 2 ^ 32 →
      (size < wadd sector (data.size / (memoryDisk capacity false).sectorSize) ↔
        ¬ sector + n ≤ size) := by
    intro sector n data hdata hlt
    rw [hdata, show (memoryDisk capacity false).sectorSize = 512 from rfl,
      Nat.mul_div_cancel n (by omega), wadd_of_lt hlt, Nat.not_le]
  refine ⟨rfl, fun sector n data st hdata _ hlt => ?_, fun sector n data st hdata _ hlt => ?_⟩
  · rw [hsize]
    simp only [diskSlice, DiskSlice.readSectors, hcheck sector n data hdata hlt]
    split
    · exact ⟨_, _, rfl, rfl⟩
    · rfl
  · rw [hsize]
    simp only [diskSlice, DiskSlice.writeSectors, hcheck sector n data hdata hlt]
    split
    · exact ⟨_, rfl⟩
    · rfl

/-- A write that ends one sector before the end of a partition. -/
theorem write_stays_on_disk_before_end :
    (diskSlice (memoryDisk 4096 false) 1 4).StaysOnDisk 500 ⟨fun _ => 7, 600, by decide⟩
      fun _ => 0 :=
  (write_stays_on_disk_iff (bounded_memory_slice (by decide) (by decide)) rfl (by decide) ⟨9, rfl⟩
    500 _ (by decide) _).mpr fun _ => by decide

/-- Writing the last sector of a partition asks for the sector behind it. -/
theorem write_of_last_sector_fails : (diskSlice (memoryDisk 4096 false) 1 4).Bounded ∧
      1536 + 512 ≤ (diskSlice (memoryDisk 4096 false) 1 4).diskSize ∧
      ¬ (diskSlice (memoryDisk 4096 false) 1 4).StaysOnDisk 1536 ⟨fun _ => 7, 512, by decide⟩
        fun _ => 0 := by
  refine ⟨bounded_memory_slice (by decide) (by decide), by decide, ?_⟩
  rintro ⟨st', log, hrun, hlog⟩
  have hmem := (write_chunks_log (d := diskSlice (memoryDisk 4096 false) 1 4) rfl hrun).2
    (by decide)
  exact absurd ((in_range_sector (by decide)).mp (hlog _ hmem)) (by decide)

end LudOS.Storage.Disk
