import LudOS.Storage.Disk

/-!
# Byte-level disk reads

`Disk::read` cuts a span into an unaligned head, an aligned middle and an unaligned tail. The
middle is fetched from the sector of the head, not from the one after it, and the head is copied
whole even when the span ends before the sector does. `read_exact_iff` says for which requests
the call nevertheless returns the requested bytes.
-/

namespace LudOS.Storage.Disk

open Lib

variable {σ : Type} {d : Disk σ} {image : σ → Bytes} {st st' : σ} {data out : Span}
  {sector pos n : Nat} {log log' : List Request}

/-! ## One sector copy -/

/-- A completed copy of one sector: what was asked for, what was checked, and which bytes
arrived. -/
theorem copy_sector_ok (hread : d.ReadsImage image) {start : Nat}
    (hrun : (d.logged.copySector sector start n pos data).run (st, log) = .ok out (st', log')) :
    d.sectorSize < 2 ^ 31 ∧ pos + n ≤ data.size ∧ out.size = data.size ∧
      log' = log ++ [⟨sector, d.sectorSize⟩] ∧
      (sector < d.diskSize / d.sectorSize → image st' = image st ∧ ∃ buf : Bytes,
        out = data.put pos n (buf.view start) ∧
        ∀ i < d.sectorSize, buf i = image st (sector * d.sectorSize + i)) := by
  simp only [copySector, run_bind_eq_ok, run_buffer_eq_ok, run_perform_eq_ok, run_check_eq_ok,
    Prod.exists] at hrun
  obtain ⟨buf, _, _, ⟨⟨hlt, hsize, _⟩, hst⟩, filled, st1, log1, hop, _, _, _, ⟨hfit, hst1⟩, hout⟩ :=
    hrun
  cases hst
  cases hst1
  cases hout
  rw [logged_read_cache_sectors] at hop
  simp only [Prod.mk.injEq] at hop
  obtain ⟨hok, rfl, rfl⟩ := hop
  rw [hsize]
  refine ⟨hlt, hfit, rfl, rfl, fun hsector => ?_⟩
  have hsz : buf.size = 1 * d.sectorSize := by simpa [logged] using hsize
  obtain ⟨got, st2, hgot, _, himg, hbytes⟩ := hread sector 1 buf st hsz (by omega)
  rw [hgot] at hok ⊢
  cases hok
  refine ⟨himg, filled.bytes, rfl, fun i hi => hbytes i ?_⟩
  omega

/-- A copy of an existing sector into the span completes. -/
theorem copy_sector_completes (hread : d.ReadsImage image) (start : Nat) (st : σ)
    (log : List Request)
    (hlt : d.sectorSize < 2 ^ 31) (hsector : sector < d.diskSize / d.sectorSize)
    (hfit : pos + n ≤ data.size) : ∃ out st' log',
      (d.logged.copySector sector start n pos data).run (st, log) = .ok out (st', log') := by
  obtain ⟨got, st2, hgot, _⟩ :=
    hread sector 1 ⟨fun _ => 0, d.sectorSize, hlt⟩ st (by simp) (by omega)
  refine ⟨data.put pos n (got.bytes.view start), st2, log ++ [⟨sector, d.sectorSize⟩], ?_⟩
  have hop : d.logged.readCacheSectors sector ⟨fun _ => 0, d.sectorSize, hlt⟩ (st, log) =
      (.ok got, st2, log ++ [⟨sector, d.sectorSize⟩]) := by
    rw [logged_read_cache_sectors, hgot]
  rw [copySector, logged_sector_size, run_bind_ok (run_buffer_of_lt hlt _),
    run_bind_ok (run_perform_eq_ok.mpr hop), run_check_bind hfit]
  rfl

/-! ## The aligned middle -/

/-- The aligned middle of an existing range of sectors completes, with their bytes. -/
theorem read_aligned_completes (hread : d.ReadsImage image) {count : Nat}
    (st : σ) (log : List Request) (hsector : sector + count ≤ d.diskSize / d.sectorSize)
    (hfit : pos + count * d.sectorSize ≤ data.size) :
    ∃ out st', (d.logged.readAligned sector pos (count * d.sectorSize) data).run (st, log) =
        .ok out (st', log ++ [⟨sector, count * d.sectorSize⟩]) ∧ image st' = image st ∧
      ∃ buf : Bytes, out = data.put pos (count * d.sectorSize) buf ∧
        ∀ i < count * d.sectorSize, buf i = image st (sector * d.sectorSize + i) := by
  have hlt : count * d.sectorSize < 2 ^ 31 := by
    have := data.size_lt
    omega
  obtain ⟨got, st2, hgot, _, himg, hbytes⟩ :=
    hread sector count ⟨data.bytes.view pos, count * d.sectorSize, hlt⟩ st rfl hsector
  have hop : d.logged.readCacheSectors sector ⟨data.bytes.view pos, count * d.sectorSize, hlt⟩
      (st, log) = (.ok got, st2, log ++ [⟨sector, count * d.sectorSize⟩]) := by
    rw [logged_read_cache_sectors, hgot]
  refine ⟨data.put pos (count * d.sectorSize) got.bytes, st2, ?_, himg, got.bytes, rfl, hbytes⟩
  have hmod : count * d.sectorSize % d.logged.sectorSize = 0 := Nat.mul_mod_left _ _
  rw [readAligned, dif_pos hlt, run_check_bind hmod,
    run_bind_ok (run_perform_eq_ok.mpr hop), run_check_bind hfit]
  rfl

/-- Requests are only ever appended to the log. -/
theorem read_aligned_log {c : Prop} [Decidable c]
    (hrun : (if c then d.logged.readAligned sector pos n data else pure data).run (st, log) =
      .ok out (st', log')) : log ⊆ log' := by
  by_cases h : c
  · rw [if_pos h, readAligned] at hrun
    split at hrun
    · simp only [run_bind_eq_ok, run_perform_eq_ok, run_check_eq_ok, Prod.exists] at hrun
      obtain ⟨_, _, _, ⟨_, hst⟩, filled, st1, log1, hop, _, _, _, ⟨_, hst1⟩, hout⟩ := hrun
      cases hst
      cases hst1
      cases hout
      rw [logged_read_cache_sectors, Prod.mk.injEq, Prod.mk.injEq] at hop
      exact hop.2.2 ▸ List.subset_append_left _ _
    · cases hrun
  · rw [if_neg h] at hrun
    cases hrun
    exact List.Subset.refl _

/-! ## The optional copies at both ends -/

/-- An end of the span that needs a copy gets it; an aligned end is left as it is. -/
theorem copy_end_completes (hread : d.ReadsImage image) (hpos : 0 < d.sectorSize) (c : Prop)
    [Decidable c] (sector start n pos : Nat) (data : Span) (st : σ) (log : List Request)
    (hc : c → d.sectorSize < 2 ^ 31 ∧ sector < d.diskSize / d.sectorSize ∧ pos + n ≤ data.size) :
    ∃ out st' log', (if c then d.logged.copySector sector start n pos data else pure data).run
        (st, log) = .ok out (st', log') ∧ image st' = image st ∧
      (∀ r ∈ log', r ∈ log ∨ d.InRange r) ∧ out.size = data.size ∧
      ∃ buf : Bytes, out.bytes = data.bytes.splice pos (if c then n else 0) buf ∧
        ∀ i, start + i < d.sectorSize →
          buf i = image st (sector * d.sectorSize + (start + i)) := by
  by_cases h : c
  · obtain ⟨hlt, hsector, hfit⟩ := hc h
    obtain ⟨out, st', log', hrun⟩ := copy_sector_completes hread start st log hlt hsector hfit
    obtain ⟨_, _, _, rfl, hbytes⟩ := copy_sector_ok hread hrun
    obtain ⟨himg, buf, rfl, hbuf⟩ := hbytes hsector
    simp only [if_pos h]
    refine ⟨_, st', _, hrun, himg, ?_, rfl, buf.view start, rfl, fun i hi => hbuf _ hi⟩
    intro r hr
    rcases List.mem_append.mp hr with hr | hr
    · exact Or.inl hr
    · rw [List.mem_singleton] at hr
      exact Or.inr (hr ▸ (in_range_sector hpos).mpr hsector)
  · simp only [if_neg h]
    exact ⟨data, st, log, rfl, rfl, fun r hr => Or.inl hr, rfl,
      fun i => image st (sector * d.sectorSize + (start + i)), by simp, fun _ _ => rfl⟩

/-- The middle is fetched when there is one. -/
theorem middle_completes (hread : d.ReadsImage image) (hpos : 0 < d.sectorSize)
    (sector pos count : Nat) (data : Span) (st : σ) (log : List Request)
    (hsector : sector + count ≤ d.diskSize / d.sectorSize)
    (hfit : pos + count * d.sectorSize ≤ data.size) :
    ∃ out st' log', (if count * d.sectorSize ≠ 0 then
          d.logged.readAligned sector pos (count * d.sectorSize) data else pure data).run
        (st, log) = .ok out (st', log') ∧
      (∀ r ∈ log', r ∈ log ∨ d.InRange r) ∧ out.size = data.size ∧
      ∃ buf : Bytes, out.bytes = data.bytes.splice pos (count * d.sectorSize) buf ∧
        ∀ i < count * d.sectorSize, buf i = image st (sector * d.sectorSize + i) := by
  by_cases h : count * d.sectorSize = 0
  · rw [if_neg (not_not.mpr h)]
    exact ⟨data, st, log, rfl, fun r hr => Or.inl hr, rfl,
      fun i => image st (sector * d.sectorSize + i), by simp [h], fun _ _ => rfl⟩
  · obtain ⟨out, st', hrun, _, buf, rfl, hbuf⟩ :=
      read_aligned_completes hread st log hsector hfit
    rw [if_pos h]
    refine ⟨_, st', _, hrun, ?_, rfl, buf, rfl, hbuf⟩
    intro r hr
    rcases List.mem_append.mp hr with hr | hr
    · exact Or.inl hr
    · rw [List.mem_singleton] at hr
      subst hr
      refine Or.inr fun k hk => ?_
      rw [Nat.mul_div_cancel _ hpos] at hk
      show sector + k < d.diskSize / d.sectorSize
      omega

/-- What a completed end says about the request. -/
theorem copy_end_ok (hread : d.ReadsImage image) {c : Prop} [Decidable c] {start : Nat}
    (hrun : (if c then d.logged.copySector sector start n pos data else pure data).run
      (st, log) = .ok out (st', log')) : out.size = data.size ∧ log ⊆ log' ∧
      (c → d.sectorSize < 2 ^ 31 ∧ pos + n ≤ data.size ∧
        (⟨sector, d.sectorSize⟩ : Request) ∈ log') := by
  by_cases h : c
  · rw [if_pos h] at hrun
    obtain ⟨hlt, hfit, hsize, rfl, _⟩ := copy_sector_ok hread hrun
    exact ⟨hsize, List.subset_append_left _ _, fun _ => ⟨hlt, hfit, by simp⟩⟩
  · rw [if_neg h] at hrun
    cases hrun
    exact ⟨rfl, List.Subset.refl _, fun hp => absurd hp h⟩

/-! ## The whole read -/

/-- The call returns the requested bytes of the image, asking only for existing sectors. -/
def ReadsExactly (d : Disk σ) (image : σ → Bytes) (offset : Nat) (data : Span) (st : σ) : Prop :=
  ∃ out st' log, (d.logged.read offset data).run (st, []) = .ok out (st', log) ∧
    (∀ r ∈ log, d.InRange r) ∧ out.size = data.size ∧
    ∀ i < data.size, out.bytes i = image st (offset + i)

/-- The unaligned ends of the request can be served: a head does not reach past the span, and the
sectors of both ends are whole sectors of the disk that fit into a span. -/
structure EndsFit (d : Disk σ) (offset len : Nat) : Prop where
  head : offset % d.sectorSize ≠ 0 → d.sectorSize < 2 ^ 31 ∧
    offset / d.sectorSize < d.diskSize / d.sectorSize ∧ d.sectorSize ≤ offset % d.sectorSize + len
  tail : (offset + len) % d.sectorSize ≠ 0 → d.sectorSize < 2 ^ 31 ∧
    (offset + len) / d.sectorSize < d.diskSize / d.sectorSize

/-- After an unaligned head, every sector of the middle equals the one before it, so that fetching
the middle one sector too early makes no difference. -/
def MiddleRepeats (img : Bytes) (s offset len : Nat) : Prop :=
  offset % s ≠ 0 → ∀ i, s - offset % s + i + (offset + len) % s < len →
    img (offset / s * s + i) = img ((offset / s + 1) * s + i)

/-- The address of the image that byte `i` of the span is filled from. -/
def sourceOf (s offset len i : Nat) : Nat :=
  if offset % s ≠ 0 ∧ s - offset % s ≤ i ∧ i + (offset + len) % s < len then
    offset / s * s + (i - (s - offset % s))
  else offset + i

/-- A request whose ends fit completes, asks only for existing sectors, and fills every byte from
its `sourceOf`. -/
theorem read_completes (hread : d.ReadsImage image) (hpos : 0 < d.sectorSize) (offset : Nat)
    (data : Span) (st : σ) (hend : offset + data.size ≤ d.diskSize)
    (hlt : offset + data.size < 2 ^ 32) (hfits : d.EndsFit offset data.size) :
    ∃ out st' log, (d.logged.read offset data).run (st, []) = .ok out (st', log) ∧
      (∀ r ∈ log, d.InRange r) ∧ out.size = data.size ∧
      ∀ i < data.size, out.bytes i = image st (sourceOf d.sectorSize offset data.size i) := by
  obtain ⟨hhead, htail⟩ := hfits
  have hfit := fun h => (hhead h).2.2
  obtain ⟨first, count, hstart, hlen, hlast, hfirst⟩ := stride_partition hpos hfit
  have hmid := mid_stride_eq hpos data.size_lt hfit
  have hsectors : (offset + data.size) / d.sectorSize ≤ d.diskSize / d.sectorSize :=
    Nat.div_le_div_right hend
  have hwadd : wadd offset data.size = offset + data.size := wadd_of_lt hlt
  have hmod' := Nat.mod_lt (offset + data.size) hpos
  have hoff := Nat.div_add_mod' offset d.sectorSize
  have hcut : (d.sectorSize - offset % d.sectorSize) % d.sectorSize =
      if offset % d.sectorSize ≠ 0 then d.sectorSize - offset % d.sectorSize else 0 := by
    split
    case isTrue h => exact Nat.mod_eq_of_lt (by omega)
    case isFalse h => rw [not_not.mp h, Nat.sub_zero, Nat.mod_self]
  have hsrc : sourceOf d.sectorSize offset data.size = fun i =>
      if offset % d.sectorSize ≠ 0 ∧ d.sectorSize - offset % d.sectorSize ≤ i ∧
        i + (offset + data.size) % d.sectorSize < data.size then
      offset / d.sectorSize * d.sectorSize + (i - (d.sectorSize - offset % d.sectorSize))
      else offset + i := rfl
  rw [hsrc]
  generalize hq : offset / d.sectorSize = q at *
  generalize hq' : (offset + data.size) / d.sectorSize = q' at *
  generalize hf : offset % d.sectorSize = f at *
  generalize he : (offset + data.size) % d.sectorSize = e at *
  generalize hh : (d.sectorSize - f) % d.sectorSize = h at *
  have hwsub : wsub data.size e = h + count * d.sectorSize := by
    rw [wsub_of_le (by omega) (by have := data.size_lt; omega)]
    omega
  obtain ⟨data1, st1, log1, hrun1, himg1, hlog1, hsize1, buf1, hbytes1, hbuf1⟩ :=
    copy_end_completes hread hpos (f ≠ 0) q f (d.sectorSize - f) 0 data st []
      fun hc => ⟨(hhead hc).1, (hhead hc).2.1, by have := hfit hc; omega⟩
  obtain ⟨data2, st2, log2, hrun2, himg2, hlog2, hsize2, buf2, hbytes2, hbuf2⟩ :=
    copy_end_completes hread hpos (e ≠ 0) q' 0 e (h + count * d.sectorSize) data1 st1 log1
      fun hc => ⟨(htail hc).1, (htail hc).2, by omega⟩
  obtain ⟨out, st3, log3, hrun3, hlog3, hsize3, buf3, hbytes3, hbuf3⟩ :=
    middle_completes hread hpos q h count data2 st2 log2 (by omega) (by omega)
  have hmid' : wsub (wsub data.size h) e = count * d.sectorSize := by omega
  refine ⟨out, st3, log3, ?_, ?_, by omega, ?_⟩
  · simp only [read, logged_sector_size, hwadd, hf, he, hq, hh, hmid']
    rw [run_bind_ok hrun1, hsize1, hwadd, hq', hwsub, run_bind_ok hrun2, hrun3]
  · intro r hr
    rcases hlog3 r hr with hr | hr
    · rcases hlog2 r hr with hr | hr
      · exact (hlog1 r hr).resolve_left (by simp)
      · exact hr
    · exact hr
  · intro i hi
    have hlast' : q' * d.sectorSize = offset + h + count * d.sectorSize := by
      rw [← hlast, Nat.add_mul]
      omega
    have he' : (if e ≠ 0 then e else 0) = e := by split <;> omega
    rw [hbytes3, hbytes2, hbytes1, ← hcut, he', Bytes.three_splices _ _ _ _ (hlen ▸ hi)]
    rw [himg1] at hbuf2
    rw [himg2, himg1] at hbuf3
    beta_reduce
    by_cases h1 : i < h
    · rw [if_pos h1, if_neg (by split at hcut <;> omega), hbuf1 i (by split at hcut <;> omega)]
      congr 1
      omega
    · rw [if_neg h1]
      by_cases h2 : i < h + count * d.sectorSize
      · rw [if_pos h2, hbuf3 _ (by omega)]
        by_cases h0 : f = 0
        · rw [if_neg (by simp [h0]), hcut, if_neg (by simp [h0])]
          congr 1
          omega
        · rw [if_pos h0] at hcut
          rw [if_pos ⟨h0, by omega, by omega⟩, hcut]
      · rw [if_neg h2, if_neg (by omega), hbuf2 _ (by omega)]
        congr 1
        omega

/-- A call that completes and asks only for existing sectors had ends that fit. -/
theorem ends_fit_of_read (hread : d.ReadsImage image) (hpos : 0 < d.sectorSize) {offset : Nat}
    (hlt : offset + data.size < 2 ^ 32)
    (hrun : (d.logged.read offset data).run (st, []) = .ok out (st', log))
    (hlog : ∀ r ∈ log, d.InRange r) : d.EndsFit offset data.size := by
  simp only [read, logged_sector_size, run_bind_eq_ok, Prod.exists] at hrun
  obtain ⟨data1, st1, log1, hrun1, data2, st2, log2, hrun2, hrun3⟩ := hrun
  obtain ⟨hsize1, _, hhead⟩ := copy_end_ok hread hrun1
  obtain ⟨_, hsub2, htail⟩ := copy_end_ok hread hrun2
  have hsub3 : log2 ⊆ log := read_aligned_log hrun3
  rw [hsize1, wadd_of_lt hlt] at htail
  refine ⟨fun h => ?_, fun h => ?_⟩
  · obtain ⟨hs, hfit, hmem⟩ := hhead h
    exact ⟨hs, (in_range_sector hpos).mp (hlog _ (hsub3 (hsub2 hmem))), by omega⟩
  · obtain ⟨hs, _, hmem⟩ := htail h
    exact ⟨hs, (in_range_sector hpos).mp (hlog _ (hsub3 hmem))⟩

/-- Every byte of the span comes from the right address exactly when the middle repeats. -/
theorem source_of_exact_iff {img : Bytes} {s offset len : Nat} (hs : 0 < s) :
    (∀ i < len, img (sourceOf s offset len i) = img (offset + i)) ↔
      MiddleRepeats img s offset len := by
  have hoff := Nat.div_add_mod' offset s
  have hmod := Nat.mod_lt offset hs
  have hnext : (offset / s + 1) * s = offset / s * s + s := by ring
  constructor
  · intro h hf i hi
    have hsrc := h (s - offset % s + i) (by omega)
    rw [sourceOf, if_pos ⟨hf, by omega, by omega⟩, Nat.add_sub_cancel_left] at hsrc
    rw [hsrc]
    congr 1
    omega
  · intro h i hi
    rw [sourceOf]
    split
    case isTrue hmid =>
      obtain ⟨hf, hge, hlt⟩ := hmid
      rw [h hf (i - (s - offset % s)) (by omega)]
      congr 1
      omega
    case isFalse => rfl

/-- `Disk::read` returns the requested bytes, with no failed assertion and no request past the
end of the disk, exactly when the unaligned ends fit and the sectors after an unaligned head
repeat the ones before them. -/
theorem read_exact_iff (hread : d.ReadsImage image) (hsector : ∃ k, d.sectorSize = 2 ^ k)
    (offset : Nat) (data : Span) (st : σ) (hend : offset + data.size ≤ d.diskSize)
    (hlt : offset + data.size < 2 ^ 32) : ReadsExactly d image offset data st ↔
      d.EndsFit offset data.size ∧ MiddleRepeats (image st) d.sectorSize offset data.size := by
  obtain ⟨k, hk⟩ := hsector
  have hpos : 0 < d.sectorSize := hk ▸ Nat.two_pow_pos k
  constructor
  · rintro ⟨out, st', log, hrun, hlog, hsize, hbytes⟩
    have hfits := ends_fit_of_read hread hpos hlt hrun hlog
    obtain ⟨_, _, _, hrun', _, _, hsrc⟩ := read_completes hread hpos offset data st hend hlt hfits
    cases hrun.symm.trans hrun'
    refine ⟨hfits, (source_of_exact_iff hpos).mp fun i hi => ?_⟩
    rw [← hsrc i hi, hbytes i hi]
  · rintro ⟨hfits, hmid⟩
    obtain ⟨out, st', log, hrun, hlog, hsize, hsrc⟩ :=
      read_completes hread hpos offset data st hend hlt hfits
    refine ⟨out, st', log, hrun, hlog, hsize, fun i hi => ?_⟩
    rw [hsrc i hi, (source_of_exact_iff hpos).mpr hmid i hi]

/-- A read from the start of a disk into its second sector. -/
theorem read_exact_from_start :
    ReadsExactly (memoryDisk 1024 false) id 0 ⟨fun _ => 0, 700, by decide⟩
      fun i => UInt8.ofNat (i / 512) :=
  (read_exact_iff (memory_disk_reads_image false (by decide)) ⟨9, rfl⟩ 0 _ _ (by decide)
    (by decide)).mpr ⟨⟨fun h => absurd rfl h, fun _ => by decide⟩, fun h => absurd rfl h⟩

/-- A read of 1024 bytes from the middle of the first sector. The second sector arrives as a copy
of the first. -/
theorem read_repeats_first_sector :
    (memoryDisk 2048 false).ReadsImage id ∧ 256 + 1024 ≤ (memoryDisk 2048 false).diskSize ∧
      ¬ ReadsExactly (memoryDisk 2048 false) id 256 ⟨fun _ => 0, 1024, by decide⟩
        fun i => UInt8.ofNat (i / 512) := by
  have hread : (memoryDisk 2048 false).ReadsImage id := memory_disk_reads_image false (by decide)
  refine ⟨hread, by decide, ?_⟩
  rintro ⟨out, st', log, hrun, _, _, hbytes⟩
  have hfits : (memoryDisk 2048 false).EndsFit 256 1024 := ⟨fun _ => by decide, fun _ => by decide⟩
  obtain ⟨_, _, _, hrun', _, _, hsrc⟩ :=
    read_completes hread (by decide) 256 ⟨fun _ => 0, 1024, by decide⟩ _ (by decide) (by decide)
      hfits
  cases hrun.symm.trans hrun'
  have hbyte := (hbytes 256 (by decide)).symm.trans (hsrc 256 (by decide))
  revert hbyte
  decide

end LudOS.Storage.Disk
