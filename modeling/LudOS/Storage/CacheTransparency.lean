import LudOS.Storage.DiskCache

/-!
# The disk cache is transparent

`logical` is what the cache and the disk hold together, and `Valid` the invariant that every
operation keeps: clean sectors agree with the disk, cached sectors exist. Reads, prunes and flushes
leave `logical` alone, and a write splices its data into it.

`add_span` looks for uncached runs that are up to as long as the whole request, wherever they
start. A run that starts behind the last cached sector can therefore leave the disk, although the
request does not, and the read fails. `Overruns` is that condition.
-/

namespace LudOS.Storage.DiskCache

open Lib
open Std (TreeMap)

variable {σ : Type}

/-- Reads of sectors succeed exactly when they exist, and yield the bytes of the image. Writes of
existing sectors are splices. -/
structure ServesImage (d : Disk σ) (image : σ → Bytes) : Prop where
  reads : ∀ sector n (data : Span) st, data.size = n * d.sectorSize →
    sector + n ≤ d.diskSize / d.sectorSize →
    ∃ filled st', d.readSectors sector data st = (.ok filled, st') ∧
      filled.size = data.size ∧ image st' = image st ∧
      ∀ i < data.size, filled.bytes i = image st (sector * d.sectorSize + i)
  refuses : ∀ sector n (data : Span) st, data.size = n * d.sectorSize →
    d.diskSize / d.sectorSize < sector + n → ∃ e, (d.readSectors sector data st).1 = .error e
  writes : ∀ sector (data : Span) st, data.size = d.sectorSize →
    sector < d.diskSize / d.sectorSize →
    ∃ st', d.writeSectors sector data st = (.ok (), st') ∧
      image st' = (image st).splice (sector * d.sectorSize) d.sectorSize data.bytes

/-- What the cache and the disk hold together. -/
def logical (d : Disk σ) (image : σ → Bytes) (s : CacheState σ) : Bytes := fun a =>
  match s.cache[a / d.sectorSize]? with
  | some e => e.data.bytes (a % d.sectorSize)
  | none => image s.disk a

/-- The invariant of the cache. -/
structure Valid (d : Disk σ) (image : σ → Bytes) (s : CacheState σ) : Prop extends Indexed s where
  exist : ∀ sec e, s.cache[sec]? = some e → sec < d.diskSize / d.sectorSize
  whole : ∀ (sec : Nat) (e : CacheEntry), s.cache[sec]? = some e → e.data.size = d.sectorSize
  clean : ∀ (sec : Nat) (e : CacheEntry), s.cache[sec]? = some e → e.dirty = false →
    ∀ i < d.sectorSize, e.data.bytes i = image s.disk (sec * d.sectorSize + i)

/-- No reader notices the change. -/
def Same (d : Disk σ) (image : σ → Bytes) (s s' : CacheState σ) : Prop :=
  Valid d image s' ∧ logical d image s' = logical d image s

section

variable {d : Disk σ} {image : σ → Bytes} {s s₁ s' : CacheState σ} {sec i count stop rounds : Nat}

theorem Same.trans (h : Same d image s s₁) (h' : Same d image s₁ s') : Same d image s s' :=
  ⟨h'.1, h'.2.trans h.2⟩

theorem Valid.cached_lt (hs : Valid d image s) (hsec : sec ∈ s.cache) :
    sec < d.diskSize / d.sectorSize := by
  obtain ⟨e, he⟩ := Option.isSome_iff_exists.mp (TreeMap.mem_iff_isSome_getElem?.mp hsec)
  exact hs.exist sec e he

/-! ## One sector -/

/-- The bytes of a sector are those whose quotient is its number. -/
theorem in_sector_iff {ss sec a : Nat} (hpos : 0 < ss) :
    sec * ss ≤ a ∧ a < sec * ss + ss ↔ a / ss = sec := by
  rw [Nat.div_eq_iff hpos]
  omega

theorem div_sector {ss sec i : Nat} (hi : i < ss) : (sec * ss + i) / ss = sec := by
  rw [← in_sector_iff (by omega)]
  omega

/-- A sector that is spliced in replaces these bytes. -/
theorem splice_sector {ss sec a : Nat} (hpos : 0 < ss) (m data : Bytes) :
    m.splice (sec * ss) ss data a = if a / ss = sec then data (a % ss) else m a := by
  split
  case isTrue ha =>
    obtain ⟨hle, hlt⟩ := (in_sector_iff hpos).mpr ha
    rw [Bytes.splice_inside hle hlt, ← ha, Nat.mod_eq_sub_div_mul]
  case isFalse ha =>
    rw [← in_sector_iff hpos] at ha
    exact Bytes.splice_outside (by omega)

theorem logical_cached {e : CacheEntry} (hsec : s.cache[sec]? = some e)
    (hi : i < d.sectorSize) : logical d image s (sec * d.sectorSize + i) = e.data.bytes i := by
  have hmod : (sec * d.sectorSize + i) % d.sectorSize = i := by
    rw [Nat.mul_add_mod', Nat.mod_eq_of_lt hi]
  simp only [logical, div_sector hi, hsec, hmod]

theorem logical_uncached (hsec : sec ∉ s.cache) (hi : i < d.sectorSize) :
    logical d image s (sec * d.sectorSize + i) = image s.disk (sec * d.sectorSize + i) := by
  simp only [logical, div_sector hi, TreeMap.getElem?_eq_none hsec]

/-- A new entry replaces the bytes of its sector. -/
theorem Puts.logical_eq {data : Span} {dirty : Bool} (hpos : 0 < d.sectorSize)
    (h : Puts s sec data dirty s') : logical d image s' =
      (logical d image s).splice (sec * d.sectorSize) d.sectorSize data.bytes := by
  funext a
  rw [splice_sector hpos]
  split
  case isTrue ha =>
    subst ha
    simp [logical, h.cache]
  case isFalse ha => simp [logical, h.cache, ha, h.disk]

theorem Puts.valid {data : Span} {dirty : Bool} (hs : Valid d image s)
    (h : Puts s sec data dirty s') (hsec : sec < d.diskSize / d.sectorSize)
    (hdata : data.size = d.sectorSize) (hclean : dirty = false →
      ∀ i < d.sectorSize, data.bytes i = image s.disk (sec * d.sectorSize + i)) :
    Valid d image s' := by
  refine ⟨h.indexed hs.toIndexed, fun k e he => ?_, fun k e he => ?_, fun k e he => ?_⟩
  all_goals
    rw [h.cache] at he
    split at he
  · subst k
    exact hsec
  · exact hs.exist k e he
  · cases he
    exact hdata
  · exact hs.whole k e he
  · cases he
    subst k
    rw [h.disk]
    exact hclean
  · rw [h.disk]
    exact hs.clean k e he

/-- With the cache empty, the disk alone holds the content. -/
theorem logical_of_empty (h : s.cache.isEmpty = true) : logical d image s = image s.disk := by
  funext a
  simp [logical, TreeMap.getElem?_of_isEmpty h]

theorem Removes.cached (h : Removes s sec s') {k : Nat} {e : CacheEntry}
    (he : s'.cache[k]? = some e) : k ≠ sec ∧ s.cache[k]? = some e := by
  rw [h.cache] at he
  split at he
  · cases he
  · exact ⟨‹_›, he⟩

section

variable (hd : ServesImage d image) (hpos : 0 < d.sectorSize)

include hd hpos

/-- An entry that is removed leaves its bytes on the disk. -/
theorem run_removeEntry (hs : Valid d image s) {e : CacheEntry} (hsec : s.cache[sec]? = some e) :
    ∃ s', (removeEntry d sec).run s = .ok () s' ∧ Same d image s s' ∧
      s'.cache.size + 1 = s.cache.size := by
  -- the disk after the entry has been written back, if it was dirty
  obtain ⟨st, hwrite, himage⟩ : ∃ st,
      ((if e.dirty then onDisk (d.writeSectors sec e.data) else pure ()) : CacheAction σ Unit).run
          s = .ok () { s with disk := st } ∧
        image st = (image s.disk).splice (sec * d.sectorSize) d.sectorSize e.data.bytes := by
    cases hdirty : e.dirty with
    | false =>
      exact ⟨s.disk, rfl, (Bytes.splice_self (hs.clean sec e hsec hdirty)).symm⟩
    | true =>
      obtain ⟨st, hrun, himage⟩ :=
        hd.writes sec e.data s.disk (hs.whole sec e hsec) (hs.exist sec e hsec)
      exact ⟨st, run_onDisk_ok hrun, himage⟩
  have hremoves := removes_erase hs.toIndexed hsec st
  refine ⟨_, ?_, ⟨⟨hremoves.indexed hs.toIndexed, fun k f hf => hs.exist k f (hremoves.cached hf).2,
    fun k f hf => hs.whole k f (hremoves.cached hf).2, fun k f hf hclean i hi => ?_⟩, ?_⟩,
    hremoves.size⟩
  · exact run_removeEntry_written hs.toIndexed hsec hwrite
  · obtain ⟨hk, hf⟩ := hremoves.cached hf
    rw [himage, splice_sector hpos, div_sector hi, if_neg hk]
    exact hs.clean k f hf hclean i hi
  · funext a
    simp only [logical, hremoves.cache, himage, splice_sector hpos]
    by_cases ha : a / d.sectorSize = sec
    · subst ha
      simp [hsec]
    · simp [ha]

/-! ## Pruning and flushing -/

theorem run_removeFirst (hs : Valid d image s) (hne : s.cache.isEmpty = false) :
    ∃ s', (removeFirst d).run s = .ok () s' ∧ Same d image s s' ∧
      s'.cache.size + 1 = s.cache.size := by
  obtain ⟨sec, e, hfirst, hsec, _⟩ := hs.toIndexed.first_cached hne
  obtain ⟨s', hrun, h⟩ := run_removeEntry hd hpos hs hsec
  refine ⟨s', ?_, h⟩
  rw [removeFirst, run_get_bind]
  simp only [hfirst, hrun]

theorem run_flushLoop (rounds : Nat) (hs : Valid d image s) (hsize : s.cache.size ≤ rounds) :
    ∃ s', (flushLoop d rounds).run s = .ok () s' ∧ Same d image s s' ∧ s'.cache.isEmpty = true := by
  induction rounds generalizing s with
  | zero =>
    refine ⟨s, rfl, ⟨hs, rfl⟩, ?_⟩
    rw [TreeMap.isEmpty_eq_size_eq_zero, beq_iff_eq]
    omega
  | succ rounds ih =>
    rw [flushLoop, run_get_bind]
    cases hempty : s.cache.isEmpty with
    | true => exact ⟨s, rfl, ⟨hs, rfl⟩, hempty⟩
    | false =>
      obtain ⟨s₁, hrun, hsame, hless⟩ := run_removeFirst hd hpos hs hempty
      obtain ⟨s', hrest, hsame', hend⟩ := ih hsame.1 (by omega)
      refine ⟨s', ?_, hsame.trans hsame', hend⟩
      simp only [Bool.false_eq_true, if_false]
      rw [run_bind_ok hrun, hrest]

/-- A flush succeeds and moves everything to the disk. -/
theorem run_flush (hs : Valid d image s) :
    ∃ s', (flush d).run s = .ok () s' ∧ Same d image s s' ∧ s'.cache.isEmpty = true :=
  run_flushLoop hd hpos s.cache.size hs (Nat.le_refl _)

theorem run_pruneLoop (rounds : Nat) (hs : Valid d image s) :
    ∃ s', (pruneLoop d rounds).run s = .ok () s' ∧ Same d image s s' := by
  induction rounds generalizing s with
  | zero => exact ⟨s, rfl, hs, rfl⟩
  | succ rounds ih =>
    rw [pruneLoop, run_get_bind]
    cases hempty : s.cache.isEmpty with
    | true => exact ⟨s, rfl, hs, rfl⟩
    | false =>
      simp only [Bool.false_eq_true, if_false]
      rw [run_bind_ok (run_memUsageRatio s)]
      have hs₀ : Valid d image { s with usage := fun i => s.usage (i + 1) } := { hs with }
      split
      · obtain ⟨s₁, hrun, hsame, _⟩ := run_removeFirst hd hpos hs₀ hempty
        obtain ⟨s', hrest, hsame'⟩ := ih hsame.1
        exact ⟨s', by rw [run_bind_ok hrun, hrest], hsame.trans hsame'⟩
      · exact ⟨_, rfl, hs₀, rfl⟩

/-- A prune succeeds and changes nothing that a reader could see. -/
theorem run_pruneCache (hs : Valid d image s) :
    ∃ s', (pruneCache d).run s = .ok () s' ∧ Same d image s s' := by
  exact @run_pruneLoop _ _ _ { s with usage := fun i => s.usage (i + 1) } hd hpos _ { hs with }

theorem run_setRatio (hs : Valid d image s) (ratio : Nat) :
    ∃ s', (setRatio d ratio).run s = .ok () s' ∧ Same d image s s' := by
  exact @run_pruneCache _ _ _ { s with sizeRatio := ratio } hd hpos { hs with }

end

/-! ## Chunks -/

/-- The chunks of a span from sector `j` of it on, added to the cache. Clean ones have to agree
with the disk. -/
theorem run_addChunks (hpos : 0 < d.sectorSize) (hdisk : d.diskSize < 2 ^ 32) {buf : Span}
    (write : Bool) (first n j : Nat) (hs : Valid d image s)
    (hsize : buf.size = (j + n) * d.sectorSize) (hrange : first + n ≤ d.diskSize / d.sectorSize)
    (hclean : write = false → ∀ i < n * d.sectorSize,
      buf.bytes (j * d.sectorSize + i) = image s.disk (first * d.sectorSize + i)) :
    ∃ s', (addChunks write first (splitFrom buf d.sectorSize (j * d.sectorSize))).run s =
        .ok () s' ∧ Valid d image s' ∧ s'.disk = s.disk ∧
      logical d image s' = (logical d image s).splice (first * d.sectorSize) (n * d.sectorSize)
        (buf.bytes.view (j * d.sectorSize)) ∧
      ∀ k, k ∈ s'.cache ↔ (first ≤ k ∧ k < first + n) ∨ k ∈ s.cache := by
  induction n generalizing first j s with
  | zero =>
    rw [Nat.add_zero] at hsize
    rw [splitFrom, if_neg (by omega), if_neg (by omega)]
    exact ⟨s, rfl, hs, rfl, by simp, fun k => by simp⟩
  | succ n ih =>
    have hlast : (j + (n + 1)) * d.sectorSize =
        j * d.sectorSize + d.sectorSize + n * d.sectorSize := by ring
    have hless := Nat.div_le_self d.diskSize d.sectorSize
    rw [splitFrom, if_pos ⟨hpos, by omega⟩, addChunks]
    obtain ⟨s₁, hrun, hput⟩ :=
      run_addToCache hs.toIndexed first (buf.sub (j * d.sectorSize) d.sectorSize) write
    have hs₁ : Valid d image s₁ := by
      refine hput.valid hs (by omega) (Span.size_sub (by omega)) fun hw i hi => ?_
      exact hclean hw i (by rw [Nat.add_mul]; omega)
    have hnext : j * d.sectorSize + d.sectorSize = (j + 1) * d.sectorSize := by ring
    obtain ⟨s', hrest, hs', hdisk', hlog, hmem⟩ :=
      ih (first + 1) (j + 1) hs₁ (by rw [hsize]; ring) (by omega) (fun hw i hi => by
        have := hclean hw (d.sectorSize + i) (by rw [Nat.add_mul]; omega)
        rw [hput.disk, ← hnext, Nat.add_assoc, this]
        congr 1
        ring)
    refine ⟨s', ?_, hs', hdisk'.trans hput.disk, ?_, fun k => ?_⟩
    · rw [run_bind_ok hrun, wadd_of_lt (by omega), hnext, hrest]
    · rw [hlog, hput.logical_eq hpos, show (first + 1) * d.sectorSize =
        first * d.sectorSize + d.sectorSize by ring, show (n + 1) * d.sectorSize =
        d.sectorSize + n * d.sectorSize by ring, ← Bytes.splice_append]
      congr 1
      funext i
      simp only [Bytes.view_apply]
      congr 1
      ring
    · rw [hmem, hput.mem_cache]
      by_cases hk : k ∈ s.cache
      · simp [hk]
      · simp only [hk, or_false]
        omega

/-- A write succeeds and splices its data in. -/
theorem run_writeSectors (hd : ServesImage d image) (hpos : 0 < d.sectorSize)
    (hdisk : d.diskSize < 2 ^ 32) (hs : Valid d image s) {data : Span} {n : Nat}
    (hdata : data.size = n * d.sectorSize) (hrange : sec + n ≤ d.diskSize / d.sectorSize) :
    ∃ s', (writeSectors d sec data).run s = .ok () s' ∧ Valid d image s' ∧ logical d image s' =
        (logical d image s).splice (sec * d.sectorSize) data.size data.bytes := by
  obtain ⟨s₁, hadd, hs₁, _, hlog, _⟩ := run_addChunks hpos hdisk true sec n 0 hs
    (by rw [hdata, Nat.zero_add]) hrange (by simp)
  obtain ⟨s', hprune, hs', hlog'⟩ := run_pruneCache hd hpos hs₁
  rw [Nat.zero_mul] at hadd hlog
  refine ⟨s', ?_, hs', ?_⟩
  · rw [writeSectors, split, run_bind_ok hadd, hprune]
  · rw [hlog', hlog, Bytes.view_zero, hdata]

/-! ## Prefetching -/

/-- The run reaches up to a cached sector or is as long as the request. -/
theorem runLength_spec (cache : TreeMap Nat CacheEntry) (i count len : Nat) (hlen : len ≤ count) :
    len ≤ runLength cache i count len ∧ runLength cache i count len ≤ count ∧
      (∀ k, len ≤ k → k < runLength cache i count len → wadd i k ∉ cache) ∧
      (runLength cache i count len = count ∨ wadd i (runLength cache i count len) ∈ cache) := by
  fun_induction runLength cache i count len with
  | case1 len h ih =>
    obtain ⟨hge, hle, hfree, hend⟩ := ih h.2
    refine ⟨by omega, hle, fun k hk hlt => ?_, hend⟩
    by_cases heq : k = len
    · subst heq
      rw [← TreeMap.contains_iff_mem, h.1]
      simp
    · exact hfree k (by omega) hlt
  | case2 len h =>
    refine ⟨Nat.le_refl _, hlen, fun k hk hlt => by omega, ?_⟩
    by_cases hcached : wadd i len ∈ cache
    · exact .inr hcached
    · rw [← TreeMap.contains_iff_mem, Bool.not_eq_true] at hcached
      exact .inl (by have := not_and.mp h hcached; omega)

/-- An uncached run that lies on the disk is read and added. -/
theorem run_addSpanFrom_run (hd : ServesImage d image) (hpos : 0 < d.sectorSize)
    (hdisk : d.diskSize < 2 ^ 32) (hs : Valid d image s) {len : Nat} (rounds : Nat)
    (hcount : count * d.sectorSize < 2 ^ 31) (hone : 0 < count) (hi : i < stop)
    (hsec : i ∉ s.cache) (hlen : runLength s.cache i count 1 = len)
    (hfits : i + len ≤ d.diskSize / d.sectorSize) :
    ∃ s', (addSpanFrom d stop count (rounds + 1) i).run s =
        (addSpanFrom d stop count rounds (i + len)).run s' ∧ Same d image s s' ∧
      ∀ k, k ∈ s'.cache ↔ (i ≤ k ∧ k < i + len) ∨ k ∈ s.cache := by
  have hless := Nat.div_le_self d.diskSize d.sectorSize
  obtain ⟨_, hle, huncached, _⟩ := runLength_spec s.cache i count 1 hone
  rw [hlen] at hle huncached
  have hfree : ∀ k < len, i + k ∉ s.cache := fun k hk => by
    rcases Nat.eq_zero_or_pos k with hk0 | hk0
    · simpa [hk0]
    · rw [← wadd_of_lt (show i + k < 2 ^ 32 by omega)]
      exact huncached k hk0 hk
  have hbuf : d.sectorSize * len < 2 ^ 31 := by
    rw [Nat.mul_comm]
    exact Nat.lt_of_le_of_lt (Nat.mul_le_mul_right _ hle) hcount
  obtain ⟨filled, st, hread, hsize, himage, hbytes⟩ :=
    hd.reads i len ⟨fun _ => 0, d.sectorSize * len, hbuf⟩ s.disk (Nat.mul_comm _ _) hfits
  have hs₀ : Valid d image { s with disk := st } := by
    refine { hs with clean := fun k e he hclean j hj => ?_ }
    rw [himage]
    exact hs.clean k e he hclean j hj
  have hsame : logical d image { s with disk := st } = logical d image s := by
    funext a
    simp only [logical, himage]
  -- the run is uncached, so the sectors read are what a reader sees there
  have hview : ∀ j < len * d.sectorSize,
      filled.bytes j = logical d image s (i * d.sectorSize + j) := by
    intro j hj
    have hquot : j / d.sectorSize < len := (Nat.div_lt_iff_lt_mul hpos).mpr hj
    have hsplit : i * d.sectorSize + j =
        (i + j / d.sectorSize) * d.sectorSize + j % d.sectorSize := by
      have := Nat.div_add_mod' j d.sectorSize
      rw [Nat.add_mul]
      omega
    rw [hbytes j (show j < d.sectorSize * len by rwa [Nat.mul_comm]), hsplit,
      logical_uncached (hfree _ hquot) (Nat.mod_lt _ hpos)]
  obtain ⟨s', hadd, hs', _, hlog, hmem⟩ :=
    run_addChunks hpos hdisk false i len 0 hs₀
      (by rw [hsize, Nat.zero_add]; exact Nat.mul_comm _ _) hfits fun _ j hj => by
        rw [Nat.zero_mul, Nat.zero_add, hbytes j (show j < d.sectorSize * len by
          rwa [Nat.mul_comm]), himage]
  rw [Nat.zero_mul] at hadd hlog
  refine ⟨s', ?_, ⟨hs', ?_⟩, hmem⟩
  · rw [addSpanFrom, if_pos hi, run_get_bind]
    simp only [TreeMap.contains_iff_mem, hsec, if_false, hlen]
    rw [wmul_of_lt (by omega), run_bind_ok (run_buffer_of_lt hbuf _),
      run_bind_ok (run_onDisk_ok hread), split, run_bind_ok hadd, wadd_of_lt (by omega)]
  · rw [hlog, hsame, Bytes.view_zero, Bytes.splice_self hview]

/-- A run that leaves the disk ends the read with an error. -/
theorem run_addSpanFrom_overrun (hd : ServesImage d image)
    (hcount : count * d.sectorSize < 2 ^ 31) (hi : i < stop) (hsec : i ∉ s.cache)
    (hle : runLength s.cache i count 1 ≤ count)
    (hover : d.diskSize / d.sectorSize < i + runLength s.cache i count 1) :
    ∃ e s', (addSpanFrom d stop count (rounds + 1) i).run s = .error (.failed e) s' := by
  have hbuf : d.sectorSize * runLength s.cache i count 1 < 2 ^ 31 := by
    rw [Nat.mul_comm]
    exact Nat.lt_of_le_of_lt (Nat.mul_le_mul_right _ hle) hcount
  obtain ⟨e, herror⟩ := hd.refuses i (runLength s.cache i count 1)
    ⟨fun _ => 0, d.sectorSize * runLength s.cache i count 1, hbuf⟩ s.disk (Nat.mul_comm _ _) hover
  rw [addSpanFrom, if_pos hi, run_get_bind]
  simp only [TreeMap.contains_iff_mem, hsec, if_false]
  rw [wmul_of_lt (by omega), run_bind_ok (run_buffer_of_lt hbuf _),
    run_bind_error (run_onDisk_error herror)]
  exact ⟨e, _, rfl⟩

theorem run_addSpanFrom_cached (hi : i < stop) (hsec : i ∈ s.cache) :
    (addSpanFrom d stop count (rounds + 1) i).run s =
      (addSpanFrom d stop count rounds (i + 1)).run s := by
  rw [addSpanFrom, if_pos hi, run_get_bind, if_pos (TreeMap.contains_iff_mem.mpr hsec)]

theorem run_addSpanFrom_end (hi : stop ≤ i) :
    (addSpanFrom d stop count rounds i).run s = .ok () s := by
  cases rounds with
  | zero => rfl
  | succ rounds =>
    rw [addSpanFrom, if_neg (by omega)]
    rfl

/-- A run does not reach over a cached sector. -/
theorem runLength_le_cached {cache : TreeMap Nat CacheEntry} {c : Nat} (hcount : 0 < count)
    (hi : i < c) (hc : c < 2 ^ 32) (hcached : c ∈ cache) : i + runLength cache i count 1 ≤ c := by
  obtain ⟨_, _, hfree, _⟩ := runLength_spec cache i count 1 hcount
  by_contra hgt
  refine hfree (c - i) (by omega) (by omega) ?_
  rw [wadd_of_lt (by omega), Nat.add_sub_cancel' hi.le]
  exact hcached

section

variable {count : Nat} (hd : ServesImage d image) (hpos : 0 < d.sectorSize)
  (hdisk : d.diskSize < 2 ^ 32) (hcount : count * d.sectorSize < 2 ^ 31)

include hd hpos hdisk hcount

/-- As long as every run that starts behind the last cached sector fits on the disk, the span gets
cached, and no reader notices. -/
theorem run_addSpanFrom
    (rounds i : Nat) (hs : Valid d image s) (hrounds : stop ≤ i + rounds) (hstop : stop ≤ i + count)
    (hfits : ∀ j, i ≤ j → j < stop → (∀ k, j ≤ k → k ∉ s.cache) → j = i ∨ j - 1 ∈ s.cache →
      j + count ≤ d.diskSize / d.sectorSize) :
    ∃ s', (addSpanFrom d stop count rounds i).run s = .ok () s' ∧ Same d image s s' ∧
      ∀ k, k ∈ s.cache ∨ i ≤ k ∧ k < stop → k ∈ s'.cache := by
  induction rounds generalizing i s with
  | zero =>
    exact ⟨s, rfl, ⟨hs, rfl⟩, fun k hk => hk.resolve_right (by omega)⟩
  | succ rounds ih =>
    rcases Nat.lt_or_ge i stop with hi | hi
    swap
    · exact ⟨s, run_addSpanFrom_end hi, ⟨hs, rfl⟩, fun k hk => hk.resolve_right (by omega)⟩
    by_cases hsec : i ∈ s.cache
    · rw [run_addSpanFrom_cached hi hsec]
      obtain ⟨s', hrun, hsame, hmem⟩ := ih (i + 1) hs (by omega) (by omega)
        fun j hj hlt hnone hprev =>
          hfits j (by omega) hlt hnone (.inr (hprev.elim (fun heq => by simpa [heq]) id))
      refine ⟨s', hrun, hsame, fun k hk => hmem k ?_⟩
      by_cases hki : k = i
      · exact .inl (hki ▸ hsec)
      · exact hk.imp id (by omega)
    · obtain ⟨hone, hle, _, hend⟩ := runLength_spec s.cache i count 1 (by omega)
      have hless := Nat.div_le_self d.diskSize d.sectorSize
      -- the run stops at a cached sector, or it is the one that has to fit
      have hon : i + runLength s.cache i count 1 ≤ d.diskSize / d.sectorSize := by
        by_cases hnext : ∃ c, i < c ∧ c ∈ s.cache
        · obtain ⟨c, hic, hc⟩ := hnext
          have hexist := hs.cached_lt hc
          have := runLength_le_cached (show 0 < count by omega) hic (by omega) hc
          omega
        · have := hfits i (Nat.le_refl _) hi (fun k hk hkc => by
            rcases Nat.eq_or_lt_of_le hk with heq | hlt
            · exact hsec (heq ▸ hkc)
            · exact hnext ⟨k, hlt, hkc⟩) (.inl rfl)
          omega
      generalize hlen : runLength s.cache i count 1 = len at *
      obtain ⟨s₁, hstep, hsame₁, hmem₁⟩ :=
        run_addSpanFrom_run hd hpos hdisk hs rounds hcount (by omega) hi hsec hlen hon
      obtain ⟨s', hrun, hsame, hmem⟩ := ih (i + len) hsame₁.1 (by omega) (by omega)
        fun j hj hlt hnone hprev => by
          have hnone' : ∀ k, j ≤ k → k ∉ s.cache := fun k hk hkc =>
            hnone k hk ((hmem₁ k).mpr (.inr hkc))
          rcases hprev with heq | hprev
          · -- the run has ended before the request, at a cached sector
            rw [wadd_of_lt (by omega)] at hend
            exact absurd (hend.resolve_left (by omega)) (heq ▸ hnone' j (Nat.le_refl _))
          · refine hfits j (by omega) hlt hnone' ?_
            rcases (hmem₁ (j - 1)).mp hprev with hin | hin
            · exact absurd ((hend.resolve_left (by omega))) (by
                rw [wadd_of_lt (by omega)]
                exact hnone' _ (by omega))
            · exact .inr hin
      refine ⟨s', by rw [hstep, hrun], hsame₁.trans hsame, fun k hk => hmem k ?_⟩
      rw [hmem₁]
      by_cases hkl : i + len ≤ k ∧ k < stop
      · exact .inr hkl
      · exact .inl (hk.elim .inr fun hk => .inl (by omega))

/-- Behind the last cached sector a run takes the length of the request. If that leaves the disk,
the read fails. -/
theorem run_addSpanFrom_fails {c : Nat}
    (hover : d.diskSize / d.sectorSize < c + 1 + count) (hstop : c + 1 < stop) (rounds i : Nat)
    (hs : Valid d image s) (hrounds : stop ≤ i + rounds) (hend : stop ≤ i + count) (hi : i ≤ c)
    (hc : c ∈ s.cache) (hlast : ∀ k, c < k → k ∉ s.cache) :
    ∃ e s', (addSpanFrom d stop count rounds i).run s = .error (.failed e) s' := by
  have hless := Nat.div_le_self d.diskSize d.sectorSize
  induction rounds generalizing i s with
  | zero => omega
  | succ rounds ih =>
    have hexist := hs.cached_lt hc
    by_cases hsec : i ∈ s.cache
    · rw [run_addSpanFrom_cached (by omega) hsec]
      rcases Nat.eq_or_lt_of_le hi with heq | hlt
      · subst heq
        obtain ⟨rounds, rfl⟩ : ∃ r, rounds = r + 1 := ⟨rounds - 1, by omega⟩
        obtain ⟨_, hle, _, hstopped⟩ := runLength_spec s.cache (i + 1) count 1 (by omega)
        refine run_addSpanFrom_overrun hd hcount hstop (hlast _ (Nat.lt_succ_self i)) hle ?_
        by_contra hfits
        rw [wadd_of_lt (by omega)] at hstopped
        rcases hstopped with hfull | hcached
        · omega
        · exact hlast _ (by omega) hcached
      · exact ih (i + 1) hs (by omega) (by omega) hlt hc hlast
    · have hic : i < c := Nat.lt_of_le_of_ne hi fun heq => hsec (heq ▸ hc)
      have hone := (runLength_spec s.cache i count 1 (by omega)).1
      have hbefore := runLength_le_cached (show 0 < count by omega) hic (by omega) hc
      generalize hlen : runLength s.cache i count 1 = len at *
      obtain ⟨s₁, hstep, ⟨hs₁, _⟩, hmem₁⟩ :=
        run_addSpanFrom_run hd hpos hdisk hs rounds hcount (by omega)
          (show i < stop by omega) hsec hlen (by omega)
      have hc₁ : c ∈ s₁.cache := (hmem₁ c).mpr (.inr hc)
      rw [hstep]
      refine ih (i + len) hs₁ (by omega) (by omega) hbefore hc₁ fun k hk hkc => ?_
      exact ((hmem₁ k).mp hkc).elim (by omega) (hlast k hk)

end

/-! ## Reading -/

/-- A cached sector is copied and accessed anew. -/
theorem run_copyCached_cached (hs : Indexed s) {e : CacheEntry} {j : Nat} {data : Span}
    (he : s.cache[wadd sec j]? = some e) (hfits : j * d.sectorSize + e.data.size ≤ data.size) :
    ∃ s₁, Puts s (wadd sec j) e.data e.dirty s₁ ∧
      (copyCached d sec (count + 1) j data).run s =
        (copyCached d sec count (j + 1)
          (data.put (j * d.sectorSize) e.data.size e.data.bytes)).run s₁ := by
  refine ⟨_, @puts_restamp _ _ _ hs e s.cache ⟨e, he, rfl⟩ fun _ _ => rfl, ?_⟩
  rw [copyCached, run_get_bind]
  simp only [he]
  rw [run_check_bind hfits, run_bind_ok (run_totalTicks s)]
  rfl

/-- With all of its sectors cached, a span is filled with what the cache holds. -/
theorem run_copyCached (hpos : 0 < d.sectorSize) (hdisk : d.diskSize < 2 ^ 32) (count j : Nat)
    (data : Span) (hs : Valid d image s) (hsize : data.size = (j + count) * d.sectorSize)
    (hrange : sec + j + count ≤ d.diskSize / d.sectorSize)
    (hcached : ∀ k < count, sec + j + k ∈ s.cache) :
    ∃ filled s', (copyCached d sec count j data).run s = .ok filled s' ∧ Same d image s s' ∧
      filled.size = data.size ∧
      filled.bytes = data.bytes.splice (j * d.sectorSize) (count * d.sectorSize)
        ((logical d image s).view ((sec + j) * d.sectorSize)) := by
  induction count generalizing s j data with
  | zero => exact ⟨data, s, rfl, ⟨hs, rfl⟩, rfl, by simp⟩
  | succ count ih =>
    have hless := Nat.div_le_self d.diskSize d.sectorSize
    have hmem := hcached 0 (Nat.succ_pos _)
    rw [Nat.add_zero, TreeMap.mem_iff_isSome_getElem?, Option.isSome_iff_exists] at hmem
    obtain ⟨e, he⟩ := hmem
    have hwhole := hs.whole _ e he
    have hnext : (j + 1) * d.sectorSize = j * d.sectorSize + d.sectorSize := by ring
    have hfits : j * d.sectorSize + e.data.size ≤ data.size := by
      rw [hsize, hwhole, ← hnext]
      exact Nat.mul_le_mul_right _ (by omega)
    have hwadd : wadd sec j = sec + j := wadd_of_lt (by omega)
    obtain ⟨s₁, hput, hstep⟩ :=
      @run_copyCached_cached _ d _ sec count hs.toIndexed e j data (by rwa [hwadd]) hfits
    rw [hwadd] at hput
    have hs₁ := hput.valid hs (by omega) hwhole (hs.clean _ e he)
    have hlog₁ := @Puts.logical_eq _ d image _ _ _ _ _ hpos hput
    rw [Bytes.splice_self fun i hi => (logical_cached he hi).symm] at hlog₁
    obtain ⟨filled, s', hrun, ⟨hs', hlog⟩, hfill, hbytes⟩ :=
      ih (j + 1) (data.put (j * d.sectorSize) e.data.size e.data.bytes) hs₁
        (by rw [Span.size_put, hsize]; ring) (by omega) fun k hk => by
          rw [hput.mem_cache]
          have := hcached (k + 1) (by omega)
          exact .inr (by rwa [show sec + (j + 1) + k = sec + j + (k + 1) by omega])
    refine ⟨filled, s', ?_, ⟨hs', hlog.trans hlog₁⟩, hfill, ?_⟩
    · rw [hstep, hrun]
    · rw [hbytes, hlog₁, Span.bytes_put, hwhole, hnext, show (count + 1) * d.sectorSize =
        d.sectorSize + count * d.sectorSize by ring, ← Bytes.splice_append,
        Bytes.splice_congr fun i hi => (logical_cached he hi).symm]
      congr 1
      funext i
      simp only [Bytes.view_apply]
      congr 1
      ring

/-- Behind the last cached sector the request goes on, and its length from there on leaves the
disk. -/
def Overruns (d : Disk σ) (s : CacheState σ) (sec count : Nat) : Prop :=
  ∃ c, sec ≤ c ∧ c + 1 < sec + count ∧ c ∈ s.cache ∧ (∀ k, c < k → k ∉ s.cache) ∧
    d.diskSize / d.sectorSize < c + 1 + count

section

variable {data : Span} {n : Nat} (hd : ServesImage d image) (hpos : 0 < d.sectorSize)
  (hdisk : d.diskSize < 2 ^ 32) (hs : Valid d image s) (hdata : data.size = n * d.sectorSize)
  (hrange : sec + n ≤ d.diskSize / d.sectorSize)

include hd hpos hdisk hs hdata hrange

/-- A read that does not overrun succeeds with the bytes that were written last. -/
theorem run_readSectors (hover : ¬ Overruns d s sec n) :
    ∃ filled s', (readSectors d sec data).run s = .ok filled s' ∧ Same d image s s' ∧
      filled.size = data.size ∧
      ∀ i < data.size, filled.bytes i = logical d image s (sec * d.sectorSize + i) := by
  have hless := Nat.div_le_self d.diskSize d.sectorSize
  have hcount : n * d.sectorSize < 2 ^ 31 := hdata ▸ data.size_lt
  obtain ⟨s₁, hadd, ⟨hs₁, hlog₁⟩, hmem⟩ := run_addSpanFrom hd hpos hdisk hcount n sec hs
    (Nat.le_refl (sec + n)) (Nat.le_refl _) fun j hj hlt hnone hprev => by
      by_contra hgt
      rcases Nat.eq_or_lt_of_le hj with heq | hbehind
      · omega
      · refine hover ⟨j - 1, by omega, by omega, hprev.resolve_left (by omega), fun k hk => ?_,
          by omega⟩
        exact hnone k (by omega)
  obtain ⟨filled, s₂, hcopy, ⟨hs₂, hlog₂⟩, hsize, hbytes⟩ := run_copyCached hpos hdisk n 0 data hs₁
    (by rw [hdata, Nat.zero_add]) (by omega) fun k hk => hmem _ (.inr (by omega))
  obtain ⟨s', hprune, hs', hlog'⟩ := run_pruneCache hd hpos hs₂
  refine ⟨filled, s', ?_, ⟨hs', hlog'.trans (hlog₂.trans hlog₁)⟩, hsize, fun i hi => ?_⟩
  · rw [readSectors, addSpan]
    simp only [hdata, Nat.mul_div_cancel n hpos, wadd_of_lt (show sec + n < 2 ^ 32 by omega)]
    rw [run_bind_ok hadd, run_bind_ok hcopy, run_bind_ok hprune]
    rfl
  · rw [hbytes, Nat.zero_mul, Bytes.splice_inside (Nat.zero_le _) (by omega), hlog₁]
    rfl

/-- A read that overruns fails, although its sectors all exist. -/
theorem run_readSectors_overruns (hover : Overruns d s sec n) :
    ∃ e s', (readSectors d sec data).run s = .error (.failed e) s' := by
  obtain ⟨c, hsec, hc, hcached, hlast, hend⟩ := hover
  have hless := Nat.div_le_self d.diskSize d.sectorSize
  have hcount : n * d.sectorSize < 2 ^ 31 := hdata ▸ data.size_lt
  obtain ⟨e, s', hrun⟩ := run_addSpanFrom_fails hd hpos hdisk hcount hend hc n sec hs
    (Nat.le_refl _) (Nat.le_refl _) hsec hcached hlast
  refine ⟨e, s', ?_⟩
  rw [readSectors, addSpan]
  simp only [hdata, Nat.mul_div_cancel n hpos, wadd_of_lt (show sec + n < 2 ^ 32 by omega)]
  exact run_bind_error hrun

end

end

/-! ## Runs -/

/-- A call of one of the functions of the cache. -/
inductive Call where
  | read (sec : Nat) (data : Span)
  | write (sec : Nat) (data : Span)
  | setRatio (ratio : Nat)
  | flush

/-- The call is about whole sectors of the disk. -/
def Call.InRange (d : Disk σ) : Call → Prop
  | .read sec data => ∃ n, data.size = n * d.sectorSize ∧ sec + n ≤ d.diskSize / d.sectorSize
  | .write sec data => ∃ n, data.size = n * d.sectorSize ∧ sec + n ≤ d.diskSize / d.sectorSize
  | .setRatio _ => True
  | .flush => True

/-- Every call succeeds, the reads with the bytes of the logical content `m`, and every flush
leaves the disk with that content and the cache empty. -/
def Transparent (d : Disk σ) (image : σ → Bytes) : List Call → CacheState σ → Bytes → Prop
  | [], _, _ => True
  | .read sec data :: calls, s, m =>
    ∃ filled s', (readSectors d sec data).run s = .ok filled s' ∧ filled.size = data.size ∧
      (∀ i < data.size, filled.bytes i = m (sec * d.sectorSize + i)) ∧
      Transparent d image calls s' m
  | .write sec data :: calls, s, m =>
    ∃ s', (writeSectors d sec data).run s = .ok () s' ∧
      Transparent d image calls s' (m.splice (sec * d.sectorSize) data.size data.bytes)
  | .setRatio ratio :: calls, s, m =>
    ∃ s', (setRatio d ratio).run s = .ok () s' ∧ Transparent d image calls s' m
  | .flush :: calls, s, m =>
    ∃ s', (flush d).run s = .ok () s' ∧ s'.cache.isEmpty = true ∧ image s'.disk = m ∧
      Transparent d image calls s' m

/-- No read of the run meets a cache in which it overruns. -/
def NoOverrun (d : Disk σ) : List Call → CacheState σ → Prop
  | [], _ => True
  | .read sec data :: calls, s =>
    ¬ Overruns d s sec (data.size / d.sectorSize) ∧
      NoOverrun d calls (endState (readSectors d sec data) s)
  | .write sec data :: calls, s => NoOverrun d calls (endState (writeSectors d sec data) s)
  | .setRatio ratio :: calls, s => NoOverrun d calls (endState (setRatio d ratio) s)
  | .flush :: calls, s => NoOverrun d calls (endState (flush d) s)

section

variable {d : Disk σ} {image : σ → Bytes}

theorem transparent_from (hd : ServesImage d image) (hpos : 0 < d.sectorSize)
    (hdisk : d.diskSize < 2 ^ 32) (calls : List Call) (hcalls : ∀ c ∈ calls, c.InRange d)
    {s : CacheState σ} (hs : Valid d image s) :
    Transparent d image calls s (logical d image s) ↔ NoOverrun d calls s := by
  induction calls generalizing s with
  | nil => simp [Transparent, NoOverrun]
  | cons c calls ih =>
    have hrest : ∀ c ∈ calls, c.InRange d := fun c' hc' => hcalls c' (List.mem_cons_of_mem c hc')
    have hc := hcalls c List.mem_cons_self
    cases c with
    | read sec data =>
      obtain ⟨n, hdata, hrange⟩ := hc
      have hn : data.size / d.sectorSize = n := by rw [hdata, Nat.mul_div_cancel n hpos]
      simp only [Transparent, NoOverrun, hn]
      by_cases hover : Overruns d s sec n
      · obtain ⟨e, s', hrun⟩ := run_readSectors_overruns hd hpos hdisk hs hdata hrange hover
        simp [hover, hrun]
      · obtain ⟨filled, s', hrun, ⟨hs', hlog⟩, hsize, hbytes⟩ :=
          run_readSectors hd hpos hdisk hs hdata hrange hover
        rw [endState_of_ok hrun, ← ih hrest hs', hlog]
        simp only [hover, hrun, not_false_eq_true, true_and]
        exact ⟨fun ⟨_, _, h, _, _, htail⟩ => by cases h; exact htail,
          fun htail => ⟨filled, s', rfl, hsize, hbytes, htail⟩⟩
    | write sec data =>
      obtain ⟨n, hdata, hrange⟩ := hc
      obtain ⟨s', hrun, hs', hlog⟩ := run_writeSectors hd hpos hdisk hs hdata hrange
      simp only [Transparent, NoOverrun, hrun]
      rw [endState_of_ok hrun, ← ih hrest hs', hlog]
      exact ⟨fun ⟨_, h, htail⟩ => by cases h; exact htail, fun htail => ⟨s', rfl, htail⟩⟩
    | setRatio ratio =>
      obtain ⟨s', hrun, hs', hlog⟩ := run_setRatio hd hpos hs ratio
      simp only [Transparent, NoOverrun, hrun]
      rw [endState_of_ok hrun, ← ih hrest hs', hlog]
      exact ⟨fun ⟨_, h, htail⟩ => by cases h; exact htail, fun htail => ⟨s', rfl, htail⟩⟩
    | flush =>
      obtain ⟨s', hrun, ⟨hs', hlog⟩, hempty⟩ := run_flush hd hpos hs
      simp only [Transparent, NoOverrun, hrun]
      rw [endState_of_ok hrun, ← ih hrest hs', hlog]
      exact ⟨fun ⟨_, h, _, _, htail⟩ => by cases h; exact htail,
        fun htail => ⟨s', rfl, hempty, (logical_of_empty hempty).symm.trans hlog, htail⟩⟩

theorem valid_fresh (disk : σ) {ticks : Nat → Nat} (usage : Nat → Nat) (hticks : StrictMono ticks) :
    Valid d image (CacheState.fresh disk ticks usage) := by
  refine ⟨indexed_fresh disk hticks usage, ?_, ?_, ?_⟩ <;> simp [CacheState.fresh]

/-- From a new cache on, every call behaves as on the disk itself exactly when no read overruns. -/
theorem cache_transparent_iff (hd : ServesImage d image) (hpos : 0 < d.sectorSize)
    (hdisk : d.diskSize < 2 ^ 32) (disk : σ) {ticks : Nat → Nat} (hticks : StrictMono ticks)
    (usage : Nat → Nat) (calls : List Call) (hcalls : ∀ c ∈ calls, c.InRange d) :
    Transparent d image calls (.fresh disk ticks usage) (image disk) ↔
      NoOverrun d calls (.fresh disk ticks usage) := by
  rw [← transparent_from hd hpos hdisk calls hcalls (valid_fresh disk usage hticks),
    logical_of_empty]
  · rfl
  · simp [CacheState.fresh]

end

/-- A disk of `size` bytes that serves the requests for its own sectors and no others. -/
def strictDisk (size : Nat) : Disk Bytes where
  diskSize := size
  sectorSize := 512
  readOnly := false
  caching := true
  readSectors sector data m :=
    if sector * 512 + data.size ≤ size then (.ok (data.put 0 data.size (m.view (sector * 512))), m)
    else (.error .outOfBounds, m)
  writeSectors sector data m :=
    if sector * 512 + data.size ≤ size then
      (.ok (), m.splice (sector * 512) data.size data.bytes)
    else (.error .outOfBounds, m)
  cacheReadSectors _ _ m := (.error .unknown, m)
  cacheWriteSectors _ _ m := (.error .unknown, m)

theorem strict_disk_serves_image (sectors : Nat) : ServesImage (strictDisk (sectors * 512)) id := by
  have hsectors : sectors * 512 / 512 = sectors := Nat.mul_div_cancel _ (by decide)
  refine ⟨fun sector n data m hdata hrange => ?_, fun sector n data m hdata hrange => ?_,
    fun sector data m hdata hrange => ?_⟩
  all_goals simp only [strictDisk, hsectors] at hdata hrange ⊢
  · rw [if_pos (by omega)]
    refine ⟨_, m, rfl, rfl, rfl, fun i hi => ?_⟩
    rw [Span.bytes_put, Bytes.splice_inside (Nat.zero_le _) (by omega)]
    rfl
  · rw [if_neg (by omega)]
    exact ⟨.outOfBounds, rfl⟩
  · rw [if_pos (by omega), hdata]
    exact ⟨_, rfl, rfl⟩

/-- A write, a read of another sector and a flush on a disk of two sectors. -/
theorem cache_transparent_single_sectors : Transparent (strictDisk 1024) id
      [.write 0 ⟨fun _ => 7, 512, by decide⟩, .read 1 ⟨fun _ => 0, 512, by decide⟩, .flush]
      (.fresh (fun _ => 0) id fun _ => 50) fun _ => 0 := by
  refine (cache_transparent_iff (strict_disk_serves_image 2) (by decide) (by decide) _ strictMono_id
    _ _ ?_).mpr ⟨?_, trivial⟩
  · intro c hc
    simp only [List.mem_cons, List.not_mem_nil, or_false] at hc
    obtain rfl | rfl | rfl := hc
    · exact ⟨1, rfl, by decide⟩
    · exact ⟨1, rfl, by decide⟩
    · trivial
  · rintro ⟨c, hge, hlt, _⟩
    have hone : c + 1 < 1 + 512 / 512 := hlt
    omega

/-- With the first of two sectors cached, a read of both asks the disk for two sectors from the
second one on, and fails. -/
theorem prefetch_leaves_disk : ServesImage (strictDisk 1024) id ∧ StrictMono (id : Nat → Nat) ∧
      Call.InRange (strictDisk 1024) (.write 0 ⟨fun _ => 7, 512, by decide⟩) ∧
      Call.InRange (strictDisk 1024) (.read 0 ⟨fun _ => 0, 1024, by decide⟩) ∧
      ¬ Transparent (strictDisk 1024) id
        [.write 0 ⟨fun _ => 7, 512, by decide⟩, .read 0 ⟨fun _ => 0, 1024, by decide⟩]
        (.fresh (fun _ => 0) id fun _ => 0) fun _ => 0 := by
  refine ⟨strict_disk_serves_image 2, strictMono_id, ⟨1, rfl, by decide⟩, ⟨2, rfl, by decide⟩, ?_⟩
  rintro ⟨s, hwrite, filled, s', hread, _⟩
  have hfails : (outcome (readSectors (strictDisk 1024) 0 ⟨fun _ => 0, 1024, by decide⟩)
      (endState (writeSectors (strictDisk 1024) 0 ⟨fun _ => 7, 512, by decide⟩)
        (.fresh (fun _ => 0) id fun _ => 0))).toBool = false := by
    decide +kernel
  rw [endState_of_ok hwrite, outcome_of_ok hread] at hfails
  cases hfails

end LudOS.Storage.DiskCache
