import LudOS.Storage.Disk

/-!
# The disk cache

The model of `drivers/storage/diskcache.cpp`. A `DiskCache` keeps sectors in memory, some of them
dirty, and a second map from access times back to sectors. When memory is short it gives up the
sector that was accessed last, since the second map is ordered by `std::greater`.

What the cache and the disk hold together is `logical`. Every operation keeps it, except that a
write splices its data in, and a flush leaves the disk with it: the cache is transparent. The one
thing that goes wrong is the prefetch of a read: behind a cached sector it may run past the end of
the disk, and the read then fails.
-/

namespace LudOS.Storage

open Lib
open Std (TreeMap)

/-! ## State -/

/-- `DiskCache::CacheEntry`. -/
structure CacheEntry where
  data : Span
  dirty : Bool
  accessTime : Nat

/-- A `DiskCache` and the state of its disk. The values that the next calls of `Time::total_ticks`
and of `mem_usage_ratio` return are part of it. -/
structure CacheState (σ : Type) where
  disk : σ
  sizeRatio : Nat
  cache : TreeMap Nat CacheEntry
  accessTimes : TreeMap Nat Nat
  ticks : Nat → Nat
  usage : Nat → Nat

variable {σ : Type}

/-- A new `DiskCache`. -/
def CacheState.fresh (disk : σ) (ticks usage : Nat → Nat) : CacheState σ where
  disk := disk
  sizeRatio := 30
  cache := ∅
  accessTimes := ∅
  ticks := ticks
  usage := usage

/-- A function of the class. -/
abbrev CacheAction (σ : Type) := EStateM Stop (CacheState σ)

namespace DiskCache

/-- `Time::total_ticks`. -/
def totalTicks : CacheAction σ Nat := do
  let s ← get
  set { s with ticks := fun i => s.ticks (i + 1) }
  pure (s.ticks 0)

/-- `DiskCache::mem_usage_ratio`. -/
def memUsageRatio : CacheAction σ Nat := do
  let s ← get
  set { s with usage := fun i => s.usage (i + 1) }
  pure (s.usage 0)

/-- Call an operation of the disk and return its error, if there is one. -/
def onDisk {α : Type} (op : σ → Except DiskError α × σ) : CacheAction σ α := do
  let s ← get
  set { s with disk := (op s.disk).2 }
  match (op s.disk).1 with
  | .ok a => pure a
  | .error e => throw (.failed e)

/-- The sector gets a new access time. -/
def restamp (sec : Nat) (entry : CacheEntry) (ticks : Nat) : CacheAction σ Unit :=
  modify fun s => { s with
    accessTimes := (s.accessTimes.erase entry.accessTime).insertIfNew ticks sec
    cache := s.cache.insert sec { entry with accessTime := ticks } }

/-- `DiskCache::add_to_cache`. -/
def addToCache (sec : Nat) (data : Span) (write : Bool) : CacheAction σ Unit := do
  let ticks ← totalTicks
  let s ← get
  match s.cache[sec]? with
  | none =>
    set { s with
      accessTimes := s.accessTimes.insertIfNew ticks sec
      cache := s.cache.insert sec ⟨data, write, ticks⟩ }
  | some entry =>
    let entry := { entry with data := data, dirty := write }
    set { s with cache := s.cache.insert sec entry }
    check (.fault .assertion) (s.accessTimes.contains entry.accessTime = true)
    restamp sec entry ticks

/-- The chunks go into the cache one after the other. -/
def addChunks (write : Bool) : Nat → List Span → CacheAction σ Unit
  | _, [] => pure ()
  | sec, chunk :: chunks => do
    addToCache sec chunk write
    addChunks write (wadd sec 1) chunks

/-- The search of `add_span` for the end of an uncached run. -/
def runLength (cache : TreeMap Nat CacheEntry) (i count len : Nat) : Nat :=
  if cache.contains (wadd i len) = false ∧ len < count then runLength cache i count (len + 1)
  else len
termination_by count - len

variable (d : Disk σ)

/-- The loop of `DiskCache::add_span` from index `i` on. It ends after at most `count` rounds, as
the index grows in each of them. -/
def addSpanFrom (stop count : Nat) : (rounds i : Nat) → CacheAction σ Unit
  | 0, _ => pure ()
  | rounds + 1, i =>
    if i < stop then do
      let s ← get
      if s.cache.contains i then addSpanFrom stop count rounds (i + 1)
      else
        let len := runLength s.cache i count 1
        let buf ← buffer (wmul d.sectorSize len)
        let buf ← onDisk (d.readSectors i buf)
        addChunks false i (split buf d.sectorSize)
        addSpanFrom stop count rounds (wadd i len)
    else pure ()

/-- `DiskCache::add_span`. -/
def addSpan (sec count : Nat) : CacheAction σ Unit :=
  addSpanFrom d (wadd sec count) count count sec

/-- `DiskCache::remove_entry`. -/
def removeEntry (id : Nat) : CacheAction σ Unit := do
  let s ← get
  match s.cache[id]? with
  | none => throw (.fault .outOfBounds)
  | some entry =>
    (if entry.dirty then onDisk (d.writeSectors id entry.data) else pure ())
    modify fun s => { s with accessTimes := s.accessTimes.erase entry.accessTime }
    check (.fault .assertion) (s.accessTimes.contains entry.accessTime = true)
    modify fun s => { s with cache := s.cache.erase id }

/-- The removal of the sector that `m_access_times.begin()` names, the one accessed last. -/
def removeFirst : CacheAction σ Unit := do
  let s ← get
  match s.accessTimes.maxKey?.bind (s.accessTimes[·]?) with
  | none => throw (.fault .invalidPointer)
  | some id => removeEntry d id

/-- The loop of `DiskCache::prune_cache`. Every round removes a sector, so there are at most as
many as the cache has. -/
def pruneLoop : (rounds : Nat) → CacheAction σ Unit
  | 0 => pure ()
  | rounds + 1 => do
    let s ← get
    if s.cache.isEmpty then pure ()
    else
      let ratio ← memUsageRatio
      if s.sizeRatio < ratio then
        removeFirst d
        pruneLoop rounds
      else pure ()

/-- `DiskCache::prune_cache`. The first call of `mem_usage_ratio` only decides on a log message. -/
def pruneCache : CacheAction σ Unit := do
  let _ ← memUsageRatio
  let s ← get
  pruneLoop d s.cache.size

/-- The loop of `DiskCache::flush`. -/
def flushLoop : (rounds : Nat) → CacheAction σ Unit
  | 0 => pure ()
  | rounds + 1 => do
    let s ← get
    if s.cache.isEmpty then pure ()
    else
      removeFirst d
      flushLoop rounds

/-- `DiskCache::flush`. -/
def flush : CacheAction σ Unit := do
  let s ← get
  flushLoop d s.cache.size

/-- `DiskCache::set_ratio`. -/
def setRatio (ratio : Nat) : CacheAction σ Unit := do
  modify fun s => { s with sizeRatio := ratio }
  pruneCache d

/-- `DiskCache::write_sectors`. -/
def writeSectors (sec : Nat) (data : Span) : CacheAction σ Unit := do
  addChunks true sec (split data d.sectorSize)
  pruneCache d

/-- The loop of `DiskCache::read_sectors`, with `count` sectors left from the one with index `j`
on. -/
def copyCached (sec : Nat) : (count j : Nat) → Span → CacheAction σ Span
  | 0, _, data => pure data
  | count + 1, j, data => do
    let s ← get
    match s.cache[wadd sec j]? with
    | none => throw (.fault .outOfBounds)
    | some entry =>
      check (.fault .outOfBounds) (j * d.sectorSize + entry.data.size ≤ data.size)
      let ticks ← totalTicks
      restamp (wadd sec j) entry ticks
      copyCached sec count (j + 1) (data.put (j * d.sectorSize) entry.data.size entry.data.bytes)

/-- `DiskCache::read_sectors`. -/
def readSectors (sec : Nat) (data : Span) : CacheAction σ Span := do
  let count := data.size / d.sectorSize
  addSpan d sec count
  let data ← copyCached d sec count 0 data
  pruneCache d
  pure data

/-! ## The two maps

Both maps tell which sector was accessed when. What an operation does to them is stated through
lookups. -/

/-- The maps name each other's entries, and every access lies in the past of the clock. -/
structure Indexed (s : CacheState σ) : Prop where
  mono : StrictMono s.ticks
  past : ∀ t sec, s.accessTimes[t]? = some sec → t < s.ticks 0
  times : ∀ t sec, s.accessTimes[t]? = some sec ↔
    ∃ e : CacheEntry, s.cache[sec]? = some e ∧ e.accessTime = t

/-- The sector now has the given entry, accessed at the next tick, and everything else is as it
was. -/
structure Puts (s : CacheState σ) (sec : Nat) (data : Span) (dirty : Bool) (s' : CacheState σ) :
    Prop where
  disk : s'.disk = s.disk
  ticks : s'.ticks = fun i => s.ticks (i + 1)
  cache : ∀ k, s'.cache[k]? = if k = sec then some ⟨data, dirty, s.ticks 0⟩ else s.cache[k]?
  accessTimes : ∀ t, s'.accessTimes[t]? =
    if t = s.ticks 0 then some sec
    else if s.accessTimes[t]? = some sec then none else s.accessTimes[t]?

section

variable {s s' : CacheState σ} {sec : Nat} {data : Span} {dirty : Bool}

theorem Puts.mem_cache (h : Puts s sec data dirty s') (k : Nat) :
    k ∈ s'.cache ↔ k = sec ∨ k ∈ s.cache := by
  rw [TreeMap.mem_iff_isSome_getElem?, TreeMap.mem_iff_isSome_getElem?, h.cache k]
  by_cases hk : k = sec <;> simp [hk]

theorem indexed_fresh (disk : σ) {ticks : Nat → Nat} (hticks : StrictMono ticks)
    (usage : Nat → Nat) : Indexed (CacheState.fresh disk ticks usage) :=
  ⟨hticks, by simp [CacheState.fresh], by simp [CacheState.fresh]⟩

/-- The next tick is not in use. -/
theorem Indexed.next_unused (hs : Indexed s) : s.accessTimes[s.ticks 0]? = none := by
  rw [Option.eq_none_iff_forall_ne_some]
  exact fun k hk => Nat.lt_irrefl _ (hs.past _ k hk)

theorem Puts.indexed (hs : Indexed s) (h : Puts s sec data dirty s') : Indexed s' := by
  refine ⟨?_, fun t k ht => ?_, fun t k => ?_⟩
  · rw [h.ticks]
    exact fun i j hij => hs.mono (Nat.succ_lt_succ hij)
  · have hnext : s.ticks 0 < s'.ticks 0 := by
      rw [h.ticks]
      exact hs.mono Nat.zero_lt_one
    rw [h.accessTimes] at ht
    by_cases hnow : t = s.ticks 0
    · rwa [hnow]
    · rw [if_neg hnow] at ht
      split at ht
      · cases ht
      · exact (hs.past t k ht).trans hnext
  · rw [h.accessTimes, h.cache]
    by_cases hk : k = sec
    · subst hk
      by_cases hnow : t = s.ticks 0
      · simp [hnow]
      · by_cases ht : s.accessTimes[t]? = some k
        · simp [hnow, ht, Ne.symm hnow]
        · simp [hnow, ht, Ne.symm hnow]
    · rw [if_neg hk, ← hs.times]
      by_cases hnow : t = s.ticks 0
      · simp [hnow, hs.next_unused, Ne.symm hk]
      · by_cases ht : s.accessTimes[t]? = some sec
        · simp [hnow, ht, Ne.symm hk]
        · simp [hnow, ht]

/-- A sector that is in the cache already moves to the front. -/
theorem puts_restamp (hs : Indexed s) {entry : CacheEntry} {cache : TreeMap Nat CacheEntry}
    (hold : ∃ e, s.cache[sec]? = some e ∧ e.accessTime = entry.accessTime)
    (hcache : ∀ k, k ≠ sec → cache[k]? = s.cache[k]?) :
    Puts s sec entry.data entry.dirty
      { s with
        ticks := fun i => s.ticks (i + 1)
        accessTimes := (s.accessTimes.erase entry.accessTime).insertIfNew (s.ticks 0) sec
        cache := cache.insert sec { entry with accessTime := s.ticks 0 } } := by
  refine ⟨rfl, rfl, fun k => ?_, fun t => ?_⟩
  · simp only [TreeMap.getElem?_insert, Nat.compare_eq_eq]
    by_cases hk : k = sec
    · simp [hk]
    · simp [hk, Ne.symm hk, hcache k hk]
  · have huniq : s.accessTimes[t]? = some sec ↔ entry.accessTime = t := by
      rw [hs.times]
      obtain ⟨e, he, htime⟩ := hold
      simp [he, htime]
    simp only [TreeMap.getElem?_insertIfNew, TreeMap.getElem?_erase, huniq, Nat.compare_eq_eq,
      TreeMap.mem_iff_isSome_getElem?]
    by_cases ht : t = s.ticks 0
    · simp [ht, hs.next_unused]
    · simp [ht, Ne.symm ht]

theorem run_totalTicks (s : CacheState σ) :
    totalTicks.run s = .ok (s.ticks 0) { s with ticks := fun i => s.ticks (i + 1) } := rfl

theorem run_memUsageRatio (s : CacheState σ) :
    memUsageRatio.run s = .ok (s.usage 0) { s with usage := fun i => s.usage (i + 1) } := rfl

theorem run_onDisk_ok {α : Type} {op : σ → Except DiskError α × σ} {a : α} {st : σ}
    (h : op s.disk = (.ok a, st)) : (onDisk op).run s = .ok a { s with disk := st } := by
  rw [onDisk, run_get_bind, run_set_bind, h]
  rfl

theorem run_onDisk_error {α : Type} {op : σ → Except DiskError α × σ} {e : DiskError}
    (h : (op s.disk).1 = .error e) :
    (onDisk op).run s = .error (.failed e) { s with disk := (op s.disk).2 } := by
  rw [onDisk, run_get_bind, run_set_bind, h]
  rfl

theorem run_addToCache (hs : Indexed s) (sec : Nat) (data : Span) (write : Bool) :
    ∃ s', (addToCache sec data write).run s = .ok () s' ∧ Puts s sec data write s' := by
  rw [addToCache, run_bind_ok (run_totalTicks s), run_get_bind]
  cases hsec : s.cache[sec]? with
  | none =>
    refine ⟨_, rfl, rfl, rfl, fun k => ?_, fun t => ?_⟩
    · simp only [TreeMap.getElem?_insert, Nat.compare_eq_eq, @eq_comm _ sec k]
    · have hunused : s.accessTimes[t]? ≠ some sec := fun ht => by
        obtain ⟨e, he, _⟩ := (hs.times t sec).mp ht
        simp [hsec] at he
      simp only [TreeMap.getElem?_insertIfNew, Nat.compare_eq_eq, TreeMap.mem_iff_isSome_getElem?]
      by_cases ht : t = s.ticks 0
      · simp [ht, hs.next_unused]
      · simp [ht, Ne.symm ht, hunused]
  | some e =>
    have htime : s.accessTimes.contains e.accessTime = true := by
      rw [TreeMap.contains_iff_mem, TreeMap.mem_iff_isSome_getElem?,
        (hs.times e.accessTime sec).mpr ⟨e, hsec, rfl⟩]
      rfl
    rw [run_set_bind, run_check_bind htime]
    refine ⟨_, rfl, ?_⟩
    refine @puts_restamp _ _ _ hs ⟨data, write, e.accessTime⟩ _ ⟨e, hsec, rfl⟩ fun k hk => ?_
    simp only [TreeMap.getElem?_insert, Nat.compare_eq_eq, Ne.symm hk, if_false]

/-- The sector is gone from both maps. -/
structure Removes (s : CacheState σ) (sec : Nat) (s' : CacheState σ) : Prop where
  ticks : s'.ticks = s.ticks
  usage : s'.usage = s.usage
  sizeRatio : s'.sizeRatio = s.sizeRatio
  cache : ∀ k, s'.cache[k]? = if k = sec then none else s.cache[k]?
  accessTimes : ∀ t : Nat, s'.accessTimes[t]? =
    if s.accessTimes[t]? = some sec then none else s.accessTimes[t]?
  size : s'.cache.size + 1 = s.cache.size

theorem Removes.indexed (hs : Indexed s) (h : Removes s sec s') : Indexed s' := by
  refine ⟨h.ticks ▸ hs.mono, fun t k ht => ?_, fun t k => ?_⟩
  · rw [h.accessTimes] at ht
    rw [h.ticks]
    split at ht
    · cases ht
    · exact hs.past t k ht
  · rw [h.accessTimes, h.cache]
    by_cases hk : k = sec
    · subst hk
      by_cases ht : s.accessTimes[t]? = some k <;> simp [ht]
    · rw [if_neg hk, ← hs.times]
      by_cases ht : s.accessTimes[t]? = some sec
      · simp [ht, Ne.symm hk]
      · simp [ht]

/-- The end of `remove_entry`, whatever the state of the disk is by then. -/
theorem removes_erase (hs : Indexed s) {e : CacheEntry} (hsec : s.cache[sec]? = some e) (disk : σ) :
    Removes s sec { s with
      disk := disk
      accessTimes := s.accessTimes.erase e.accessTime
      cache := s.cache.erase sec } := by
  refine ⟨rfl, rfl, rfl, fun k => ?_, fun t => ?_, ?_⟩
  · simp only [TreeMap.getElem?_erase, Nat.compare_eq_eq, @eq_comm _ sec k]
  · have huniq : s.accessTimes[t]? = some sec ↔ e.accessTime = t := by
      simp [hs.times, hsec]
    simp only [TreeMap.getElem?_erase, Nat.compare_eq_eq, huniq]
  · have hmem : sec ∈ s.cache := by simp [TreeMap.mem_iff_isSome_getElem?, hsec]
    have hne : s.cache.size ≠ 0 := fun hzero => by
      rw [← beq_iff_eq, ← TreeMap.isEmpty_eq_size_eq_zero] at hzero
      exact TreeMap.isEmpty_iff_forall_not_mem.mp hzero sec hmem
    show (s.cache.erase sec).size + 1 = s.cache.size
    rw [TreeMap.size_erase, if_pos (TreeMap.contains_iff_mem.mpr hmem)]
    omega

/-- Once the write of a dirty entry has succeeded, `remove_entry` runs to its end. -/
theorem run_removeEntry_written {d : Disk σ} (hs : Indexed s) {e : CacheEntry}
    (hsec : s.cache[sec]? = some e) {disk : σ}
    (hwrite : ((if e.dirty then onDisk (d.writeSectors sec e.data) else pure ()) :
      CacheAction σ Unit).run s = .ok () { s with disk := disk }) :
    (removeEntry d sec).run s = .ok () { s with
      disk := disk
      accessTimes := s.accessTimes.erase e.accessTime
      cache := s.cache.erase sec } := by
  have htime : s.accessTimes.contains e.accessTime = true := by
    rw [TreeMap.contains_iff_mem, TreeMap.mem_iff_isSome_getElem?,
      (hs.times e.accessTime sec).mpr ⟨e, hsec, rfl⟩]
    rfl
  rw [removeEntry, run_get_bind]
  simp only [hsec]
  rw [run_bind_ok hwrite, run_modify_bind, run_check_bind htime]
  rfl

/-- While the cache holds a sector, the access times name the one that was accessed last. -/
theorem Indexed.first_cached (hs : Indexed s) (hne : s.cache.isEmpty = false) :
    ∃ sec, ∃ e : CacheEntry,
      s.accessTimes.maxKey?.bind (s.accessTimes[·]?) = some sec ∧ s.cache[sec]? = some e ∧
      ∀ (k : Nat) (f : CacheEntry), s.cache[k]? = some f → f.accessTime ≤ e.accessTime := by
  obtain ⟨k, hk⟩ := TreeMap.isEmpty_eq_false_iff_exists_mem.mp hne
  obtain ⟨e, he⟩ := Option.isSome_iff_exists.mp (TreeMap.mem_iff_isSome_getElem?.mp hk)
  have htime := (hs.times e.accessTime k).mpr ⟨e, he, rfl⟩
  have hsome : s.accessTimes.maxKey?.isSome = true := by
    rw [TreeMap.isSome_maxKey?_iff_isEmpty_eq_false, TreeMap.isEmpty_eq_false_iff_exists_mem]
    exact ⟨e.accessTime, by simp [TreeMap.mem_iff_isSome_getElem?, htime]⟩
  obtain ⟨t, ht⟩ := Option.isSome_iff_exists.mp hsome
  obtain ⟨hmem, hmax⟩ := TreeMap.maxKey?_eq_some_iff_mem_and_forall.mp ht
  obtain ⟨sec, hsec⟩ := Option.isSome_iff_exists.mp (TreeMap.mem_iff_isSome_getElem?.mp hmem)
  obtain ⟨first, hfirst, heq⟩ := (hs.times t sec).mp hsec
  refine ⟨sec, first, by rw [ht, Option.bind_some, hsec], hfirst, fun k f hf => ?_⟩
  have hlast := hmax f.accessTime (by
    simp [TreeMap.mem_iff_isSome_getElem?, (hs.times f.accessTime k).mpr ⟨f, hf, rfl⟩])
  rw [heq]
  exact Nat.isLE_compare.mp hlast

end

end DiskCache

end LudOS.Storage
