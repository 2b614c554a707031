import LudOS.Storage.CacheTransparency

/-!
# Which sectors the cache gives up

`prune_cache` removes the sector that `m_access_times.begin()` names until memory is no longer
short. The map is ordered by `std::greater`, so this is the sector that was accessed last, and
every sector that a prune removes was accessed after every one that it keeps. A cache that gives
up the sectors it used least recently does the opposite. The two agree only for a prune that
removes nothing or everything.
-/

namespace LudOS.Storage.DiskCache

open Lib
open Std (TreeMap)

variable {σ : Type}

/-- Every sector that is kept was accessed after every one that is gone. -/
def LeastRecent (s s' : CacheState σ) : Prop :=
  ∀ (a b : Nat) (e f : CacheEntry), s.cache[a]? = some e → s'.cache[a]? = none →
    s'.cache[b]? = some f → e.accessTime < f.accessTime

/-- Every sector that is kept was accessed before every one that is gone. -/
structure EvictsNewest (s s' : CacheState σ) : Prop where
  kept : ∀ (k : Nat) (f : CacheEntry), s'.cache[k]? = some f → s.cache[k]? = some f
  newer : ∀ (a b : Nat) (e f : CacheEntry), s.cache[a]? = some e → s'.cache[a]? = none →
    s'.cache[b]? = some f → f.accessTime < e.accessTime

/-- Writes to the disk succeed. -/
def Writable (d : Disk σ) : Prop :=
  ∀ sec data st, ∃ st', d.writeSectors sec data st = (.ok (), st')

/-! ## Pruning -/

section

variable {d : Disk σ} {s s₁ s' : CacheState σ} {sec : Nat} {e : CacheEntry}

/-- No two sectors have the same access time. -/
theorem Indexed.eq_of_accessTime (hs : Indexed s) {a b : Nat} {e f : CacheEntry}
    (ha : s.cache[a]? = some e) (hb : s.cache[b]? = some f) (htime : e.accessTime = f.accessTime) :
    a = b := by
  have hnames := (hs.times e.accessTime a).mpr ⟨e, ha, rfl⟩
  rw [(hs.times e.accessTime b).mpr ⟨f, hb, htime.symm⟩] at hnames
  exact (Option.some.inj hnames).symm

theorem EvictsNewest.refl (s : CacheState σ) : EvictsNewest s s :=
  ⟨fun _ _ h => h, fun a _ e _ ha hgone => by rw [ha] at hgone; cases hgone⟩

/-- The sector accessed last goes first. -/
theorem EvictsNewest.cons (hs : Indexed s) (hsec : s.cache[sec]? = some e)
    (hlast : ∀ (k : Nat) (f : CacheEntry), s.cache[k]? = some f → f.accessTime ≤ e.accessTime)
    (hremoves : Removes s sec s₁) (h : EvictsNewest s₁ s') : EvictsNewest s s' := by
  refine ⟨fun k f hf => (hremoves.cached (h.kept k f hf)).2, fun a b g f ha hgone hf => ?_⟩
  obtain ⟨hne, hb⟩ := hremoves.cached (h.kept b f hf)
  by_cases hfirst : a = sec
  · subst hfirst
    rw [hsec] at ha
    cases ha
    refine Nat.lt_of_le_of_ne (hlast b f hb) fun htime => hne ?_
    exact hs.eq_of_accessTime hb hsec htime
  · refine h.newer a b g f ?_ hgone hf
    rwa [hremoves.cache, if_neg hfirst]

theorem run_removeFirst_newest (hd : Writable d) (hs : Indexed s) (hne : s.cache.isEmpty = false) :
    ∃ s' sec, ∃ e : CacheEntry, (removeFirst d).run s = .ok () s' ∧ s.cache[sec]? = some e ∧
      (∀ (k : Nat) (f : CacheEntry), s.cache[k]? = some f → f.accessTime ≤ e.accessTime) ∧
      Removes s sec s' := by
  obtain ⟨sec, e, hfirst, hsec, hlast⟩ := hs.first_cached hne
  obtain ⟨disk, hwrite⟩ : ∃ disk,
      ((if e.dirty then onDisk (d.writeSectors sec e.data) else pure ()) : CacheAction σ Unit).run
        s = .ok () { s with disk := disk } := by
    cases e.dirty with
    | false => exact ⟨s.disk, rfl⟩
    | true =>
      obtain ⟨disk, hwrite⟩ := hd sec e.data s.disk
      exact ⟨disk, run_onDisk_ok hwrite⟩
  refine ⟨_, sec, e, ?_, hsec, hlast, removes_erase hs hsec disk⟩
  rw [removeFirst, run_get_bind]
  simp only [hfirst]
  exact run_removeEntry_written hs hsec hwrite

/-- The loop stops at the first reading that is not above the ratio, or with the cache empty. -/
theorem run_pruneLoop_newest (hd : Writable d) (rounds : Nat) (hs : Indexed s)
    (hsize : s.cache.size = rounds) :
    ∃ s', (pruneLoop d rounds).run s = .ok () s' ∧ Indexed s' ∧ EvictsNewest s s' ∧
      (s.usage 0 ≤ s.sizeRatio → s'.cache = s.cache) ∧
      (0 < rounds → s.sizeRatio < s.usage 0 →
        ∃ (a : Nat) (e : CacheEntry), s.cache[a]? = some e ∧ s'.cache[a]? = none) ∧
      (s'.cache.isEmpty = true ↔ ∀ i < rounds, s.sizeRatio < s.usage i) := by
  induction rounds generalizing s with
  | zero =>
    refine ⟨s, rfl, hs, .refl s, fun _ => rfl, fun h => absurd h (Nat.lt_irrefl 0), ?_⟩
    simp [TreeMap.isEmpty_eq_size_eq_zero, hsize]
  | succ rounds ih =>
    have hne : s.cache.isEmpty = false := by simp [TreeMap.isEmpty_eq_size_eq_zero, hsize]
    have hs₀ : Indexed { s with usage := fun i => s.usage (i + 1) } := { hs with }
    rw [pruneLoop, run_get_bind, hne]
    simp only [Bool.false_eq_true, if_false]
    rw [run_bind_ok (run_memUsageRatio s)]
    by_cases hfull : s.sizeRatio < s.usage 0
    · obtain ⟨s₁, sec, e, hrun, hsec, hlast, hremoves⟩ := run_removeFirst_newest hd hs₀ hne
      have hless : s₁.cache.size + 1 = s.cache.size := hremoves.size
      obtain ⟨s', hrest, hs', hnewest, _, _, hempty⟩ := ih (hremoves.indexed hs₀) (by omega)
      rw [hremoves.usage, hremoves.sizeRatio] at hempty
      have hgone : s'.cache[sec]? = none := by
        rw [Option.eq_none_iff_forall_ne_some]
        exact fun f hf => (hremoves.cached (hnewest.kept sec f hf)).1 rfl
      have hall := EvictsNewest.cons hs₀ hsec hlast hremoves hnewest
      refine ⟨s', ?_, hs', { hall with }, fun h => absurd hfull (by omega),
        fun _ _ => ⟨sec, e, hsec, hgone⟩, hempty.trans ⟨fun h i hi => ?_, fun h i hi => ?_⟩⟩
      · rw [if_pos hfull, run_bind_ok hrun, hrest]
      · cases i with
        | zero => exact hfull
        | succ i => exact h i (by omega)
      · exact h (i + 1) (by omega)
    · refine ⟨_, by rw [if_neg hfull]; rfl, hs₀, ?_, fun _ => rfl, fun _ h => absurd h hfull, ?_⟩
      · exact { EvictsNewest.refl s with }
      · refine iff_of_false (by simp [hne]) fun h => hfull (h 0 (Nat.succ_pos _))

theorem run_pruneCache_newest (hd : Writable d) (hs : Indexed s) :
    ∃ s', (pruneCache d).run s = .ok () s' ∧ Indexed s' ∧ (LeastRecent s s' ↔
      s.usage 1 ≤ s.sizeRatio ∨ ∀ i < s.cache.size, s.sizeRatio < s.usage (i + 1)) := by
  have hs₀ : Indexed { s with usage := fun i => s.usage (i + 1) } := { hs with }
  obtain ⟨s', hrun, hs', hnewest, hstays, hleaves, hempty⟩ := run_pruneLoop_newest hd _ hs₀ rfl
  refine ⟨s', hrun, hs', fun hleast => ?_, fun hcalm a b e f ha hgone hf => ?_⟩
  · by_contra hhalf
    simp only [not_or, not_forall, Nat.not_le, Nat.not_lt] at hhalf
    obtain ⟨hfull, i, hi, hlow⟩ := hhalf
    have hsome : s'.cache.isEmpty = false := by
      rw [← Bool.not_eq_true, hempty]
      exact fun h => absurd (h i hi) (Nat.not_lt.mpr hlow)
    obtain ⟨b, hb⟩ := TreeMap.isEmpty_eq_false_iff_exists_mem.mp hsome
    obtain ⟨f, hf⟩ := Option.isSome_iff_exists.mp (TreeMap.mem_iff_isSome_getElem?.mp hb)
    obtain ⟨a, e, ha, hgone⟩ := hleaves (Nat.zero_lt_of_lt hi) hfull
    have hnewer := hnewest.newer a b e f ha hgone hf
    have holder := hleast a b e f ha hgone hf
    omega
  · rcases hcalm with hlow | hfull
    · rw [hstays hlow] at hgone
      have hkeep : s.cache[a]? = none := hgone
      rw [ha] at hkeep
      cases hkeep
    · rw [TreeMap.getElem?_of_isEmpty (hempty.mpr hfull)] at hf
      cases hf

end

/-! ## The maps during a run

Whatever a call does, and whether it succeeds or not, it leaves the two maps naming each other's
entries. -/

section

variable {d : Disk σ}

theorem keeps_onDisk {α : Type} (op : σ → Except DiskError α × σ) :
    Keeps Indexed (onDisk op) := by
  refine keeps_get_bind fun s hs => keeps_seq (keeps_set { hs with }) fun _ => ?_
  split
  · exact keeps_pure _
  · exact keeps_throw _

theorem keeps_addChunks (write : Bool) (chunks : List Span) (sec : Nat) :
    Keeps Indexed (addChunks write sec chunks : CacheAction σ Unit) := by
  induction chunks generalizing sec with
  | nil => exact keeps_pure ()
  | cons chunk chunks ih =>
    refine keeps_seq (fun s hs => ?_) fun _ => ih (wadd sec 1)
    obtain ⟨s', hrun, hputs⟩ := run_addToCache hs sec chunk write
    rw [endState_of_ok hrun]
    exact hputs.indexed hs

theorem keeps_buffer (n : Nat) : Keeps Indexed (buffer n : CacheAction σ Span) := by
  unfold buffer
  split
  · exact keeps_pure _
  · exact keeps_throw _

theorem keeps_addSpanFrom (stop count rounds i : Nat) :
    Keeps Indexed (addSpanFrom d stop count rounds i) := by
  induction rounds generalizing i with
  | zero => exact keeps_pure ()
  | succ rounds ih =>
    refine keeps_ite (keeps_get_bind fun s _ => keeps_ite (ih _) ?_) (keeps_pure ())
    exact keeps_seq (keeps_buffer _) fun _ => keeps_seq (keeps_onDisk _) fun _ =>
      keeps_seq (keeps_addChunks _ _ _) fun _ => ih _

/-- A sector that is read gets a new access time in both maps. -/
theorem keeps_copyCached (sec count j : Nat) (data : Span) :
    Keeps Indexed (copyCached d sec count j data) := by
  induction count generalizing j data with
  | zero => exact keeps_pure data
  | succ count ih =>
    intro s hs
    cases hsec : s.cache[wadd sec j]? with
    | none =>
      have hrun : (copyCached d sec (count + 1) j data).run s =
          .error (.fault .outOfBounds) s := by
        rw [copyCached, run_get_bind]
        simp only [hsec]
        rfl
      rwa [endState_of_error hrun]
    | some entry =>
      by_cases hfits : j * d.sectorSize + entry.data.size ≤ data.size
      · obtain ⟨s₁, hputs, hrun⟩ := run_copyCached_cached hs hsec hfits
        rw [endState_congr hrun]
        exact ih _ _ s₁ (hputs.indexed hs)
      · have hrun : (copyCached d sec (count + 1) j data).run s =
            .error (.fault .outOfBounds) s := by
          rw [copyCached, run_get_bind]
          simp only [hsec]
          exact run_bind_error (run_check_neg hfits s)
        rwa [endState_of_error hrun]

theorem keeps_pruneCache (hd : Writable d) : Keeps Indexed (pruneCache d) := by
  intro s hs
  obtain ⟨s', hrun, hs', _⟩ := run_pruneCache_newest hd hs
  rwa [endState_of_ok hrun]

theorem keeps_flushLoop (hd : Writable d) (rounds : Nat) : Keeps Indexed (flushLoop d rounds) := by
  induction rounds with
  | zero => exact keeps_pure ()
  | succ rounds ih =>
    intro s hs
    cases hempty : s.cache.isEmpty with
    | true =>
      have hrun : (flushLoop d (rounds + 1)).run s = .ok () s := by
        rw [flushLoop, run_get_bind, hempty]
        rfl
      rwa [endState_of_ok hrun]
    | false =>
      obtain ⟨s₁, _, _, hfirst, _, _, hremoves⟩ := run_removeFirst_newest hd hs hempty
      have hrun : (flushLoop d (rounds + 1)).run s = (flushLoop d rounds).run s₁ := by
        rw [flushLoop, run_get_bind, hempty]
        exact run_bind_ok hfirst
      rw [endState_congr hrun]
      exact ih s₁ (hremoves.indexed hs)

/-- A call of one of the functions of the cache. -/
def Call.perform (d : Disk σ) : Call → CacheAction σ Unit
  | .read sec data => do
    let _ ← readSectors d sec data
  | .write sec data => writeSectors d sec data
  | .setRatio ratio => DiskCache.setRatio d ratio
  | .flush => DiskCache.flush d

/-- The state after the calls, failed or not. -/
def after (d : Disk σ) (calls : List Call) (s : CacheState σ) : CacheState σ :=
  calls.foldl (fun s c => endState (c.perform d) s) s

/-- The call begins in `s` and comes to `prune_cache` in `t`. A flush never does. -/
inductive Call.Prunes (d : Disk σ) (s : CacheState σ) : Call → CacheState σ → Prop where
  | read {sec : Nat} {data filled : Span} {s₁ t : CacheState σ}
      (hadd : (addSpan d sec (data.size / d.sectorSize)).run s = .ok () s₁)
      (hcopy : (copyCached d sec (data.size / d.sectorSize) 0 data).run s₁ = .ok filled t) :
      Prunes d s (.read sec data) t
  | write {sec : Nat} {data : Span} {t : CacheState σ}
      (hadd : (addChunks true sec (split data d.sectorSize)).run s = .ok () t) :
      Prunes d s (.write sec data) t
  | setRatio (ratio : Nat) : Prunes d s (.setRatio ratio) { s with sizeRatio := ratio }

theorem keeps_perform (hd : Writable d) (c : Call) : Keeps Indexed (c.perform d) := by
  cases c with
  | read sec data =>
    exact keeps_seq (keeps_seq (keeps_addSpanFrom _ _ _ _) fun _ =>
      keeps_seq (keeps_copyCached _ _ _ _) fun _ => keeps_seq (keeps_pruneCache hd) fun _ =>
        keeps_pure _) fun _ => keeps_pure _
  | write sec data => exact keeps_seq (keeps_addChunks _ _ _) fun _ => keeps_pruneCache hd
  | setRatio ratio =>
    exact keeps_seq (keeps_modify fun _ hs => { hs with }) fun _ => keeps_pruneCache hd
  | flush => exact keeps_get_bind fun _ _ => keeps_flushLoop hd _

variable {s t : CacheState σ} {c : Call}

theorem Call.Prunes.indexed (h : c.Prunes d s t) (hs : Indexed s) : Indexed t := by
  cases h with
  | read hadd hcopy =>
    exact (keeps_copyCached _ _ _ _).of_ok hcopy ((keeps_addSpanFrom _ _ _ _).of_ok hadd hs)
  | write hadd => exact (keeps_addChunks _ _ _).of_ok hadd hs
  | setRatio ratio => exact { hs with }

end

end LudOS.Storage.DiskCache
