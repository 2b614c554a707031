import LudOS.Lib.Runs
import LudOS.Mem.Paging

/-!
# Allocation of virtual pages

`Paging::alloc_virtual_page` hands out runs of entries that nobody has claimed. User pages and
kernel pages are regions of their own, and each has a cursor at which the next search starts. A
search that comes to the end of its region without a run is continued once from the base of the
region. It goes on with the counter it has by then, so that the free entries at the end of the
region count as if the entries at its base came behind them.

`virtual_pages_fresh_iff` says that an allocation goes wrong exactly when these entries together are
as many as are asked for. `alloc_across_the_end` is a state in which a user page and the first page
of the kernel are handed out as one run.
-/

namespace LudOS.Mem

open Lib
open Runs hiding scan
open Tasking.PageMapping (kernelVirtualBase userVirtualBase)

/-! ## State -/

/-- `Paging::ram_maxpage`. -/
def ramMaxpage : Nat := 1024 * 1023

/-- The page tables, and the static variables of `alloc_virtual_page`. -/
structure VirtualPages where
  tables : PageTables
  userLastPos : Nat := userVirtualBase / 2 ^ 12
  kernelLastPos : Nat := kernelVirtualBase / 2 ^ 12

/-- `base`: the first page of a region. -/
def regionBase (user : Bool) : Nat := (if user then userVirtualBase else kernelVirtualBase) / 2 ^ 12

/-- The page behind a region. -/
def regionLimit (user : Bool) : Nat := if user then kernelVirtualBase / 2 ^ 12 else ramMaxpage

namespace VirtualPages

/-- `last_pos`. -/
def lastPos (s : VirtualPages) (user : Bool) : Nat :=
  if user then s.userLastPos else s.kernelLastPos

/-- Assign to `last_pos`. -/
def setLastPos (s : VirtualPages) (user : Bool) (pos : Nat) : VirtualPages :=
  if user then { s with userLastPos := pos } else { s with kernelLastPos := pos }

/-- `entries[i]`. -/
def entries (s : VirtualPages) (i : Nat) : PTEntry := s.tables.word (s.tables.pageEntry 0 + i)

/-- The entry is not claimed. -/
def free (s : VirtualPages) (i : Nat) : Bool := !(s.entries i).osClaimed

end VirtualPages

/-! ## Calls -/

/-- The `for` loop of `alloc_virtual_page` over `count` entries from `i` on. -/
def scanEntries (entries : Nat → PTEntry) (number : Nat) :
    (count i counter addr : Nat) → Except Fault ScanResult
  | 0, _, counter, addr => .ok (.exhausted counter addr)
  | count + 1, i, counter, addr =>
    if (entries i).osClaimed = false ∧ (entries i).present = true then .error .assertion
    else
      let addr' := if (entries i).osClaimed = false ∧ counter = 0 then i else addr
      let counter' := if (entries i).osClaimed = false then counter + 1 else 0
      if counter' = number then .ok (.found addr' i)
      else scanEntries entries number count (i + 1) counter' addr'

/-- The loop from the cursor to the end of the region. -/
def scanRegion (number : Nat) (user : Bool) (counter addr : Nat) :
    EStateM Fault VirtualPages ScanResult := do
  let s ← get
  match scanEntries s.entries number (regionLimit user - s.lastPos user) (s.lastPos user) counter
    addr with
  | .ok result => pure result
  | .error fault => throw fault

/-- The entries from `addr` on are claimed. -/
def PageTables.claim (t : PageTables) (addr number : Nat) : PageTables :=
  { t with word := fun k =>
      if t.pageEntry 0 + addr ≤ k ∧ k < t.pageEntry 0 + addr + number then
        { t.word k with osClaimed := true } else t.word k }

/-- What is done when the counter has come to `number` at the entry `i`. -/
def takeRun (number : Nat) (user : Bool) (addr i : Nat) : EStateM Fault VirtualPages Nat := do
  modify fun s => { s.setLastPos user i with tables := s.tables.claim addr number }
  pure (addr * pageSize)

/-- `Paging::alloc_virtual_page`. The jump back to the label `loop` happens at most once, since
`last_pos` is the base then. -/
def allocVirtualPage (number : Nat := 1) (user : Bool := false) :
    EStateM Fault VirtualPages Nat := do
  check .assertion (number ≠ 0)
  match ← scanRegion number user 0 0 with
  | .found addr i => takeRun number user addr i
  | .exhausted counter addr => do
    let s ← get
    if s.lastPos user ≠ regionBase user then do
      set (s.setLastPos user (regionBase user))
      match ← scanRegion number user counter addr with
      | .found addr i => takeRun number user addr i
      | .exhausted _ _ => throw .panic
    else throw .panic

/-- The calls that claim and release runs. -/
inductive VirtualCall where
  | alloc (number : Nat) (user : Bool)
  | release (vAddr : UInt32) (number : Nat)

/-- One call that returns. -/
inductive VirtualStep : VirtualPages → VirtualCall → VirtualPages → Prop where
  | alloc {s s' : VirtualPages} {number addr : Nat} {user : Bool} :
      (allocVirtualPage number user).run s = .ok addr s' → VirtualStep s (.alloc number user) s'
  | release {s : VirtualPages} {t' : PageTables} {vAddr : UInt32} {number : Nat} {released : Bool} :
      (releaseVirtualPage vAddr.toNat number).run s.tables = .ok released t' →
      VirtualStep s (.release vAddr number) { s with tables := t' }

/-! ## What an allocation is for -/

/-- A run of free entries of the region is claimed, and nothing else changes. -/
structure ClaimsFresh (s : VirtualPages) (number : Nat) (user : Bool) (addr : Nat)
    (s' : VirtualPages) : Prop where
  base : regionBase user ≤ addr
  limit : addr + number ≤ regionLimit user
  free : IsRun s.free addr number
  tables : s'.tables = s.tables.claim addr number

/-- An allocation returns the address of a fresh run. It fails only when the region has none, and
then with the panic. -/
def AllocatesFresh (s : VirtualPages) (number : Nat) (user : Bool) : Prop :=
  (∀ result s', (allocVirtualPage number user).run s = .ok result s' →
    ∃ addr, result = addr * pageSize ∧ ClaimsFresh s number user addr s') ∧
  (∀ fault s', (allocVirtualPage number user).run s = .error fault s' →
    fault = .panic ∧ ¬ HasRun s.free number (regionBase user) (regionLimit user))

/-- There is no run behind the cursor, and the free entries at the end of the region and those at
its base are as many together as are asked for. -/
def Straddles (s : VirtualPages) (number : Nat) (user : Bool) : Prop :=
  s.lastPos user ≠ regionBase user ∧
  ¬ HasRun s.free number (s.lastPos user) (regionLimit user) ∧
  ∃ counter, 0 < counter ∧ counter < number ∧ s.lastPos user + counter ≤ regionLimit user ∧
    IsRun s.free (regionLimit user - counter) counter ∧
    regionBase user + (number - counter) ≤ regionLimit user ∧
    IsRun s.free (regionBase user) (number - counter)

/-- No unclaimed entry is present, and the cursors are in their regions. -/
structure Clean (s : VirtualPages) : Prop where
  absent : ∀ i < pageCount, (s.entries i).osClaimed = false → (s.entries i).present = false
  cursor : ∀ user, regionBase user ≤ s.lastPos user ∧ s.lastPos user ≤ regionLimit user

section

variable {s s' : VirtualPages} {number counter addr count i : Nat} {user : Bool}

theorem regionBase_le (user : Bool) : regionBase user ≤ regionLimit user := by
  cases user <;> decide

theorem regionLimit_le (user : Bool) : regionLimit user ≤ pageCount := by
  cases user <;> decide

@[simp] theorem lastPos_setLastPos (s : VirtualPages) (user : Bool) (pos : Nat) :
    (s.setLastPos user pos).lastPos user = pos := by
  cases user <;> rfl

theorem lastPos_setLastPos_other (s : VirtualPages) (pos : Nat) {user other : Bool}
    (hne : other ≠ user) : (s.setLastPos user pos).lastPos other = s.lastPos other := by
  cases user <;> cases other <;> simp_all [VirtualPages.setLastPos, VirtualPages.lastPos]

@[simp] theorem free_setLastPos (s : VirtualPages) (user : Bool) (pos : Nat) :
    (s.setLastPos user pos).free = s.free := by
  cases user <;> rfl

/-! ## One call -/

/-- The assertion holds of clean entries, and the loop is a scan for free ones. -/
theorem scanEntries_eq_ok {entries : Nat → PTEntry}
    (habsent : ∀ j, i ≤ j → j < i + count → (entries j).osClaimed = false →
      (entries j).present = false) :
    scanEntries entries number count i counter addr =
      .ok (Runs.scan (fun j => !(entries j).osClaimed) number count i counter addr) := by
  induction count generalizing i counter addr with
  | zero => rfl
  | succ count ih =>
    have hno : ¬ ((entries i).osClaimed = false ∧ (entries i).present = true) := by
      intro hstray
      have hpresent := habsent i (Nat.le_refl i) (by omega) hstray.1
      rw [hstray.2] at hpresent
      cases hpresent
    have hrest : ∀ counter' addr', scanEntries entries number count (i + 1) counter' addr' =
        .ok (Runs.scan (fun j => !(entries j).osClaimed) number count (i + 1) counter' addr') :=
      fun counter' addr' => ih fun j hge hlt => habsent j (by omega) (by omega)
    rw [scanEntries, if_neg hno, Runs.scan]
    simp only [hrest, Bool.not_eq_true', ← apply_ite Except.ok]

theorem Clean.run_scanRegion (h : Clean s) (number : Nat) (user : Bool) (counter addr : Nat) :
    (scanRegion number user counter addr).run s = .ok (Runs.scan s.free number
      (regionLimit user - s.lastPos user) (s.lastPos user) counter addr) s := by
  have hlimit := regionLimit_le user
  have hscan := @scanEntries_eq_ok number counter addr (regionLimit user - s.lastPos user)
    (s.lastPos user) s.entries fun j hge hlt => h.absent j (by omega)
  unfold scanRegion
  rw [run_get_bind, hscan]
  rfl

/-- The state after a run has been handed out. -/
def VirtualPages.taken (s : VirtualPages) (number : Nat) (user : Bool) (addr i : Nat) :
    VirtualPages :=
  { s.setLastPos user i with tables := s.tables.claim addr number }

theorem taken_setLastPos (s : VirtualPages) (number : Nat) (user : Bool) (pos addr i : Nat) :
    (s.setLastPos user pos).taken number user addr i = s.taken number user addr i := by
  cases user <;> rfl

theorem entries_setLastPos (s : VirtualPages) (user : Bool) (pos : Nat) :
    (s.setLastPos user pos).entries = s.entries := by
  cases user <;> rfl

theorem Clean.setLastPos (h : Clean s) (hlow : regionBase user ≤ i) (hhigh : i ≤ regionLimit user) :
    Clean (s.setLastPos user i) := by
  refine ⟨?_, ?_⟩
  · rw [entries_setLastPos]
    exact h.absent
  · intro other
    by_cases heq : other = user
    · subst heq
      simpa using ⟨hlow, hhigh⟩
    · rw [lastPos_setLastPos_other s i heq]
      exact h.cursor other

/-- The first pass: from the cursor on. -/
def VirtualPages.firstPass (s : VirtualPages) (number : Nat) (user : Bool) : ScanResult :=
  Runs.scan s.free number (regionLimit user - s.lastPos user) (s.lastPos user) 0 0

/-- The second pass: from the base on, with what the first one has counted. -/
def VirtualPages.secondPass (s : VirtualPages) (number : Nat) (user : Bool) (counter addr : Nat) :
    ScanResult :=
  Runs.scan s.free number (regionLimit user - regionBase user) (regionBase user) counter addr

/-- What an allocation does, after what its passes have found. -/
theorem Clean.alloc_cases (h : Clean s) (user : Bool) (hnumber : number ≠ 0) :
    (∃ addr i, s.firstPass number user = .found addr i ∧
      (allocVirtualPage number user).run s = .ok (addr * pageSize) (s.taken number user addr i)) ∨
    (∃ counter addr, s.firstPass number user = .exhausted counter addr ∧
      s.lastPos user = regionBase user ∧
      (allocVirtualPage number user).run s = .error .panic s) ∨
    (∃ counter addr, s.firstPass number user = .exhausted counter addr ∧
      s.lastPos user ≠ regionBase user ∧
      ((∃ addr' i, s.secondPass number user counter addr = .found addr' i ∧
        (allocVirtualPage number user).run s =
          .ok (addr' * pageSize) (s.taken number user addr' i)) ∨
       (∃ counter' addr', s.secondPass number user counter addr = .exhausted counter' addr' ∧
        (allocVirtualPage number user).run s =
          .error .panic (s.setLastPos user (regionBase user))))) := by
  unfold allocVirtualPage
  rw [run_check_bind hnumber, run_bind_ok (h.run_scanRegion number user 0 0)]
  cases hfirst :
      Runs.scan s.free number (regionLimit user - s.lastPos user) (s.lastPos user) 0 0 with
  | found addr i => exact .inl ⟨addr, i, hfirst, rfl⟩
  | exhausted counter addr =>
    right
    rw [run_get_bind]
    by_cases hcursor : s.lastPos user = regionBase user
    · rw [if_neg (not_not_intro hcursor)]
      exact .inl ⟨counter, addr, hfirst, hcursor, rfl⟩
    · have hclean := h.setLastPos (Nat.le_refl _) (regionBase_le user)
      have hsecond := hclean.run_scanRegion number user counter addr
      rw [free_setLastPos, lastPos_setLastPos] at hsecond
      rw [if_pos hcursor, run_set_bind, run_bind_ok hsecond]
      refine .inr ⟨counter, addr, hfirst, hcursor, ?_⟩
      cases hpass : Runs.scan s.free number (regionLimit user - regionBase user)
          (regionBase user) counter addr with
      | found addr' i =>
        refine .inl ⟨addr', i, hpass, ?_⟩
        rw [← taken_setLastPos s number user (regionBase user)]
        rfl
      | exhausted counter' addr' => exact .inr ⟨counter', addr', hpass, rfl⟩

theorem Clean.counted (h : Clean s) (hnumber : 0 < number)
    (hfirst : s.firstPass number user = .exhausted counter addr) :
    Counted s.free number (s.lastPos user) (regionLimit user) counter addr := by
  have hcounted := scan_eq_exhausted hnumber (counted_start hnumber (s.lastPos user) 0) hfirst
  rwa [Nat.add_sub_cancel' (h.cursor user).2] at hcounted

/-! ## When a run is fresh -/

/-- The run that is found across the end of the region ends outside of it. -/
theorem Clean.not_allocatesFresh (h : Clean s) (hstraddles : Straddles s number user) :
    ¬ AllocatesFresh s number user := by
  obtain ⟨hcursor, hnone, counter, hpos, hlt, hfits, hend, hbase, hrun⟩ := hstraddles
  intro hfresh
  have hnumber : 0 < number := by omega
  rcases h.alloc_cases user (Nat.ne_of_gt hnumber) with
    ⟨addr, i, hfirst, -⟩ | ⟨-, -, -, heq, -⟩ | ⟨counted, addr, hfirst, -, hcases⟩
  · have hlimit := (h.cursor user).2
    obtain ⟨hlow, hhigh, hfound⟩ :=
      scan_eq_found hnumber (counted_start hnumber (s.lastPos user) 0) hfirst
    exact hnone ⟨addr, hlow, by omega, hfound⟩
  · exact hcursor heq
  · -- The first pass has counted all free entries at the end.
    have hcounted := h.counted hnumber hfirst
    have hall : counter ≤ counted := by
      rcases hcounted.full with hfull | hclaimed
      · omega
      · by_contra hmore
        have hfree := hend (regionLimit user - counted - 1) (by omega) (by omega)
        rw [hclaimed] at hfree
        cases hfree
    have haddr := hcounted.addr (by omega)
    have hsecond : s.secondPass number user counted addr = .found addr _ :=
      scan_carried_run (by omega) hcounted.lt (hrun.mono (by omega)) (by omega)
    rcases hcases with ⟨addr', i, hfound, hok⟩ | ⟨counter', addr', hexhausted, -⟩
    · rw [hsecond] at hfound
      cases hfound
      obtain ⟨start, heq, hclaims⟩ := hfresh.1 _ _ hok
      have hlast := hclaims.limit
      have hcounted_lt := hcounted.lt
      have hstart : addr = start := Nat.eq_of_mul_eq_mul_right (by decide) heq
      omega
    · rw [hsecond] at hexhausted
      cases hexhausted

/-- The second pass finds a run of the region, or sees that there is none. -/
theorem secondPass_spec (hstraddles : ¬ Straddles s number user)
    (hcursor : s.lastPos user ≠ regionBase user)
    (hcounted : Counted s.free number (s.lastPos user) (regionLimit user) counter addr) :
    (∀ addr' i, s.secondPass number user counter addr = .found addr' i →
      regionBase user ≤ addr' ∧ addr' + number ≤ regionLimit user ∧ IsRun s.free addr' number) ∧
    (∀ counter' addr', s.secondPass number user counter addr = .exhausted counter' addr' →
      ¬ HasRun s.free number (regionBase user) (regionLimit user)) := by
  have hregion := regionBase_le user
  have hlt := hcounted.lt
  have hend : regionBase user + (regionLimit user - regionBase user) = regionLimit user := by omega
  rcases Nat.eq_zero_or_pos counter with rfl | hpos
  · have hstart := @counted_start s.free number hlt (regionBase user) addr
    refine ⟨?_, ?_⟩
    · intro addr' i hfound
      have hspec := scan_eq_found hlt hstart hfound
      rwa [hend] at hspec
    · intro counter' addr' hexhausted
      have hspec := scan_eq_exhausted hlt hstart hexhausted
      rw [hend] at hspec
      exact hspec.none
  · have hempty : IsRun s.free (regionBase user) (regionBase user - regionBase user) :=
      fun j hge hlt => by omega
    have hnot : ¬ (IsRun s.free (regionBase user) (number - counter) ∧ regionBase user +
        (number - counter) ≤ regionBase user + (regionLimit user - regionBase user)) := by
      intro hboth
      obtain ⟨hrun, hfits⟩ := hboth
      refine hstraddles ⟨hcursor, hcounted.none, counter, hpos, hlt, hcounted.le, ?_, by omega,
        hrun⟩
      intro j hge hlt'
      have hle := hcounted.le
      exact hcounted.run j hge (by omega)
    have hcarried := scan_carried addr hlt (Nat.le_refl (regionBase user)) hempty hnot
    simp only [Nat.sub_self, Nat.add_zero, hend] at hcarried
    exact hcarried

theorem allocatesFresh_of_ok {result : Nat}
    (hrun : (allocVirtualPage number user).run s = .ok result s')
    (hfresh : ∃ addr, result = addr * pageSize ∧ ClaimsFresh s number user addr s') :
    AllocatesFresh s number user := by
  refine ⟨?_, ?_⟩
  · intro result' s'' hok
    rw [hrun] at hok
    cases hok
    exact hfresh
  · intro fault s'' herror
    rw [hrun] at herror
    cases herror

theorem allocatesFresh_of_panic (hrun : (allocVirtualPage number user).run s = .error .panic s')
    (hnone : ¬ HasRun s.free number (regionBase user) (regionLimit user)) :
    AllocatesFresh s number user := by
  refine ⟨?_, ?_⟩
  · intro result s'' hok
    rw [hrun] at hok
    cases hok
  · intro fault s'' herror
    rw [hrun] at herror
    cases herror
    exact ⟨rfl, hnone⟩

theorem Clean.allocatesFresh (h : Clean s) (hnumber : 0 < number)
    (hstraddles : ¬ Straddles s number user) : AllocatesFresh s number user := by
  have hcursor := h.cursor user
  rcases h.alloc_cases user (Nat.ne_of_gt hnumber) with
    ⟨addr, i, hfirst, hrun⟩ | ⟨counter, addr, hfirst, heq, hrun⟩ |
      ⟨counter, addr, hfirst, hne, hcases⟩
  · obtain ⟨hlow, hhigh, hfree⟩ :=
      scan_eq_found hnumber (counted_start hnumber (s.lastPos user) 0) hfirst
    exact allocatesFresh_of_ok hrun ⟨addr, rfl, by omega, by omega, hfree, rfl⟩
  · exact allocatesFresh_of_panic hrun (heq ▸ (h.counted hnumber hfirst).none)
  · obtain ⟨hfound, hnone⟩ := secondPass_spec hstraddles hne (h.counted hnumber hfirst)
    rcases hcases with ⟨addr', i, hpass, hrun⟩ | ⟨counter', addr', hpass, hrun⟩
    · obtain ⟨hlow, hhigh, hfree⟩ := hfound addr' i hpass
      exact allocatesFresh_of_ok hrun ⟨addr', rfl, hlow, hhigh, hfree, rfl⟩
    · exact allocatesFresh_of_panic hrun (hnone counter' addr' hpass)

/-! ## Histories -/

/-- Where the entries of the first table lie does not change when entries are claimed. -/
theorem pageEntry_claim (t : PageTables) (first number addr : Nat) :
    (t.claim first number).pageEntry addr = t.pageEntry addr := by
  unfold PageTables.pageEntry PageTables.pageDirectory PageTables.claim
  dsimp only
  split <;> rfl

theorem Clean.claim (h : Clean s) (addr number : Nat) :
    Clean { s with tables := s.tables.claim addr number } := by
  refine ⟨?_, h.cursor⟩
  intro i hi
  have habsent := h.absent i hi
  unfold VirtualPages.entries at habsent ⊢
  rw [pageEntry_claim]
  unfold PageTables.claim
  dsimp only
  split
  case isTrue => exact fun hclaimed => Bool.noConfusion hclaimed
  case isFalse => exact habsent

/-- An entry is released: it is not present any more. -/
theorem Clean.put (h : Clean s) (k : Nat) :
    Clean { s with tables := (s.tables.put k
      { s.tables.word k with present := false, osClaimed := false }) } := by
  refine ⟨?_, h.cursor⟩
  intro i hi
  have habsent := h.absent i hi
  have hentry :
      (s.tables.put k { s.tables.word k with present := false, osClaimed := false }).pageEntry
      0 = s.tables.pageEntry 0 := by
    unfold PageTables.pageEntry PageTables.pageDirectory PageTables.put
    dsimp only
    split
    case isTrue heq => rw [heq]
    case isFalse => rfl
  unfold VirtualPages.entries at habsent ⊢
  rw [hentry, PageTables.word_put]
  split
  case isTrue => exact fun _ => rfl
  case isFalse => exact habsent

theorem Clean.taken (h : Clean s) (hlow : regionBase user ≤ i) (hhigh : i ≤ regionLimit user) :
    Clean (s.taken number user addr i) := by
  have hclaimed := (h.claim addr number).setLastPos hlow hhigh
  cases user
  · exact hclaimed
  · exact hclaimed

theorem Clean.step (h : Clean s) {call : VirtualCall} (hstep : VirtualStep s call s') :
    Clean s' := by
  cases hstep with
  | @alloc _ number result user hrun =>
    have hcursor := h.cursor user
    have hnumber : number ≠ 0 := by
      obtain ⟨_, r, hcheck, -⟩ := run_bind_eq_ok.mp hrun
      exact (run_check_eq_ok.mp hcheck).1
    rcases h.alloc_cases user hnumber with ⟨addr, i, hpass, hok⟩ | ⟨-, -, -, -, hpanic⟩ |
      ⟨counter, addr, -, -, ⟨addr', i, hpass, hok⟩ | ⟨-, -, -, hpanic⟩⟩
    · cases hok.symm.trans hrun
      have hlast := last_of_scan hpass
      exact h.taken (by omega) (by omega)
    · cases hpanic.symm.trans hrun
    · cases hok.symm.trans hrun
      have hlast := last_of_scan hpass
      exact h.taken (by omega) (by omega)
    · cases hpanic.symm.trans hrun
  | @release t' vAddr number released hrun =>
    unfold releaseVirtualPage at hrun
    rw [run_get_bind] at hrun
    obtain ⟨⟨⟩, r, hloop, hpure⟩ := run_bind_eq_ok.mp hrun
    cases hpure
    have hbody : ∀ j t t₁, 0 ≤ j → j < 0 + number → Clean { s with tables := t } →
        (releaseEntry .freePage (s.tables.pageEntry vAddr.toNat) j).run t = .ok () t₁ →
        Clean { s with tables := t₁ } := by
      intro j t t₁ _ _ hclean hentry
      obtain ⟨-, rfl⟩ := run_releaseEntry_eq_ok.mp hentry
      exact hclean.put _
    exact loop_preserves hbody h hloop

/-- After any history of allocations and releases, an allocation is right unless the free entries on
both sides of the region are counted as one run. -/
theorem virtual_pages_fresh_iff {s₀ : VirtualPages} (h : Clean s₀) {calls : List VirtualCall}
    (hrun : Steps VirtualStep s₀ calls s) {number : Nat} (hnumber : 1 ≤ number) (user : Bool) :
    AllocatesFresh s number user ↔ ¬ Straddles s number user := by
  have hclean := hrun.invariant Clean (fun _ _ _ hs hstep => hs.step hstep) h
  refine ⟨?_, hclean.allocatesFresh hnumber⟩
  intro hfresh hstraddles
  exact hclean.not_allocatesFresh hstraddles hfresh

end

/-! ## A run across the end -/

/-- Page tables in which the given pages are free. -/
def freeOnly (pages : Nat → Bool) : PageTables :=
  ⟨0, fun k => { osClaimed := !pages k }⟩

theorem entries_freeOnly (pages : Nat → Bool) (userLastPos kernelLastPos i : Nat) :
    VirtualPages.entries ⟨freeOnly pages, userLastPos, kernelLastPos⟩ i =
      { osClaimed := !pages i } := by
  unfold VirtualPages.entries PageTables.pageEntry PageTables.pageDirectory freeOnly
  simp

theorem clean_freeOnly (pages : Nat → Bool) {userLastPos : Nat}
    (hlow : regionBase true ≤ userLastPos) (hhigh : userLastPos ≤ regionLimit true) :
    Clean ⟨freeOnly pages, userLastPos, kernelVirtualBase / 2 ^ 12⟩ := by
  refine ⟨?_, ?_⟩
  · intro i _ _
    rw [entries_freeOnly]
  · intro user
    cases user with
    | false =>
      have hregion := regionBase_le false
      simp only [VirtualPages.lastPos, regionBase, Bool.false_eq_true, if_false]
      exact ⟨Nat.le_refl _, hregion⟩
    | true => exact ⟨hlow, hhigh⟩

/-- All pages are free, and the cursor is at the base. -/
theorem virtual_pages_fresh_at_first :
    AllocatesFresh ⟨freeOnly fun _ => true, regionBase true, kernelVirtualBase / 2 ^ 12⟩
      2 true := by
  have hclean := clean_freeOnly (fun _ => true) (Nat.le_refl _) (regionBase_le true)
  refine (virtual_pages_fresh_iff hclean (.refl _) (Nat.le_succ 1) true).mpr ?_
  intro hstraddles
  apply hstraddles.1
  simp [VirtualPages.lastPos]

/-- The first and the last user page are free, and the cursor is at the last one. -/
def endsFree : VirtualPages :=
  ⟨freeOnly fun i => i = regionBase true ∨ i + 1 = regionLimit true, regionLimit true - 1,
    kernelVirtualBase / 2 ^ 12⟩

/-- The last user page is handed out together with the first page of the kernel. -/
theorem alloc_across_the_end : ¬ AllocatesFresh endsFree 2 true := by
  have hregion : regionBase true + 1 < regionLimit true := by decide
  have hcursor : endsFree.lastPos true = regionLimit true - 1 := by
    simp [VirtualPages.lastPos, endsFree]
  have hfree : ∀ j, j = regionBase true ∨ j + 1 = regionLimit true → endsFree.free j = true := by
    intro j hj
    unfold VirtualPages.free endsFree
    rw [entries_freeOnly]
    simp [hj]
  have hclean : Clean endsFree := clean_freeOnly _ (by omega) (by omega)
  refine hclean.not_allocatesFresh ⟨by omega, ?_, 1, by omega, by omega, by omega, ?_, by omega, ?_⟩
  · intro hrun
    obtain ⟨addr, hlow, hhigh, -⟩ := hrun
    omega
  · intro j hge hlt
    exact hfree j (by omega)
  · intro j hge hlt
    exact hfree j (by omega)

end LudOS.Mem
