import LudOS.Tasking.AddressSpaces

/-!
# Address spaces, one entry at a time

`Edit` says what the functions on address spaces do to the tables: an entry with a new page is added
or given back, or one for a page of the kernel is added. `Reaches` is a run of such edits, and the
invariants of the modules that follow are derived from it. What the functions do to whole tables is
stated next to it: `GivenBack` for the pages of a table that is released, `System.entered` for a new
process with the pages of its kernel stack, and `Joins` for a process that refers to a table.
-/

namespace LudOS.Tasking.AddressSpaces

open Std (TreeMap)
open Lib Mem PageMapping

/-! ## Edits -/

/-- What happens to one entry of a table: an owned page is added, a page of the kernel is added, an
owned page is given back, or nothing. -/
inductive Edit where
  | acquire (table virtAddr page flags : Nat)
  | borrow (table virtAddr paddr flags : Nat)
  | drop (table virtAddr page : Nat)
  | quiet

/-- Nothing has changed but the content of memory, callbacks and thread-local storage. -/
structure Quiet (s s' : System) : Prop where
  allocator : s'.machine.allocator = s.machine.allocator
  paging : s'.paging = s.paging
  lookup : ∀ table virtAddr, s'.lookup table virtAddr = s.lookup table virtAddr
  tableOf : ∀ pid, s'.tableOf pid = s.tableOf pid
  stackOf : ∀ pid, s'.stackOf pid = s.stackOf pid
  current : s'.current = s.current
  nextTable : s'.nextTable = s.nextTable
  log : s'.log = s.log

/-- One edit. -/
inductive Edits (s : System) : Edit → System → Prop where
  | acquire {table virtAddr page flags : Nat} {allocator : PhysPageAllocator} {paging : PageTables}
      (memory : Bytes) : s.lookup table virtAddr = none →
      PhysPageAllocator.HandedOut s.machine.allocator [] page allocator →
      MapsTo s table virtAddr page flags paging →
      Edits s (.acquire table virtAddr page flags) (System.insert
        { s with machine := ⟨allocator, memory⟩, paging, log := s.log ++ [.alloc page] }
        table virtAddr ⟨page, flags, true⟩)
  | borrow {table virtAddr paddr flags : Nat} {paging : PageTables} :
      s.lookup table virtAddr = none → MapsTo s table virtAddr paddr flags paging →
      Edits s (.borrow table virtAddr paddr flags)
        (System.insert { s with paging } table virtAddr ⟨paddr, flags, false⟩)
  | drop {table virtAddr : Nat} {mapping : MemoryMapping} :
      s.lookup table virtAddr = some mapping → mapping.owned = true →
      s.used mapping.paddr = true → (s.paging.entry virtAddr).osClaimed = true →
      Edits s (.drop table virtAddr mapping.paddr) (System.erase
        { s.freed mapping.paddr with paging := s.paging.release virtAddr } table virtAddr)
  | quiet {s' : System} : Quiet s s' → Edits s .quiet s'

/-- Edits that all meet a condition lead from one state to another. -/
def Reaches (guard : Edit → Prop) (s s' : System) : Prop :=
  ∃ edits, Steps (Guarded (fun _ e => guard e) Edits) s edits s'

section

variable {s s' s'' : System} {guard guard' : Edit → Prop} {e : Edit} {t pid : Nat}

theorem Reaches.refl (s : System) : Reaches guard s s := ⟨[], .refl s⟩

theorem Reaches.trans (h : Reaches guard s s') (h' : Reaches guard s' s'') :
    Reaches guard s s'' := by
  obtain ⟨es, hes⟩ := h
  obtain ⟨es', hes'⟩ := h'
  exact ⟨es ++ es', hes.append hes'⟩

theorem Edits.reaches (h : Edits s e s') (hguard : guard e) : Reaches guard s s' :=
  ⟨[e], .snoc (.refl s) ⟨hguard, h⟩⟩

theorem Reaches.mono (h : Reaches guard s s') (hguard : ∀ e, guard e → guard' e) :
    Reaches guard' s s' := by
  obtain ⟨es, hes⟩ := h
  refine ⟨es, ?_⟩
  induction hes with
  | refl => exact .refl _
  | snoc _ hstep ih => exact .snoc ih ⟨hguard _ hstep.1, hstep.2⟩

/-- What every edit with the condition keeps is kept by all of them together. -/
theorem Reaches.invariant (h : Reaches guard s s') (inv : System → Prop)
    (hstep : ∀ r e r', inv r → guard e → Edits r e r' → inv r') (hs : inv s) : inv s' := by
  obtain ⟨es, hes⟩ := h
  exact hes.invariant inv (fun r e r' hr hguarded => hstep r e r' hr hguarded.1 hguarded.2) hs

/-- Edits leave the processes where they are. -/
structure SameProcesses (s s' : System) : Prop where
  tableOf : ∀ pid, s'.tableOf pid = s.tableOf pid
  stackOf : ∀ pid, s'.stackOf pid = s.stackOf pid
  current : s'.current = s.current
  nextTable : s'.nextTable = s.nextTable

theorem SameProcesses.trans (h : SameProcesses s s') (h' : SameProcesses s' s'') :
    SameProcesses s s'' :=
  ⟨fun pid => (h'.tableOf pid).trans (h.tableOf pid),
    fun pid => (h'.stackOf pid).trans (h.stackOf pid), h'.current.trans h.current,
    h'.nextTable.trans h.nextTable⟩

theorem SameProcesses.refl (s : System) : SameProcesses s s :=
  ⟨fun _ => rfl, fun _ => rfl, rfl, rfl⟩

theorem Edits.sameProcesses (h : Edits s e s') : SameProcesses s s' := by
  cases h with
  | acquire => exact ⟨fun _ => rfl, fun _ => rfl, rfl, rfl⟩
  | borrow => exact ⟨fun _ => rfl, fun _ => rfl, rfl, rfl⟩
  | drop => exact ⟨fun _ => rfl, fun _ => rfl, rfl, rfl⟩
  | quiet hquiet => exact ⟨hquiet.tableOf, hquiet.stackOf, hquiet.current, hquiet.nextTable⟩

theorem Reaches.sameProcesses (h : Reaches guard s s') : SameProcesses s s' := by
  exact h.invariant (SameProcesses s) (fun r e r' hr _ hstep => hr.trans hstep.sameProcesses)
    (.refl s)

theorem Reaches.tableOf_eq (h : Reaches guard s s') (htable : s.tableOf pid = some t) :
    s'.tableOf pid = some t :=
  (h.sameProcesses.tableOf pid).trans htable

/-! ## Functions as edits -/

/-- The edit adds a page to the table, at an address of the given kind. A page that the kernel keeps
is the page of the trampoline or not there at all. -/
def Adds (trampoline table : Nat) (addr : Nat → Prop) : Edit → Prop
  | .acquire t v _ _ => t = table ∧ addr v
  | .borrow t v paddr flags => t = table ∧ addr v ∧
      (paddr = trampoline ∧ flags = trampolineFlags ∨ flags = sentinelFlags)
  | .drop _ _ _ => False
  | .quiet => True

theorem Adds.mono {trampoline table : Nat} {addr addr' : Nat → Prop}
    (haddr : ∀ v, addr v → addr' v) (e : Edit) (h : Adds trampoline table addr e) :
    Adds trampoline table addr' e := by
  cases e with
  | acquire => exact ⟨h.1, haddr _ h.2⟩
  | borrow => exact ⟨h.1, haddr _ h.2.1, h.2.2⟩
  | drop => exact h
  | quiet => trivial

section

variable {trampoline t' v page flags : Nat} {addr : Nat → Prop} {m : MemoryMapping}
  {found count i : Nat} {mapped : Nat → Bool}

/-- An entry is kept, or it is one that is added, and was free. -/
theorem lookup_of_add (hguard : Adds trampoline t addr e) (hedit : Edits s e s') :
    s'.lookup t' v = s.lookup t' v ∨ (t' = t ∧ addr v) ∧ s.lookup t' v = none := by
  cases hedit with
  | acquire memory hfree =>
    obtain ⟨rfl, haddr⟩ := hguard
    rw [lookup_insert]
    split
    case isTrue h => exact .inr ⟨⟨h.1, h.2 ▸ haddr⟩, by rw [h.1, h.2, hfree]⟩
    case isFalse => exact .inl rfl
  | borrow hfree =>
    obtain ⟨rfl, haddr, -⟩ := hguard
    rw [lookup_insert]
    split
    case isTrue h => exact .inr ⟨⟨h.1, h.2 ▸ haddr⟩, by rw [h.1, h.2, hfree]⟩
    case isFalse => exact .inl rfl
  | drop => exact hguard.elim
  | quiet hquiet => exact .inl (hquiet.lookup t' v)

/-- An address outside of those that are added keeps its mapping. -/
theorem lookup_of_adds (h : Reaches (Adds trampoline t addr) s s') (hother : t' ≠ t ∨ ¬ addr v) :
    s'.lookup t' v = s.lookup t' v := by
  refine h.invariant (fun r => r.lookup t' v = s.lookup t' v) (fun r e r' hr hguard hedit => ?_) rfl
  rcases lookup_of_add hguard hedit with hkept | ⟨hadded, -⟩
  · exact hkept.trans hr
  · exact absurd hadded (not_and_or.mpr hother)

/-- A mapping stays when others are added. -/
theorem lookup_some_of_adds (h : Reaches (Adds trampoline t addr) s s')
    (hv : s.lookup t' v = some m) : s'.lookup t' v = some m := by
  refine h.invariant (fun r => r.lookup t' v = some m) (fun r e r' hr hguard hedit => ?_) hv
  rcases lookup_of_add hguard hedit with hkept | ⟨-, hfree⟩
  · exact hkept.trans hr
  · cases hr.symm.trans hfree

/-- What is free after others have been added was free before. -/
theorem lookup_none_of_adds (h : Reaches (Adds trampoline t addr) s s')
    (hv : s'.lookup t' v = none) : s.lookup t' v = none := by
  cases hlookup : s.lookup t' v with
  | none => rfl
  | some m => cases hv.symm.trans (lookup_some_of_adds h hlookup)

/-- The table of a process whose page has been mapped. -/
theorem run_mapPage_tableOf {paddr : Nat} {owned : Bool}
    (hrun : (mapPage pid v paddr flags owned).run s = .ok () s') (htable : s.tableOf pid = some t) :
    ∃ paging, MapsTo s t v paddr flags paging ∧ s.lookup t v = none ∧
      s' = System.insert { s with paging } t v ⟨paddr, flags, owned⟩ := by
  obtain ⟨table, paging, htable', -, hmaps, hfree, rfl⟩ := run_mapPage_eq_ok.mp hrun
  cases htable.symm.trans htable'
  exact ⟨paging, hmaps, hfree, rfl⟩

/-- A new page that is mapped after some change to memory. -/
theorem edits_acquire {r r' : System} {memory : Bytes}
    (halloc : allocatePhysicalPage.run s = .ok page r) (htable : s.tableOf pid = some t)
    (hrun : (mapPage pid v page flags true).run
      { r with machine := { r.machine with memory } } = .ok () r') :
    Edits s (.acquire t v page flags) r' := by
  obtain ⟨machine, htakes, rfl⟩ := run_allocatePhysicalPage_eq_ok halloc
  obtain ⟨paging, hmaps, hfree, rfl⟩ := run_mapPage_tableOf hrun htable
  exact .acquire memory hfree htakes.handedOut hmaps

/-- A loop whose iterations each add a page, with the addresses that they use. -/
theorem loop_acquires {body : Nat → SystemAction Unit} {addrOf : Nat → Nat}
    (htable : s.tableOf pid = some t)
    (hbody : ∀ i r r', r.tableOf pid = some t → (body i).run r = .ok () r' →
      ∃ page, Edits r (.acquire t (addrOf i) page flags) r')
    (haddr : ∀ i < count, addr (addrOf i)) (hrun : (loop body 0 count).run s = .ok () s') :
    Reaches (Adds trampoline t addr) s s' ∧ ∀ i < count, s.lookup t (addrOf i) = none ∧
      ∃ page, s'.lookup t (addrOf i) = some ⟨page, flags, true⟩ := by
  have hinv := loop_carries (fun i r => Reaches (Adds trampoline t addr) s r ∧
    ∀ j < i, s.lookup t (addrOf j) = none ∧
      ∃ page, r.lookup t (addrOf j) = some ⟨page, flags, true⟩)
    (fun i r r' _ hi hr hstep => ?_) ⟨.refl s, fun j hj => absurd hj (Nat.not_lt_zero j)⟩ hrun
  · rwa [Nat.zero_add] at hinv
  · obtain ⟨hreaches, hpages⟩ := hr
    obtain ⟨page, hedit⟩ := hbody i r r' (hreaches.tableOf_eq htable) hstep
    have hadds : Reaches (Adds trampoline t addr) r r' := hedit.reaches ⟨rfl, haddr i (by omega)⟩
    refine ⟨hreaches.trans hadds, fun j hj => ?_⟩
    rcases Nat.lt_succ_iff_lt_or_eq.mp hj with hlt | rfl
    · obtain ⟨hfree, page', hlookup⟩ := hpages j hlt
      exact ⟨hfree, page', lookup_some_of_adds hadds hlookup⟩
    · cases hedit with
      | acquire memory hfree =>
        exact ⟨lookup_none_of_adds hreaches hfree, page, by rw [lookup_insert, if_pos ⟨rfl, rfl⟩]⟩

theorem run_fillCodePage_eq_ok {code : List UInt8} {physAddr : Nat}
    (hrun : (onMachine (fillCodePage code i physAddr)).run s = .ok () s') :
    ∃ memory, s' = { s with machine := { s.machine with memory } } := by
  obtain ⟨r, hfill, rfl⟩ := run_onMachine_eq_ok.mp hrun
  obtain ⟨memory, hfill'⟩ := run_fillCodePage code i physAddr s.machine
  cases hfill'.symm.trans hfill
  exact ⟨memory, rfl⟩

section

variable (htable : s.tableOf pid = some t)

include htable

theorem run_mapCodePage_edits {code : List UInt8}
    (hrun : (mapCodePage pid code i).run s = .ok () s') :
    ∃ page, Edits s (.acquire t (codeAddr i) page codeFlags) s' := by
  obtain ⟨page, r, halloc, hrun⟩ := run_bind_eq_ok.mp hrun
  obtain ⟨_, r', hfill, hrun⟩ := run_bind_eq_ok.mp hrun
  obtain ⟨memory, rfl⟩ := run_fillCodePage_eq_ok hfill
  obtain ⟨-, hrun⟩ := run_check_bind_eq_ok.mp hrun
  exact ⟨page, edits_acquire halloc htable hrun⟩

theorem run_mapStackPage_edits (hrun : (mapStackPage pid i).run s = .ok () s') :
    ∃ page, Edits s (.acquire t (stackAddr i) page userFlags) s' := by
  obtain ⟨page, r, halloc, hrun⟩ := run_bind_eq_ok.mp hrun
  obtain ⟨-, hrun⟩ := run_check_bind_eq_ok.mp hrun
  exact ⟨page, edits_acquire halloc htable hrun⟩

theorem run_mapNewPage_edits
    (hrun : (mapNewPage pid v).run s = .ok page s') : Edits s (.acquire t v page userFlags) s' := by
  obtain ⟨page', r, halloc, hrun⟩ := run_bind_eq_ok.mp hrun
  obtain ⟨_, r', hmap, hrun⟩ := run_bind_eq_ok.mp hrun
  cases hrun
  exact edits_acquire halloc htable hmap

/-- A new page for a free address, with memory left. -/
theorem exists_run_mapNewPage
    (hlive : s.tableOf s.current ≠ none) (hroom : ∃ i < pageCount, s.used (i * pageSize) = false)
    (hfree : s.lookup t v = none)
    (habsent : s.tableOf s.current = some t → (s.paging.entry v).present = false) :
    ∃ page s', (mapNewPage pid v).run s = .ok page s' := by
  obtain ⟨page, machine, -, halloc⟩ := exists_run_allocatePhysicalPage hroom
  obtain ⟨s', hmap⟩ := @exists_run_mapPage { s with machine, log := s.log ++ [.alloc page] } t v pid
    htable hlive hfree habsent page userFlags true
  exact ⟨page, s', (run_bind_ok halloc).trans (run_bind_ok hmap)⟩

end

/-- The addresses of an image with `n` pages of code and `k` pages of stack. -/
def ImageAddr (n k v : Nat) : Prop :=
  (∃ i < n, v = codeAddr i) ∨ (∃ i < k, v = stackAddr i) ∨ v = signalTrampolinePage

/-- The entries of an image. -/
structure HasImage (trampoline n k t : Nat) (s : System) : Prop where
  code : ∀ i < n, ∃ page, s.lookup t (codeAddr i) = some ⟨page, codeFlags, true⟩
  stack : ∀ i < k, ∃ page, s.lookup t (stackAddr i) = some ⟨page, userFlags, true⟩
  trampoline : s.lookup t signalTrampolinePage = some ⟨trampoline, trampolineFlags, false⟩

/-- `create_mappings` adds the pages of an image. Code and stack do not meet. -/
theorem run_createMappings_image {code : List UInt8} {allocatedSize stackSize : Nat}
    (htable : s.tableOf pid = some t)
    (hrun : (createMappings trampoline pid code allocatedSize stackSize).run s = .ok () s') :
    Reaches (Adds trampoline t (ImageAddr (pagesOf allocatedSize) (pagesOf stackSize))) s s' ∧
      HasImage trampoline (pagesOf allocatedSize) (pagesOf stackSize) t s' ∧
      s.lookup t signalTrampolinePage = none ∧
      ∀ i < pagesOf allocatedSize, ∀ j < pagesOf stackSize, codeAddr i ≠ stackAddr j := by
  generalize haddr : ImageAddr (pagesOf allocatedSize) (pagesOf stackSize) = addr
  obtain ⟨p, -, hrun⟩ := run_process_bind_eq_ok.mp hrun
  obtain ⟨_, r, hcode, hrun⟩ := run_bind_eq_ok.mp hrun
  obtain ⟨_, r', hstack, hrun⟩ := run_bind_eq_ok.mp hrun
  obtain ⟨hr, hcodePages⟩ : Reaches (Adds trampoline t addr) s r ∧ _ :=
    loop_acquires htable (fun i q q' hq => run_mapCodePage_edits hq)
      (fun i hi => haddr ▸ .inl ⟨i, hi, rfl⟩) hcode
  obtain ⟨hr', hstackPages⟩ : Reaches (Adds trampoline t addr) r r' ∧ _ :=
    loop_acquires (hr.tableOf_eq htable) (fun i q q' hq => run_mapStackPage_edits hq)
      (fun i hi => haddr ▸ .inr (.inl ⟨i, hi, rfl⟩)) hstack
  obtain ⟨paging, hmaps, hfree, rfl⟩ := run_mapPage_tableOf hrun ((hr.trans hr').tableOf_eq htable)
  have hlast : Reaches (Adds trampoline t addr) r' _ := (Edits.borrow hfree hmaps).reaches
    ⟨rfl, haddr ▸ .inr (.inr rfl), .inl ⟨rfl, rfl⟩⟩
  refine ⟨(hr.trans hr').trans hlast, ⟨fun i hi => ?_, fun i hi => ?_, ?_⟩,
    lookup_none_of_adds (hr.trans hr') hfree, fun i hi j hj heq => ?_⟩
  · obtain ⟨-, page, hpage⟩ := hcodePages i hi
    exact ⟨page, lookup_some_of_adds (hr'.trans hlast) hpage⟩
  · obtain ⟨-, page, hpage⟩ := hstackPages i hi
    exact ⟨page, lookup_some_of_adds hlast hpage⟩
  · rw [lookup_insert, if_pos ⟨rfl, rfl⟩]
  · obtain ⟨-, page, hpage⟩ := hcodePages i hi
    rw [heq, (hstackPages j hj).1] at hpage
    cases hpage

theorem codeAddr_eq (hi : i < 753664) : codeAddr i = userVirtualBase + i * pageSize := by
  unfold codeAddr wadd wmul userVirtualBase pageSize
  omega

theorem stackAddr_eq (hi : i < 753664) : stackAddr i = kernelVirtualBase - (i + 2) * pageSize := by
  unfold stackAddr wsub wmul userStackTop kernelVirtualBase pageSize
  omega

/-- Code that does not meet two pages of stack ends below them. -/
theorem le_of_separate {n : Nat} (hsep : ∀ i < n, ∀ j < 2, codeAddr i ≠ stackAddr j) :
    n ≤ 753661 := by
  by_contra hlt
  refine hsep 753661 (Nat.lt_of_not_le hlt) 1 (by decide) ?_
  rfl

/-- A page below the kernel. -/
def UserPage (v : Nat) : Prop := v % pageSize = 0 ∧ v < kernelVirtualBase

/-- The addresses of an image that has been loaded are user pages. -/
theorem ImageAddr.userPage {n : Nat} (h : ImageAddr n 2 v) (hn : n ≤ 753661) : UserPage v := by
  rcases h with ⟨i, hi, hv⟩ | ⟨i, hi, hv⟩ | hv
  · rw [hv, codeAddr_eq (by omega)]
    unfold UserPage userVirtualBase kernelVirtualBase pageSize
    omega
  · rw [hv, stackAddr_eq (by omega)]
    unfold UserPage kernelVirtualBase pageSize
    omega
  · rw [hv]
    exact ⟨by decide, by decide⟩

/-- The search starts at page `first` and ends before the page numbers do, with the address of a
page. -/
theorem searchPages_range {left addr counter first : Nat} (hfirst : first ≤ i)
    (haddr : counter ≠ 0 → addr % 2 ^ 12 = 0 ∧ first * 2 ^ 12 ≤ addr ∧
      addr + counter * 2 ^ 12 = i * 2 ^ 12)
    (hcount : count ≠ 0) (h : searchPages mapped count i left addr counter = some found) :
    found % 2 ^ 12 = 0 ∧ first * 2 ^ 12 ≤ found ∧ found + count * 2 ^ 12 ≤ (i + left) * 2 ^ 12 := by
  induction left generalizing i addr counter with
  | zero => cases h
  | succ left ih =>
    unfold searchPages at h
    have hnext : i + 1 + left = i + (left + 1) := by omega
    cases hfree : mapped (i * 2 ^ 12) with
    | true =>
      simp only [hfree, Bool.true_eq_false, false_and, if_false] at h
      rw [if_neg (fun h => hcount h.symm)] at h
      exact hnext ▸ ih (Nat.le_succ_of_le hfirst) (fun hne => absurd rfl hne) h
    | false =>
      -- Either the row goes on or it starts here.
      have hstart : (if counter = 0 then i * 2 ^ 12 else addr) % 2 ^ 12 = 0 ∧
          first * 2 ^ 12 ≤ (if counter = 0 then i * 2 ^ 12 else addr) ∧
          (if counter = 0 then i * 2 ^ 12 else addr) + (counter + 1) * 2 ^ 12 =
            (i + 1) * 2 ^ 12 := by
        split
        case isTrue hzero =>
          omega
        case isFalse hzero =>
          omega
      simp only [hfree, true_and, if_true] at h
      split at h
      case isTrue heq =>
        cases h
        exact ⟨hstart.1, hstart.2.1, by omega⟩
      case isFalse => exact hnext ▸ ih (Nat.le_succ_of_le hfirst) (fun _ => hstart) h

/-- The pages that are found lie in user memory. -/
theorem findPages_range (hcount : count ≠ 0)
    (h : findPages mapped count = some found) : found % pageSize = 0 ∧ userVirtualBase ≤ found ∧
      found + count * pageSize ≤ kernelVirtualBase := by
  have hrange := searchPages_range (Nat.le_refl _) (fun hne => absurd rfl hne) hcount h
  have hfirst : userVirtualBase / 2 ^ 12 * 2 ^ 12 = userVirtualBase := by decide
  have hlast : (userVirtualBase / 2 ^ 12 +
      (kernelVirtualBase / 2 ^ 12 - userVirtualBase / 2 ^ 12)) * 2 ^ 12 = kernelVirtualBase := by
    decide
  rwa [hfirst, hlast] at hrange

theorem findPages_userPage (h : findPages mapped count = some found) (hi : i < count) :
    UserPage (found + i * pageSize) := by
  obtain ⟨hmod, -, hle⟩ := findPages_range (by omega) h
  unfold pageSize at hmod hle
  unfold UserPage pageSize
  constructor
  · omega
  · omega

section

variable (htable : s.tableOf pid = some t)

include htable

/-- `allocate_virtual_page` only looks at the table. -/
theorem run_allocateVirtualPage_eq_ok : (allocateVirtualPage pid count).run s = .ok found s' ↔
      findPages (s.tables t).contains count = some found ∧ s = s' := by
  obtain ⟨p, hp, rfl⟩ := tableOf_eq_some.mp htable
  unfold allocateVirtualPage
  rw [run_process_bind hp, run_get_bind]
  cases findPages (s.tables p.mappings).contains count with
  | none =>
    constructor
    · rintro ⟨⟩
    · rintro ⟨⟨⟩, -⟩
  | some a => simp

/-- One iteration of the loop over new pages. -/
theorem run_mapNewPages_body
    (hrun : (do let _ ← mapNewPage pid (found + i * pageSize) : SystemAction Unit).run s =
      .ok () s') : ∃ page, Edits s (.acquire t (found + i * pageSize) page userFlags) s' := by
  obtain ⟨page, r, hnew, hrun⟩ := run_bind_eq_ok.mp hrun
  cases hrun
  exact ⟨page, run_mapNewPage_edits htable hnew⟩

theorem run_mapNewPages_reaches (haddr : ∀ i < count, addr (found + i * pageSize))
    (hrun : (mapNewPages pid found count).run s = .ok () s') :
    Reaches (Adds trampoline t addr) s s' ∧ ∀ i < count, s.lookup t (found + i * pageSize) = none ∧
      ∃ page, s'.lookup t (found + i * pageSize) = some ⟨page, userFlags, true⟩ := by
  exact loop_acquires htable (fun i q q' hq hbody => run_mapNewPages_body hq hbody) haddr hrun

/-- `allocate_pages` adds user pages. -/
theorem run_allocatePages_reaches {pages : Nat}
    (hrun : (allocatePages pid pages).run s = .ok found s') :
    Reaches (Adds trampoline t UserPage) s s' := by
  obtain ⟨found', r, hfind, hrun⟩ := run_bind_eq_ok.mp hrun
  obtain ⟨hfind', rfl⟩ := (run_allocateVirtualPage_eq_ok htable).mp hfind
  obtain ⟨_, r, hpages, hrun⟩ := run_bind_eq_ok.mp hrun
  cases hrun
  exact (run_mapNewPages_reaches htable (fun i hi => findPages_userPage hfind' hi) hpages).1

end

theorem Quiet.reaches (h : Quiet s s') : Reaches (Adds trampoline t addr) s s' :=
  (Edits.quiet h).reaches trivial

/-- A process gets new callbacks or thread-local storage. -/
theorem quiet_setProcess {p q : Process} (hp : s.byPid pid = some p)
    (hq : q.mappings = p.mappings) (hstack : q.kernelStack = p.kernelStack) :
    Quiet s (s.setProcess pid q) :=
  ⟨rfl, rfl, fun _ _ => rfl, tableOf_setProcess hp hq, stackOf_setProcess hp hstack, rfl, rfl, rfl⟩

/-- The addresses of thread-local storage. -/
def TlsAddr (found v : Nat) : Prop := ∃ i < tlsPages + 1, v = found + i * pageSize

/-- `init_tls` adds the pages of thread-local storage at the first free addresses. -/
theorem run_initTls_pages (trampoline : Nat) (htable : s.tableOf pid = some t)
    (hrun : (initTls pid).run s = .ok () s') :
    ∃ found, findPages (s.tables t).contains (tlsPages + 1) = some found ∧
      Reaches (Adds trampoline t (TlsAddr found)) s s' ∧
      ∀ v, TlsAddr found v → ∃ page, s'.lookup t v = some ⟨page, userFlags, true⟩ := by
  obtain ⟨found, r, hfind, hrun⟩ := run_bind_eq_ok.mp hrun
  obtain ⟨hfind', rfl⟩ := (run_allocateVirtualPage_eq_ok htable).mp hfind
  obtain ⟨_, r, hpages, hrun⟩ := run_bind_eq_ok.mp hrun
  obtain ⟨hr, hfirst⟩ : Reaches (Adds trampoline t (TlsAddr found)) s r ∧ _ :=
    run_mapNewPages_reaches htable (fun i hi => ⟨i, Nat.lt_succ_of_lt hi, rfl⟩) hpages
  obtain ⟨page, r', hlast, hrun⟩ := run_bind_eq_ok.mp hrun
  have hedit := run_mapNewPage_edits (hr.tableOf_eq htable) hlast
  have hr' : Reaches (Adds trampoline t (TlsAddr found)) r r' :=
    hedit.reaches ⟨rfl, tlsPages, Nat.lt_succ_self _, rfl⟩
  obtain ⟨_, r'', hwrite, hrun⟩ := run_bind_eq_ok.mp hrun
  obtain ⟨m, hm, rfl⟩ := run_onMachine_eq_ok.mp hwrite
  cases hm
  obtain ⟨p, hp, hrun⟩ := run_process_bind_eq_ok.mp hrun
  have hquiet : Quiet r' s' := by
    cases hrun
    exact ⟨rfl, rfl, fun _ _ => rfl, tableOf_setProcess hp rfl, stackOf_setProcess hp rfl, rfl, rfl,
      rfl⟩
  refine ⟨found, hfind', (hr.trans hr').trans (Quiet.reaches hquiet), ?_⟩
  rintro v ⟨i, hi, rfl⟩
  rw [hquiet.lookup]
  rcases Nat.lt_succ_iff_lt_or_eq.mp hi with hlt | rfl
  · obtain ⟨-, page', hlookup⟩ := hfirst i hlt
    exact ⟨page', lookup_some_of_adds hr' hlookup⟩
  · cases hedit with
    | acquire => exact ⟨page, by rw [lookup_insert, if_pos ⟨rfl, rfl⟩]⟩

theorem run_initTls_reaches (htable : s.tableOf pid = some t)
    (hrun : (initTls pid).run s = .ok () s') : Reaches (Adds trampoline t UserPage) s s' := by
  obtain ⟨found, hfind, hadds, -⟩ := run_initTls_pages trampoline htable hrun
  refine hadds.mono (Adds.mono ?_)
  rintro v ⟨i, hi, rfl⟩
  exact findPages_userPage hfind hi

/-- `create_user_callback_impl` adds at most a page that is not there. -/
theorem run_createUserCallbackImpl_reaches {callback address : Nat} {argSizes : List Nat}
    (htable : s.tableOf pid = some t)
    (hrun : (createUserCallbackImpl pid callback argSizes).run s = .ok address s') :
    Reaches (Adds trampoline t UserPage) s s' := by
  obtain ⟨p, hp, hrun⟩ := run_process_bind_eq_ok.mp hrun
  obtain ⟨_, r, hpage, hrun⟩ := run_bind_eq_ok.mp hrun
  have hr : Reaches (Adds trampoline t UserPage) s r := by
    split at hpage
    · obtain ⟨found, q, hfind, hpage⟩ := run_bind_eq_ok.mp hpage
      obtain ⟨hfind', rfl⟩ := (run_allocateVirtualPage_eq_ok htable).mp hfind
      obtain ⟨_, q, hmap, hpage⟩ := run_bind_eq_ok.mp hpage
      obtain ⟨paging, hmaps, hfree, rfl⟩ := run_mapPage_tableOf hmap htable
      obtain ⟨p', hp', hpage⟩ := run_process_bind_eq_ok.mp hpage
      cases hpage
      have huser : UserPage found := by simpa using findPages_userPage hfind' Nat.one_pos
      refine ((Edits.borrow hfree hmaps).reaches ⟨rfl, huser, .inr rfl⟩).trans (Quiet.reaches ?_)
      exact quiet_setProcess hp' rfl rfl
    · cases hpage
      exact .refl _
  obtain ⟨p', hp', hrun⟩ := run_process_bind_eq_ok.mp hrun
  split at hrun
  · cases hrun
  · cases hrun
    refine hr.trans (Quiet.reaches ?_)
    exact quiet_setProcess hp' rfl rfl

end

end

section

variable {s s' : System} {trampoline t t' v pid : Nat} {addr : Nat → Prop} {m : MemoryMapping}
  {it : Iteration} {pairs : List (Nat × MemoryMapping)}

/-! ## Pages that are given back -/

/-- The edit gives back a page of the table, at an address of the given kind. -/
def Drops (table : Nat) (addr : Nat → Prop) : Edit → Prop
  | .drop t v _ => t = table ∧ addr v
  | .acquire .. | .borrow .. | .quiet => False

theorem run_releasePage_edits {ptr i : Nat} (htable : s.tableOf pid = some t)
    (hrun : (releasePage pid ptr i).run s = .ok () s') :
    ∃ page, Edits s (.drop t (wadd ptr (wmul i pageSize)) page) s' := by
  obtain ⟨p, hp, rfl⟩ := tableOf_eq_some.mp htable
  unfold releasePage at hrun
  rw [run_process_bind hp, run_get_bind] at hrun
  split at hrun
  case h_1 => cases hrun
  case h_2 mapping hlookup =>
    obtain ⟨_, r, hrelease, hrun⟩ := run_bind_eq_ok.mp hrun
    obtain ⟨hused, rfl⟩ := run_releasePhysicalPage_eq_ok.mp hrelease
    obtain ⟨_, r, hunmap, hrun⟩ := run_bind_eq_ok.mp hrun
    obtain ⟨hclaimed, rfl⟩ := run_unmapPage_eq_ok.mp hunmap
    obtain ⟨howned, hrun⟩ := run_check_bind_eq_ok.mp hrun
    cases hrun
    exact ⟨_, .drop hlookup howned hused hclaimed⟩

/-- The addresses of a row of pages, as the pointer arithmetic of `release_pages` gives them. -/
def InRow (ptr pages v : Nat) : Prop := ∃ i < pages, v = wadd ptr (wmul i pageSize)

/-- What is missing stays missing when entries are dropped. -/
theorem lookup_none_of_drop {e : Edit} (hguard : Drops t addr e) (hedit : Edits s e s')
    (hv : s.lookup t' v = none) : s'.lookup t' v = none := by
  cases hedit with
  | drop =>
    rw [lookup_erase]
    split
    · rfl
    · exact hv
  | acquire => exact hguard.elim
  | borrow => exact hguard.elim
  | quiet => exact hguard.elim

/-- `release_pages` gives back the pages of a row. -/
theorem run_releasePages_reaches {ptr pages : Nat} {released : Bool}
    (htable : s.tableOf pid = some t)
    (hrun : (releasePages pid ptr pages).run s = .ok released s') :
    Reaches (Drops t (InRow ptr pages)) s s' ∧ ∀ v, InRow ptr pages v → s'.lookup t v = none := by
  obtain ⟨p, -, hrun⟩ := run_process_bind_eq_ok.mp hrun
  obtain ⟨-, hrun⟩ := run_check_bind_eq_ok.mp hrun
  obtain ⟨_, r, hloop, hrun⟩ := run_bind_eq_ok.mp hrun
  cases hrun
  have hinv := loop_carries (fun i r => Reaches (Drops t (InRow ptr pages)) s r ∧
    ∀ v, InRow ptr i v → r.lookup t v = none) (fun i q q' _ hi hq hbody => ?_)
    ⟨.refl s, fun v hv => ?_⟩ hloop
  · rwa [Nat.zero_add] at hinv
  · obtain ⟨hreaches, hgone⟩ := hq
    obtain ⟨page, hedit⟩ := run_releasePage_edits (hreaches.tableOf_eq htable) hbody
    have hguard : Drops t (InRow ptr pages) (.drop t (wadd ptr (wmul i pageSize)) page) :=
      ⟨rfl, i, by omega, rfl⟩
    refine ⟨hreaches.trans (hedit.reaches hguard), ?_⟩
    rintro v ⟨j, hj, rfl⟩
    rcases Nat.lt_succ_iff_lt_or_eq.mp hj with hlt | rfl
    · exact lookup_none_of_drop hguard hedit (hgone _ ⟨j, hlt, rfl⟩)
    · cases hedit with
      | drop => rw [lookup_erase, if_pos ⟨rfl, rfl⟩]
  · obtain ⟨j, hj, -⟩ := hv
    omega

theorem used_freed (s : System) (page addr : Nat) :
    (s.freed page).used addr = if addr / pageSize = page / pageSize then false else s.used addr :=
  PhysPageAllocator.get_set _ _ _ _

/-- The owned pages of a list of mappings. -/
def ownedPages (pairs : List (Nat × MemoryMapping)) : List Nat :=
  (pairs.filter fun pair => pair.2.owned).map fun pair => pair.2.paddr

theorem mem_ownedPages {page : Nat} :
    page ∈ ownedPages pairs ↔ ∃ pair ∈ pairs, pair.2.owned = true ∧ pair.2.paddr = page := by
  unfold ownedPages
  simp only [List.mem_map, List.mem_filter, and_assoc]

/-- The owned pages of a list of mappings have been given back. -/
structure GivenBack (pairs : List (Nat × MemoryMapping)) (s s' : System) : Prop where
  rest : ∃ allocator, s' = { s with
    machine := { s.machine with allocator }, log := s.log ++ (ownedPages pairs).map .release }
  used : ∀ addr, s'.used addr = true ↔ s.used addr = true ∧
    ∀ pair ∈ pairs, pair.2.owned = true → addr / pageSize ≠ pair.2.paddr / pageSize

theorem run_each_releaseOwned
    (hrun : (each releaseOwned pairs).run s = .ok () s') : GivenBack pairs s s' := by
  induction pairs generalizing s with
  | nil =>
    cases hrun
    exact ⟨⟨s'.machine.allocator, by simp [ownedPages]⟩, fun addr => by simp⟩
  | cons pair pairs ih =>
    obtain ⟨_, r, hfirst, hrest⟩ := run_bind_eq_ok.mp hrun
    obtain ⟨⟨allocator, rfl⟩, hused⟩ := ih hrest
    unfold releaseOwned at hfirst
    split at hfirst
    case isTrue howned =>
      obtain ⟨-, rfl⟩ := run_releasePhysicalPage_eq_ok.mp hfirst
      refine ⟨⟨allocator, ?_⟩, fun addr => ?_⟩
      · simp [ownedPages, howned, System.freed]
      · rw [hused, used_freed]
        by_cases hpage : addr / pageSize = pair.2.paddr / pageSize
        · simp [hpage, howned]
        · simp [hpage]
    case isFalse howned =>
      cases hfirst
      refine ⟨⟨allocator, ?_⟩, fun addr => ?_⟩
      · simp [ownedPages, howned]
      · rw [hused]
        simp [howned]

/-- A loop over a table meets its mappings. -/
theorem Iteration.mem_order (it : Iteration) : (v, m) ∈ it.order (s.tables t) ↔
    s.lookup t v = some m := by
  rw [(it.perm (s.tables t)).mem_iff]
  exact TreeMap.mem_toList_iff_getElem?_eq_some

/-- It meets no address twice. -/
theorem Iteration.nodup_keys (it : Iteration) (mappings : Mappings) :
    ((it.order mappings).map Prod.fst).Nodup := by
  rw [((it.perm mappings).map Prod.fst).nodup_iff, TreeMap.map_fst_toList_eq_keys]
  exact TreeMap.nodup_keys

/-- At most one process refers to the table. -/
def System.Unshared (s : System) (t : Nat) : Prop := s.useCount t ≤ 1

section

variable (htable : s.tableOf pid = some t)

include htable

/-- A table is shared when a second process refers to it. -/
theorem not_unshared_iff : ¬ s.Unshared t ↔ ∃ pid' ≠ pid, s.tableOf pid' = some t := by
  obtain ⟨p, hp, rfl⟩ := tableOf_eq_some.mp htable
  unfold System.Unshared System.useCount
  rw [Nat.not_le, one_lt_countP_slot hp (decide_eq_true rfl)]
  constructor
  · rintro ⟨pid', q, hne, hq, heq⟩
    exact ⟨pid', hne, tableOf_eq_some.mpr ⟨q, hq, of_decide_eq_true heq⟩⟩
  · rintro ⟨pid', hne, htable'⟩
    obtain ⟨q, hq, heq⟩ := tableOf_eq_some.mp htable'
    exact ⟨pid', q, hne, hq, decide_eq_true heq⟩

theorem unshared_iff : s.Unshared t ↔ ∀ pid', s.tableOf pid' = some t → pid' = pid := by
  constructor
  · intro hunshared pid' htable'
    by_contra hne
    exact (not_unshared_iff htable).mpr ⟨pid', hne, htable'⟩ hunshared
  · intro honly
    by_contra hshared
    obtain ⟨pid', hne, htable'⟩ := (not_unshared_iff htable).mp hshared
    exact hne (honly pid' htable')

section

variable (hrun : (releaseMappings it pid).run s = .ok () s')

include hrun

/-- `release_mappings` leaves a shared table alone and empties any other. -/
theorem run_releaseMappings_cases : (¬ s.Unshared t ∧ s = s') ∨ (s.Unshared t ∧
      ∃ r, GivenBack (it.order (s.tables t)) s r ∧ s' = r.setTable t ∅) := by
  obtain ⟨p, hp, rfl⟩ := tableOf_eq_some.mp htable
  unfold releaseMappings at hrun
  rw [run_process_bind hp, run_get_bind] at hrun
  unfold System.Unshared
  split at hrun
  case isTrue hshared =>
    cases hrun
    exact .inl ⟨by omega, rfl⟩
  case isFalse hshared =>
    obtain ⟨_, r, hloop, hrun⟩ := run_bind_eq_ok.mp hrun
    cases hrun
    exact .inr ⟨by omega, r, run_each_releaseOwned hloop, rfl⟩

/-- What `release_mappings` leaves alone. -/
theorem run_releaseMappings_frame : s'.paging = s.paging ∧
      ∀ u w, ¬ (u = t ∧ s.Unshared t) → s'.lookup u w = s.lookup u w := by
  rcases run_releaseMappings_cases htable hrun with ⟨-, rfl⟩ | ⟨hunshared, r, hback, rfl⟩
  · exact ⟨rfl, fun _ _ _ => rfl⟩
  · obtain ⟨allocator, rfl⟩ := hback.rest
    refine ⟨rfl, fun u w hne => ?_⟩
    rw [lookup_setTable, if_neg fun heq => hne ⟨heq, hunshared⟩]
    rfl

end

end

/-! ## Pages of the kernel -/

/-- Pages have been taken for the kernel. -/
structure Supplies (m : Machine) (pages : List Nat) (m' : Machine) : Prop where
  grows : Grows m m'
  taken : ∀ page ∈ pages, IsPage page ∧ m.used page = false ∧ m'.used page = true

theorem run_vmalloc_eq_ok {count : Nat} {pages : List Nat}
    (hrun : (vmalloc count).run s = .ok pages s') :
    ∃ machine, Supplies s.machine pages machine ∧ s' = { s with machine } := by
  induction count generalizing s pages with
  | zero =>
    cases hrun
    exact ⟨s'.machine, ⟨.refl _, fun _ hmem => absurd hmem List.not_mem_nil⟩, rfl⟩
  | succ count ih =>
    obtain ⟨page, r, hfirst, hrun⟩ := run_bind_eq_ok.mp hrun
    obtain ⟨machine, hpage, rfl⟩ := run_onMachine_eq_ok.mp hfirst
    obtain ⟨rest, r, hrest, hrun⟩ := run_bind_eq_ok.mp hrun
    cases hrun
    obtain ⟨machine', hsupplies, rfl⟩ := ih hrest
    rcases run_allocatePhysicalPage s.machine with ⟨page', m', htakes, hok⟩ | ⟨-, t, herror⟩
    · cases hok.symm.trans hpage
      refine ⟨machine', ⟨htakes.grows.trans hsupplies.grows, fun p hmem => ?_⟩, rfl⟩
      rcases List.mem_cons.mp hmem with rfl | hmem
      · exact ⟨htakes.handedOut.on_page, htakes.handedOut.was_free,
          (hsupplies.grows p htakes.handedOut.is_used).1⟩
      · obtain ⟨hpage, hfree, htaken⟩ := hsupplies.taken p hmem
        exact ⟨hpage, htakes.grows.free hfree, htaken⟩
    · cases herror.symm.trans hpage

/-- Pages of the kernel have been given back. -/
structure Frees (pages : List Nat) (s s' : System) : Prop where
  rest : ∃ allocator, s' = { s with machine := { s.machine with allocator } }
  used : ∀ addr, s'.used addr = true ↔
    s.used addr = true ∧ ∀ page ∈ pages, addr / pageSize ≠ page / pageSize

theorem run_vfree_eq_ok {pages : List Nat} (hrun : (vfree pages).run s = .ok () s') :
    Frees pages s s' := by
  induction pages generalizing s with
  | nil =>
    cases hrun
    exact ⟨⟨s'.machine.allocator, rfl⟩, fun addr => by simp⟩
  | cons page pages ih =>
    obtain ⟨_, r, hfirst, hrest⟩ := run_bind_eq_ok.mp hrun
    obtain ⟨_, r', hallocator, hfirst⟩ := run_bind_eq_ok.mp hfirst
    cases hfirst
    obtain ⟨allocator, hrelease, rfl⟩ := run_onAllocator_eq_ok.mp hallocator
    obtain ⟨-, -, rfl⟩ := PhysPageAllocator.run_releasePhysicalPage_eq_ok.mp hrelease
    obtain ⟨⟨allocator, rfl⟩, hused⟩ := ih hrest
    refine ⟨⟨allocator, rfl⟩, fun addr => ?_⟩
    have hfreed := used_freed s page addr
    rw [hused]
    change (s.freed page).used addr = true ∧ _ ↔ _
    rw [hfreed]
    by_cases hpage : addr / pageSize = page / pageSize
    · simp [hpage]
    · simp [hpage]

/-! ## New processes -/

/-- The system with a new process, for whose kernel stack pages have been taken. -/
def System.entered (s : System) (machine : Machine) (kernelStack : List Nat) : System :=
  { s.setTable s.nextTable ∅ with
    machine
    processes := occupy s.processes (firstFree s.processes) { mappings := s.nextTable, kernelStack }
    nextTable := s.nextTable + 1 }

theorem run_create_eq_ok (hrun : create.run s = .ok pid s') : pid = firstFree s.processes ∧
    ∃ machine stack, Supplies s.machine stack machine ∧ s' = s.entered machine stack := by
  obtain ⟨stack, r, hstack, hrun⟩ := run_bind_eq_ok.mp hrun
  obtain ⟨machine, hsupplies, rfl⟩ := run_vmalloc_eq_ok hstack
  cases hrun
  exact ⟨rfl, machine, stack, hsupplies, rfl⟩

section

variable (s : System) (machine : Machine) (stack : List Nat)

theorem byPid_entered (pid : Nat) : (s.entered machine stack).byPid pid =
    if pid = firstFree s.processes then some { mappings := s.nextTable, kernelStack := stack }
    else s.byPid pid :=
  slot_occupy _ _ _

theorem tableOf_entered (pid : Nat) : (s.entered machine stack).tableOf pid =
      if pid = firstFree s.processes then some s.nextTable else s.tableOf pid := by
  unfold System.tableOf
  rw [byPid_entered]
  split
  · rfl
  · rfl

theorem stackOf_entered (pid : Nat) : (s.entered machine stack).stackOf pid =
      if pid = firstFree s.processes then stack else s.stackOf pid := by
  unfold System.stackOf
  rw [byPid_entered]
  split
  · rfl
  · rfl

theorem lookup_entered (t v : Nat) :
    (s.entered machine stack).lookup t v = if t = s.nextTable then none else s.lookup t v := by
  refine (lookup_setTable s s.nextTable t v ∅).trans ?_
  rw [TreeMap.getElem?_emptyc]

end

/-- The number of a new process was free. -/
theorem byPid_firstFree (s : System) : s.byPid (firstFree s.processes) = none :=
  slot_firstFree s.processes

/-- The system after one owned page of the parent has been copied to `page`. -/
def System.copiedTo (s : System) (t v : Nat) (m : MemoryMapping) (page : Nat) (machine : Machine) :
    System :=
  { (s.insert t v m).insert t v { m with paddr := page } with
    machine := { machine with
      memory := machine.memory.splice page pageSize (machine.memory.view m.paddr) }
    log := s.log ++ [.alloc page] }

theorem lookup_copiedTo (s : System) (t v : Nat) (m : MemoryMapping) (page : Nat)
    (machine : Machine) (u w : Nat) : (s.copiedTo t v m page machine).lookup u w =
      if u = t ∧ w = v then some { m with paddr := page } else s.lookup u w := by
  refine (lookup_insert _ _ _ _ _ _).trans ?_
  rw [lookup_insert]
  split
  · rfl
  · rfl

section

variable {target : Nat} (htable : s.tableOf target = some t)

include htable

/-- The body of `copy_page_directory` passes over a page that is not owned, and copies any other. -/
theorem run_copyPage_cases (hrun : (copyPage target (v, m)).run s = .ok () s') :
    (m.owned = false ∧ s = s') ∨ (m.owned = true ∧
      ∃ page machine, Takes s.machine page machine ∧ s' = s.copiedTo t v m page machine) := by
  obtain ⟨p, hp, rfl⟩ := tableOf_eq_some.mp htable
  unfold copyPage at hrun
  split at hrun
  case isTrue howned =>
    cases hrun
    exact .inl ⟨howned, rfl⟩
  case isFalse =>
    rw [run_process_bind hp, run_modify_bind] at hrun
    obtain ⟨howned, hrun⟩ := run_check_bind_eq_ok.mp hrun
    obtain ⟨page, r, halloc, hrun⟩ := run_bind_eq_ok.mp hrun
    obtain ⟨machine, htakes, rfl⟩ := run_allocatePhysicalPage_eq_ok halloc
    rw [run_modify_bind, run_get_bind] at hrun
    obtain ⟨r, hwrite, rfl⟩ := run_onMachine_eq_ok.mp hrun
    cases hwrite
    exact .inr ⟨howned, page, machine, htakes, rfl⟩

variable (hother : s.tableOf s.current ≠ some t)

include hother

/-- `copy_page_directory` gives the child's table a new page for one of the parent's. -/
theorem run_copyPage_reaches {pair : Nat × MemoryMapping}
    (hfree : s.lookup t pair.1 = none) (hrun : (copyPage target pair).run s = .ok () s') :
    Reaches (Adds trampoline t (· = pair.1)) s s' := by
  rcases run_copyPage_cases htable hrun with ⟨-, rfl⟩ | ⟨howned, page, machine, htakes, rfl⟩
  · exact .refl _
  · have hedit : Edits s (.acquire t pair.1 page pair.2.flags) _ :=
      .acquire machine.memory hfree htakes.handedOut ((mapsTo_of_ne hother).mpr rfl)
    refine (hedit.reaches ⟨rfl, rfl⟩).trans (Quiet.reaches ?_)
    refine ⟨rfl, rfl, fun u w => ?_, fun _ => rfl, fun _ => rfl, rfl, rfl, rfl⟩
    rw [lookup_copiedTo, lookup_insert, howned]
    rfl

theorem run_each_copyPage_reaches
    (hkeys : (pairs.map Prod.fst).Nodup) (hfree : ∀ pair ∈ pairs, s.lookup t pair.1 = none)
    (hrun : (each (copyPage target) pairs).run s = .ok () s') :
    Reaches (Adds trampoline t (· ∈ pairs.map Prod.fst)) s s' := by
  induction pairs generalizing s with
  | nil =>
    cases hrun
    exact .refl _
  | cons pair pairs ih =>
    obtain ⟨_, r, hfirst, hrest⟩ := run_bind_eq_ok.mp hrun
    obtain ⟨hnew, hkeys'⟩ := List.nodup_cons.mp hkeys
    have hr : Reaches (Adds trampoline t (· = pair.1)) s r :=
      run_copyPage_reaches htable hother (hfree pair List.mem_cons_self) hfirst
    have hsame := hr.sameProcesses
    have hr' : Reaches (Adds trampoline t (· ∈ pairs.map Prod.fst)) r s' := by
      refine ih (hr.tableOf_eq htable) ?_ hkeys' (fun other hmem => ?_) hrest
      · rw [hsame.current, hsame.tableOf]
        exact hother
      · rw [lookup_of_adds hr (.inr ?_)]
        · exact hfree other (List.mem_cons_of_mem pair hmem)
        · rintro heq
          exact hnew (heq ▸ List.mem_map_of_mem hmem)
    refine (hr.mono (Adds.mono fun v hv => ?_)).trans (hr'.mono (Adds.mono fun v hv => ?_))
    · exact hv ▸ List.mem_cons_self
    · exact List.mem_cons_of_mem _ hv

end

/-- A process refers to a table from now on, and nothing else has changed. -/
structure Joins (pid t : Nat) (s s' : System) : Prop where
  machine : s'.machine = s.machine
  paging : s'.paging = s.paging
  lookup : ∀ table virtAddr, s'.lookup table virtAddr = s.lookup table virtAddr
  tableOf : ∀ pid', s'.tableOf pid' = if pid' = pid then some t else s.tableOf pid'
  stackOf : ∀ pid', s'.stackOf pid' = s.stackOf pid'
  current : s'.current = s.current
  nextTable : s'.nextTable = s.nextTable
  log : s'.log = s.log

/-- The system with a new process that has been given the callbacks of its parent and refers to a
table. -/
def System.newborn (s : System) (machine : Machine) (kernelStack : List Nat) (p : Process)
    (mappings : Nat) : System :=
  (s.entered machine kernelStack).setProcess (firstFree s.processes)
    { mappings, userCallbacks := p.userCallbacks, kernelStack }

section

variable (s : System) (machine : Machine) (stack : List Nat)

theorem joins_entered : Joins (firstFree s.processes) s.nextTable (s.entered machine stack)
    (s.entered machine stack) := by
  refine ⟨rfl, rfl, fun _ _ => rfl, fun pid => ?_, fun _ => rfl, rfl, rfl, rfl⟩
  rw [tableOf_entered]
  split
  · rfl
  · rfl

theorem joins_newborn (p : Process) (t : Nat) :
    Joins (firstFree s.processes) t (s.entered machine stack) (s.newborn machine stack p t) := by
  have hchild : (s.entered machine stack).byPid (firstFree s.processes) =
      some { mappings := s.nextTable, kernelStack := stack } := by
    rw [byPid_entered, if_pos rfl]
  refine ⟨rfl, rfl, fun _ _ => rfl, fun pid' => ?_, stackOf_setProcess hchild rfl, rfl, rfl, rfl⟩
  unfold System.tableOf System.newborn
  rw [byPid_setProcess hchild]
  split
  · rfl
  · rfl

end

/-- The parts of `clone`: a new process, its table, and its thread-local storage. -/
theorem run_clone_eq_ok {flags child : Nat} (hrun : (clone it pid flags).run s = .ok child s') :
    child = firstFree s.processes ∧ ∃ p machine stack r, s.byPid pid = some p ∧
      Supplies s.machine stack machine ∧
      (flags &&& cloneVm ≠ 0 ∧ r = s.newborn machine stack p p.mappings ∨
        flags &&& cloneVm = 0 ∧ (each (copyPage child)
          (it.order ((s.newborn machine stack p s.nextTable).tables p.mappings))).run
            (s.newborn machine stack p s.nextTable) = .ok () r) ∧
      (initTls child).run r = .ok () s' := by
  obtain ⟨p, hp, hrun⟩ := run_process_bind_eq_ok.mp hrun
  obtain ⟨newProc, r, hcreate, hrun⟩ := run_bind_eq_ok.mp hrun
  obtain ⟨rfl, machine, stack, hsupplies, rfl⟩ := run_create_eq_ok hcreate
  have hchild : (s.entered machine stack).byPid (firstFree s.processes) =
      some { mappings := s.nextTable, kernelStack := stack } := by
    rw [byPid_entered, if_pos rfl]
  rw [run_process_bind hchild, run_modify_bind] at hrun
  obtain ⟨_, r, htables, hrun⟩ := run_bind_eq_ok.mp hrun
  obtain ⟨_, r', htls, hrun⟩ := run_bind_eq_ok.mp hrun
  cases hrun
  refine ⟨rfl, p, machine, stack, r, hp, hsupplies, ?_, htls⟩
  split at htables
  case isTrue hshare =>
    cases htables
    exact .inl ⟨hshare, setProcess_setProcess _ _ _ _⟩
  case isFalse hcopy =>
    refine .inr ⟨not_not.mp hcopy, ?_⟩
    obtain ⟨p', hp', htables⟩ := run_process_bind_eq_ok.mp htables
    have hne : pid ≠ firstFree s.processes := by
      rintro rfl
      rw [byPid_firstFree] at hp
      cases hp
    rw [byPid_setProcess hchild, if_neg hne, byPid_entered, if_neg hne, hp] at hp'
    cases hp'
    exact htables

/-- `clone` makes a process that refers to the table of its parent or to a new one, and entries are
added there: for the pages of the parent, and for thread-local storage. -/
theorem run_clone_cases (trampoline : Nat) {flags child : Nat}
    (hlive : s.tableOf s.current ≠ none) (hfresh : s.tableOf s.current ≠ some s.nextTable)
    (hrun : (clone it pid flags).run s = .ok child s') :
    child = firstFree s.processes ∧ ∃ t u machine stack r, s.tableOf pid = some t ∧
      (flags &&& cloneVm ≠ 0 ∧ u = t ∨ flags &&& cloneVm = 0 ∧ u = s.nextTable) ∧
      Supplies s.machine stack machine ∧
      Joins child u (s.entered machine stack) r ∧
      Reaches (Adds trampoline u fun v => UserPage v ∨ s.lookup t v ≠ none) r s' := by
  obtain ⟨rfl, p, machine, stack, r, hp, hsupplies, htables, htls⟩ := run_clone_eq_ok hrun
  have htable : s.tableOf pid = some p.mappings := tableOf_eq_some.mpr ⟨p, hp, rfl⟩
  rcases htables with ⟨hshare, rfl⟩ | ⟨hown, hcopy⟩
  · have hjoins := joins_newborn s machine stack p p.mappings
    refine ⟨rfl, p.mappings, p.mappings, machine, stack, _, htable, .inl ⟨hshare, rfl⟩, hsupplies,
      hjoins, ?_⟩
    refine (run_initTls_reaches ?_ htls).mono (Adds.mono fun _ hv => .inl hv)
    rw [hjoins.tableOf, if_pos rfl]
  · have hjoins := joins_newborn s machine stack p s.nextTable
    refine ⟨rfl, p.mappings, s.nextTable, machine, stack, _, htable, .inr ⟨hown, rfl⟩, hsupplies,
      hjoins, ?_⟩
    have hchild : (s.newborn machine stack p s.nextTable).tableOf (firstFree s.processes) =
        some s.nextTable := by
      rw [hjoins.tableOf, if_pos rfl]
    -- The current process is another one than the child.
    have hcurrent : (s.newborn machine stack p s.nextTable).tableOf s.current ≠
        some s.nextTable := by
      have hne : s.current ≠ firstFree s.processes := by
        intro heq
        refine hlive ?_
        unfold System.tableOf
        rw [heq, byPid_firstFree]
        rfl
      rw [hjoins.tableOf, if_neg hne, tableOf_entered, if_neg hne]
      exact hfresh
    have hlookup : ∀ u w, (s.newborn machine stack p s.nextTable).lookup u w =
        if u = s.nextTable then none else s.lookup u w := fun u w =>
      (hjoins.lookup u w).trans (lookup_entered s machine stack u w)
    have hadds : Reaches (Adds trampoline s.nextTable (· ∈ (it.order
        ((s.newborn machine stack p s.nextTable).tables p.mappings)).map Prod.fst)) _ r :=
      run_each_copyPage_reaches hchild hcurrent (it.nodup_keys _)
        (fun pair _ => by rw [hlookup, if_pos rfl]) hcopy
    have htls' : Reaches (Adds trampoline s.nextTable UserPage) r s' :=
      run_initTls_reaches (hadds.tableOf_eq hchild) htls
    refine (hadds.mono (Adds.mono fun w hw => .inr ?_)).trans (htls'.mono (Adds.mono fun _ hw =>
      .inl hw))
    obtain ⟨⟨w', m⟩, hmem, rfl⟩ := List.mem_map.mp hw
    have hparent := it.mem_order.mp hmem
    rw [hlookup] at hparent
    split at hparent
    · cases hparent
    · rw [hparent]
      exact Option.some_ne_none m

/-- A function that starts with a look at the process is only called on one that is there. -/
theorem exists_tableOf {α : Type} {f : Process → SystemAction α} {a : α}
    (hrun : (process pid >>= f).run s = .ok a s') : ∃ t, s.tableOf pid = some t := by
  obtain ⟨p, hp, -⟩ := run_process_bind_eq_ok.mp hrun
  exact ⟨p.mappings, tableOf_eq_some.mpr ⟨p, hp, rfl⟩⟩

/-! ## Switching -/

/-- The page tables when another table becomes the current one. -/
def Switches (it : Iteration) (s : System) (t u : Nat) (paging : PageTables) : Prop :=
  (t = u ∧ paging = s.paging) ∨ (t ≠ u ∧ ∃ between,
    (unmapPages (it.order (s.tables t))).run s.paging = .ok () between ∧
    (mapPages (it.order (s.tables u))).run between = .ok () paging)

theorem run_unmapAddressSpace_eq_ok (htable : s.tableOf pid = some t)
    {x : Unit} : (unmapAddressSpace it pid).run s = .ok x s' ↔
      ∃ paging, (unmapPages (it.order (s.tables t))).run s.paging = .ok () paging ∧
        s' = { s with paging } := by
  obtain ⟨p, hp, rfl⟩ := tableOf_eq_some.mp htable
  unfold unmapAddressSpace
  rw [run_process_bind hp, run_get_bind]
  exact run_onPaging_eq_ok

theorem run_mapAddressSpace_eq_ok (htable : s.tableOf pid = some t)
    {x : Unit} : (mapAddressSpace it pid).run s = .ok x s' ↔
      ∃ paging, (mapPages (it.order (s.tables t))).run s.paging = .ok () paging ∧
        s' = { s with paging } := by
  obtain ⟨p, hp, rfl⟩ := tableOf_eq_some.mp htable
  unfold mapAddressSpace
  rw [run_process_bind hp, run_get_bind]
  exact run_onPaging_eq_ok

/-- `switch_mappings` changes the page tables. -/
theorem run_switchMappings_eq_ok {prev next : Nat} :
    (switchMappings it prev next).run s = .ok () s' ↔
      ∃ t u paging, s.tableOf prev = some t ∧ s.tableOf next = some u ∧
        Switches it s t u paging ∧ s' = { s with paging } := by
  constructor
  · intro hrun
    obtain ⟨p, hp, hrun⟩ := run_process_bind_eq_ok.mp hrun
    obtain ⟨p', hp', hrun⟩ := run_process_bind_eq_ok.mp hrun
    have htable : s.tableOf prev = some p.mappings := tableOf_eq_some.mpr ⟨p, hp, rfl⟩
    have htable' : s.tableOf next = some p'.mappings := tableOf_eq_some.mpr ⟨p', hp', rfl⟩
    refine ⟨p.mappings, p'.mappings, s'.paging, htable, htable', ?_⟩
    split at hrun
    case isTrue hne =>
      obtain ⟨_, q, hunmap, hmap⟩ := run_bind_eq_ok.mp hrun
      obtain ⟨between, hunmap', rfl⟩ := (run_unmapAddressSpace_eq_ok htable).mp hunmap
      obtain ⟨paging, hmap', rfl⟩ :=
        (run_mapAddressSpace_eq_ok (s := { s with paging := between }) htable').mp hmap
      exact ⟨.inr ⟨hne, between, hunmap', hmap'⟩, rfl⟩
    case isFalse heq =>
      cases hrun
      exact ⟨.inl ⟨by simpa using heq, rfl⟩, rfl⟩
  · rintro ⟨t, u, paging, htable, htable', hswitch, rfl⟩
    obtain ⟨p, hp, rfl⟩ := tableOf_eq_some.mp htable
    obtain ⟨p', hp', rfl⟩ := tableOf_eq_some.mp htable'
    unfold switchMappings
    rw [run_process_bind hp, run_process_bind hp']
    rcases hswitch with ⟨heq, rfl⟩ | ⟨hne, between, hunmap, hmap⟩
    · rw [if_neg (not_not.mpr heq)]
      rfl
    · have hfirst : (unmapAddressSpace it prev).run s = .ok () { s with paging := between } :=
        (run_unmapAddressSpace_eq_ok htable).mpr ⟨between, hunmap, rfl⟩
      rw [if_pos hne, run_bind_ok hfirst]
      exact (run_mapAddressSpace_eq_ok (s := { s with paging := between }) htable').mpr
        ⟨paging, hmap, rfl⟩

/-- `task_switch` changes the page tables and the current process. -/
theorem run_taskSwitch_eq_ok : (taskSwitch it pid).run s = .ok () s' ↔
    pid ≠ s.current ∧ ∃ t u paging, s.tableOf s.current = some t ∧ s.tableOf pid = some u ∧
      Switches it s t u paging ∧ s' = { s with paging, current := pid } := by
  unfold taskSwitch
  rw [run_get_bind]
  constructor
  · intro hrun
    obtain ⟨hne, hrun⟩ := run_check_bind_eq_ok.mp hrun
    obtain ⟨-, hrun⟩ := run_check_bind_eq_ok.mp hrun
    obtain ⟨⟨⟩, r, hswitch, hrun⟩ := run_bind_eq_ok.mp hrun
    obtain ⟨t, u, paging, htable, htable', hswitch', rfl⟩ := run_switchMappings_eq_ok.mp hswitch
    cases hrun
    exact ⟨hne, t, u, paging, htable, htable', hswitch', rfl⟩
  · rintro ⟨hne, t, u, paging, htable, htable', hswitch, rfl⟩
    have hthere : s.byPid pid ≠ none := by
      obtain ⟨p, hp, -⟩ := tableOf_eq_some.mp htable'
      rw [hp]
      exact Option.some_ne_none p
    have hrun : (switchMappings it s.current pid).run s = .ok () { s with paging } :=
      run_switchMappings_eq_ok.mpr ⟨t, u, paging, htable, htable', hswitch, rfl⟩
    rw [run_check_bind hne, run_check_bind hthere, run_bind_ok hrun]
    rfl

/-- The kernel stack of a process is gone with it. -/
theorem stackOf_leave (s : System) (pid pid' : Nat) :
    System.stackOf { s with processes := s.processes.set pid none } pid' =
      if pid' = pid then [] else s.stackOf pid' := by
  unfold System.stackOf System.byPid
  rw [slot_set_none]
  split
  · rfl
  · rfl

/-- A process is gone. -/
theorem tableOf_leave (s : System) (pid pid' : Nat) :
    System.tableOf { s with processes := s.processes.set pid none } pid' =
      if pid' = pid then none else s.tableOf pid' := by
  unfold System.tableOf System.byPid
  rw [slot_set_none]
  split
  · rfl
  · rfl

/-- `release_zombie` releases the table, if nobody else refers to it, gives back the kernel stack
and forgets the process. -/
theorem run_releaseZombie_eq_ok (hrun : (releaseZombie it pid).run s = .ok () s') :
    ∃ t r r', s.tableOf pid = some t ∧ s.current ≠ pid ∧
      (releaseMappings it pid).run s = .ok () r ∧ Frees (s.stackOf pid) r r' ∧
      s' = { r' with processes := r'.processes.set pid none } := by
  obtain ⟨hne, hrun⟩ := run_check_bind_eq_ok.mp hrun
  obtain ⟨p, hp, hrun⟩ := run_process_bind_eq_ok.mp hrun
  obtain ⟨_, r, hrelease, hrun⟩ := run_bind_eq_ok.mp hrun
  obtain ⟨_, r', hstack, hrun⟩ := run_bind_eq_ok.mp hrun
  cases hrun
  refine ⟨p.mappings, r, r', tableOf_eq_some.mpr ⟨p, hp, rfl⟩, hne, hrelease, ?_, rfl⟩
  rw [stackOf_eq hp]
  exact run_vfree_eq_ok hstack

/-! ## A new program -/

/-- The four parts of `load_user_code`. -/
theorem run_loadUserCode_eq_ok {code : List UInt8} {allocatedSize : Nat} :
    (loadUserCode it trampoline pid code allocatedSize).run s = .ok () s' ↔ ∃ q r r',
      (if s.current = pid then unmapAddressSpace it pid else pure ()).run s = .ok () q ∧
      (releaseMappings it pid).run q = .ok () r ∧
      (createMappings trampoline pid code allocatedSize (2 * pageSize)).run r = .ok () r' ∧
      (initTls pid).run r' = .ok () s' := by
  unfold loadUserCode
  rw [run_get_bind]
  constructor
  · intro hrun
    obtain ⟨⟨⟩, q, hunmap, hrun⟩ := run_bind_eq_ok.mp hrun
    obtain ⟨⟨⟩, r, hrelease, hrun⟩ := run_bind_eq_ok.mp hrun
    obtain ⟨⟨⟩, r', himage, htls⟩ := run_bind_eq_ok.mp hrun
    exact ⟨q, r, r', hunmap, hrelease, himage, htls⟩
  · rintro ⟨q, r, r', hunmap, hrelease, himage, htls⟩
    rw [run_bind_ok hunmap, run_bind_ok hrelease, run_bind_ok himage]
    exact htls

/-- The first part only changes page tables. -/
theorem run_unmapCurrent_eq_ok
    (hrun : (if s.current = pid then unmapAddressSpace it pid else pure ()).run s = .ok () s') :
    ∃ paging, s' = { s with paging } := by
  split at hrun
  · obtain ⟨t, htable⟩ := exists_tableOf hrun
    obtain ⟨paging, -, hr⟩ := (run_unmapAddressSpace_eq_ok htable).mp hrun
    exact ⟨paging, hr⟩
  · cases hrun
    exact ⟨s.paging, rfl⟩

end

end LudOS.Tasking.AddressSpaces
