import Mathlib.Order.Interval.Finset.Nat
import LudOS.Tasking.CurrentSpace

/-!
# A new program for a process

`load_user_code` takes the old pages out of the page tables, releases them, and builds the new
image with its stack, its trampoline and its thread-local storage. A table that another process
refers to as well is not released, and then the entries of the old image are still in the way.

`exec_works_iff` says when the call returns with the new pages and without a change to any other
process: when nobody else refers to the table, and virtual and physical memory suffice. With a
shared table it either stops at an assertion or changes the address space of the others.
-/

namespace LudOS.Tasking.AddressSpaces

open Lib Mem PageMapping

/-! ## Free pages -/

/-- The numbers of the pages that are free. -/
def System.freePages (s : System) : Finset Nat :=
  (Finset.range pageCount).filter fun i => s.used (i * pageSize) = false

/-- The number of pages that are owned in a table. -/
def System.ownedCount (s : System) (t : Nat) : Nat := (ownedPages (s.tables t).toList).length

section

variable {image : KernelImage} {reserved : Nat → Prop} {trampoline : Nat} {it : Iteration}
  {s s' : System} {t v pid page flags : Nat}

theorem mem_freePages {i : Nat} :
    i ∈ s.freePages ↔ i < pageCount ∧ s.used (i * pageSize) = false := by
  unfold System.freePages
  rw [Finset.mem_filter, Finset.mem_range]

theorem freePages_congr (h : ∀ addr, s'.used addr = s.used addr) : s'.freePages = s.freePages := by
  ext i
  rw [mem_freePages, mem_freePages, h]

theorem exists_free_of_card (h : 0 < s.freePages.card) :
    ∃ i < pageCount, s.used (i * pageSize) = false := by
  obtain ⟨i, hi⟩ := Finset.card_pos.mp h
  exact ⟨i, mem_freePages.mp hi⟩

/-- An entry with a new page takes one of the free pages. -/
theorem card_freePages_of_acquire (h : Edits s (.acquire t v page flags) s') :
    s.freePages.card = s'.freePages.card + 1 := by
  obtain ⟨allocator, hout, hused⟩ : ∃ allocator,
      PhysPageAllocator.HandedOut s.machine.allocator [] page allocator ∧
      ∀ addr, s'.used addr = allocator.used addr := by
    cases h with
    | acquire memory hfree hout => exact ⟨_, hout, fun _ => rfl⟩
  obtain ⟨i, hi, rfl⟩ := hout.on_page
  have hmem : i ∈ s.freePages := mem_freePages.mpr ⟨hi, hout.was_free⟩
  have herase : s'.freePages = s.freePages.erase i := by
    ext j
    rw [Finset.mem_erase, mem_freePages, mem_freePages, hused]
    by_cases hj : j = i
    · rw [hj, hout.is_used]
      simp
    · rw [hout.others (j * pageSize)]
      · exact ⟨fun hfree => ⟨hj, hfree⟩, fun hfree => hfree.2⟩
      · rw [PhysPageAllocator.mul_pageSize_div, PhysPageAllocator.mul_pageSize_div]
        exact hj
  rw [herase, Finset.card_erase_add_one hmem]

/-- A loop that adds a page in every iteration. -/
theorem card_freePages_of_loop {body : Nat → SystemAction Unit} {addrOf : Nat → Nat} {count : Nat}
    (htable : s.tableOf pid = some t)
    (hbody : ∀ i r r', r.tableOf pid = some t → (body i).run r = .ok () r' →
      ∃ page, Edits r (.acquire t (addrOf i) page flags) r')
    (hrun : (loop body 0 count).run s = .ok () s') :
    s.freePages.card = s'.freePages.card + count := by
  have hinv := loop_carries (fun i r => r.tableOf pid = some t ∧
    s.freePages.card = r.freePages.card + i) (fun i r r' _ _ hr hstep => ?_) ⟨htable, by simp⟩ hrun
  · rw [hinv.2, Nat.zero_add]
  · obtain ⟨page, hedit⟩ := hbody i r r' hr.1 hstep
    have hcard := card_freePages_of_acquire hedit
    exact ⟨(hedit.sameProcesses.tableOf pid).trans hr.1, by omega⟩

/-- The pages that are given back are free afterwards. -/
theorem card_freePages_of_givenBack {pairs : List (Nat × MemoryMapping)}
    (hpages : ∀ page ∈ ownedPages pairs, IsPage page ∧ s.used page = true)
    (hnodup : (ownedPages pairs).Nodup) (hback : GivenBack pairs s s') :
    s'.freePages.card = s.freePages.card + (ownedPages pairs).length := by
  have hnumbers : ((ownedPages pairs).map (· / pageSize)).Nodup := by
    refine hnodup.map_on fun page hpage page' hpage' heq => ?_
    by_contra hne
    exact div_ne_of_isPage (hpages page hpage).1 (hpages page' hpage').1 hne heq
  have hunion : s'.freePages =
      s.freePages ∪ ((ownedPages pairs).map (· / pageSize)).toFinset := by
    ext i
    rw [Finset.mem_union, List.mem_toFinset, mem_freePages, mem_freePages]
    constructor
    · rintro ⟨hi, hfree⟩
      cases hwas : s.used (i * pageSize) with
      | false => exact .inl ⟨hi, rfl⟩
      | true =>
        -- A page that is free now and was not has been given back.
        refine .inr ?_
        by_contra hmem
        rw [(hback.used _).mpr ⟨hwas, fun pair hpair ho heq => hmem ?_⟩] at hfree
        · cases hfree
        · rw [PhysPageAllocator.mul_pageSize_div] at heq
          exact List.mem_map.mpr ⟨pair.2.paddr, mem_ownedPages.mpr ⟨pair, hpair, ho, rfl⟩, heq.symm⟩
    · rintro (⟨hi, hfree⟩ | hmem)
      · refine ⟨hi, ?_⟩
        by_contra hused
        rw [((hback.used _).mp (by simpa using hused)).1] at hfree
        cases hfree
      · obtain ⟨page, hpage, rfl⟩ := List.mem_map.mp hmem
        obtain ⟨pair, hpair, ho, rfl⟩ := mem_ownedPages.mp hpage
        refine ⟨frame_lt_of_isPage (hpages _ hpage).1, ?_⟩
        by_contra hused
        refine ((hback.used _).mp (by simpa using hused)).2 pair hpair ho ?_
        rw [PhysPageAllocator.mul_pageSize_div]
  rw [hunion, Finset.card_union_of_disjoint, List.toFinset_card_of_nodup hnumbers, List.length_map]
  rw [Finset.disjoint_left]
  intro i hfree hmem
  obtain ⟨page, hpage, rfl⟩ := List.mem_map.mp (List.mem_toFinset.mp hmem)
  have hused := (hpages page hpage).2
  rw [← mul_div_of_isPage (hpages page hpage).1, (mem_freePages.mp hfree).2] at hused
  cases hused

theorem length_ownedPages (it : Iteration) (s : System) (t : Nat) :
    (ownedPages (it.order (s.tables t))).length = s.ownedCount t := by
  exact (((it.perm (s.tables t)).filter _).map _).length_eq

/-! ## Calls that return -/

namespace Sound

variable (h : Sound image reserved trampoline s)

include h

/-- The address of a user page that is not mapped is free in the page tables. -/
theorem absent (hs : ShowsCurrent s) (hv : UserPage v)
    (hfree : s.lookup t v = none) (hcurrent : s.tableOf s.current = some t) :
    (s.paging.entry v).present = false := by
  by_contra hpresent
  have hclaimed := h.paged.claimed v hv.lt_last (by simpa using hpresent)
  exact ((hs t hcurrent).claimed v hv).mp hclaimed hfree

/-- The page at address 0 is never handed out. -/
theorem page_ne_zero (hzero : reserved 0) {allocator : PhysPageAllocator}
    (hout : PhysPageAllocator.HandedOut s.machine.allocator [] page allocator) : page ≠ 0 := by
  rintro rfl
  have hused : s.used (0 * pageSize) = true := (h.kernel 0 hzero).1
  have hfree : s.used (0 * pageSize) = false := hout.was_free
  rw [hused] at hfree
  cases hfree

/-- With a free page, a page of code gets to the point where it is mapped. -/
theorem run_mapCodePage_start (hzero : reserved 0) (hroom : 0 < s.freePages.card) (pid : Nat)
    (code : List UInt8) (i : Nat) : ∃ page machine log, (mapCodePage pid code i).run s =
      (mapPage pid (codeAddr i) page codeFlags true).run { s with machine, log } := by
  obtain ⟨page, machine, htakes, halloc⟩ :=
    exists_run_allocatePhysicalPage (exists_free_of_card hroom)
  obtain ⟨memory, hfill⟩ := run_fillCodePage code i page machine
  have hfill' := run_onMachine_eq_ok (s := { s with
    machine, log := s.log ++ [.alloc page] }).mpr ⟨_, hfill, rfl⟩
  exact ⟨page, _, _, (run_bind_ok halloc).trans ((run_bind_ok hfill').trans
    (run_check_bind (h.page_ne_zero hzero htakes.handedOut)))⟩

section

variable (hs : ShowsCurrent s) (hzero : reserved 0) (htable : s.tableOf pid = some t)

include hs hzero htable

theorem exists_run_mapCodePage {code : List UInt8} {i : Nat}
    (hv : UserPage (codeAddr i)) (hfree : s.lookup t (codeAddr i) = none)
    (hroom : 0 < s.freePages.card) : ∃ s', (mapCodePage pid code i).run s = .ok () s' := by
  obtain ⟨page, machine, log, hstart⟩ := h.run_mapCodePage_start hzero hroom pid code i
  obtain ⟨s', hmap⟩ := @exists_run_mapPage { s with machine, log } t (codeAddr i) pid htable
    h.ledger.live hfree (h.absent hs hv hfree) page codeFlags true
  exact ⟨s', hstart.trans hmap⟩

theorem exists_run_mapStackPage {i : Nat}
    (hv : UserPage (stackAddr i)) (hfree : s.lookup t (stackAddr i) = none)
    (hroom : 0 < s.freePages.card) : ∃ s', (mapStackPage pid i).run s = .ok () s' := by
  obtain ⟨page, machine, htakes, halloc⟩ :=
    exists_run_allocatePhysicalPage (exists_free_of_card hroom)
  obtain ⟨s', hmap⟩ := @exists_run_mapPage { s with machine, log := s.log ++ [.alloc page] } t
    (stackAddr i) pid htable h.ledger.live hfree (h.absent hs hv hfree) page userFlags true
  exact ⟨s', (run_bind_ok halloc).trans
    ((run_check_bind (h.page_ne_zero hzero htakes.handedOut)).trans hmap)⟩

end

section

variable (hs : ShowsCurrent s) (htable : s.tableOf pid = some t)

include hs htable

theorem exists_run_mapNewPage (hv : UserPage v) (hfree : s.lookup t v = none)
    (hroom : 0 < s.freePages.card) : ∃ page s', (mapNewPage pid v).run s = .ok page s' :=
  AddressSpaces.exists_run_mapNewPage htable h.ledger.live (exists_free_of_card hroom) hfree
    (h.absent hs hv hfree)

/-- A loop that adds a page in every iteration returns when its addresses are free and memory
suffices. Nothing changes at other addresses. -/
theorem exists_run_loop (body : Nat → SystemAction Unit) (addrOf : Nat → Nat)
    {count : Nat} (hbody : ∀ i r r', r.tableOf pid = some t → (body i).run r = .ok () r' →
      ∃ page, Edits r (.acquire t (addrOf i) page flags) r')
    (hexists : ∀ i r, Sound image reserved trampoline r → ShowsCurrent r → r.tableOf pid = some t →
      UserPage (addrOf i) → r.lookup t (addrOf i) = none → 0 < r.freePages.card →
      ∃ r', (body i).run r = .ok () r')
    (huser : ∀ i < count, UserPage (addrOf i)) (hfree : ∀ i < count, s.lookup t (addrOf i) = none)
    (hinj : ∀ i < count, ∀ j < i, addrOf j ≠ addrOf i) (hroom : count ≤ s.freePages.card) :
    ∃ s', (loop body 0 count).run s = .ok () s' ∧ Sound image reserved trampoline s' ∧
      ShowsCurrent s' ∧ s'.tableOf pid = some t ∧ s.freePages.card = s'.freePages.card + count ∧
      ∀ v, (∀ i < count, v ≠ addrOf i) → s'.lookup t v = s.lookup t v := by
  have hloop := @loop_invariant _ _ s 0 count body (fun i r => Sound image reserved trampoline r ∧
    ShowsCurrent r ∧ r.tableOf pid = some t ∧ s.freePages.card = r.freePages.card + i ∧
    ∀ v, (∀ j < i, v ≠ addrOf j) → r.lookup t v = s.lookup t v) (fun i r _ hi hr => ?_)
    ⟨h, hs, htable, (Nat.add_zero _).symm, fun _ _ => rfl⟩
  · rwa [Nat.zero_add] at hloop
  obtain ⟨hsound, hshows, htable, hcard, hkept⟩ := hr
  have hi' : i < count := by omega
  have hnone := (hkept _ fun j hj => (hinj i hi' j hj).symm).trans (hfree i hi')
  obtain ⟨r', hstep⟩ := hexists i r hsound hshows htable (huser i hi') hnone (by omega)
  obtain ⟨page, hedit⟩ := hbody i r r' htable hstep
  have hadds : Reaches (Adds trampoline t (· = addrOf i)) r r' := hedit.reaches ⟨rfl, rfl⟩
  obtain ⟨hsound', hshows'⟩ := hsound.adds hshows htable
    (fun v (hv : v = addrOf i) => hv ▸ huser i hi') hadds
  have hcard' := card_freePages_of_acquire hedit
  refine ⟨r', hstep, hsound', hshows', hadds.tableOf_eq htable, by omega, fun v hv => ?_⟩
  rw [lookup_of_adds hadds (.inr (hv i (Nat.lt_succ_self i)))]
  exact hkept v fun j hj => hv j (by omega)

end

end Sound

theorem card_freePages_of_mapNewPages {found count : Nat} (htable : s.tableOf pid = some t)
    (hrun : (mapNewPages pid found count).run s = .ok () s') :
    s.freePages.card = s'.freePages.card + count :=
  card_freePages_of_loop htable (fun _ _ _ hr hbody => run_mapNewPages_body hr hbody) hrun

/-- `init_tls` takes two pages. -/
theorem card_freePages_of_initTls (htable : s.tableOf pid = some t)
    (hrun : (initTls pid).run s = .ok () s') :
    s.freePages.card = s'.freePages.card + (tlsPages + 1) := by
  obtain ⟨found, r, hfind, hrun⟩ := run_bind_eq_ok.mp hrun
  obtain ⟨-, rfl⟩ := (run_allocateVirtualPage_eq_ok htable).mp hfind
  obtain ⟨_, r, hpages, hrun⟩ := run_bind_eq_ok.mp hrun
  have hcard := card_freePages_of_mapNewPages htable hpages
  obtain ⟨hr, -⟩ : Reaches (Adds 0 t fun _ => True) s r ∧ _ :=
    run_mapNewPages_reaches htable (fun _ _ => trivial) hpages
  obtain ⟨page, r', hlast, hrun⟩ := run_bind_eq_ok.mp hrun
  have hcard' := card_freePages_of_acquire (run_mapNewPage_edits (hr.tableOf_eq htable) hlast)
  have hsame : s'.freePages = r'.freePages := by
    obtain ⟨_, r'', hwrite, hrun⟩ := run_bind_eq_ok.mp hrun
    obtain ⟨m, hm, rfl⟩ := run_onMachine_eq_ok.mp hwrite
    cases hm
    obtain ⟨p, -, hrun⟩ := run_process_bind_eq_ok.mp hrun
    cases hrun
    exact freePages_congr fun _ => rfl
  rw [hsame]
  omega

/-- `init_tls` returns when two pages of memory and two addresses in a row are free. -/
theorem Sound.exists_run_initTls (h : Sound image reserved trampoline s) (hs : ShowsCurrent s)
    (htable : s.tableOf pid = some t)
    (hfind : (findPages (s.tables t).contains (tlsPages + 1)).isSome = true)
    (hroom : tlsPages + 1 ≤ s.freePages.card) : ∃ s', (initTls pid).run s = .ok () s' := by
  obtain ⟨found, hfound⟩ := Option.isSome_iff_exists.mp hfind
  have hfree : ∀ i < tlsPages + 1, s.lookup t (found + i * pageSize) = none := fun i hi =>
    contains_eq_false_iff.mp (findPages_unmapped hfound i hi)
  have huser : ∀ i < tlsPages + 1, UserPage (found + i * pageSize) := fun i hi =>
    findPages_userPage hfound hi
  have hinj : ∀ i, ∀ j < i, found + j * pageSize ≠ found + i * pageSize := by
    intro i j hj heq
    unfold pageSize at heq
    omega
  obtain ⟨r, hpages, hsound, hshows, htable', hcard, hkept⟩ := h.exists_run_loop hs htable _
    (fun i => found + i * pageSize) (fun i q q' hq hbody => run_mapNewPages_body hq hbody)
    (fun i q hq hsq htable hv hfree hroom => by
      obtain ⟨page, q', hnew⟩ := hq.exists_run_mapNewPage hsq htable hv hfree hroom
      exact ⟨q', run_bind_ok hnew⟩)
    (fun i hi => huser i (by omega)) (fun i hi => hfree i (by omega)) (fun i _ => hinj i)
    (show tlsPages ≤ _ by omega)
  have hlast : r.lookup t (found + tlsPages * pageSize) = none := by
    rw [hkept _ fun i hi => (hinj tlsPages i hi).symm]
    exact hfree tlsPages (Nat.lt_succ_self _)
  obtain ⟨page, r', hnew⟩ := hsound.exists_run_mapNewPage hshows htable'
    (huser tlsPages (Nat.lt_succ_self _)) hlast (by omega)
  obtain ⟨p, hp, -⟩ := tableOf_eq_some.mp
    (((run_mapNewPage_edits htable' hnew).sameProcesses.tableOf pid).trans htable')
  have hvirt := (run_allocateVirtualPage_eq_ok htable).mpr ⟨hfound, rfl⟩
  have hwrite := run_onMachine_eq_ok.mpr
    ⟨_, (rfl : (writePhysical page 4 (Bytes.ofNat (found + tlsPages * pageSize))).run
      r'.machine = _), rfl⟩
  have hprocess : ∀ machine, (process pid).run { r' with machine } = .ok p { r' with machine } :=
    fun _ => run_process_eq_ok.mpr ⟨hp, rfl⟩
  exact ⟨_, (run_bind_ok hvirt).trans ((run_bind_ok hpages).trans ((run_bind_ok hnew).trans
    ((run_bind_ok hwrite).trans ((run_bind_ok (hprocess _)).trans rfl))))⟩

/-! ## The new image -/

theorem pagesOf_stack : pagesOf (2 * pageSize) = 2 := by decide

/-- Code and stack of an image take one page for each address. -/
theorem card_freePages_of_createMappings {code : List UInt8} {allocatedSize stackSize : Nat}
    (htable : s.tableOf pid = some t)
    (hrun : (createMappings trampoline pid code allocatedSize stackSize).run s = .ok () s') :
    s.freePages.card = s'.freePages.card + (pagesOf allocatedSize + pagesOf stackSize) := by
  obtain ⟨p, -, hrun⟩ := run_process_bind_eq_ok.mp hrun
  obtain ⟨_, r, hcode, hrun⟩ := run_bind_eq_ok.mp hrun
  obtain ⟨_, r', hstack, hrun⟩ := run_bind_eq_ok.mp hrun
  have hcard := card_freePages_of_loop htable
    (fun _ _ _ hq hbody => run_mapCodePage_edits hq hbody) hcode
  obtain ⟨hr, -⟩ : Reaches (Adds 0 t fun _ => True) s r ∧ _ :=
    loop_acquires htable (fun _ _ _ hq hbody => run_mapCodePage_edits hq hbody)
      (fun _ _ => trivial) hcode
  have hcard' := card_freePages_of_loop (hr.tableOf_eq htable)
    (fun _ _ _ hq hbody => run_mapStackPage_edits hq hbody) hstack
  have hsame : s'.freePages = r'.freePages := by
    obtain ⟨u, paging, -, -, -, -, rfl⟩ := run_mapPage_eq_ok.mp hrun
    exact freePages_congr fun _ => rfl
  rw [hsame]
  omega

/-- `create_mappings` of an image that ends below its stack returns on an empty table. -/
theorem Sound.exists_run_createMappings (h : Sound image reserved trampoline s)
    (hs : ShowsCurrent s) (hzero : reserved 0) (htable : s.tableOf pid = some t)
    (hempty : ∀ v, s.lookup t v = none) (code : List UInt8) (allocatedSize : Nat)
    (hn : pagesOf allocatedSize ≤ 753661) (hroom : pagesOf allocatedSize + 2 ≤ s.freePages.card) :
    ∃ s', (createMappings trampoline pid code allocatedSize (2 * pageSize)).run s = .ok () s' := by
  have huser : ∀ v, ImageAddr (pagesOf allocatedSize) 2 v → UserPage v := fun v hv => hv.userPage hn
  obtain ⟨r, hcode, hsound, hshows, htable', hcard, hkept⟩ := h.exists_run_loop hs htable
    (mapCodePage pid code) codeAddr (fun _ _ _ hq hbody => run_mapCodePage_edits hq hbody)
    (fun i q hq hsq htable hv hfree hroom =>
      hq.exists_run_mapCodePage hsq hzero htable hv hfree hroom)
    (fun i hi => huser _ (.inl ⟨i, hi, rfl⟩)) (fun i _ => hempty _) (fun i hi j hj heq => by
      rw [codeAddr_eq (by omega), codeAddr_eq (by omega)] at heq
      unfold pageSize at heq
      omega) (show pagesOf allocatedSize ≤ _ by omega)
  have hstackFree : ∀ i < 2, r.lookup t (stackAddr i) = none := by
    intro i hi
    rw [hkept _ fun j hj heq => ?_]
    · exact hempty _
    · rw [stackAddr_eq (by omega), codeAddr_eq (by omega)] at heq
      unfold userVirtualBase kernelVirtualBase pageSize at heq
      omega
  obtain ⟨r', hstack, hsound', hshows', htable'', -, hkept'⟩ :=
    hsound.exists_run_loop hshows htable'
    (mapStackPage pid) stackAddr (fun _ _ _ hq hbody => run_mapStackPage_edits hq hbody)
    (fun i q hq hsq htable hv hfree hroom =>
      hq.exists_run_mapStackPage hsq hzero htable hv hfree hroom)
    (fun i hi => huser _ (.inr (.inl ⟨i, hi, rfl⟩))) hstackFree (fun i hi j hj heq => by
      rw [stackAddr_eq (by omega), stackAddr_eq (by omega)] at heq
      unfold kernelVirtualBase pageSize at heq
      omega) (show 2 ≤ _ by omega)
  have hlast : r'.lookup t signalTrampolinePage = none := by
    rw [hkept' _ fun i hi heq => ?_, hkept _ fun i hi heq => ?_]
    · exact hempty _
    · rw [codeAddr_eq (by omega)] at heq
      unfold signalTrampolinePage userVirtualBase kernelVirtualBase pageSize at heq
      omega
    · rw [stackAddr_eq (by omega)] at heq
      unfold signalTrampolinePage kernelVirtualBase pageSize at heq
      omega
  obtain ⟨s', hmap⟩ := exists_run_mapPage htable'' hsound'.ledger.live hlast
    (hsound'.absent hshows' (huser _ (.inr (.inr rfl))) hlast) trampoline trampolineFlags false
  obtain ⟨p, hp, -⟩ := tableOf_eq_some.mp htable
  exact ⟨s', (run_process_bind hp).trans
    ((run_bind_ok hcode).trans ((run_bind_ok hstack).trans hmap))⟩

/-! ## The old image -/

/-- Pages that are in use and different from each other can be released. -/
theorem exists_run_releaseOwned {pairs : List (Nat × MemoryMapping)}
    (hpages : ∀ page ∈ ownedPages pairs, IsPage page ∧ s.used page = true)
    (hnodup : (ownedPages pairs).Nodup) : ∃ s', (each releaseOwned pairs).run s = .ok () s' := by
  induction pairs generalizing s with
  | nil => exact ⟨s, rfl⟩
  | cons pair pairs ih =>
    cases ho : pair.2.owned with
    | false =>
      have hfirst : (releaseOwned pair).run s = .ok () s := by
        unfold releaseOwned
        rw [if_neg (by rw [ho]; decide)]
        rfl
      have hsame : ownedPages (pair :: pairs) = ownedPages pairs := by
        simp [ownedPages, ho]
      rw [hsame] at hpages hnodup
      obtain ⟨s', hrest⟩ := ih hpages hnodup
      exact ⟨s', (run_bind_ok hfirst).trans hrest⟩
    | true =>
      have hcons : ownedPages (pair :: pairs) = pair.2.paddr :: ownedPages pairs := by
        simp [ownedPages, ho]
      rw [hcons] at hpages hnodup
      obtain ⟨hnew, hnodup⟩ := List.nodup_cons.mp hnodup
      obtain ⟨hpage, hused⟩ := hpages _ List.mem_cons_self
      have hfirst : (releaseOwned pair).run s = .ok () (s.freed pair.2.paddr) := by
        unfold releaseOwned
        rw [if_pos ho]
        exact run_releasePhysicalPage_eq_ok.mpr ⟨hused, rfl⟩
      obtain ⟨s', hrest⟩ := @ih (s.freed pair.2.paddr) (fun page hmem => by
        obtain ⟨hpage', hused'⟩ := hpages page (List.mem_cons_of_mem _ hmem)
        refine ⟨hpage', ?_⟩
        rw [used_freed, if_neg]
        · exact hused'
        · exact div_ne_of_isPage hpage' hpage fun heq => hnew (heq ▸ hmem)) hnodup
      exact ⟨s', (run_bind_ok hfirst).trans hrest⟩

/-- `release_mappings` returns. -/
theorem Ledger.exists_run_releaseMappings (h : Ledger s) (it : Iteration)
    (htable : s.tableOf pid = some t) :
    ∃ s', (AddressSpaces.releaseMappings it pid).run s = .ok () s' := by
  obtain ⟨r, hloop⟩ := exists_run_releaseOwned (s := s) (fun page hmem => h.used_of_mem hmem)
    (h.nodup_ownedPages it t)
  obtain ⟨p, hp, rfl⟩ := tableOf_eq_some.mp htable
  unfold AddressSpaces.releaseMappings
  rw [run_process_bind hp, run_get_bind]
  split
  · exact ⟨s, rfl⟩
  · rw [run_bind_ok hloop]
    exact ⟨_, rfl⟩

/-- It gives the pages back that are owned in a table that is not shared. -/
theorem Ledger.card_freePages_of_releaseMappings (h : Ledger s) (htable : s.tableOf pid = some t)
    (hunshared : s.Unshared t) (hrun : (AddressSpaces.releaseMappings it pid).run s = .ok () s') :
    s'.freePages.card = s.freePages.card + s.ownedCount t := by
  rcases run_releaseMappings_cases htable hrun with ⟨hshared, -⟩ | ⟨-, r, hback, rfl⟩
  · exact absurd hunshared hshared
  · have hsame : (r.setTable t ∅).freePages = r.freePages := freePages_congr fun _ => rfl
    rw [hsame, card_freePages_of_givenBack (fun page hmem => h.used_of_mem hmem)
      (h.nodup_ownedPages it t) hback, length_ownedPages]

/-- The first part of `load_user_code` returns. -/
theorem Sound.exists_run_unmapCurrent (h : Sound image reserved trampoline s) (hs : ShowsCurrent s)
    (it : Iteration) (htable : s.tableOf pid = some t) : ∃ s',
      (if s.current = pid then unmapAddressSpace it pid else pure ()).run s = .ok () s' := by
  split
  case isFalse => exact ⟨s, rfl⟩
  case isTrue hcurrent =>
    obtain ⟨paging, hpages⟩ := h.paged.exists_run_unmapPages (hs t (hcurrent ▸ htable))
      (it.nodup_keys (s.tables t)) (by
        rintro ⟨v, m⟩ hmem
        have hv := it.mem_order.mp hmem
        exact ⟨h.keys t v m hv, by rw [hv]; exact Option.some_ne_none m⟩)
    exact ⟨_, (run_unmapAddressSpace_eq_ok htable).mpr ⟨paging, hpages, rfl⟩⟩

/-! ## A new program -/

/-- The table holds an image with its stack and trampoline, thread-local storage, and nothing
else. -/
structure Replaced (trampoline n t : Nat) (s : System) : Prop where
  image : HasImage trampoline n 2 t s
  tls : ∃ found, (∀ v, TlsAddr found v → ∃ page, s.lookup t v = some ⟨page, userFlags, true⟩) ∧
    ∀ v m, s.lookup t v = some m → ImageAddr n 2 v ∨ TlsAddr found v

/-- `load_user_code` returns, leaves the process with the pages of the new program, and changes no
mapping of another process. -/
def ExecWorks (it : Iteration) (trampoline : Nat) (s : System) (pid t : Nat) (code : List UInt8)
    (allocatedSize : Nat) : Prop :=
  ∃ s', (loadUserCode it trampoline pid code allocatedSize).run s = .ok () s' ∧
    s'.tableOf pid = some t ∧ Replaced trampoline (pagesOf allocatedSize) t s' ∧ ShowsCurrent s' ∧
    ∀ pid' ≠ pid, ∀ u, s.tableOf pid' = some u →
      s'.tableOf pid' = some u ∧ ∀ v, s'.lookup u v = s.lookup u v

/-- The page of the trampoline is new in the table, unless the table has been emptied. -/
theorem run_loadUserCode_trampoline {code : List UInt8} {allocatedSize : Nat}
    (htable : s.tableOf pid = some t) (hshared : ¬ s.Unshared t)
    (hrun : (loadUserCode it trampoline pid code allocatedSize).run s = .ok () s') :
    s.lookup t signalTrampolinePage = none ∧ s'.lookup t signalTrampolinePage ≠ none := by
  obtain ⟨q, r, r', hunmap, hrelease, himage, htls⟩ := run_loadUserCode_eq_ok.mp hrun
  obtain ⟨paging, rfl⟩ := run_unmapCurrent_eq_ok hunmap
  have htable' : System.tableOf { s with paging } pid = some t := htable
  rcases run_releaseMappings_cases htable' hrelease with ⟨-, rfl⟩ | ⟨hunshared, -⟩
  · obtain ⟨hadds, hhas, hfree, -⟩ := run_createMappings_image htable' himage
    refine ⟨hfree, ?_⟩
    have hadds' : Reaches (Adds trampoline t UserPage) r' s' :=
      run_initTls_reaches (hadds.tableOf_eq htable') htls
    rw [lookup_some_of_adds hadds' hhas.trampoline]
    exact Option.some_ne_none _
  · exact absurd hunshared hshared

section

variable {code : List UInt8} {allocatedSize : Nat}

/-- `load_user_code` that returns, on a process that shares its table with no other. -/
theorem Sound.replaced (h : Sound image reserved trampoline s) (hs : ShowsCurrent s)
    (htable : s.tableOf pid = some t) (hunshared : s.Unshared t)
    (hrun : (AddressSpaces.loadUserCode it trampoline pid code allocatedSize).run s = .ok () s') :
    SameProcesses s s' ∧ Replaced trampoline (pagesOf allocatedSize) t s' ∧
      ∀ u v, u ≠ t → s'.lookup u v = s.lookup u v := by
  obtain ⟨q, r, r', hunmap, hrelease, himage, htls⟩ := run_loadUserCode_eq_ok.mp hrun
  obtain ⟨-, -, hsame, hempty, hothers⟩ := h.takesAway hs htable hunshared hunmap hrelease
  have htable' : r.tableOf pid = some t := (hsame.tableOf pid).trans htable
  obtain ⟨hadds, hhas, -, -⟩ := run_createMappings_image htable' himage
  have htable'' := hadds.tableOf_eq htable'
  obtain ⟨found, -, hadds', hpages⟩ := run_initTls_pages trampoline htable'' htls
  refine ⟨hsame.trans (hadds.sameProcesses.trans hadds'.sameProcesses),
    ⟨⟨fun i hi => ?_, fun i hi => ?_, ?_⟩, found, hpages, fun v m hv => ?_⟩, fun u v hne => ?_⟩
  · obtain ⟨page, hpage⟩ := hhas.code i hi
    exact ⟨page, lookup_some_of_adds hadds' hpage⟩
  · obtain ⟨page, hpage⟩ := hhas.stack i hi
    exact ⟨page, lookup_some_of_adds hadds' hpage⟩
  · exact lookup_some_of_adds hadds' hhas.trampoline
  · by_contra hneither
    rw [not_or] at hneither
    rw [lookup_of_adds hadds' (.inr hneither.2), lookup_of_adds hadds (.inr hneither.1),
      hempty] at hv
    cases hv
  · rw [lookup_of_adds hadds' (.inl hne), lookup_of_adds hadds (.inl hne), hothers u v hne]

/-- Two pages are left between an image and its stack when thread-local storage has been found. -/
theorem le_of_findPages {n found : Nat} (hhas : HasImage trampoline n 2 t s) (hn : n ≤ 753661)
    (hfind : findPages (s.tables t).contains (tlsPages + 1) = some found) : n ≤ 753659 := by
  obtain ⟨hmod, hge, hle⟩ := findPages_range (by decide) hfind
  have hmapped : ∀ k < 2, ∀ v m, s.lookup t v = some m → found + k * pageSize ≠ v := by
    rintro k hk v m hv rfl
    rw [contains_eq_false_iff.mp (findPages_unmapped hfind k hk)] at hv
    cases hv
  have hcode : ∀ i < n, found ≠ codeAddr i := by
    intro i hi
    obtain ⟨page, hpage⟩ := hhas.code i hi
    simpa using hmapped 0 (by decide) _ _ hpage
  have hstack : ∀ i < 2, found + pageSize ≠ stackAddr i := by
    intro i hi
    obtain ⟨page, hpage⟩ := hhas.stack i hi
    simpa using hmapped 1 (by decide) _ _ hpage
  have hlast : found + pageSize ≠ signalTrampolinePage := by
    simpa using hmapped 1 (by decide) _ _ hhas.trampoline
  by_contra hlt
  -- The first page found lies behind the code, so that the second is one of the last three.
  have hbehind : userVirtualBase + n * pageSize ≤ found := by
    by_contra hinside
    unfold userVirtualBase pageSize at *
    refine hcode ((found - 0x8000000) / 4096) (by omega) ?_
    rw [codeAddr_eq (by omega)]
    unfold userVirtualBase pageSize
    omega
  have hfirst := hstack 0 (by decide)
  have hsecond := hstack 1 (by decide)
  rw [stackAddr_eq (by decide)] at hfirst hsecond
  unfold signalTrampolinePage at hlast
  unfold userVirtualBase at hbehind
  unfold tlsPages at hle
  unfold kernelVirtualBase at hfirst hsecond hlast hle
  unfold pageSize at *
  omega

namespace Sound

variable (h : Sound image reserved trampoline s) (hs : ShowsCurrent s)

include h hs

/-- A program that has been loaded fits into virtual memory, and has taken a page of physical memory
for each of its own, of its stack and of its thread-local storage. -/
theorem fits (htable : s.tableOf pid = some t) (hunshared : s.Unshared t)
    (hrun : (AddressSpaces.loadUserCode it trampoline pid code allocatedSize).run s = .ok () s') :
    pagesOf allocatedSize ≤ 753659 ∧
      s.freePages.card + s.ownedCount t = s'.freePages.card + (pagesOf allocatedSize + 4) := by
  obtain ⟨q, r, r', hunmap, hrelease, himage, htls⟩ := run_loadUserCode_eq_ok.mp hrun
  obtain ⟨-, -, hsame, -, -⟩ := h.takesAway hs htable hunshared hunmap hrelease
  have hcard : r.freePages.card = s.freePages.card + s.ownedCount t := by
    obtain ⟨hq, -⟩ := h.unmapCurrent hs hunmap
    obtain ⟨paging, rfl⟩ := run_unmapCurrent_eq_ok hunmap
    have hfree : System.freePages { s with paging } = s.freePages := freePages_congr fun _ => rfl
    rw [hq.ledger.card_freePages_of_releaseMappings htable hunshared hrelease, hfree]
    rfl
  have htable' : r.tableOf pid = some t := (hsame.tableOf pid).trans htable
  have hcardImage := card_freePages_of_createMappings htable' himage
  obtain ⟨hadds, hhas, -, hseparate⟩ := run_createMappings_image htable' himage
  rw [pagesOf_stack] at hcardImage hhas hseparate
  have htable'' := hadds.tableOf_eq htable'
  have hcardTls := card_freePages_of_initTls htable'' htls
  obtain ⟨found, hfind, -⟩ := run_initTls_pages trampoline htable'' htls
  refine ⟨le_of_findPages hhas (le_of_separate hseparate) hfind, ?_⟩
  unfold tlsPages at hcardTls
  omega

/-- A program that fits is loaded. -/
theorem exists_run_loadUserCode
    (hzero : reserved 0) (it : Iteration) (htable : s.tableOf pid = some t)
    (hunshared : s.Unshared t) (code : List UInt8) (hn : pagesOf allocatedSize ≤ 753659)
    (hroom : pagesOf allocatedSize + 4 ≤ s.freePages.card + s.ownedCount t) :
    ∃ s', (AddressSpaces.loadUserCode it trampoline pid code allocatedSize).run s = .ok () s' := by
  obtain ⟨q, hunmap⟩ := h.exists_run_unmapCurrent hs it htable
  obtain ⟨hq, -⟩ := h.unmapCurrent hs hunmap
  obtain ⟨paging, rfl⟩ := run_unmapCurrent_eq_ok hunmap
  obtain ⟨r, hrelease⟩ := hq.ledger.exists_run_releaseMappings it htable
  obtain ⟨hr, hsr, hsame, hempty, -⟩ := h.takesAway hs htable hunshared hunmap hrelease
  have hcard := hq.ledger.card_freePages_of_releaseMappings htable hunshared hrelease
  have hfree : System.freePages { s with paging } = s.freePages := freePages_congr fun _ => rfl
  rw [hfree, show System.ownedCount { s with paging } t = s.ownedCount t from rfl] at hcard
  have htable' : r.tableOf pid = some t := (hsame.tableOf pid).trans htable
  obtain ⟨r', himage⟩ := hr.exists_run_createMappings hsr hzero htable' hempty code allocatedSize
    (by omega) (by omega)
  have hcardImage := card_freePages_of_createMappings htable' himage
  obtain ⟨hadds, -, -, hseparate⟩ := run_createMappings_image htable' himage
  rw [pagesOf_stack] at hcardImage hadds
  obtain ⟨hr', hsr'⟩ := hr.adds hsr htable' (fun v hv => hv.userPage (by omega)) hadds
  -- The two pages behind the code are free.
  have hfind : (findPages (r'.tables t).contains (tlsPages + 1)).isSome = true := by
    refine findPages_isSome (j := userVirtualBase / 2 ^ 12 + pagesOf allocatedSize) (by decide)
      (by omega) (by unfold tlsPages userVirtualBase kernelVirtualBase; omega) fun k hk => ?_
    rw [contains_eq_false_iff, lookup_of_adds hadds (.inr ?_)]
    · exact hempty _
    · unfold tlsPages at hk
      rintro (⟨i, hi, heq⟩ | ⟨i, hi, heq⟩ | heq)
      · rw [codeAddr_eq (by omega)] at heq
        unfold userVirtualBase pageSize at heq
        omega
      · rw [stackAddr_eq (by omega)] at heq
        unfold userVirtualBase kernelVirtualBase pageSize at heq
        omega
      · unfold signalTrampolinePage userVirtualBase kernelVirtualBase pageSize at heq
        omega
  obtain ⟨s', htls⟩ := hr'.exists_run_initTls hsr' (hadds.tableOf_eq htable') hfind
    (by unfold tlsPages; omega)
  exact ⟨s', run_loadUserCode_eq_ok.mpr ⟨_, r, r', hunmap, hrelease, himage, htls⟩⟩

end Sound

/-- Exec works when no other process refers to the table, the image leaves room for stack,
trampoline and thread-local storage below the kernel, and there are enough pages once those of the
old image are free. -/
theorem exec_works_iff (h : Sound image reserved trampoline s) (hs : ShowsCurrent s)
    (hzero : reserved 0) (it : Iteration) (htable : s.tableOf pid = some t) :
    ExecWorks it trampoline s pid t code allocatedSize ↔
      (∀ pid' ≠ pid, s.tableOf pid' ≠ some t) ∧ pagesOf allocatedSize ≤ 753659 ∧
        pagesOf allocatedSize + 4 ≤ s.freePages.card + s.ownedCount t := by
  constructor
  · rintro ⟨s', hrun, -, -, -, hothers⟩
    have hunshared : s.Unshared t := by
      by_contra hshared
      obtain ⟨pid', hne, htable'⟩ := (not_unshared_iff htable).mp hshared
      obtain ⟨hbefore, hafter⟩ := run_loadUserCode_trampoline htable hshared hrun
      rw [(hothers pid' hne t htable').2] at hafter
      exact hafter hbefore
    obtain ⟨hn, hcard⟩ := h.fits hs htable hunshared hrun
    exact ⟨fun pid' hne htable' => hne ((unshared_iff htable).mp hunshared pid' htable'), hn,
      by omega⟩
  · rintro ⟨honly, hn, hroom⟩
    have hunshared : s.Unshared t := (unshared_iff htable).mpr fun pid' htable' => by
      by_contra hne
      exact honly pid' hne htable'
    obtain ⟨s', hrun⟩ := h.exists_run_loadUserCode hs hzero it htable hunshared code hn hroom
    obtain ⟨hsame, hreplaced, hothers⟩ := h.replaced hs htable hunshared hrun
    have hshows : ShowsCurrent s' := by
      refine (h.loadUserCode hs (fun t' pid' ht' hpid' => ?_) hrun).2
      cases htable.symm.trans ht'
      exact (unshared_iff htable).mp hunshared pid' hpid'
    refine ⟨s', hrun, (hsame.tableOf pid).trans htable, hreplaced, hshows, fun pid' hne u hu =>
      ⟨(hsame.tableOf pid').trans hu, fun v => hothers u v ?_⟩⟩
    rintro rfl
    exact honly pid' hne hu

end

/-! ## A shared table -/

section

variable {code : List UInt8} {allocatedSize : Nat}

/-- `map_page` into the table of the current process at an address that is present. -/
theorem run_mapPage_present (htable : s.tableOf pid = some t)
    (hcurrent : s.tableOf s.current = some t) (hpresent : (s.paging.entry v).present = true)
    (paddr flags : Nat) (owned : Bool) :
    (mapPage pid v paddr flags owned).run s = .error .assertion s := by
  obtain ⟨p, hp, rfl⟩ := tableOf_eq_some.mp htable
  obtain ⟨c, hc, heq⟩ := tableOf_eq_some.mp hcurrent
  have hpaging : (onPaging (Mem.mapPage paddr v flags)).run s = .error .assertion s := by
    show onPaging _ s = _
    unfold onPaging
    rw [Mem.run_mapPage_present hpresent]
  unfold mapPage
  rw [run_get_bind, run_process_bind hp,
    run_process_bind hc, if_pos heq.symm, run_bind_error hpaging]

/-- A process that shares the table of the current one, with code in it, cannot be given a new
program: the first page of code is in the way. -/
theorem Sound.run_loadUserCode_shared (h : Sound image reserved trampoline s) (hs : ShowsCurrent s)
    (hzero : reserved 0) (it : Iteration) (hne : s.current ≠ pid) (htable : s.tableOf pid = some t)
    (hcurrent : s.tableOf s.current = some t)
    (hmapped : s.lookup t (codeAddr 0) = some ⟨page, codeFlags, true⟩)
    (hroom : 0 < s.freePages.card) (hn : pagesOf allocatedSize ≠ 0) :
    ∃ s', (AddressSpaces.loadUserCode it trampoline pid code allocatedSize).run s =
      .error .assertion s' := by
  obtain ⟨n, hn⟩ := Nat.exists_eq_succ_of_ne_zero hn
  obtain ⟨p, hp, -⟩ := tableOf_eq_some.mp htable
  have hrelease : (AddressSpaces.releaseMappings it pid).run s = .ok () s := by
    obtain ⟨r, hrun⟩ := h.ledger.exists_run_releaseMappings it htable
    rcases run_releaseMappings_cases htable hrun with ⟨-, rfl⟩ | ⟨hunshared, -⟩
    · exact hrun
    · exact absurd hunshared ((not_unshared_iff htable).mpr ⟨s.current, hne, hcurrent⟩)
  obtain ⟨page', machine, log, hstart⟩ := h.run_mapCodePage_start hzero hroom pid code 0
  have hpresent : (s.paging.entry (codeAddr 0)).present = true := by
    rw [((hs t hcurrent).carries _ _ (h.keys _ _ _ hmapped) hmapped).present]
    show (!hasFlag codeFlags (2 ^ 6)) = true
    decide
  have hmap := @run_mapPage_present { s with machine, log } t (codeAddr 0) pid htable hcurrent
    hpresent page' codeFlags true
  have hcode : (loop (mapCodePage pid code) 0 (pagesOf allocatedSize)).run s =
      .error .assertion { s with machine, log } := by
    rw [hn]
    exact run_bind_error (hstart.trans hmap)
  have himage : (createMappings trampoline pid code allocatedSize (2 * pageSize)).run s =
      .error .assertion { s with machine, log } :=
    (run_process_bind hp).trans (run_bind_error hcode)
  refine ⟨{ s with machine, log }, ?_⟩
  unfold AddressSpaces.loadUserCode
  rw [run_get_bind, if_neg hne]
  exact (run_bind_ok rfl).trans ((run_bind_ok hrelease).trans (run_bind_error himage))

end

end

/-! ## The first process -/

section

variable {paging : PageTables}

theorem card_freePages_boot : 16 ≤ (boot bootMachine paging).freePages.card := by
  have hsub : Finset.Ico 32768 32784 ⊆ (boot bootMachine paging).freePages := by
    intro i hi
    obtain ⟨hge, hlt⟩ := Finset.mem_Ico.mp hi
    refine mem_freePages.mpr ⟨Nat.lt_trans hlt (by decide), ?_⟩
    exact (used_bootMachine i).trans (decide_eq_false (Nat.not_lt.mpr hge))
  have hcard := Finset.card_le_card hsub
  rwa [Nat.card_Ico] at hcard

theorem eq_zero_of_tableOf_boot {machine : Machine} {pid t : Nat}
    (h : (boot machine paging).tableOf pid = some t) : pid = 0 := by
  cases pid with
  | zero => rfl
  | succ pid => cases h

/-- The first process is given a program of one page. -/
theorem exec_works_first_process :
    ExecWorks ⟨fun mappings => mappings.toList, fun _ => .refl _⟩ 0x100000
      (boot bootMachine (createPagingInfo smallImage fun _ => {})) 0 0 [] 4096 := by
  have hroom := @card_freePages_boot (createPagingInfo smallImage fun _ => {})
  refine (exec_works_iff sound_bootMachine showsCurrent_boot (by unfold kernelFrame; decide) _
    (tableOf_boot _ _)).mpr ⟨fun pid' hne htable => hne (eq_zero_of_tableOf_boot htable),
      by decide, ?_⟩
  have hpages : pagesOf 4096 = 1 := by decide
  omega

/-- The first process before its first allocation. -/
def bootAt : System := boot bootMachineAt (createPagingInfo smallImage fun _ => {})

theorem run_loadUserCode_congr {a b : PhysPageAllocator}
    (h : PhysPageAllocator.findFreePage a = PhysPageAllocator.findFreePage b) (memory : Bytes) :
    (loadUserCode inAddressOrder 0x100000 0 [] 4096).run (boot ⟨a, memory⟩ paging) =
      (loadUserCode inAddressOrder 0x100000 0 [] 4096).run (boot ⟨b, memory⟩ paging) := by
  have hfirst := run_allocatePhysicalPage_congr h memory ((boot ⟨a, memory⟩ paging).setTable 0 ∅)
  exact run_bind_congr (run_bind_congr (run_bind_congr (run_bind_congr hfirst _) _) _) _

theorem run_loadUserCode_boot : (loadUserCode inAddressOrder 0x100000 0 [] 4096).run
      (boot bootMachine (createPagingInfo smallImage fun _ => {})) =
    (loadUserCode inAddressOrder 0x100000 0 [] 4096).run bootAt :=
  run_loadUserCode_congr findFreePage_bootMachine _

/-- The first process with a program. -/
def bootLoaded : System := endState (loadUserCode inAddressOrder 0x100000 0 [] 4096) bootAt

/-- The first process and a child that shares its table. -/
def bootCloned : System := endState (AddressSpaces.clone inAddressOrder 0 cloneVm) bootLoaded

/-- The first process is given a program and clones itself with `CLONE_VM`. When its child is to be
given a program, the kernel stops at an assertion. -/
theorem exec_of_shared_table_fails : ∃ s child, Steps (Guarded Permitted (Performs 0x100000))
      (boot bootMachine (createPagingInfo smallImage fun _ => {}))
      [.loadUserCode 0 [] 4096, .clone 0 cloneVm] s ∧
    child ≠ 0 ∧ s.tableOf 0 = some 0 ∧ s.tableOf child = some 0 ∧ ∀ it code,
      (∃ s', (loadUserCode it 0x100000 child code 4096).run s = .error .assertion s') ∧
      ¬ ExecWorks it 0x100000 s child 0 code 4096 := by
  have honly : Permitted (boot bootMachine (createPagingInfo smallImage fun _ => {}))
      (.loadUserCode 0 [] 4096) := fun t pid' _ htable' => eq_zero_of_tableOf_boot htable'
  have hload := run_loadUserCode_boot.trans (run_of_outcome_ok
    (show outcome _ bootAt = .ok () by decide +kernel))
  have hclone : (AddressSpaces.clone inAddressOrder 0 cloneVm).run bootLoaded = .ok 1 bootCloned :=
    run_of_outcome_ok (by decide +kernel)
  have hcurrent : 0 = bootLoaded.current := by decide +kernel
  obtain ⟨hr, hsr⟩ := sound_bootMachine.loadUserCode showsCurrent_boot honly hload
  obtain ⟨hs, hss⟩ := hr.clone hsr hclone
  have hcurrent' : bootCloned.current = 0 := by decide +kernel
  have hfirst : bootCloned.tableOf 0 = some 0 := by decide +kernel
  have hchild : bootCloned.tableOf 1 = some 0 := by decide +kernel
  have hcode : bootCloned.lookup 0 (codeAddr 0) = some ⟨32768 * pageSize, codeFlags, true⟩ := by
    decide +kernel
  have hfree : bootCloned.used (40000 * pageSize) = false := by decide +kernel
  refine ⟨bootCloned, 1, ?_, by decide, hfirst, hchild, fun it code => ?_⟩
  · exact .snoc (.snoc (.refl _) ⟨honly, inAddressOrder, hload⟩)
      ⟨hcurrent, inAddressOrder, run_bind_ok hclone⟩
  · obtain ⟨s', hfails⟩ := hs.run_loadUserCode_shared hss (by unfold kernelFrame; decide) it
      (by rw [hcurrent']; decide) hchild (by rw [hcurrent', hfirst]) hcode
      (Finset.card_pos.mpr ⟨40000, mem_freePages.mpr ⟨by decide, hfree⟩⟩)
      (show pagesOf 4096 ≠ 0 by decide)
    refine ⟨⟨s', hfails⟩, ?_⟩
    rintro ⟨s'', hrun, -⟩
    cases hfails.symm.trans hrun

end

end LudOS.Tasking.AddressSpaces
