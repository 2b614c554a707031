import LudOS.Tasking.PageOwnership

/-!
# The address space of a forked process

`copy_page_directory` copies the owned pages of the parent and passes over the others, and
`init_tls` then adds the pages of the child's own thread-local storage. `Copied` is the invariant of
the copying loop.

`fork_copies_iff`: the child gets the parent's address space exactly when the parent owns all of its
pages. The page of the signal trampoline, which `create_mappings` gives every user process, is not
owned and is missing in the child, and so are the pages of the user callbacks.
-/

namespace LudOS.Tasking.AddressSpaces

open Std (TreeMap)
open Lib Mem PageMapping

variable {s s' : System} {trampoline pid t v page : Nat} {it : Iteration} {m : MemoryMapping}

/-! ## Thread-local storage -/

theorem run_mapNewPage_takes (hrun : (mapNewPage pid v).run s = .ok page s') :
    Takes s.machine page s'.machine := by
  obtain ⟨page', r, halloc, hrun⟩ := run_bind_eq_ok.mp hrun
  obtain ⟨machine, htakes, rfl⟩ := run_allocatePhysicalPage_eq_ok halloc
  obtain ⟨_, r, hmap, hrun⟩ := run_bind_eq_ok.mp hrun
  obtain ⟨table, paging, -, -, -, -, rfl⟩ := run_mapPage_eq_ok.mp hmap
  cases hrun
  exact htakes

/-- `init_tls` takes pages and writes to one of them, and other memory keeps its content. -/
theorem run_initTls_grows (hrun : (initTls pid).run s = .ok () s') :
    Grows s.machine s'.machine := by
  obtain ⟨found, r, hfind, hrun⟩ := run_bind_eq_ok.mp hrun
  obtain ⟨t, htable⟩ := exists_tableOf hfind
  obtain ⟨-, rfl⟩ := (run_allocateVirtualPage_eq_ok htable).mp hfind
  obtain ⟨_, r, hpages, hrun⟩ := run_bind_eq_ok.mp hrun
  have hfirst : Grows s.machine r.machine := by
    refine @loop_preserves _ _ _ _ _ (fun q => Grows s.machine q.machine)
      (fun i q q' _ _ hq hbody => ?_)
      _ _ (.refl _) hpages
    obtain ⟨_, q'', hnew, hbody⟩ := run_bind_eq_ok.mp hbody
    cases hbody
    exact hq.trans (run_mapNewPage_takes hnew).grows
  obtain ⟨page, r', hlast, hrun⟩ := run_bind_eq_ok.mp hrun
  have htakes := run_mapNewPage_takes hlast
  obtain ⟨_, r'', hwrite, hrun⟩ := run_bind_eq_ok.mp hrun
  obtain ⟨machine, hmachine, rfl⟩ := run_onMachine_eq_ok.mp hwrite
  cases hmachine
  obtain ⟨p, -, hrun⟩ := run_process_bind_eq_ok.mp hrun
  cases hrun
  exact (hfirst.trans htakes.grows).write htakes.handedOut.on_page
    (hfirst.free htakes.handedOut.was_free) (by decide) _

/-! ## Copying the pages -/

/-- The child's table after the mappings in `done`: the owned ones are there, each with a copy of
its page that was free on machine `m₀`, and no others. -/
structure Copied (m₀ : Machine) (t : Nat) (done : List (Nat × MemoryMapping)) (s : System) :
    Prop where
  grows : Grows m₀ s.machine
  copied : ∀ v m, (v, m) ∈ done → m.owned = true → ∃ page,
    s.lookup t v = some { m with paddr := page } ∧ IsPage page ∧ m₀.used page = false ∧
      s.used page = true ∧ ∀ k < pageSize, s.machine.memory (page + k) = m₀.memory (m.paddr + k)
  only : ∀ v n, s.lookup t v = some n → ∃ m, (v, m) ∈ done ∧ m.owned = true

section

variable {m₀ : Machine} {done : List (Nat × MemoryMapping)} {target : Nat}

/-- One iteration keeps the invariant. -/
theorem Copied.step (h : Copied m₀ t done s) (htable : s.tableOf target = some t)
    (hpage : m.owned = true → IsPage m.paddr) (hused : m.owned = true → m₀.used m.paddr = true)
    (hnew : ∀ n, (v, n) ∉ done) (hrun : (copyPage target (v, m)).run s = .ok () s') :
    Copied m₀ t ((v, m) :: done) s' ∧ s'.tableOf target = some t := by
  rcases run_copyPage_cases htable hrun with ⟨ho, rfl⟩ | ⟨ho, page, machine, htakes, rfl⟩
  · refine ⟨⟨h.grows, fun w n hw hn => ?_, fun w n hw => ?_⟩, htable⟩
    · rcases List.mem_cons.mp hw with heq | hw
      · cases heq
        rw [ho] at hn
        cases hn
      · exact h.copied w n hw hn
    · obtain ⟨n', hmem, hn'⟩ := h.only w n hw
      exact ⟨n', List.mem_cons_of_mem _ hmem, hn'⟩
  · have hfree := h.grows.free htakes.handedOut.was_free
    have hgrows := h.grows.trans htakes.grows
    -- The copy goes to a page that was free in `s`, so that the earlier copies stay.
    have hstay : Grows s.machine (s.copiedTo t v m page machine).machine :=
      htakes.grows.write htakes.handedOut.on_page htakes.handedOut.was_free (Nat.le_refl _) _
    refine ⟨⟨hgrows.write htakes.handedOut.on_page hfree (Nat.le_refl _) _, fun w n hw hn => ?_,
      fun w n hw => ?_⟩, htable⟩
    · rcases List.mem_cons.mp hw with heq | hdone
      · cases heq
        refine ⟨page, ?_, htakes.handedOut.on_page, hfree, htakes.handedOut.is_used, fun k hk => ?_⟩
        · rw [lookup_copiedTo, if_pos ⟨rfl, rfl⟩]
        · have hsrc : m₀.used (m.paddr + k) = true :=
            (used_within (hpage ho) (by omega) (by omega) m₀).trans (hused ho)
          show machine.memory.splice page pageSize (machine.memory.view m.paddr) (page + k) = _
          rw [Bytes.splice_inside (by omega) (by omega), Nat.add_sub_cancel_left]
          exact (hgrows _ hsrc).2
      · have hne : w ≠ v := by
          rintro rfl
          exact hnew n hdone
        obtain ⟨q, hlookup, hqpage, hq, hqused, hbytes⟩ := h.copied w n hdone hn
        refine ⟨q, ?_, hqpage, hq, (hstay q hqused).1, fun k hk => ?_⟩
        · rw [lookup_copiedTo, if_neg fun heq => hne heq.2, hlookup]
        · have hqk : s.machine.used (q + k) = true :=
            (used_within hqpage (Nat.le_add_right q k) (Nat.add_lt_add_left hk q) _).trans hqused
          exact (hstay _ hqk).2.trans (hbytes k hk)
    · rw [lookup_copiedTo] at hw
      split at hw
      case isTrue heq => exact ⟨m, heq.2 ▸ List.mem_cons_self, ho⟩
      case isFalse =>
        obtain ⟨n', hmem, hn'⟩ := h.only w n hw
        exact ⟨n', List.mem_cons_of_mem _ hmem, hn'⟩

/-- The loop keeps the invariant. -/
theorem Copied.run {rest : List (Nat × MemoryMapping)} (h : Copied m₀ t done s)
    (htable : s.tableOf target = some t)
    (hpages : ∀ v m, (v, m) ∈ rest → m.owned = true → IsPage m.paddr ∧ m₀.used m.paddr = true)
    (hnodup : (rest.map Prod.fst).Nodup) (hnew : ∀ v m n, (v, m) ∈ rest → (v, n) ∉ done)
    (hrun : (each (copyPage target) rest).run s = .ok () s') :
    Copied m₀ t (rest.reverse ++ done) s' ∧ s'.tableOf target = some t := by
  induction rest generalizing done s with
  | nil =>
    cases hrun
    exact ⟨h, htable⟩
  | cons pair rest ih =>
    obtain ⟨v, m⟩ := pair
    obtain ⟨_, r, hfirst, hrest⟩ := run_bind_eq_ok.mp hrun
    obtain ⟨hnot, hnodup⟩ := List.nodup_cons.mp hnodup
    have hpair := hpages v m List.mem_cons_self
    obtain ⟨hr, htable'⟩ := h.step htable (fun ho => (hpair ho).1) (fun ho => (hpair ho).2)
      (fun n => hnew v m n List.mem_cons_self) hfirst
    rw [List.reverse_cons, List.append_assoc]
    refine ih hr htable' (fun w n hw => hpages w n (List.mem_cons_of_mem _ hw)) hnodup
      (fun w n n' hw hmem => ?_) hrest
    rcases List.mem_cons.mp hmem with heq | hmem
    · cases heq
      exact hnot (List.mem_map.mpr ⟨(v, n), hw, rfl⟩)
    · exact hnew w n n' (List.mem_cons_of_mem _ hw) hmem

end

/-! ## Fork -/

/-- Table `t'` has, when the call of `clone` has ended in `s'`, the address space that table `t` had
in `s` before the call. -/
structure CopiesAddressSpace (s : System) (t : Nat) (s' : System) (t' : Nat) : Prop where
  mapped : ∀ v m, s.lookup t v = some m → ∃ n, s'.lookup t' v = some n ∧ n.flags = m.flags
  fresh : ∀ v m n, s.lookup t v = some m → s'.lookup t' v = some n → m.owned = true →
    s.used n.paddr = false
  content : ∀ v m n, s.lookup t v = some m → s'.lookup t' v = some n → m.owned = true →
    ∀ k < pageSize, s'.machine.memory (n.paddr + k) = s'.machine.memory (m.paddr + k)
  distinct : ∀ v w m m' n n', s.lookup t v = some m → s.lookup t w = some m' → m.owned = true →
    m'.owned = true → s'.lookup t' v = some n → s'.lookup t' w = some n' →
    n.paddr = n'.paddr → v = w
  borrowed : ∀ v m n, s.lookup t v = some m → s'.lookup t' v = some n → m.owned = false →
    n.paddr = m.paddr
  parentKept : ∀ v, s'.lookup t v = s.lookup t v

/-- All pages of the table are owned. -/
def OwnsAll (s : System) (t : Nat) : Prop := ∀ v m, s.lookup t v = some m → m.owned = true

section

variable {flags child : Nat}

/-- What `clone` without `CLONE_VM` has put into the child's table: copies of the owned pages, and
pages of thread-local storage. -/
structure Forked (s : System) (t : Nat) (s' : System) (t' : Nat) : Prop where
  copied : ∀ v m, s.lookup t v = some m → m.owned = true → ∃ page,
    s'.lookup t' v = some { m with paddr := page } ∧ s.used page = false ∧
      ∀ k < pageSize, s'.machine.memory (page + k) = s'.machine.memory (m.paddr + k)
  only : ∀ v n, s'.lookup t' v = some n →
    (∃ m, s.lookup t v = some m ∧ m.owned = true) ∨ n.flags = userFlags
  kept : ∀ v, s'.lookup t v = s.lookup t v

/-- `clone` without `CLONE_VM`. -/
theorem Ledger.forked (h : Ledger s) (hflags : flags &&& cloneVm = 0)
    (hrun : (AddressSpaces.clone it pid flags).run s = .ok child s') : ∃ t,
      s.tableOf pid = some t ∧ s'.tableOf child = some s.nextTable ∧ Forked s t s' s.nextTable := by
  have hkept : ∃ t, s.tableOf pid = some t ∧ ∀ v, s'.lookup t v = s.lookup t v := by
    obtain ⟨-, t, u, machine, stack, r, htable, hu, -, hjoins, hadds⟩ :=
      run_clone_cases 0 h.live h.current_ne_nextTable hrun
    refine ⟨t, htable, fun v => ?_⟩
    obtain ⟨-, rfl⟩ := hu.resolve_left fun hshare => hshare.1 hflags
    have hne : t ≠ s.nextTable := Nat.ne_of_lt (h.fresh pid t htable)
    rw [lookup_of_adds hadds (.inl hne), hjoins.lookup, h.lookup_entered]
  obtain ⟨t, htable, hkept⟩ := hkept
  obtain ⟨rfl, p, machine, stack, r, hp, hsupplies, htables, htls⟩ := run_clone_eq_ok hrun
  obtain ⟨-, hcopy⟩ := htables.resolve_left fun hshare => hshare.1 hflags
  cases htable.symm.trans (tableOf_eq_some.mpr ⟨p, hp, rfl⟩)
  have hjoins := joins_newborn s machine stack p s.nextTable
  have hchild : (s.newborn machine stack p s.nextTable).tableOf (firstFree s.processes) =
      some s.nextTable := by
    rw [hjoins.tableOf, if_pos rfl]
  have hlookup : ∀ u w, (s.newborn machine stack p s.nextTable).lookup u w = s.lookup u w :=
    fun u w => (hjoins.lookup u w).trans (h.lookup_entered u w)
  have hmem : ∀ v m, (v, m) ∈ it.order ((s.newborn machine stack p s.nextTable).tables p.mappings) ↔
      s.lookup p.mappings v = some m := by
    intro v m
    rw [it.mem_order, hlookup]
  have hstart : Copied s.machine s.nextTable [] (s.newborn machine stack p s.nextTable) := by
    refine ⟨hsupplies.grows, fun v m hv => absurd hv List.not_mem_nil, fun v n hv => ?_⟩
    rw [hlookup, h.lookup_nextTable] at hv
    cases hv
  obtain ⟨hcopied, hchild'⟩ := hstart.run hchild
    (fun v m hm => h.owned p.mappings v m ((hmem v m).mp hm)) (it.nodup_keys _)
    (fun v m n _ => List.not_mem_nil) hcopy
  have hgrows := run_initTls_grows htls
  obtain ⟨found, -, hadds, hpages⟩ := run_initTls_pages 0 hchild' htls
  refine ⟨p.mappings, htable, hadds.tableOf_eq hchild', fun v m hv ho => ?_,
    fun v n hn => ?_, hkept⟩
  · have hin : (v, m) ∈ (it.order
        ((s.newborn machine stack p s.nextTable).tables p.mappings)).reverse ++ [] := by
      rw [List.append_nil, List.mem_reverse]
      exact (hmem v m).mpr hv
    obtain ⟨page, hentry, hpage, hfree, hused, hbytes⟩ := hcopied.copied v m hin ho
    refine ⟨page, lookup_some_of_adds hadds hentry, hfree, fun k hk => ?_⟩
    have hcopyUsed : r.machine.used (page + k) = true :=
      (used_within hpage (Nat.le_add_right page k) (Nat.add_lt_add_left hk page) _).trans hused
    obtain ⟨hsrcPage, hsrcUsed⟩ := h.owned p.mappings v m hv ho
    have hsrc : s.machine.used (m.paddr + k) = true :=
      (used_within hsrcPage (Nat.le_add_right _ k) (Nat.add_lt_add_left hk _) _).trans hsrcUsed
    calc s'.machine.memory (page + k) = r.machine.memory (page + k) := (hgrows _ hcopyUsed).2
      _ = s.machine.memory (m.paddr + k) := hbytes k hk
      _ = s'.machine.memory (m.paddr + k) := ((hcopied.grows.trans hgrows) _ hsrc).2.symm
  · by_cases htls' : TlsAddr found v
    · obtain ⟨page, hpage⟩ := hpages v htls'
      cases hn.symm.trans hpage
      exact .inr rfl
    · rw [lookup_of_adds hadds (.inr htls')] at hn
      obtain ⟨m, hin, ho⟩ := hcopied.only v n hn
      rw [List.append_nil, List.mem_reverse] at hin
      exact .inl ⟨m, (hmem v m).mp hin, ho⟩

namespace Forked

variable {t' : Nat} (hforked : Forked s t s' t')

include hforked

/-- A process that owns all of its pages is copied. -/
theorem copies (h : Ledger s') (howns : OwnsAll s t) : CopiesAddressSpace s t s' t' := by
  refine ⟨fun v m hv => ?_, fun v m n hv hn ho => ?_, fun v m n hv hn ho => ?_,
    fun v w m m' n n' hv hw ho ho' hn hn' heq => ?_, fun v m n hv _ hb => ?_, hforked.kept⟩
  · obtain ⟨page, hlookup, -⟩ := hforked.copied v m hv (howns v m hv)
    exact ⟨_, hlookup, rfl⟩
  · obtain ⟨page, hlookup, hfree, -⟩ := hforked.copied v m hv ho
    cases hn.symm.trans hlookup
    exact hfree
  · obtain ⟨page, hlookup, -, hbytes⟩ := hforked.copied v m hv ho
    cases hn.symm.trans hlookup
    exact hbytes
  · obtain ⟨page, hlookup, -⟩ := hforked.copied v m hv ho
    obtain ⟨page', hlookup', -⟩ := hforked.copied w m' hw ho'
    cases hn.symm.trans hlookup
    cases hn'.symm.trans hlookup'
    exact (h.distinct t' v _ t' w _ hlookup hlookup' ho ho' heq).2
  · rw [howns v m hv] at hb
    cases hb

/-- A page that is not owned is missing in the child, or a page of its thread-local storage with
other permissions has taken its place. -/
theorem ownsAll (h : Ledger s) (hcopies : CopiesAddressSpace s t s' t') : OwnsAll s t := by
  intro v m hv
  cases ho : m.owned with
  | true => rfl
  | false =>
    obtain ⟨n, hn, hsame⟩ := hcopies.mapped v m hv
    rcases hforked.only v n hn with ⟨m', hv', ho'⟩ | hnew
    · cases hv.symm.trans hv'
      exact ho.symm.trans ho'
    · rcases h.lent t v m hv ho with hm | hm
      all_goals
        rw [hm, hnew] at hsame
        cases hsame

end Forked

/-- Along every history of calls, a fork that returns gives the child the parent's address space
exactly when the parent owns all of its pages. -/
theorem fork_copies_iff {s₀ : System} {calls : List Call} (hledger : Ledger s₀)
    (hrun : Steps (Performs trampoline) s₀ calls s) (hflags : flags &&& cloneVm = 0)
    (hclone : (clone it pid flags).run s = .ok child s') :
    ∃ t t', s.tableOf pid = some t ∧ s'.tableOf child = some t' ∧
      (CopiesAddressSpace s t s' t' ↔ OwnsAll s t) := by
  have h : Ledger s := hrun.invariant Ledger (fun _ _ _ h hstep => (h.performs hstep).1) hledger
  obtain ⟨t, htable, htable', hforked⟩ := h.forked hflags hclone
  exact ⟨t, s.nextTable, htable, htable', hforked.ownsAll h, hforked.copies (h.clone hclone).1⟩

end

/-! ## The first process -/

/-- The first process of a machine with all memory free. -/
def firstProcess : System := boot blankMachine ⟨0, fun _ => {}⟩

/-- The first process has allocated one page. -/
def allocated : System := endState ((Call.allocatePages 0 1).perform 0x100000 inAddressOrder)
  firstProcess

/-- A process that has allocated one page is forked. -/
theorem fork_copies_allocated_page : ∃ s m child s' t',
    Steps (Performs 0x100000) firstProcess [.allocatePages 0 1] s ∧
      s.lookup 0 userVirtualBase = some m ∧ (clone inAddressOrder 0 0).run s = .ok child s' ∧
      s'.tableOf child = some t' ∧ CopiesAddressSpace s 0 s' t' := by
  have hsteps : Steps (Performs 0x100000) firstProcess ([] ++ [.allocatePages 0 1]) allocated :=
    .snoc (.refl _) ⟨inAddressOrder, run_of_outcome_ok (by decide +kernel)⟩
  have hall : (allocated.tables 0).toList = [(userVirtualBase, ⟨0, userFlags, true⟩)] := by
    decide +kernel
  have htable : allocated.tableOf 0 = some 0 := by decide +kernel
  obtain ⟨child, s', hclone⟩ := exists_run_of_outcome
    (show (outcome (clone inAddressOrder 0 0) allocated).toBool = true by decide +kernel)
  obtain ⟨t, t', ht, ht', hiff⟩ :=
    fork_copies_iff (ledger_boot _ _) hsteps (show 0 &&& cloneVm = 0 from rfl) hclone
  cases htable.symm.trans ht
  have hmem : ∀ v m, allocated.lookup 0 v = some m ↔
      (v, m) ∈ [(userVirtualBase, (⟨0, userFlags, true⟩ : MemoryMapping))] := fun v m => by
    rw [← hall]
    exact TreeMap.mem_toList_iff_getElem?_eq_some.symm
  refine ⟨_, _, child, s', t', hsteps, (hmem _ _).mpr List.mem_cons_self, hclone, ht',
    hiff.mpr fun v m hv => ?_⟩
  cases List.mem_singleton.mp ((hmem v m).mp hv)
  rfl

/-- The first process has the page of the signal trampoline and nothing else. -/
def withTrampoline : System :=
  endState ((Call.createMappings 0 [] 0 0).perform 0x100000 inAddressOrder) firstProcess

/-- A process without code and stack has the page of the signal trampoline, and its child does
not. -/
theorem fork_loses_trampoline : ∃ s child s' t',
    Steps (Performs 0x100000) firstProcess [.createMappings 0 [] 0 0] s ∧ s.tableOf 0 = some 0 ∧
      (clone inAddressOrder 0 0).run s = .ok child s' ∧ s'.tableOf child = some t' ∧
      ¬ CopiesAddressSpace s 0 s' t' := by
  have hsteps : Steps (Performs 0x100000) firstProcess ([] ++ [.createMappings 0 [] 0 0])
      withTrampoline := .snoc (.refl _) ⟨inAddressOrder, run_of_outcome_ok (by decide)⟩
  have htable : withTrampoline.tableOf 0 = some 0 := by decide
  have hpage : withTrampoline.lookup 0 signalTrampolinePage =
      some ⟨0x100000, trampolineFlags, false⟩ := by decide
  obtain ⟨child, s', hclone⟩ := exists_run_of_outcome
    (show (outcome (clone inAddressOrder 0 0) withTrampoline).toBool = true by decide +kernel)
  have h : Ledger withTrampoline := hsteps.invariant Ledger
    (fun _ _ _ h hstep => (h.performs hstep).1) (ledger_boot _ _)
  obtain ⟨t, ht, ht', hforked⟩ := h.forked rfl hclone
  cases htable.symm.trans ht
  refine ⟨_, child, s', _, hsteps, htable, hclone, ht', fun hcopies => ?_⟩
  have howned := hforked.ownsAll h hcopies signalTrampolinePage _ hpage
  cases howned

end LudOS.Tasking.AddressSpaces
