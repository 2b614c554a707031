import LudOS.Tasking.PageOwnership

/-!
# The page tables and the current process

The kernel has one set of page tables. `map_page` writes to it when the process has the table of the
current one, and `task_switch` takes the mappings of the old process out and puts those of the new
one in. `ShowsCurrent` says that the entries of user pages are the mappings of the current process.
`Sound` is what holds besides: the ledger, the page tables as far as the kernel has set them up, and
mappings of user pages only.

`page_tables_show_current_process` is the invariant over histories of calls. It follows that user
mode cannot reach a page that is owned in another table.
-/

namespace LudOS.Tasking.AddressSpaces

open Lib Mem PageMapping

/-! ## Page tables that show mappings -/

/-- The entry has the page and the flags of a mapping, and is present unless the page is a
sentinel. -/
structure Carries (e : PTEntry) (m : MemoryMapping) : Prop where
  frame : e.physAddr = m.paddr / pageSize % 2 ^ 20
  write : e.write = hasFlag m.flags (2 ^ 1)
  user : e.user = hasFlag m.flags (2 ^ 2)
  present : e.present = !hasFlag m.flags (2 ^ 6)

/-- The entries of user pages are claimed exactly for the mappings of `f`, and carry them. -/
structure Shows (paging : PageTables) (f : Nat → Option MemoryMapping) : Prop where
  claimed : ∀ v, UserPage v → ((paging.entry v).osClaimed = true ↔ f v ≠ none)
  carries : ∀ v m, UserPage v → f v = some m → Carries (paging.entry v) m

/-- Page tables whose directory is as the kernel has set it up. An entry that is present is claimed.
What user mode can see of the kernel is in frames that are reserved. -/
structure Paged (image : KernelImage) (reserved : Nat → Prop) (paging : PageTables) : Prop where
  intact : Intact image paging
  back : (paging.pageDirectory 1023).user = false
  claimed : ∀ v < 1023 * 2 ^ 22, (paging.entry v).present = true → (paging.entry v).osClaimed = true
  kernel : ∀ v, kernelVirtualBase ≤ v → v < 1023 * 2 ^ 22 → paging.isUser v = true →
    reserved (paging.entry v).physAddr

section

variable {image : KernelImage} {reserved : Nat → Prop} {paging paging' : PageTables}
  {f g : Nat → Option MemoryMapping} {v w : Nat}

theorem UserPage.lt_last (h : UserPage v) : v < 1023 * 2 ^ 22 := by
  have hlt := h.2
  unfold kernelVirtualBase at hlt
  omega

/-- User pages with the same number are the same. -/
theorem UserPage.eq_of_div (h : UserPage v) (h' : UserPage w)
    (heq : v / pageSize = w / pageSize) : v = w := by
  have hv := h.1
  have hw := h'.1
  unfold pageSize at hv hw heq
  omega

theorem UserPage.div_ne (h : UserPage v) (hw : kernelVirtualBase ≤ w) :
    w / pageSize ≠ v / pageSize := by
  have hlt := h.2
  unfold pageSize kernelVirtualBase at *
  omega

/-- The entry of a user page is replaced. -/
theorem Paged.put (h : Paged image reserved paging) (hv : UserPage v) {e : PTEntry}
    (he : e.present = true → e.osClaimed = true) :
    Paged image reserved (paging.put (paging.pageEntry v) e) := by
  have hentry := fun {w : Nat} (hw : w < 1023 * 2 ^ 22) => h.intact.entry_put hv.lt_last hw e
  refine ⟨h.intact.put (h.intact.le_pageEntry hv.lt_last) e, ?_, fun w hw => ?_,
    fun w hge hw => ?_⟩
  · rw [h.intact.pageDirectory_put hv.lt_last e (by decide)]
    exact h.back
  · rw [hentry hw]
    split
    · exact he
    · exact h.claimed w hw
  · unfold PageTables.isUser
    rw [hentry hw, if_neg (hv.div_ne hge)]
    exact h.kernel w hge hw

theorem Shows.put (hs : Shows paging f) (h : Paged image reserved paging) (hv : UserPage v)
    {e : PTEntry} {o : Option MemoryMapping} (hclaimed : e.osClaimed = true ↔ o ≠ none)
    (hcarries : ∀ m, o = some m → Carries e m) :
    Shows (paging.put (paging.pageEntry v) e) (Function.update f v o) := by
  have hentry : ∀ w, UserPage w → (paging.put (paging.pageEntry v) e).entry w =
      if w = v then e else paging.entry w := by
    intro w hw
    rw [h.intact.entry_put hv.lt_last hw.lt_last]
    by_cases heq : w = v
    · rw [if_pos heq, if_pos (heq ▸ rfl)]
    · rw [if_neg heq, if_neg fun hdiv => heq (hw.eq_of_div hv hdiv)]
  refine ⟨fun w hw => ?_, fun w m hw => ?_⟩
  · rw [hentry w hw, Function.update_apply]
    split
    · exact hclaimed
    · exact hs.claimed w hw
  · rw [hentry w hw, Function.update_apply]
    split
    · exact hcarries m
    · exact hs.carries w m hw

/-- The entry that `map_page` writes carries the mapping. -/
theorem carries_mappedEntry (m : MemoryMapping) : Carries (mappedEntry m.paddr m.flags) m :=
  ⟨rfl, rfl, rfl, rfl⟩

/-- `map_page` of a user page. -/
theorem Paged.mapPage (h : Paged image reserved paging) (hs : Shows paging f) (hv : UserPage v)
    {m : MemoryMapping} (hrun : (Mem.mapPage m.paddr v m.flags).run paging = .ok () paging') :
    Paged image reserved paging' ∧ Shows paging' (Function.update f v (some m)) := by
  obtain ⟨-, rfl⟩ := Mem.run_mapPage_eq_ok.mp hrun
  refine ⟨h.put hv fun _ => rfl, hs.put h hv ⟨fun _ => Option.some_ne_none m, fun _ => rfl⟩ ?_⟩
  rintro _ ⟨⟩
  exact carries_mappedEntry m

/-- `unmap_page` of a user page. -/
theorem Paged.release (h : Paged image reserved paging) (hs : Shows paging f) (hv : UserPage v) :
    Paged image reserved (paging.release v) ∧
      Shows (paging.release v) (Function.update f v none) := by
  refine ⟨h.put hv fun hpresent => (nomatch hpresent), hs.put h hv ?_ fun m hm => (nomatch hm)⟩
  exact ⟨fun hclaimed => (nomatch hclaimed), fun hne => absurd rfl hne⟩

/-- A loop over mappings, each iteration of which sets what the entry of one address shows. -/
theorem Paged.each {pairs : List (Nat × MemoryMapping)}
    {body : Nat × MemoryMapping → EStateM Fault PageTables Unit}
    {o : Nat × MemoryMapping → Option MemoryMapping}
    (hbody : ∀ pair p p' f, Paged image reserved p → Shows p f → UserPage pair.1 →
      (body pair).run p = .ok () p' →
      Paged image reserved p' ∧ Shows p' (Function.update f pair.1 (o pair)))
    (h : Paged image reserved paging) (hs : Shows paging f)
    (huser : ∀ pair ∈ pairs, UserPage pair.1)
    (hrun : (Lib.each body pairs).run paging = .ok () paging')
    (hset : ∀ pair ∈ pairs, g pair.1 = o pair)
    (hrest : ∀ v, (∀ pair ∈ pairs, pair.1 ≠ v) → g v = f v) :
    Paged image reserved paging' ∧ Shows paging' g := by
  induction pairs generalizing paging f with
  | nil =>
    cases hrun
    have hsame : g = f := funext fun v => hrest v fun _ hmem => absurd hmem List.not_mem_nil
    exact ⟨h, hsame ▸ hs⟩
  | cons pair pairs ih =>
    obtain ⟨⟨⟩, between, hfirst, hrun⟩ := run_bind_eq_ok.mp hrun
    obtain ⟨h', hs'⟩ := hbody pair _ _ _ h hs (huser pair List.mem_cons_self) hfirst
    refine ih h' hs' (fun other hmem => huser other (List.mem_cons_of_mem _ hmem)) hrun
      (fun other hmem => hset other (List.mem_cons_of_mem _ hmem)) fun v hv => ?_
    rw [Function.update_apply]
    split
    case isTrue heq => exact heq ▸ hset pair List.mem_cons_self
    case isFalse hne =>
      refine hrest v fun other hmem => ?_
      rcases List.mem_cons.mp hmem with rfl | hmem
      · exact fun heq => hne heq.symm
      · exact hv other hmem

end

/-! ## Tables as functions -/

section

variable {image : KernelImage} {reserved : Nat → Prop} {trampoline ptr pages : Nat} {it : Iteration}
  {s s' : System} {paging' : PageTables} {f : Nat → Option MemoryMapping} {t u v w pid : Nat}

/-- `unmap_address_space` of the mappings that are shown leaves nothing to be seen. -/
theorem Paged.unmapPages (h : Paged image reserved s.paging) (hs : Shows s.paging (s.lookup t))
    (huser : ∀ v m, s.lookup t v = some m → UserPage v)
    (hrun : (AddressSpaces.unmapPages (it.order (s.tables t))).run s.paging = .ok () paging') :
    Paged image reserved paging' ∧ Shows paging' fun _ => none := by
  refine Paged.each (fun pair p p' f hp hf hv hbody => ?_) h hs ?_ hrun (fun _ _ => rfl)
    fun v hv => ?_
  · obtain ⟨released, p'', hrelease, hbody⟩ := run_bind_eq_ok.mp hbody
    obtain ⟨-, -, rfl⟩ := run_releaseVirtualPage_eq_ok.mp hrelease
    cases hbody
    exact hp.release hf hv
  · rintro ⟨v, m⟩ hmem
    exact huser v m (it.mem_order.mp hmem)
  · cases hlookup : s.lookup t v with
    | none => rfl
    | some m => exact absurd rfl (hv (v, m) (it.mem_order.mpr hlookup))

/-- `map_address_space` on page tables that show nothing makes them show the table. -/
theorem Paged.mapPages {paging : PageTables} (h : Paged image reserved paging)
    (hs : Shows paging fun _ => none) (huser : ∀ v m, s.lookup t v = some m → UserPage v)
    (hrun : (AddressSpaces.mapPages (it.order (s.tables t))).run paging = .ok () paging') :
    Paged image reserved paging' ∧ Shows paging' (s.lookup t) := by
  refine Paged.each (fun pair p p' f hp hf hv hbody => hp.mapPage hf hv hbody) h hs ?_ hrun ?_
    fun v hv => ?_
  · rintro ⟨v, m⟩ hmem
    exact huser v m (it.mem_order.mp hmem)
  · rintro ⟨v, m⟩ hmem
    exact it.mem_order.mp hmem
  · cases hlookup : s.lookup t v with
    | none => rfl
    | some m => exact absurd rfl (hv (v, m) (it.mem_order.mpr hlookup))

namespace Paged

variable {paging : PageTables} {f : Nat → Option MemoryMapping} {pairs : List (Nat × MemoryMapping)}
  (h : Paged image reserved paging) (hs : Shows paging f) (hkeys : (pairs.map Prod.fst).Nodup)

include h hs hkeys

/-- `unmap_address_space` of mappings that the page tables show. -/
theorem exists_run_unmapPages (hpairs : ∀ pair ∈ pairs, UserPage pair.1 ∧ f pair.1 ≠ none) :
    ∃ paging', (AddressSpaces.unmapPages pairs).run paging = .ok () paging' := by
  induction pairs generalizing paging f with
  | nil => exact ⟨paging, rfl⟩
  | cons pair pairs ih =>
    obtain ⟨huser, hthere⟩ := hpairs pair List.mem_cons_self
    obtain ⟨hnew, hkeys⟩ := List.nodup_cons.mp hkeys
    have hrelease := run_releaseVirtualPage_eq_ok.mpr
      ⟨((hs.claimed pair.1 huser).mpr hthere), rfl, rfl⟩
    obtain ⟨h', hs'⟩ := h.release hs huser
    obtain ⟨paging', hrest⟩ := ih h' hs' hkeys fun other hmem => by
      obtain ⟨huser', hthere'⟩ := hpairs other (List.mem_cons_of_mem pair hmem)
      refine ⟨huser', ?_⟩
      rw [Function.update_apply, if_neg]
      · exact hthere'
      · exact fun heq => hnew (heq ▸ List.mem_map_of_mem hmem)
    have hfirst : (do let _ ← releaseVirtualPage pair.1 : EStateM Fault PageTables Unit).run
        paging = .ok () (paging.release pair.1) := run_bind_ok hrelease
    exact ⟨paging', (run_bind_ok hfirst).trans hrest⟩

end Paged

/-! ## The invariant -/

/-- What holds of tables, page tables and allocator besides that the page tables show the current
process. The frames of the kernel, among them that of the trampoline, are in use, nobody's, and on
no kernel stack. -/
structure Sound (image : KernelImage) (reserved : Nat → Prop) (trampoline : Nat) (s : System) :
    Prop where
  ledger : Ledger s
  paged : Paged image reserved s.paging
  keys : ∀ t v m, s.lookup t v = some m → UserPage v
  borrowed : ∀ t v m, s.lookup t v = some m → m.owned = false →
    (m.paddr = trampoline ∧ m.flags = trampolineFlags) ∨ m.flags = sentinelFlags
  kernel : ∀ i, reserved i → s.used (i * pageSize) = true ∧ ¬ Owned s (i * pageSize) ∧
    ∀ pid, i * pageSize ∉ s.stackOf pid
  trampoline : reserved (trampoline / pageSize % 2 ^ 20)

/-- The page tables show the current process. -/
def ShowsCurrent (s : System) : Prop :=
  ∀ t, s.tableOf s.current = some t → Shows s.paging (s.lookup t)

namespace Sound

variable (h : Sound image reserved trampoline s)

include h

/-- Tables, page tables, kernel stacks and use of memory are the same. -/
theorem congr (hledger : Ledger s')
    (hpaging : s'.paging = s.paging) (hused : ∀ addr, s'.used addr = s.used addr)
    (hlookup : ∀ t v, s'.lookup t v = s.lookup t v)
    (hstackOf : ∀ pid, s'.stackOf pid = s.stackOf pid) : Sound image reserved trampoline s' := by
  refine ⟨hledger, hpaging ▸ h.paged, fun t v m hv => ?_, fun t v m hv => ?_, fun i hi => ?_,
    h.trampoline⟩
  · rw [hlookup] at hv
    exact h.keys t v m hv
  · rw [hlookup] at hv
    exact h.borrowed t v m hv
  · unfold Owned
    simp only [hlookup, hused, hstackOf]
    exact h.kernel i hi

/-- Other page tables. -/
theorem repaged (hpaged : Paged image reserved paging') :
    Sound image reserved trampoline { s with paging := paging' } :=
  ⟨h.ledger.congr (fun _ => rfl) (fun _ _ => rfl) (fun _ => rfl) (fun _ => rfl) h.ledger.live rfl
    rfl, hpaged,
    h.keys, h.borrowed, h.kernel, h.trampoline⟩

/-- Entries are removed. -/
theorem removes {pages : List Nat}
    (hr : Removes pages s s') (hpaged : Paged image reserved s'.paging) :
    Sound image reserved trampoline s' := by
  refine ⟨h.ledger.removes hr, hpaged, fun t v m hv => h.keys t v m (hr.lookup t v m hv),
    fun t v m hv => h.borrowed t v m (hr.lookup t v m hv), fun i hi => ?_, h.trampoline⟩
  obtain ⟨hused, hunowned, hstack⟩ := h.kernel i hi
  refine ⟨hr.used _ hused fun page hmem heq => ?_, fun ho => hunowned (hr.owned_iff.mp ho).1,
    fun pid => (hr.same.stackOf pid).symm ▸ hstack pid⟩
  have howned := hr.owned page hmem
  obtain ⟨j, -, rfl⟩ := h.ledger.isPage_of_owned howned
  rw [PhysPageAllocator.mul_pageSize_div, PhysPageAllocator.mul_pageSize_div] at heq
  exact hunowned (heq ▸ howned)

/-- New entries and stacks leave the frames of the kernel alone, which are not free. -/
theorem kernel_of_retains (hr : Retains s s')
    (hstackOf : ∀ pid page, page ∈ s'.stackOf pid → page ∈ s.stackOf pid ∨ s.used page = false) :
    ∀ i, reserved i → s'.used (i * pageSize) = true ∧ ¬ Owned s' (i * pageSize) ∧
      ∀ pid, i * pageSize ∉ s'.stackOf pid := by
  intro i hi
  obtain ⟨hused, hunowned, hstack⟩ := h.kernel i hi
  refine ⟨hr.used _ hused, fun ho => ?_, fun pid hmem => ?_⟩
  rotate_left
  · rcases hstackOf pid _ hmem with hmem | hfree
    · exact hstack pid hmem
    · rw [hused] at hfree
      cases hfree
  rcases hr.owned _ ho with ho | hfree
  · exact hunowned ho
  · rw [hused] at hfree
    cases hfree

section

variable (hs : ShowsCurrent s)

include hs

/-- `map_page` keeps the page tables in step with the table it changes. -/
theorem mapsTo (hv : UserPage v) {paddr flags : Nat} (owned : Bool)
    (hmaps : MapsTo s t v paddr flags paging') :
    Paged image reserved paging' ∧ ∀ c, s.tableOf s.current = some c →
      Shows paging' ((System.insert { s with paging := paging' } t v ⟨paddr, flags, owned⟩).lookup
        c) := by
  by_cases hcurrent : s.tableOf s.current = some t
  · obtain ⟨hpaged, hshows⟩ := h.paged.mapPage (m := ⟨paddr, flags, owned⟩) (hs t hcurrent) hv
      ((mapsTo_of_current hcurrent).mp hmaps)
    refine ⟨hpaged, fun c hc => ?_⟩
    cases hcurrent.symm.trans hc
    refine cast (congrArg (Shows paging') (funext fun w => ?_)) hshows
    rw [lookup_insert, Function.update_apply]
    simp only [true_and]
    rfl
  · rw [(mapsTo_of_ne hcurrent).mp hmaps]
    refine ⟨h.paged, fun c hc => ?_⟩
    refine cast (congrArg (Shows s.paging) (funext fun w => ?_)) (hs c hc)
    rw [lookup_insert, if_neg]
    rintro ⟨rfl, -⟩
    exact hcurrent hc

/-- User pages are added to the table of a process. -/
theorem adds {addr : Nat → Prop} (htable : s.tableOf pid = some t)
    (haddr : ∀ v, addr v → UserPage v)
    (hr : Reaches (Adds trampoline t addr) s s') :
    Sound image reserved trampoline s' ∧ ShowsCurrent s' := by
  refine (hr.invariant (fun r => r.tableOf pid = some t ∧ Sound image reserved trampoline r ∧
    ShowsCurrent r) (fun r e r' hr hguard hedit => ?_) ⟨htable, h, hs⟩).2
  obtain ⟨htable, hsound, hshows⟩ := hr
  obtain ⟨hledger, hretains⟩ := hsound.ledger.adds htable (hedit.reaches hguard)
  have hkernel := hsound.kernel_of_retains hretains fun pid' page hmem =>
    .inl ((hedit.sameProcesses.stackOf pid') ▸ hmem)
  refine ⟨(hedit.sameProcesses.tableOf pid).trans htable, ?_⟩
  cases hedit with
  | acquire memory hfree hout hmaps =>
    obtain ⟨rfl, hv⟩ := hguard
    obtain ⟨hpaged, hshows'⟩ := hsound.mapsTo hshows (haddr _ hv) true hmaps
    refine ⟨⟨hledger, hpaged, fun u w n hw => ?_, fun u w n hw ho => ?_, hkernel,
      hsound.trampoline⟩, hshows'⟩
    · rcases lookup_insert_cases hw with ⟨-, rfl, -⟩ | hw
      · exact haddr _ hv
      · exact hsound.keys u w n hw
    · rcases lookup_insert_cases hw with ⟨-, -, rfl⟩ | hw
      · cases ho
      · exact hsound.borrowed u w n hw ho
  | borrow hfree hmaps =>
    obtain ⟨rfl, hv, hpage⟩ := hguard
    obtain ⟨hpaged, hshows'⟩ := hsound.mapsTo hshows (haddr _ hv) false hmaps
    refine ⟨⟨hledger, hpaged, fun u w n hw => ?_, fun u w n hw ho => ?_, hkernel,
      hsound.trampoline⟩, hshows'⟩
    · rcases lookup_insert_cases hw with ⟨-, rfl, -⟩ | hw
      · exact haddr _ hv
      · exact hsound.keys u w n hw
    · rcases lookup_insert_cases hw with ⟨-, -, rfl⟩ | hw
      · exact hpage
      · exact hsound.borrowed u w n hw ho
  | drop => exact hguard.elim
  | quiet hquiet =>
    refine ⟨hsound.congr hledger hquiet.paging (fun addr => ?_) hquiet.lookup hquiet.stackOf,
      fun c hc => ?_⟩
    · unfold System.used Machine.used
      rw [hquiet.allocator]
    · rw [hquiet.current, hquiet.tableOf] at hc
      rw [hquiet.paging, funext (hquiet.lookup c)]
      exact hshows c hc

/-- Pages of the current process are given back. -/
theorem drops {addr : Nat → Prop} (htable : s.tableOf s.current = some t)
    (hr : Reaches (Drops t addr) s s') : Sound image reserved trampoline s' ∧ ShowsCurrent s' := by
  refine (hr.invariant (fun r => r.tableOf r.current = some t ∧
    Sound image reserved trampoline r ∧ ShowsCurrent r) (fun r e r' hr hguard hedit => ?_)
    ⟨htable, h, hs⟩).2
  obtain ⟨htable, hsound, hshows⟩ := hr
  cases hedit with
  | acquire => exact hguard.elim
  | borrow => exact hguard.elim
  | quiet => exact hguard.elim
  | @drop t' v m hv ho hused hclaimed =>
    obtain ⟨rfl, -⟩ := hguard
    obtain ⟨hpaged, hshows'⟩ := hsound.paged.release (hshows t' htable) (hsound.keys t' v m hv)
    refine ⟨htable, hsound.removes (hsound.ledger.drop hv ho _) hpaged, fun c hc => ?_⟩
    cases htable.symm.trans hc
    refine cast (congrArg (Shows (r.paging.release v)) (funext fun w => ?_)) hshows'
    rw [lookup_erase, Function.update_apply]
    simp only [true_and]
    rfl

/-- A new process leaves the current one where it is. -/
theorem joins {machine : Machine} {stack : List Nat} (hsupplies : Supplies s.machine stack machine)
    (hjoins : Joins (firstFree s.processes) t (s.entered machine stack) s') (ht : t ≤ s.nextTable) :
    Sound image reserved trampoline s' ∧ ShowsCurrent s' := by
  have hlookup : ∀ u w, s'.lookup u w = s.lookup u w := fun u w =>
    (hjoins.lookup u w).trans (h.ledger.lookup_entered u w)
  have hretains := h.ledger.retains_of_joins hsupplies hjoins
  refine ⟨⟨h.ledger.joins hsupplies hjoins ht, ?_, fun u w n hw => ?_, fun u w n hw => ?_,
    h.kernel_of_retains hretains fun pid page hmem => ?_, h.trampoline⟩, fun c hc => ?_⟩
  · rw [hjoins.paging]
    exact h.paged
  · rw [hlookup] at hw
    exact h.keys u w n hw
  · rw [hlookup] at hw
    exact h.borrowed u w n hw
  · rw [hjoins.stackOf, stackOf_entered] at hmem
    split at hmem
    · exact .inr (hsupplies.taken page hmem).2.1
    · exact .inl hmem
  · have hne : s.current ≠ firstFree s.processes := h.ledger.current_ne_firstFree
    rw [hjoins.current, show (s.entered machine stack).current = s.current from rfl, hjoins.tableOf,
      if_neg hne, tableOf_entered, if_neg hne] at hc
    rw [hjoins.paging, funext (hlookup c)]
    exact hs c hc

theorem clone {flags child : Nat} (hrun : (AddressSpaces.clone it pid flags).run s = .ok child s') :
    Sound image reserved trampoline s' ∧ ShowsCurrent s' := by
  obtain ⟨rfl, t, u, machine, stack, r, htable, hu, hsupplies, hjoins, hadds⟩ :=
    run_clone_cases trampoline h.ledger.live h.ledger.current_ne_nextTable hrun
  have hle : u ≤ s.nextTable := by
    rcases hu with ⟨-, rfl⟩ | ⟨-, rfl⟩
    · exact Nat.le_of_lt (h.ledger.fresh pid u htable)
    · exact Nat.le_refl _
  obtain ⟨hr, hsr⟩ := h.joins hs hsupplies hjoins hle
  have hchild : r.tableOf (firstFree s.processes) = some u := by
    rw [hjoins.tableOf, if_pos rfl]
  refine hr.adds hsr hchild (fun v hv => ?_) hadds
  rcases hv with hv | hv
  · exact hv
  · obtain ⟨m, hm⟩ := Option.ne_none_iff_exists'.mp hv
    exact h.keys t v m hm

end

/-- The page tables show another table after the switch. -/
theorem switches (hs : Shows s.paging (s.lookup t)) (hswitch : Switches it s t u paging') :
    Paged image reserved paging' ∧ Shows paging' (s.lookup u) := by
  rcases hswitch with ⟨rfl, rfl⟩ | ⟨-, between, hunmap, hmap⟩
  · exact ⟨h.paged, hs⟩
  · obtain ⟨hbetween, hnone⟩ := h.paged.unmapPages hs (h.keys t) hunmap
    exact hbetween.mapPages hnone (h.keys u) hmap

/-- `task_switch` exchanges what the page tables show. -/
theorem taskSwitch (hs : ShowsCurrent s)
    (hrun : (AddressSpaces.taskSwitch it pid).run s = .ok () s') :
    Sound image reserved trampoline s' ∧ ShowsCurrent s' := by
  have hledger := (h.ledger.taskSwitch hrun).1
  obtain ⟨-, t, u, paging, ht, hu, hswitch, rfl⟩ := run_taskSwitch_eq_ok.mp hrun
  obtain ⟨hpaged, hshows⟩ := h.switches (hs t ht) hswitch
  refine ⟨⟨hledger, hpaged, h.keys, h.borrowed, h.kernel, h.trampoline⟩, fun c hc => ?_⟩
  cases hu.symm.trans hc
  exact hshows

theorem releaseMappings (htable : s.tableOf pid = some t)
    (hrun : (AddressSpaces.releaseMappings it pid).run s = .ok () s') :
    Sound image reserved trampoline s' ∧ SameProcesses s s' := by
  obtain ⟨pages, hremoves, -⟩ := h.ledger.releaseMappings htable hrun
  refine ⟨h.removes hremoves ?_, hremoves.same⟩
  rw [(run_releaseMappings_frame htable hrun).1]
  exact h.paged

section

variable (hs : ShowsCurrent s)

include hs

/-- The table of a process that is destroyed is not that of the current process, or it is shared and
stays as it is. -/
theorem releaseZombie (hrun : (AddressSpaces.releaseZombie it pid).run s = .ok () s') :
    Sound image reserved trampoline s' ∧ ShowsCurrent s' := by
  have hledger := (h.ledger.releaseZombie hrun).1
  obtain ⟨t, r, r', htable, hne, hrelease, hfrees, rfl⟩ := run_releaseZombie_eq_ok hrun
  obtain ⟨hr, hsame⟩ := h.releaseMappings htable hrelease
  obtain ⟨hpaging, hframe⟩ := run_releaseMappings_frame htable hrelease
  rw [← hsame.stackOf] at hfrees
  obtain ⟨⟨allocator, rfl⟩, hused⟩ := hfrees
  refine ⟨⟨hledger, hr.paged, hr.keys, hr.borrowed, fun i hi => ?_, hr.trampoline⟩, fun c hc => ?_⟩
  · obtain ⟨hwas, hunowned, hstack⟩ := hr.kernel i hi
    refine ⟨(hused _).mpr ⟨hwas, fun page hmem heq => hstack pid ?_⟩, hunowned, fun pid' hmem => ?_⟩
    · obtain ⟨j, -, rfl⟩ := (hr.ledger.kernelStacks.held pid page hmem).1
      rw [PhysPageAllocator.mul_pageSize_div, PhysPageAllocator.mul_pageSize_div] at heq
      exact heq ▸ hmem
    · rw [stackOf_leave] at hmem
      split at hmem
      · cases hmem
      · exact hstack pid' hmem
  have hcurrent : s.tableOf s.current = some c := by
    rw [tableOf_leave, show System.current { r with processes := r.processes.set pid none } =
      s.current from hsame.current, if_neg hne] at hc
    exact (hsame.tableOf s.current).symm.trans hc
  have hlookup : r.lookup c = s.lookup c := by
    refine funext fun w => hframe c w ?_
    rintro ⟨rfl, hunshared⟩
    exact hne ((unshared_iff htable).mp hunshared s.current hcurrent)
  show Shows r.paging (r.lookup c)
  rw [hpaging, hlookup]
  exact hs c hcurrent

/-- The first part of `load_user_code` hides the process from the page tables. -/
theorem unmapCurrent
    (hrun : (if s.current = pid then unmapAddressSpace it pid else pure ()).run s = .ok () s') :
    Sound image reserved trampoline s' ∧ ∀ c, s.tableOf s.current = some c →
      Shows s'.paging fun v => if s.current = pid then none else s.lookup c v := by
  obtain ⟨paging, rfl, hpaged, hshows⟩ : ∃ paging, s' = { s with paging } ∧
      Paged image reserved paging ∧ ∀ c, s.tableOf s.current = some c →
        Shows paging fun v => if s.current = pid then none else s.lookup c v := by
    split at hrun
    case isTrue hcurrent =>
      obtain ⟨t, htable⟩ := exists_tableOf hrun
      obtain ⟨paging, hpages, hr⟩ := (run_unmapAddressSpace_eq_ok htable).mp hrun
      obtain ⟨hpaged, hnone⟩ := h.paged.unmapPages (hs t (hcurrent ▸ htable)) (h.keys t) hpages
      refine ⟨paging, hr, hpaged, fun c hc => ?_⟩
      simp only [if_pos hcurrent]
      exact hnone
    case isFalse hcurrent =>
      cases hrun
      refine ⟨s.paging, rfl, h.paged, fun c hc => ?_⟩
      simp only [if_neg hcurrent]
      exact hs c hc
  exact ⟨h.repaged hpaged, hshows⟩

/-- The first two parts take the old image away from a process that shares its table with no
other. -/
theorem takesAway {r : System} (htable : s.tableOf pid = some t) (hunshared : s.Unshared t)
    (hunmap : (if s.current = pid then unmapAddressSpace it pid else pure ()).run s = .ok () r)
    (hrelease : (AddressSpaces.releaseMappings it pid).run r = .ok () s') :
    Sound image reserved trampoline s' ∧ ShowsCurrent s' ∧ SameProcesses s s' ∧
      (∀ v, s'.lookup t v = none) ∧ ∀ u v, u ≠ t → s'.lookup u v = s.lookup u v := by
  obtain ⟨hsound, hshows⟩ := h.unmapCurrent hs hunmap
  obtain ⟨paging, rfl⟩ := run_unmapCurrent_eq_ok hunmap
  obtain ⟨hr, hsame⟩ := hsound.releaseMappings htable hrelease
  obtain ⟨hpaging, hframe⟩ := run_releaseMappings_frame (s := { s with paging }) htable hrelease
  obtain ⟨pages, -, hempty, -⟩ := hsound.ledger.releaseMappings htable hrelease
  have hothers : ∀ u v, u ≠ t → s'.lookup u v = s.lookup u v := fun u v hne =>
    hframe u v fun heq => hne heq.1
  refine ⟨hr, fun c hc => ?_, ⟨hsame.tableOf, hsame.stackOf, hsame.current, hsame.nextTable⟩,
    hempty hunshared, hothers⟩
  rw [hsame.current, hsame.tableOf] at hc
  rw [hpaging]
  refine cast (congrArg (Shows paging) (funext fun v => ?_)) (hshows c hc)
  split
  case isTrue hcurrent =>
    cases htable.symm.trans (hcurrent ▸ hc)
    exact (hempty hunshared v).symm
  case isFalse hcurrent =>
    refine (hothers c v ?_).symm
    rintro rfl
    exact hcurrent ((unshared_iff htable).mp hunshared s.current hc)

/-- `load_user_code` on a process that shares its table with no other. -/
theorem loadUserCode {code : List UInt8} {allocatedSize : Nat}
    (honly : ∀ t pid', s.tableOf pid = some t → s.tableOf pid' = some t → pid' = pid)
    (hrun : (AddressSpaces.loadUserCode it trampoline pid code allocatedSize).run s = .ok () s') :
    Sound image reserved trampoline s' ∧ ShowsCurrent s' := by
  obtain ⟨q, r, r', hunmap, hrelease, himage, htls⟩ := run_loadUserCode_eq_ok.mp hrun
  obtain ⟨t, htable⟩ : ∃ t, s.tableOf pid = some t := by
    obtain ⟨paging, rfl⟩ := run_unmapCurrent_eq_ok hunmap
    obtain ⟨t, htable⟩ := exists_tableOf hrelease
    exact ⟨t, htable⟩
  obtain ⟨hr, hsr, hsame, -, -⟩ := h.takesAway hs htable
    ((unshared_iff htable).mpr fun pid' => honly t pid' htable) hunmap hrelease
  -- The new image and its thread-local storage are user pages.
  have htable' : r.tableOf pid = some t := (hsame.tableOf pid).trans htable
  obtain ⟨hadds, -, -, hseparate⟩ := run_createMappings_image htable' himage
  obtain ⟨hr', hsr'⟩ := hr.adds hsr htable'
    (fun v hv => ImageAddr.userPage hv (le_of_separate hseparate)) hadds
  have htable'' := hadds.tableOf_eq htable'
  exact hr'.adds hsr' htable'' (fun _ hv => hv) (run_initTls_reaches htable'' htls)

end

end Sound

/-! ## Histories -/

/-- The calls of a history: processes are created, cloned by themselves, switched to and destroyed,
the current one changes its own address space, and a process that shares its table with no other is
given a new program. -/
def Permitted (s : System) : Call → Prop
  | .create | .taskSwitch _ | .releaseZombie _ => True
  | .clone pid _ | .allocatePages pid _ | .releasePages pid _ _ | .createUserCallback pid _ _ =>
    pid = s.current
  | .loadUserCode pid _ _ =>
    ∀ t pid', s.tableOf pid = some t → s.tableOf pid' = some t → pid' = pid
  | .createMappings .. | .initTls .. => False

/-- Every permitted call keeps the page tables in step with the current process. -/
theorem Sound.performs (h : Sound image reserved trampoline s) (hs : ShowsCurrent s) {c : Call}
    (hpermitted : Permitted s c) (hstep : Performs trampoline s c s') :
    Sound image reserved trampoline s' ∧ ShowsCurrent s' := by
  obtain ⟨it, hrun⟩ := hstep
  cases c with
  | create =>
    obtain ⟨pid, r, hcreate, hrun⟩ := run_bind_eq_ok.mp hrun
    obtain ⟨-, machine, stack, hsupplies, rfl⟩ := run_create_eq_ok hcreate
    cases hrun
    exact h.joins hs hsupplies (joins_entered s machine stack) (Nat.le_refl _)
  | clone pid flags =>
    obtain ⟨child, r, hclone, hrun⟩ := run_bind_eq_ok.mp hrun
    cases hrun
    exact h.clone hs hclone
  | createMappings => exact hpermitted.elim
  | initTls => exact hpermitted.elim
  | allocatePages pid pages =>
    obtain ⟨_, r, hpages, hrun⟩ := run_bind_eq_ok.mp hrun
    cases hrun
    obtain ⟨_, r, hfind, -⟩ := run_bind_eq_ok.mp hpages
    obtain ⟨t, htable⟩ := exists_tableOf hfind
    exact h.adds hs htable (fun _ hv => hv) (run_allocatePages_reaches htable hpages)
  | releasePages pid ptr pages =>
    obtain ⟨released, r, hrelease, hrun⟩ := run_bind_eq_ok.mp hrun
    cases hrun
    obtain ⟨t, htable⟩ := exists_tableOf hrelease
    exact h.drops hs (hpermitted ▸ htable) (run_releasePages_reaches htable hrelease).1
  | createUserCallback pid callback argSizes =>
    obtain ⟨_, r, hcallback, hrun⟩ := run_bind_eq_ok.mp hrun
    cases hrun
    obtain ⟨t, htable⟩ := exists_tableOf hcallback
    exact h.adds hs htable (fun _ hv => hv) (run_createUserCallbackImpl_reaches htable hcallback)
  | loadUserCode pid code allocatedSize => exact h.loadUserCode hs hpermitted hrun
  | taskSwitch pid => exact h.taskSwitch hs hrun
  | releaseZombie pid => exact h.releaseZombie hs hrun

/-- User mode can reach the page of an address: directory and table allow it. -/
def userReaches (paging : PageTables) (addr : Nat) : Bool :=
  (paging.pageDirectory (addr / 2 ^ 22)).present && (paging.pageDirectory (addr / 2 ^ 22)).user &&
    paging.isUser addr

/-- No page that is owned in a table other than that of the current process can be reached from user
mode, at whatever address. -/
def Isolated (s : System) : Prop :=
  ∀ t u w n, s.tableOf s.current = some t → u ≠ t → s.lookup u w = some n → n.owned = true →
    ∀ addr < 2 ^ 32, userReaches s.paging addr = true →
      (s.paging.entry addr).physAddr ≠ n.paddr / pageSize

/-- The frame of a page. -/
theorem frame_lt_of_isPage {page : Nat} (h : IsPage page) : page / pageSize < 2 ^ 20 := by
  obtain ⟨i, hi, rfl⟩ := h
  rw [PhysPageAllocator.mul_pageSize_div]
  exact hi

theorem mul_div_of_isPage {page : Nat} (h : IsPage page) : page / pageSize * pageSize = page := by
  obtain ⟨i, hi, rfl⟩ := h
  rw [PhysPageAllocator.mul_pageSize_div]

/-- What the page tables show is the current process's or the kernel's. -/
theorem Sound.isolated (h : Sound image reserved trampoline s) (hs : ShowsCurrent s) :
    Isolated s := by
  intro t u w n htable hne hw ho addr haddr hreach hframe
  simp only [userReaches, Bool.and_eq_true] at hreach
  obtain ⟨⟨-, hdirectory⟩, huser⟩ := hreach
  have hpage : IsPage n.paddr := (h.ledger.owned u w n hw ho).1
  -- A frame that the kernel keeps is owned by nobody.
  have hkernel : ¬ reserved (n.paddr / pageSize) := by
    intro hreserved
    refine (h.kernel _ hreserved).2.1 ⟨u, w, n, hw, ho, ?_⟩
    exact (mul_div_of_isPage hpage).symm
  rcases Nat.lt_or_ge addr kernelVirtualBase with hlt | hge
  · -- The address lies in a page of the current process.
    have hv : UserPage (addr / pageSize * pageSize) := by
      unfold UserPage pageSize
      omega
    have hentry : s.paging.entry addr = s.paging.entry (addr / pageSize * pageSize) :=
      congrArg s.paging.word (s.paging.pageEntry_congr
        (Nat.mul_div_cancel _ (by decide : 0 < pageSize)).symm)
    unfold PageTables.isUser at huser
    rw [Bool.and_eq_true, hentry] at huser
    rw [hentry] at hframe
    have hclaimed := h.paged.claimed _ hv.lt_last huser.1
    obtain ⟨m, hm⟩ := Option.ne_none_iff_exists'.mp (((hs t htable).claimed _ hv).mp hclaimed)
    have hcarries := (hs t htable).carries _ m hv hm
    rw [hcarries.frame] at hframe
    cases howned : m.owned with
    | true =>
      have hpage' := (h.ledger.owned t _ m hm howned).1
      rw [Nat.mod_eq_of_lt (frame_lt_of_isPage hpage')] at hframe
      have hsame : n.paddr = m.paddr := by
        rw [← mul_div_of_isPage hpage, ← mul_div_of_isPage hpage', hframe]
      exact hne (h.ledger.distinct u w n t _ m hw hm ho howned hsame).1
    | false =>
      rcases h.borrowed t _ m hm howned with ⟨htrampoline, -⟩ | hsentinel
      · rw [htrampoline] at hframe
        exact hkernel (hframe ▸ h.trampoline)
      · have hpresent := hcarries.present
        rw [hsentinel, huser.1] at hpresent
        exact absurd hpresent (by decide)
  · rcases Nat.lt_or_ge addr (1023 * 2 ^ 22) with hlt | hlast
    · exact hkernel (hframe ▸ h.paged.kernel addr hge hlt huser)
    · rw [show addr / 2 ^ 22 = 1023 by omega, h.paged.back] at hdirectory
      cases hdirectory

/-- Along every history of permitted calls the entries of user pages are claimed exactly for the
mappings of the current process and carry them, and no page of another table can be reached from
user mode. -/
theorem page_tables_show_current_process {s₀ : System} {calls : List Call}
    (hsound : Sound image reserved trampoline s₀) (hshows : ShowsCurrent s₀)
    (hrun : Steps (Guarded Permitted (Performs trampoline)) s₀ calls s) :
    (∃ t, s.tableOf s.current = some t ∧ ∀ v, UserPage v →
      ((s.paging.entry v).osClaimed = true ↔ ∃ m, s.lookup t v = some m) ∧
      ∀ m, s.lookup t v = some m → Carries (s.paging.entry v) m) ∧ Isolated s := by
  obtain ⟨h, hs⟩ := hrun.invariant (fun r => Sound image reserved trampoline r ∧ ShowsCurrent r)
    (fun r c r' hr hstep => hr.1.performs hr.2 hstep.1 hstep.2) ⟨hsound, hshows⟩
  obtain ⟨t, htable⟩ := Option.ne_none_iff_exists'.mp h.ledger.live
  refine ⟨⟨t, htable, fun v hv => ⟨?_, fun m => (hs t htable).carries v m hv⟩⟩, h.isolated hs⟩
  rw [(hs t htable).claimed v hv, Option.ne_none_iff_exists']

end

/-! ## The first process -/

section

variable {image : KernelImage} {machine : Machine} {memory : Nat → PTEntry} {trampoline : Nat}

/-- The frames that the kernel's image takes. -/
def kernelFrame (image : KernelImage) (frame : Nat) : Prop :=
  frame * pageSize ≤ image.physicalEnd + pageSize

theorem paged_createPagingInfo (image : KernelImage) (memory : Nat → PTEntry) :
    Paged image (kernelFrame image) (createPagingInfo image memory) := by
  refine ⟨intact_createPagingInfo image memory, ?_, fun v hv hpresent => ?_, fun v _ hv huser => ?_⟩
  · rw [back_createPagingInfo]
  · rcases entry_createPagingInfo_cases image memory hv with hempty | ⟨frame, -, hkernel⟩
    · rw [hempty] at hpresent
      cases hpresent
    · rw [hkernel]
  · unfold PageTables.isUser at huser
    rcases entry_createPagingInfo_cases image memory hv with hempty | ⟨frame, hframe, hkernel⟩
    · rw [hempty] at huser
      cases huser
    · rw [hkernel]
      exact hframe

/-- The system that `create_init_task` starts with is sound when the kernel's frames are in use. -/
theorem sound_boot (hused : ∀ i, kernelFrame image i → machine.used (i * pageSize) = true)
    (htrampoline : kernelFrame image (trampoline / pageSize % 2 ^ 20)) :
    Sound image (kernelFrame image) trampoline (boot machine (createPagingInfo image memory)) := by
  refine ⟨ledger_boot _ _, paged_createPagingInfo image memory, fun t v m hv => ?_,
    fun t v m hv => ?_, fun i hi => ⟨hused i hi, ?_, fun pid hmem => ?_⟩, htrampoline⟩
  · rw [lookup_boot] at hv
    cases hv
  · rw [lookup_boot] at hv
    cases hv
  · rintro ⟨t, v, m, hv, -⟩
    cases hv
  · rw [stackOf_boot] at hmem
    cases hmem

theorem showsCurrent_boot : ShowsCurrent (boot machine (createPagingInfo image memory)) := by
  have hentry : ∀ v, UserPage v →
      (boot machine (createPagingInfo image memory)).paging.entry v = {} :=
    fun v hv => entry_createPagingInfo image memory hv.2
  refine fun t _ => ⟨fun v hv => ?_, fun v m _ hm => ?_⟩
  · rw [hentry v hv, lookup_boot]
    decide
  · rw [lookup_boot] at hm
    cases hm

theorem inside_smallImage : (16 + 1 + 1024) * pageSize ≤ 0x800000 := by decide

theorem small_smallImage : 0x800000 + 2 * pageSize ≤ 2 ^ 30 - 2 ^ 22 := by decide

/-- A kernel that ends at 8 MiB. -/
def smallImage : KernelImage := ⟨16, 0x800000, inside_smallImage, small_smallImage⟩

/-- The first 128 MiB of memory are in use, and everything behind them is free. -/
def bootMachine : Machine :=
  ⟨⟨⟨fun k => if k < 1024 then BitVec.allOnes 32 else 0⟩, 0, 0⟩, fun _ => 0⟩

theorem used_bootMachine (i : Nat) : bootMachine.used (i * pageSize) = decide (i < 32768) := by
  unfold Machine.used PhysPageAllocator.used bootMachine
  rw [PhysPageAllocator.mul_pageSize_div, Bitarray.get_eq_getLsbD (by decide)]
  dsimp only
  split
  case isTrue hlt =>
    rw [BitVec.getLsbD_allOnes, decide_eq_decide]
    omega
  case isFalse hge =>
    rw [decide_eq_false (by omega)]
    exact BitVec.getLsbD_zero

/-- The same machine with the search at the first free page. -/
def bootMachineAt : Machine :=
  { bootMachine with allocator := { bootMachine.allocator with lastPos := 32768 } }

theorem findFreePage_bootMachine : PhysPageAllocator.findFreePage bootMachine.allocator =
    PhysPageAllocator.findFreePage bootMachineAt.allocator := by
  have hget : ∀ i, bootMachine.allocator.memBitmap.get i = decide (i < 32768) := fun i => by
    rw [← used_bootMachine i]
    unfold Machine.used PhysPageAllocator.used
    rw [PhysPageAllocator.mul_pageSize_div]
  have hfree : bootMachine.allocator.memBitmap.get 32768 = false := by
    decide
  have hcount : pageCount = 1048576 := rfl
  have hall : scan bootMachine.allocator.memBitmap 0 (pageCount - 0) = some 32768 := by
    refine PhysPageAllocator.scan_of_first (Nat.zero_le _) (by omega) (fun j _ hj => ?_) hfree
    rw [hget, decide_eq_true hj]
  have hrest : scan bootMachine.allocator.memBitmap 32768 (pageCount - 32768) = some 32768 :=
    PhysPageAllocator.scan_of_first (Nat.le_refl _) (by omega) (fun j hge hlt => by omega) hfree
  rw [@PhysPageAllocator.findFreePage_of_scan bootMachine.allocator _ hall,
    @PhysPageAllocator.findFreePage_of_scan bootMachineAt.allocator _ hrest]
  rfl

/-- An allocation depends on where the search ends. -/
theorem run_allocatePhysicalPage_congr {a b : PhysPageAllocator}
    (h : PhysPageAllocator.findFreePage a = PhysPageAllocator.findFreePage b) (memory : Bytes)
    (s : System) : allocatePhysicalPage.run { s with machine := ⟨a, memory⟩ } =
      allocatePhysicalPage.run { s with machine := ⟨b, memory⟩ } := by
  have halloc : PhysPageAllocator.allocPhysicalPage.run a =
      PhysPageAllocator.allocPhysicalPage.run b := run_bind_congr h _
  have hinner : PageMapping.allocatePhysicalPage.run ⟨a, memory⟩ =
      PageMapping.allocatePhysicalPage.run ⟨b, memory⟩ := by
    show PageMapping.allocatePhysicalPage _ = PageMapping.allocatePhysicalPage _
    unfold PageMapping.allocatePhysicalPage
    rw [halloc]
  refine run_bind_congr ?_ _
  show onMachine _ _ = onMachine _ _
  unfold onMachine
  rw [hinner]

theorem sound_bootMachine : Sound smallImage (kernelFrame smallImage) 0x100000
    (boot bootMachine (createPagingInfo smallImage fun _ => {})) := by
  have hend : smallImage.physicalEnd = 0x800000 := rfl
  refine sound_boot (fun i hi => ?_) (by unfold kernelFrame; decide)
  rw [used_bootMachine, decide_eq_true_iff]
  unfold kernelFrame pageSize at hi
  omega

theorem run_allocatePages_congr {a b : PhysPageAllocator}
    (h : PhysPageAllocator.findFreePage a = PhysPageAllocator.findFreePage b) (memory : Bytes)
    (paging : PageTables) :
    ((Call.allocatePages 0 1).perform 0x100000 inAddressOrder).run (boot ⟨a, memory⟩ paging) =
      ((Call.allocatePages 0 1).perform 0x100000 inAddressOrder).run
        (boot ⟨b, memory⟩ paging) := by
  have hfind : findPages (fun v => (∅ : Mappings).contains v) 1 = some userVirtualBase := by decide
  have hvirt : ∀ machine, (allocateVirtualPage 0 1).run (boot machine paging) =
      .ok userVirtualBase (boot machine paging) := fun machine =>
    (run_allocateVirtualPage_eq_ok (tableOf_boot machine paging)).mpr ⟨hfind, rfl⟩
  have hfirst := run_allocatePhysicalPage_congr h memory (boot ⟨a, memory⟩ paging)
  refine run_bind_congr ((run_bind_ok (hvirt _)).trans (.trans ?_ (run_bind_ok (hvirt _)).symm)) _
  exact run_bind_congr (run_bind_congr (run_bind_congr (run_bind_congr hfirst _) _) _) _

/-- A page that the first process has allocated is shown to it. -/
theorem page_tables_show_allocated_page : ∃ s page, Steps (Guarded Permitted (Performs 0x100000))
      (boot bootMachine (createPagingInfo smallImage fun _ => {})) [.allocatePages 0 1] s ∧
    s.lookup 0 userVirtualBase = some ⟨page, userFlags, true⟩ ∧
      Carries (s.paging.entry userVirtualBase) ⟨page, userFlags, true⟩ ∧ Isolated s := by
  generalize hs : endState ((Call.allocatePages 0 1).perform 0x100000 inAddressOrder)
    (boot bootMachineAt (createPagingInfo smallImage fun _ => {})) = s
  have hsteps : Steps (Guarded Permitted (Performs 0x100000))
      (boot bootMachine (createPagingInfo smallImage fun _ => {})) ([] ++ [.allocatePages 0 1]) s :=
    .snoc (.refl _) ⟨rfl, inAddressOrder,
      (run_allocatePages_congr findFreePage_bootMachine _ _).trans
      (hs ▸ run_of_outcome_ok (by decide +kernel))⟩
  have hlookup : s.lookup 0 userVirtualBase = some ⟨32768 * pageSize, userFlags, true⟩ := by
    rw [← hs]
    decide +kernel
  have hcurrent : s.tableOf s.current = some 0 := by
    rw [← hs]
    decide +kernel
  obtain ⟨⟨t, htable, hshows⟩, hisolated⟩ :=
    page_tables_show_current_process sound_bootMachine showsCurrent_boot hsteps
  cases hcurrent.symm.trans htable
  exact ⟨s, _, hsteps, hlookup, (hshows _ ⟨by decide, by decide⟩).2 _ hlookup, hisolated⟩

end

end LudOS.Tasking.AddressSpaces
