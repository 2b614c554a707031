import Mathlib.Data.List.Count
import Mathlib.Data.List.Nodup
import LudOS.Tasking.SpaceEdits

/-!
# Who owns a physical page

Processes own their pages through the entries of tables, which they may share. `Ledger` is the
invariant of the whole system: an owned page stands in one entry of one table, some process refers
to the table, the allocator has the page marked as used, and every page has been taken for address
spaces as often as they have given it back, once more if it is owned now. The pages of kernel stacks
are marked as used as well, and no table has them.

The functions either add entries, with pages that were free, or remove entries together with their
pages. `Removes` is the second kind of change, whether of one entry or of a whole table.
`one_owner_per_page` puts both together over histories of calls.
-/

namespace LudOS.Tasking.AddressSpaces

open Std (TreeMap)
open Lib Mem PageMapping

/-! ## The ledger -/

/-- Some table has an owned entry for the page. -/
def Owned (s : System) (page : Nat) : Prop :=
  ∃ t v m, s.lookup t v = some m ∧ m.owned = true ∧ m.paddr = page

/-- How often a page has been taken from the allocator. -/
def System.taken (s : System) (page : Nat) : Nat := s.log.count (.alloc page)

/-- How often a page has been given back to the allocator. -/
def System.givenBack (s : System) (page : Nat) : Nat := s.log.count (.release page)

/-- The kernel stacks: their pages are in use, belong to one process and are owned in no table. -/
structure Stacks (s : System) : Prop where
  held : ∀ pid page, page ∈ s.stackOf pid → IsPage page ∧ s.used page = true ∧ ¬ Owned s page
  apart : ∀ pid pid' page, page ∈ s.stackOf pid → page ∈ s.stackOf pid' → pid = pid'

/-- The invariant of ownership. A page that a table does not own is that of the trampoline or a
sentinel. -/
structure Ledger (s : System) : Prop where
  owned : ∀ t v m, s.lookup t v = some m → m.owned = true → IsPage m.paddr ∧ s.used m.paddr = true
  distinct : ∀ t v m u w n, s.lookup t v = some m → s.lookup u w = some n → m.owned = true →
    n.owned = true → m.paddr = n.paddr → t = u ∧ v = w
  lent : ∀ t v m, s.lookup t v = some m → m.owned = false →
    m.flags = trampolineFlags ∨ m.flags = sentinelFlags
  kernelStacks : Stacks s
  referenced : ∀ t v m, s.lookup t v = some m → ∃ pid, s.tableOf pid = some t
  fresh : ∀ pid t, s.tableOf pid = some t → t < s.nextTable
  live : s.tableOf s.current ≠ none
  held : ∀ page, Owned s page → s.taken page = s.givenBack page + 1
  returned : ∀ page, ¬ Owned s page → s.taken page = s.givenBack page

section

variable {s s' s'' : System} {trampoline t u v w pid page : Nat} {m : MemoryMapping}
  {addr : Nat → Prop} {pages : List Nat}

/-- The stacks stay where they are. -/
theorem Stacks.of_same (h : Stacks s) (hstackOf : ∀ pid, s'.stackOf pid = s.stackOf pid)
    (hheld : ∀ pid page, page ∈ s.stackOf pid → s'.used page = true ∧ ¬ Owned s' page) :
    Stacks s' := by
  refine ⟨fun pid page hmem => ?_, fun pid pid' page hmem hmem' => ?_⟩
  · rw [hstackOf] at hmem
    exact ⟨(h.held pid page hmem).1, hheld pid page hmem⟩
  · rw [hstackOf] at hmem hmem'
    exact h.apart pid pid' page hmem hmem'

theorem Ledger.used_of_owned (h : Ledger s) (ho : Owned s page) : s.used page = true := by
  obtain ⟨t, v, m, hv, howned, rfl⟩ := ho
  exact (h.owned t v m hv howned).2

theorem Ledger.isPage_of_owned (h : Ledger s) (ho : Owned s page) : IsPage page := by
  obtain ⟨t, v, m, hv, howned, rfl⟩ := ho
  exact (h.owned t v m hv howned).1

/-- Tables that have not been handed out are empty. -/
theorem Ledger.lookup_nextTable (h : Ledger s) (v : Nat) : s.lookup s.nextTable v = none := by
  cases hv : s.lookup s.nextTable v with
  | none => rfl
  | some m =>
    obtain ⟨pid, htable⟩ := h.referenced _ v m hv
    exact absurd (h.fresh pid _ htable) (Nat.lt_irrefl _)

theorem Ledger.current_ne_nextTable (h : Ledger s) : s.tableOf s.current ≠ some s.nextTable :=
  fun htable => absurd (h.fresh _ _ htable) (Nat.lt_irrefl _)

/-- Different pages have different numbers. -/
theorem div_ne_of_isPage {page page' : Nat} (h : IsPage page) (h' : IsPage page')
    (hne : page ≠ page') : page / pageSize ≠ page' / pageSize := by
  obtain ⟨i, -, rfl⟩ := h
  obtain ⟨j, -, rfl⟩ := h'
  rw [PhysPageAllocator.mul_pageSize_div, PhysPageAllocator.mul_pageSize_div]
  exact fun heq => hne (heq ▸ rfl)

/-- The invariant only depends on what is marked as used, on the mappings, on who refers to which
table and has which kernel stack, and on the log. -/
theorem Ledger.congr (h : Ledger s) (hused : ∀ addr, s'.used addr = s.used addr)
    (hlookup : ∀ t v, s'.lookup t v = s.lookup t v)
    (htableOf : ∀ pid, s'.tableOf pid = s.tableOf pid)
    (hstackOf : ∀ pid, s'.stackOf pid = s.stackOf pid) (hlive : s'.tableOf s'.current ≠ none)
    (hnext : s'.nextTable = s.nextTable) (hlog : s'.log = s.log) : Ledger s' := by
  have howned : ∀ page, Owned s' page ↔ Owned s page := by
    intro page
    unfold Owned
    simp only [hlookup]
  refine ⟨fun t v m hv ho => ?_, fun t v m u w n hv hw => ?_, fun t v m hv => ?_,
    h.kernelStacks.of_same hstackOf fun pid page hmem => ?_, fun t v m hv => ?_,
    fun pid t htable => ?_,
    hlive, fun page ho => ?_, fun page ho => ?_⟩
  · rw [hlookup] at hv
    rw [hused]
    exact h.owned t v m hv ho
  · rw [hlookup] at hv hw
    exact h.distinct t v m u w n hv hw
  · rw [hlookup] at hv
    exact h.lent t v m hv
  · rw [hused, howned]
    exact (h.kernelStacks.held pid page hmem).2
  · rw [hlookup] at hv
    obtain ⟨pid, htable⟩ := h.referenced t v m hv
    exact ⟨pid, (htableOf pid).trans htable⟩
  · rw [htableOf] at htable
    rw [hnext]
    exact h.fresh pid t htable
  · unfold System.taken System.givenBack
    rw [hlog]
    exact h.held page ((howned page).mp ho)
  · unfold System.taken System.givenBack
    rw [hlog]
    exact h.returned page fun ho' => ho ((howned page).mpr ho')

/-! ## The log -/

theorem taken_of_alloc (hlog : s'.log = s.log ++ [.alloc page]) (p : Nat) :
    s'.taken p = s.taken p + if p = page then 1 else 0 := by
  unfold System.taken
  rw [hlog, List.count_append, List.count_singleton]
  by_cases hp : p = page
  · simp [hp]
  · simp [hp, Ne.symm hp]

theorem givenBack_of_alloc (hlog : s'.log = s.log ++ [.alloc page]) (p : Nat) :
    s'.givenBack p = s.givenBack p := by
  unfold System.givenBack
  rw [hlog, List.count_append, List.count_singleton]
  simp

theorem taken_of_release (hlog : s'.log = s.log ++ pages.map .release)
    (p : Nat) : s'.taken p = s.taken p := by
  unfold System.taken
  rw [hlog, List.count_append, Nat.add_eq_left, List.count_eq_zero]
  intro hmem
  obtain ⟨q, -, heq⟩ := List.mem_map.mp hmem
  cases heq

/-- Pages that are given back, each of them once. -/
theorem givenBack_of_release (hlog : s'.log = s.log ++ pages.map .release)
    (hnodup : pages.Nodup) (p : Nat) :
    s'.givenBack p = s.givenBack p + if p ∈ pages then 1 else 0 := by
  have hinj : Function.Injective PhysPageAllocator.Event.release := fun a b heq => by
    cases heq
    rfl
  unfold System.givenBack
  rw [hlog, List.count_append, List.count_map_of_injective pages _ hinj, hnodup.count]

/-! ## Entries that are added -/

/-- Every mapping is still there, no page has been given back, and the pages of new entries were
free. -/
structure Retains (s s' : System) : Prop where
  lookup : ∀ t v m, s.lookup t v = some m → s'.lookup t v = some m
  givenBack : ∀ page, s'.givenBack page = s.givenBack page
  used : ∀ addr, s.used addr = true → s'.used addr = true
  owned : ∀ page, Owned s' page → Owned s page ∨ s.used page = false

theorem Retains.of_same (hlookup : ∀ t v, s'.lookup t v = s.lookup t v) (hlog : s'.log = s.log)
    (hused : ∀ addr, s.used addr = true → s'.used addr = true) : Retains s s' := by
  refine ⟨fun t v m hv => (hlookup t v).trans hv, fun page => ?_, hused, ?_⟩
  · unfold System.givenBack
    rw [hlog]
  · rintro page ⟨t, v, m, hv, ho⟩
    rw [hlookup] at hv
    exact .inl ⟨t, v, m, hv, ho⟩

theorem Retains.refl (s : System) : Retains s s := .of_same (fun _ _ => rfl) rfl fun _ h => h

theorem Retains.trans (h : Retains s s') (h' : Retains s' s'') : Retains s s'' := by
  refine ⟨fun t v m hv => h'.lookup t v m (h.lookup t v m hv),
    fun page => (h'.givenBack page).trans (h.givenBack page),
    fun addr haddr => h'.used addr (h.used addr haddr), fun page ho => ?_⟩
  rcases h'.owned page ho with ho | hfree
  · exact h.owned page ho
  · cases hused : s.used page with
    | false => exact .inr rfl
    | true =>
      rw [h.used page hused] at hfree
      cases hfree

/-- What is found after an entry has been added. -/
theorem lookup_insert_cases {n : MemoryMapping} (h : (s.insert t v m).lookup u w = some n) :
    (u = t ∧ w = v ∧ n = m) ∨ s.lookup u w = some n := by
  rw [lookup_insert] at h
  split at h
  case isTrue heq =>
    cases h
    exact .inl ⟨heq.1, heq.2, rfl⟩
  case isFalse => exact .inr h

theorem lookup_insert_of_some {n : MemoryMapping} (hfree : s.lookup t v = none)
    (h : s.lookup u w = some n) : (s.insert t v m).lookup u w = some n := by
  rw [lookup_insert, if_neg]
  · exact h
  · rintro ⟨rfl, rfl⟩
    rw [hfree] at h
    cases h

namespace Ledger

variable (h : Ledger s) (htable : s.tableOf pid = some t)

include h htable

/-- An entry with a page of the kernel is added. -/
theorem borrow (hfree : s.lookup t v = none) (paging : PageTables) (paddr : Nat) {flags : Nat}
    (hflags : flags = trampolineFlags ∨ flags = sentinelFlags) :
    Ledger (System.insert { s with paging } t v ⟨paddr, flags, false⟩) := by
  -- Owned entries are the old ones.
  have hold : ∀ u w n, (System.insert { s with paging } t v ⟨paddr, flags, false⟩).lookup u w =
      some n → n.owned = true → s.lookup u w = some n := by
    intro u w n hw ho
    rcases lookup_insert_cases hw with ⟨-, -, rfl⟩ | hw
    · cases ho
    · exact hw
  have howned : ∀ page, Owned (System.insert { s with paging } t v ⟨paddr, flags, false⟩) page ↔
      Owned s page := by
    intro page
    constructor
    · rintro ⟨u, w, n, hw, ho, hpage⟩
      exact ⟨u, w, n, hold u w n hw ho, ho, hpage⟩
    · rintro ⟨u, w, n, hw, ho, hpage⟩
      exact ⟨u, w, n, lookup_insert_of_some hfree hw, ho, hpage⟩
  refine ⟨fun u w n hw ho => h.owned u w n (hold u w n hw ho) ho,
    fun u w n u' w' n' hw hw' ho ho' => h.distinct u w n u' w' n' (hold u w n hw ho)
      (hold u' w' n' hw' ho') ho ho', fun u w n hw ho => ?_,
    h.kernelStacks.of_same (fun _ => rfl) fun pid' page hmem => ?_,
    fun u w n hw => ?_, h.fresh, h.live,
    fun page ho => h.held page ((howned page).mp ho),
    fun page ho => h.returned page fun ho' => ho ((howned page).mpr ho')⟩
  · rcases lookup_insert_cases hw with ⟨-, -, rfl⟩ | hw
    · exact hflags
    · exact h.lent u w n hw ho
  · rw [howned]
    exact (h.kernelStacks.held pid' page hmem).2
  · rcases lookup_insert_cases hw with ⟨rfl, -, -⟩ | hw
    · exact ⟨pid, htable⟩
    · exact h.referenced u w n hw

/-- An entry with a page that was free is added. -/
theorem acquire (hfree : s.lookup t v = none) {allocator : PhysPageAllocator}
    (hout : PhysPageAllocator.HandedOut s.machine.allocator [] page allocator) (memory : Bytes)
    (paging : PageTables) (flags : Nat) : Ledger (System.insert
      { s with machine := ⟨allocator, memory⟩, paging, log := s.log ++ [.alloc page] }
      t v ⟨page, flags, true⟩) := by
  generalize hs' : System.insert
    { s with machine := ⟨allocator, memory⟩, paging, log := s.log ++ [.alloc page] }
    t v ⟨page, flags, true⟩ = s'
  have hnew : ∀ u w n, s'.lookup u w = some n →
      (u = t ∧ w = v ∧ n = ⟨page, flags, true⟩) ∨ s.lookup u w = some n := by
    intro u w n hw
    rw [← hs'] at hw
    exact lookup_insert_cases hw
  have hkept : ∀ u w n, s.lookup u w = some n → s'.lookup u w = some n := by
    intro u w n hw
    rw [← hs']
    exact lookup_insert_of_some hfree hw
  have hadded : s'.lookup t v = some ⟨page, flags, true⟩ := by
    rw [← hs', lookup_insert, if_pos ⟨rfl, rfl⟩]
  have hused : ∀ addr, s'.used addr = allocator.used addr := fun addr => hs' ▸ rfl
  have hunowned : ¬ Owned s page := by
    intro ho
    have hwas : s.used page = false := hout.was_free
    rw [h.used_of_owned ho] at hwas
    cases hwas
  have howned : ∀ p, Owned s' p ↔ p = page ∨ Owned s p := by
    intro p
    constructor
    · rintro ⟨u, w, n, hw, ho, rfl⟩
      rcases hnew u w n hw with ⟨-, -, rfl⟩ | hw
      · exact .inl rfl
      · exact .inr ⟨u, w, n, hw, ho, rfl⟩
    · rintro (rfl | ⟨u, w, n, hw, ho, rfl⟩)
      · exact ⟨t, v, _, hadded, rfl, rfl⟩
      · exact ⟨u, w, n, hkept u w n hw, ho, rfl⟩
  have hlog : s'.log = s.log ++ [.alloc page] := hs' ▸ rfl
  refine ⟨fun u w n hw ho => ?_, fun u w n u' w' n' hw hw' ho ho' heq => ?_, fun u w n hw ho => ?_,
    h.kernelStacks.of_same (fun pid' => hs' ▸ rfl) fun pid' p hmem => ?_,
    fun u w n hw => ?_, ?_, ?_,
    fun p ho => ?_, fun p ho => ?_⟩
  · rw [hused]
    rcases hnew u w n hw with ⟨-, -, rfl⟩ | hw
    · exact ⟨hout.on_page, hout.is_used⟩
    · obtain ⟨hpage, hwas⟩ := h.owned u w n hw ho
      refine ⟨hpage, (hout.others _ (div_ne_of_isPage hpage hout.on_page ?_)).trans hwas⟩
      exact fun heq => hunowned ⟨u, w, n, hw, ho, heq⟩
  · rcases hnew u w n hw with ⟨rfl, rfl, rfl⟩ | hw
    · rcases hnew u' w' n' hw' with ⟨rfl, rfl, -⟩ | hw'
      · exact ⟨rfl, rfl⟩
      · exact absurd ⟨u', w', n', hw', ho', heq.symm⟩ hunowned
    · rcases hnew u' w' n' hw' with ⟨-, -, rfl⟩ | hw'
      · exact absurd ⟨u, w, n, hw, ho, heq⟩ hunowned
      · exact h.distinct u w n u' w' n' hw hw' ho ho' heq
  · rcases hnew u w n hw with ⟨-, -, rfl⟩ | hw
    · cases ho
    · exact h.lent u w n hw ho
  · obtain ⟨-, hwas, hnot⟩ := h.kernelStacks.held pid' p hmem
    rw [hused, howned]
    refine ⟨hout.used p hwas, ?_⟩
    rintro (rfl | ho)
    · cases hwas.symm.trans hout.was_free
    · exact hnot ho
  · rw [← hs']
    rcases hnew u w n hw with ⟨rfl, -, -⟩ | hw
    · exact ⟨pid, htable⟩
    · exact h.referenced u w n hw
  · rw [← hs']
    exact h.fresh
  · rw [← hs']
    exact h.live
  · rw [taken_of_alloc hlog, givenBack_of_alloc hlog]
    by_cases hp : p = page
    · rw [if_pos hp, h.returned p (hp ▸ hunowned)]
    · rw [if_neg hp, h.held p (((howned p).mp ho).resolve_left hp)]
  · rw [taken_of_alloc hlog, givenBack_of_alloc hlog,
      if_neg (fun hp => ho ((howned p).mpr (.inl hp))),
      h.returned p fun ho' => ho ((howned p).mpr (.inr ho')), Nat.add_zero]

/-- Entries are added to the table of a process. -/
theorem adds (hr : Reaches (Adds trampoline t addr) s s') : Ledger s' ∧ Retains s s' := by
  refine (hr.invariant (fun r => r.tableOf pid = some t ∧ Ledger r ∧ Retains s r)
    (fun r e r' hr hguard hedit => ?_) ⟨htable, h, .refl s⟩).2
  obtain ⟨htable, hledger, hretains⟩ := hr
  refine ⟨(hedit.sameProcesses.tableOf pid).trans htable, ?_⟩
  cases hedit with
  | acquire memory hfree hout =>
    obtain ⟨rfl, -⟩ := hguard
    refine ⟨hledger.acquire htable hfree hout memory _ _, hretains.trans
      ⟨fun u w n => lookup_insert_of_some hfree, givenBack_of_alloc rfl, hout.used, ?_⟩⟩
    rintro p ⟨u, w, n, hw, ho, rfl⟩
    rcases lookup_insert_cases hw with ⟨-, -, rfl⟩ | hw
    · exact .inr hout.was_free
    · exact .inl ⟨u, w, n, hw, ho, rfl⟩
  | borrow hfree =>
    obtain ⟨rfl, -, hpage⟩ := hguard
    refine ⟨hledger.borrow htable hfree _ _ (hpage.imp_left And.right), hretains.trans
      ⟨fun u w n => lookup_insert_of_some hfree, fun p => rfl, fun _ hused => hused, ?_⟩⟩
    rintro p ⟨u, w, n, hw, ho, rfl⟩
    rcases lookup_insert_cases hw with ⟨-, -, rfl⟩ | hw
    · cases ho
    · exact .inl ⟨u, w, n, hw, ho, rfl⟩
  | drop => exact hguard.elim
  | quiet hquiet =>
    have hused : ∀ addr, r'.used addr = r.used addr := fun addr => by
      unfold System.used Machine.used
      rw [hquiet.allocator]
    refine ⟨hledger.congr hused hquiet.lookup hquiet.tableOf hquiet.stackOf ?_ hquiet.nextTable
      hquiet.log, hretains.trans (.of_same hquiet.lookup hquiet.log fun addr haddr =>
        (hused addr).trans haddr)⟩
    rw [hquiet.current, hquiet.tableOf]
    exact hledger.live

end Ledger

/-! ## Entries that are removed -/

/-- Entries have been removed. The pages of those that were owned have been given back, and nothing
else has. -/
structure Removes (pages : List Nat) (s s' : System) : Prop where
  lookup : ∀ t v m, s'.lookup t v = some m → s.lookup t v = some m
  kept : ∀ t v m, s.lookup t v = some m → m.owned = true → m.paddr ∉ pages → s'.lookup t v = some m
  gone : ∀ t v m, s.lookup t v = some m → m.owned = true → m.paddr ∈ pages → s'.lookup t v = none
  owned : ∀ page ∈ pages, Owned s page
  nodup : pages.Nodup
  log : s'.log = s.log ++ pages.map .release
  used : ∀ addr, s.used addr = true → (∀ page ∈ pages, addr / pageSize ≠ page / pageSize) →
    s'.used addr = true
  same : SameProcesses s s'

theorem Removes.refl (s : System) : Removes [] s s :=
  ⟨fun _ _ _ h => h, fun _ _ _ h _ _ => h, fun _ _ _ _ _ h => absurd h List.not_mem_nil,
    fun _ h => absurd h List.not_mem_nil, List.nodup_nil, (List.append_nil _).symm,
    fun _ h _ => h, .refl s⟩

theorem Removes.owned_iff (h : Removes pages s s') :
    Owned s' page ↔ Owned s page ∧ page ∉ pages := by
  constructor
  · rintro ⟨t, v, m, hv, ho, rfl⟩
    refine ⟨⟨t, v, m, h.lookup t v m hv, ho, rfl⟩, fun hmem => ?_⟩
    rw [h.gone t v m (h.lookup t v m hv) ho hmem] at hv
    cases hv
  · rintro ⟨⟨t, v, m, hv, ho, rfl⟩, hmem⟩
    exact ⟨t, v, m, h.kept t v m hv ho hmem, ho, rfl⟩

theorem Removes.trans {pages' : List Nat} (h : Removes pages s s')
    (h' : Removes pages' s' s'') : Removes (pages ++ pages') s s'' := by
  refine ⟨fun t v m hv => h.lookup t v m (h'.lookup t v m hv), fun t v m hv ho hmem => ?_,
    fun t v m hv ho hmem => ?_, fun page hmem => ?_, ?_, ?_, fun addr hused hother => ?_,
    h.same.trans h'.same⟩
  · rw [List.mem_append, not_or] at hmem
    exact h'.kept t v m (h.kept t v m hv ho hmem.1) ho hmem.2
  · by_cases hfirst : m.paddr ∈ pages
    · cases hv' : s''.lookup t v with
      | none => rfl
      | some n =>
        have hn := h'.lookup t v n hv'
        rw [h.gone t v m hv ho hfirst] at hn
        cases hn
    · exact h'.gone t v m (h.kept t v m hv ho hfirst) ho
        ((List.mem_append.mp hmem).resolve_left hfirst)
  · rcases List.mem_append.mp hmem with hmem | hmem
    · exact h.owned page hmem
    · exact (h.owned_iff.mp (h'.owned page hmem)).1
  · refine List.nodup_append'.mpr ⟨h.nodup, h'.nodup, fun page hmem hmem' => ?_⟩
    exact (h.owned_iff.mp (h'.owned page hmem')).2 hmem
  · rw [h'.log, h.log, List.map_append, List.append_assoc]
  · refine h'.used addr (h.used addr hused fun page hmem => ?_) fun page hmem => ?_
    · exact hother page (List.mem_append_left _ hmem)
    · exact hother page (List.mem_append_right _ hmem)

theorem Ledger.removes (h : Ledger s) (hr : Removes pages s s') : Ledger s' := by
  have htaken := taken_of_release hr.log
  have hgiven := givenBack_of_release hr.log hr.nodup
  refine ⟨fun t v m hv ho => ?_, fun t v m u w n hv hw ho ho' => ?_,
    fun t v m hv => h.lent t v m (hr.lookup t v m hv),
    h.kernelStacks.of_same hr.same.stackOf fun pid page hmem => ?_, fun t v m hv => ?_,
    fun pid t htable => ?_, ?_, fun page ho => ?_, fun page ho => ?_⟩
  · obtain ⟨hpage, hused⟩ := h.owned t v m (hr.lookup t v m hv) ho
    refine ⟨hpage, hr.used _ hused fun page hmem => ?_⟩
    refine div_ne_of_isPage hpage (h.isPage_of_owned (hr.owned page hmem)) ?_
    rintro rfl
    exact (hr.owned_iff.mp ⟨t, v, m, hv, ho, rfl⟩).2 hmem
  · exact h.distinct t v m u w n (hr.lookup t v m hv) (hr.lookup u w n hw) ho ho'
  · obtain ⟨hpage, hused, hnot⟩ := h.kernelStacks.held pid page hmem
    refine ⟨hr.used _ hused fun page' hmem' => ?_, fun ho => hnot (hr.owned_iff.mp ho).1⟩
    refine div_ne_of_isPage hpage (h.isPage_of_owned (hr.owned page' hmem')) ?_
    rintro rfl
    exact hnot (hr.owned page hmem')
  · obtain ⟨pid, htable⟩ := h.referenced t v m (hr.lookup t v m hv)
    exact ⟨pid, (hr.same.tableOf pid).trans htable⟩
  · rw [hr.same.tableOf] at htable
    rw [hr.same.nextTable]
    exact h.fresh pid t htable
  · rw [hr.same.current, hr.same.tableOf]
    exact h.live
  · obtain ⟨ho', hmem⟩ := hr.owned_iff.mp ho
    rw [htaken, hgiven, if_neg hmem, h.held page ho', Nat.add_zero]
  · rw [htaken, hgiven]
    by_cases hmem : page ∈ pages
    · rw [if_pos hmem, h.held page (hr.owned page hmem)]
    · rw [if_neg hmem, h.returned page fun ho' => ho (hr.owned_iff.mpr ⟨ho', hmem⟩), Nat.add_zero]

/-- How an owned entry fares: it stays, or its page is given back once. -/
theorem Removes.givenBack (h : Removes pages s s') (page : Nat) :
    s'.givenBack page = s.givenBack page + if page ∈ pages then 1 else 0 :=
  givenBack_of_release h.log h.nodup page

/-- One entry is dropped. -/
theorem Ledger.drop (h : Ledger s) (hv : s.lookup t v = some m) (ho : m.owned = true)
    (paging : PageTables) :
    Removes [m.paddr] s (System.erase { s.freed m.paddr with paging } t v) := by
  have hlookup : ∀ u w n, (System.erase { s.freed m.paddr with paging } t v).lookup u w = some n ↔
      s.lookup u w = some n ∧ ¬ (u = t ∧ w = v) := by
    intro u w n
    rw [lookup_erase]
    split
    case isTrue heq =>
      exact ⟨fun hw => (nomatch hw), fun hw => absurd heq hw.2⟩
    case isFalse hne => exact ⟨fun hw => ⟨hw, hne⟩, fun hw => hw.1⟩
  refine ⟨fun u w n hw => ((hlookup u w n).mp hw).1, fun u w n hw ho' hmem => ?_,
    fun u w n hw ho' hmem => ?_, fun page hmem => ?_, List.nodup_singleton _, rfl,
    fun addr hused hother => ?_, ⟨fun _ => rfl, fun _ => rfl, rfl, rfl⟩⟩
  · refine (hlookup u w n).mpr ⟨hw, ?_⟩
    rintro ⟨rfl, rfl⟩
    cases hw.symm.trans hv
    exact hmem List.mem_cons_self
  · obtain ⟨rfl, rfl⟩ := h.distinct u w n t v m hw hv ho' ho (List.mem_singleton.mp hmem)
    rw [lookup_erase, if_pos ⟨rfl, rfl⟩]
  · rw [List.mem_singleton.mp hmem]
    exact ⟨t, v, m, hv, ho, rfl⟩
  · refine (used_freed s m.paddr addr).trans ?_
    rw [if_neg (hother _ List.mem_cons_self)]
    exact hused

namespace Ledger

variable (h : Ledger s)

include h

/-- A row of entries is dropped. -/
theorem drops (hr : Reaches (Drops t addr) s s') : ∃ pages, Removes pages s s' ∧
      ∀ u w n, s.lookup u w = some n → n.owned = true → n.paddr ∈ pages → u = t ∧ addr w := by
  refine hr.invariant (fun r => ∃ pages, Removes pages s r ∧ ∀ u w n, s.lookup u w = some n →
      n.owned = true → n.paddr ∈ pages → u = t ∧ addr w) (fun r e r' hr hguard hedit => ?_)
    ⟨[], .refl s, fun _ _ _ _ _ hmem => absurd hmem List.not_mem_nil⟩
  obtain ⟨pages, hremoves, hrow⟩ := hr
  cases hedit with
  | acquire => exact hguard.elim
  | borrow => exact hguard.elim
  | quiet => exact hguard.elim
  | @drop t' v' m hv ho hused hclaimed =>
    obtain ⟨rfl, haddr⟩ := hguard
    refine ⟨_, hremoves.trans ((h.removes hremoves).drop hv ho _), fun u w n hw ho' hmem => ?_⟩
    rcases List.mem_append.mp hmem with hmem | hmem
    · exact hrow u w n hw ho' hmem
    · obtain ⟨rfl, rfl⟩ := h.distinct u w n t' v' m hw (hremoves.lookup t' v' m hv) ho' ho
        (List.mem_singleton.mp hmem)
      exact ⟨rfl, haddr⟩

/-- No address is met twice, and no two addresses have the same page. -/
theorem nodup_ownedPages (it : Iteration) (t : Nat) :
    (ownedPages (it.order (s.tables t))).Nodup := by
  have hnodup : (it.order (s.tables t)).Nodup := (it.nodup_keys (s.tables t)).of_map _
  refine (hnodup.filter _).map_on ?_
  rintro ⟨v, m⟩ hv ⟨w, n⟩ hw heq
  obtain ⟨hv, ho⟩ := List.mem_filter.mp hv
  obtain ⟨hw, ho'⟩ := List.mem_filter.mp hw
  rw [it.mem_order] at hv hw
  obtain ⟨-, rfl⟩ := h.distinct t v m t w n hv hw ho ho' heq
  rw [hv] at hw
  cases hw
  rfl

theorem used_of_mem {it : Iteration}
    (hmem : page ∈ ownedPages (it.order (s.tables t))) : IsPage page ∧ s.used page = true := by
  obtain ⟨⟨v, m⟩, hpair, ho, rfl⟩ := mem_ownedPages.mp hmem
  exact h.owned t v m (it.mem_order.mp hpair) ho

/-- A whole table is released. -/
theorem clear {it : Iteration}
    (hback : GivenBack (it.order (s.tables t)) s s') : ∃ pages, Removes pages s (s'.setTable t ∅) ∧
      ∀ u w n, s.lookup u w = some n → n.owned = true → (n.paddr ∈ pages ↔ u = t) := by
  obtain ⟨⟨allocator, hrest⟩, hused⟩ := hback
  have hlookup : ∀ u w, (s'.setTable t ∅).lookup u w = if u = t then none else s.lookup u w := by
    intro u w
    rw [lookup_setTable, TreeMap.getElem?_emptyc, hrest]
    rfl
  have hmem : ∀ page, page ∈ ownedPages (it.order (s.tables t)) ↔
      ∃ v m, s.lookup t v = some m ∧ m.owned = true ∧ m.paddr = page := by
    intro page
    simp only [mem_ownedPages, Prod.exists, it.mem_order]
  have htable : ∀ u w n, s.lookup u w = some n → n.owned = true →
      (n.paddr ∈ ownedPages (it.order (s.tables t)) ↔ u = t) := by
    intro u w n hw ho
    rw [hmem]
    constructor
    · rintro ⟨v, m, hv, ho', heq⟩
      exact (h.distinct u w n t v m hw hv ho ho' heq.symm).1
    · rintro rfl
      exact ⟨w, n, hw, ho, rfl⟩
  refine ⟨_, ⟨fun u w n hw => ?_, fun u w n hw ho hnot => ?_, fun u w n hw ho hin => ?_,
    fun page hin => ?_, ?_, ?_, fun addr haddr hother => ?_, ?_⟩, htable⟩
  · rw [hlookup] at hw
    split at hw
    · cases hw
    · exact hw
  · rw [hlookup, if_neg fun heq => hnot ((htable u w n hw ho).mpr heq)]
    exact hw
  · rw [hlookup, if_pos ((htable u w n hw ho).mp hin)]
  · obtain ⟨v, m, hv, ho, hpage⟩ := (hmem page).mp hin
    exact ⟨t, v, m, hv, ho, hpage⟩
  · exact h.nodup_ownedPages it t
  · rw [hrest]
    rfl
  · refine (hused addr).mpr ⟨haddr, ?_⟩
    rintro ⟨v, m⟩ hv ho
    exact hother m.paddr ((hmem m.paddr).mpr ⟨v, m, it.mem_order.mp hv, ho, rfl⟩)
  · rw [hrest]
    exact ⟨fun _ => rfl, fun _ => rfl, rfl, rfl⟩

/-! ## Processes that come and go -/

theorem current_ne_firstFree : s.current ≠ firstFree s.processes := by
  intro heq
  refine h.live ?_
  unfold System.tableOf
  rw [heq, byPid_firstFree]
  rfl

end Ledger

theorem tableOf_entered_of_some (htable : s.tableOf pid = some t) (machine : Machine)
    (stack : List Nat) : (s.entered machine stack).tableOf pid = some t := by
  rw [tableOf_entered, if_neg]
  · exact htable
  · rintro rfl
    unfold System.tableOf at htable
    rw [byPid_firstFree] at htable
    cases htable

/-- The pages that a new process gets for its kernel stack are nobody else's. -/
theorem Stacks.entered (h : Stacks s) (hledger : ∀ page, Owned s page → s.used page = true)
    {machine : Machine} {stack : List Nat} (hsupplies : Supplies s.machine stack machine)
    (hstackOf : ∀ pid, s'.stackOf pid = (s.entered machine stack).stackOf pid)
    (hmachine : s'.machine = machine) (howned : ∀ page, Owned s' page ↔ Owned s page) :
    Stacks s' := by
  have hused : ∀ page, s'.used page = machine.used page := fun page => by
    unfold System.used
    rw [hmachine]
  -- A page of the new stack was free, any other was in use.
  have hcases : ∀ pid page, page ∈ s'.stackOf pid →
      (pid = firstFree s.processes ∧ page ∈ stack) ∨ page ∈ s.stackOf pid := by
    intro pid page hmem
    rw [hstackOf, stackOf_entered] at hmem
    split at hmem
    case isTrue heq => exact .inl ⟨heq, hmem⟩
    case isFalse => exact .inr hmem
  have hapart : ∀ pid page, page ∈ stack → page ∉ s.stackOf pid := by
    intro pid page hmem hmem'
    cases (h.held pid page hmem').2.1.symm.trans (hsupplies.taken page hmem).2.1
  refine ⟨fun pid page hmem => ?_, fun pid pid' page hmem hmem' => ?_⟩
  · rw [hused, howned]
    rcases hcases pid page hmem with ⟨-, hmem⟩ | hmem
    · obtain ⟨hpage, hfree, htaken⟩ := hsupplies.taken page hmem
      refine ⟨hpage, htaken, fun ho => ?_⟩
      cases (hledger page ho).symm.trans hfree
    · obtain ⟨hpage, hwas, hnot⟩ := h.held pid page hmem
      exact ⟨hpage, (hsupplies.grows page hwas).1, hnot⟩
  · rcases hcases pid page hmem with ⟨hpid, hnew⟩ | hold
    · rcases hcases pid' page hmem' with ⟨hpid', -⟩ | hold'
      · exact hpid.trans hpid'.symm
      · exact absurd hold' (hapart pid' page hnew)
    · rcases hcases pid' page hmem' with ⟨-, hnew'⟩ | hold'
      · exact absurd hold (hapart pid page hnew')
      · exact h.apart pid pid' page hold hold'

namespace Ledger

variable (h : Ledger s) {it : Iteration} {machine : Machine} {stack : List Nat}

include h

/-- A new table is empty already. -/
theorem lookup_entered (t v : Nat) : (s.entered machine stack).lookup t v = s.lookup t v := by
  rw [AddressSpaces.lookup_entered]
  split
  case isTrue heq =>
    subst heq
    exact (h.lookup_nextTable v).symm
  case isFalse => rfl

section

variable (hsupplies : Supplies s.machine stack machine)
  (hjoins : Joins (firstFree s.processes) t (s.entered machine stack) s') (ht : t ≤ s.nextTable)

include hsupplies hjoins

/-- A process that is new to the system leaves every entry as it is. -/
theorem retains_of_joins : Retains s s' := by
  refine .of_same (fun u w => (hjoins.lookup u w).trans (h.lookup_entered u w)) hjoins.log
    fun addr hused => ?_
  unfold System.used
  rw [hjoins.machine]
  exact (hsupplies.grows addr hused).1

include ht

/-- A process that is new to the system refers to a new table, or to one of another process. -/
theorem joins : Ledger s' := by
  have hlookup : ∀ u w, s'.lookup u w = s.lookup u w := fun u w =>
    (hjoins.lookup u w).trans (h.lookup_entered u w)
  have howned : ∀ page, Owned s' page ↔ Owned s page := fun page => by
    unfold Owned
    simp only [hlookup]
  have htableOf : ∀ pid u, s.tableOf pid = some u → s'.tableOf pid = some u := by
    intro pid u hpid
    have hne : pid ≠ firstFree s.processes := by
      rintro rfl
      unfold System.tableOf at hpid
      rw [byPid_firstFree] at hpid
      cases hpid
    rw [hjoins.tableOf, if_neg hne]
    exact tableOf_entered_of_some hpid machine stack
  have hlog : s'.log = s.log := hjoins.log
  refine ⟨fun u w n hw ho => ?_, fun u w n u' w' n' hw hw' => ?_, fun u w n hw => ?_,
    h.kernelStacks.entered (fun _ => h.used_of_owned) hsupplies hjoins.stackOf
      hjoins.machine howned,
    fun u w n hw => ?_, fun pid u hpid => ?_, ?_, fun page ho => ?_, fun page ho => ?_⟩
  · obtain ⟨hpage, hused⟩ := h.owned u w n (hlookup u w ▸ hw) ho
    exact ⟨hpage, (h.retains_of_joins hsupplies hjoins).used _ hused⟩
  · rw [hlookup] at hw hw'
    exact h.distinct u w n u' w' n' hw hw'
  · rw [hlookup] at hw
    exact h.lent u w n hw
  · rw [hlookup] at hw
    obtain ⟨pid, hpid⟩ := h.referenced u w n hw
    exact ⟨pid, htableOf pid u hpid⟩
  · rw [hjoins.nextTable]
    show u < s.nextTable + 1
    rw [hjoins.tableOf] at hpid
    split at hpid
    case isTrue =>
      cases hpid
      omega
    case isFalse hne =>
      rw [tableOf_entered, if_neg hne] at hpid
      exact Nat.lt_succ_of_lt (h.fresh pid u hpid)
  · obtain ⟨u, hu⟩ := Option.ne_none_iff_exists'.mp h.live
    rw [hjoins.current]
    show s'.tableOf s.current ≠ none
    rw [htableOf s.current u hu]
    exact Option.some_ne_none u
  · unfold System.taken System.givenBack
    rw [hlog]
    exact h.held page ((howned page).mp ho)
  · unfold System.taken System.givenBack
    rw [hlog]
    exact h.returned page fun ho' => ho ((howned page).mpr ho')

end

/-- `clone` keeps every entry that is there. -/
theorem clone {flags child : Nat}
    (hrun : (AddressSpaces.clone it pid flags).run s = .ok child s') :
    Ledger s' ∧ Retains s s' := by
  obtain ⟨rfl, t, u, machine, stack, r, htable, hu, hsupplies, hjoins, hadds⟩ :=
    run_clone_cases 0 h.live h.current_ne_nextTable hrun
  have hle : u ≤ s.nextTable := by
    rcases hu with ⟨-, rfl⟩ | ⟨-, rfl⟩
    · exact Nat.le_of_lt (h.fresh pid u htable)
    · exact Nat.le_refl _
  have hchild : r.tableOf (firstFree s.processes) = some u := by
    rw [hjoins.tableOf, if_pos rfl]
  obtain ⟨hledger, hretains⟩ := (h.joins hsupplies hjoins hle).adds hchild hadds
  exact ⟨hledger, (h.retains_of_joins hsupplies hjoins).trans hretains⟩

theorem taskSwitch
    (hrun : (AddressSpaces.taskSwitch it pid).run s = .ok () s') : Ledger s' ∧ Retains s s' := by
  obtain ⟨-, t, u, paging, -, htable, -, rfl⟩ := run_taskSwitch_eq_ok.mp hrun
  refine ⟨h.congr (fun _ => rfl) (fun _ _ => rfl) (fun _ => rfl) (fun _ => rfl) ?_ rfl rfl,
    .of_same (fun _ _ => rfl) rfl fun _ hused => hused⟩
  show s.tableOf pid ≠ none
  rw [htable]
  exact Option.some_ne_none u

/-- `release_mappings` releases the pages of a table that is not shared. -/
theorem releaseMappings (htable : s.tableOf pid = some t)
    (hrun : (AddressSpaces.releaseMappings it pid).run s = .ok () s') :
    ∃ pages, Removes pages s s' ∧ (s.Unshared t → ∀ v, s'.lookup t v = none) ∧
      ∀ u w n, s.lookup u w = some n → n.owned = true →
        (n.paddr ∈ pages ↔ u = t ∧ s.Unshared t) := by
  rcases run_releaseMappings_cases htable hrun with ⟨hshared, rfl⟩ | ⟨hunshared, r, hback, rfl⟩
  · exact ⟨[], .refl s, fun hunshared => absurd hunshared hshared, fun _ _ _ _ _ =>
      ⟨fun hmem => absurd hmem List.not_mem_nil, fun hin => absurd hin.2 hshared⟩⟩
  · obtain ⟨pages, hremoves, hpages⟩ := h.clear hback
    refine ⟨pages, hremoves, fun _ v => ?_, fun u w n hw ho => ?_⟩
    · rw [lookup_setTable, if_pos rfl, TreeMap.getElem?_emptyc]
    · rw [hpages u w n hw ho]
      exact ⟨fun heq => ⟨heq, hunshared⟩, fun hin => hin.1⟩

/-- A process other than the current one leaves and gives back its kernel stack; its table is empty
or shared. -/
theorem leave (hne : s.current ≠ pid)
    (hshared : ∀ t v m, s.tableOf pid = some t → s.lookup t v = some m →
      ∃ pid' ≠ pid, s.tableOf pid' = some t) (hfrees : Frees (s.stackOf pid) s s') :
    Ledger { s' with processes := s'.processes.set pid none } := by
  obtain ⟨⟨allocator, rfl⟩, hused⟩ := hfrees
  -- A page that is not on the stack stays in use.
  have hkept : ∀ page, IsPage page → s.used page = true → page ∉ s.stackOf pid →
      allocator.used page = true := by
    intro page hpage hwas hnot
    refine (hused page).mpr ⟨hwas, fun page' hmem => ?_⟩
    refine div_ne_of_isPage hpage (h.kernelStacks.held pid page' hmem).1 ?_
    rintro rfl
    exact hnot hmem
  refine ⟨fun u w n hw ho => ?_, h.distinct, h.lent, ⟨fun pid' page hmem => ?_,
    fun pid' pid'' page hmem hmem' => ?_⟩, fun u w n hw => ?_, fun pid' u hpid => ?_, ?_, h.held,
    h.returned⟩
  · obtain ⟨hpage, hwas⟩ := h.owned u w n hw ho
    refine ⟨hpage, hkept _ hpage hwas fun hmem => ?_⟩
    exact (h.kernelStacks.held pid _ hmem).2.2 ⟨u, w, n, hw, ho, rfl⟩
  · rw [stackOf_leave] at hmem
    split at hmem
    · cases hmem
    case isFalse hother =>
      obtain ⟨hpage, hwas, hnot⟩ := h.kernelStacks.held pid' page hmem
      exact ⟨hpage, hkept page hpage hwas fun hmem' =>
        hother (h.kernelStacks.apart _ _ _ hmem hmem'), hnot⟩
  · rw [stackOf_leave] at hmem hmem'
    split at hmem
    · cases hmem
    split at hmem'
    · cases hmem'
    exact h.kernelStacks.apart pid' pid'' page hmem hmem'
  · obtain ⟨pid', hpid⟩ := h.referenced u w n hw
    by_cases heq : pid' = pid
    · obtain ⟨pid'', hne', hpid'⟩ := hshared u w n (heq ▸ hpid) hw
      exact ⟨pid'', by rw [tableOf_leave, if_neg hne']; exact hpid'⟩
    · exact ⟨pid', by rw [tableOf_leave, if_neg heq]; exact hpid⟩
  · rw [tableOf_leave] at hpid
    split at hpid
    · cases hpid
    · exact h.fresh pid' u hpid
  · rw [tableOf_leave, if_neg hne]
    exact h.live

/-- `release_zombie` ends the entries of a table that nobody else refers to. -/
theorem releaseZombie (hrun : (AddressSpaces.releaseZombie it pid).run s = .ok () s') :
    Ledger s' ∧ ∃ t r machine pages, s.tableOf pid = some t ∧ Removes pages s r ∧
      (∀ u w n, s.lookup u w = some n → n.owned = true →
        (n.paddr ∈ pages ↔ u = t ∧ s.Unshared t)) ∧
      s' = { r with machine, processes := r.processes.set pid none } := by
  obtain ⟨t, r, r', htable, hne, hrelease, hfrees, rfl⟩ := run_releaseZombie_eq_ok hrun
  obtain ⟨pages, hremoves, hempty, hpages⟩ := h.releaseMappings htable hrelease
  rw [← hremoves.same.stackOf] at hfrees
  refine ⟨(h.removes hremoves).leave ?_ (fun u v m hu hv => ?_) hfrees, t, r, r'.machine, pages,
    htable, hremoves, hpages, ?_⟩
  · rw [hremoves.same.current]
    exact hne
  · rw [hremoves.same.tableOf, htable] at hu
    cases hu
    have hshared : ¬ s.Unshared t := fun hunshared => by
      rw [hempty hunshared v] at hv
      cases hv
    obtain ⟨pid', hne', htable'⟩ := (not_unshared_iff htable).mp hshared
    exact ⟨pid', hne', (hremoves.same.tableOf pid').trans htable'⟩
  · obtain ⟨allocator, rfl⟩ := hfrees.rest
    rfl

/-- `load_user_code` releases the old pages, unless they are shared, and adds new ones. -/
theorem loadUserCode {code : List UInt8} {allocatedSize : Nat}
    (hrun : (AddressSpaces.loadUserCode it trampoline pid code allocatedSize).run s = .ok () s') :
    Ledger s' := by
  obtain ⟨q, r', r'', hunmap, hrelease, himage, htls⟩ := run_loadUserCode_eq_ok.mp hrun
  obtain ⟨paging, rfl⟩ := run_unmapCurrent_eq_ok hunmap
  have hr : Ledger { s with paging } :=
    h.congr (fun _ => rfl) (fun _ _ => rfl) (fun _ => rfl) (fun _ => rfl) h.live rfl rfl
  obtain ⟨t, htable⟩ := exists_tableOf hrelease
  obtain ⟨pages, hremoves, -, -⟩ := hr.releaseMappings htable hrelease
  have htable' := (hremoves.same.tableOf pid).trans htable
  obtain ⟨hadds, -⟩ := run_createMappings_image htable' himage
  have htable'' := hadds.tableOf_eq htable'
  obtain ⟨hledger, -⟩ := (hr.removes hremoves).adds htable' hadds
  have hadds' : Reaches (Adds trampoline t UserPage) r'' s' := run_initTls_reaches htable'' htls
  exact (hledger.adds htable'' hadds').1

end Ledger

/-! ## Histories -/

/-- The call that gives a process a new program. -/
def Call.Loads : Call → Prop
  | .loadUserCode .. => True
  | _ => False

/-- The call ends the entry of a table: it releases the page, or it destroys the last process that
refers to the table. -/
def Ends (s : System) (t v : Nat) : Call → Prop
  | .releasePages pid ptr pages => s.tableOf pid = some t ∧ InRow ptr pages v
  | .releaseZombie pid => s.tableOf pid = some t ∧ ∀ pid', s.tableOf pid' = some t → pid' = pid
  | _ => False

/-- What a call does with the owned entries: one that it ends is gone, and its page has been given
back once; any other is as it was, and its page has not been given back. -/
def Accounted (s : System) (c : Call) (s' : System) : Prop :=
  ∀ t v m, s.lookup t v = some m → m.owned = true →
    (Ends s t v c → s'.lookup t v = none ∧ s'.givenBack m.paddr = s.givenBack m.paddr + 1) ∧
    (¬ Ends s t v c → s'.lookup t v = some m ∧ s'.givenBack m.paddr = s.givenBack m.paddr)

theorem Retains.accounted {c : Call} (h : Retains s s') (hends : ∀ t v, ¬ Ends s t v c) :
    Accounted s c s' :=
  fun t v m hv _ => ⟨fun hend => absurd hend (hends t v),
    fun _ => ⟨h.lookup t v m hv, h.givenBack m.paddr⟩⟩

/-- Entries whose pages are given back are those that the call ends. -/
theorem Removes.accounted {c : Call} {pages : List Nat} (h : Removes pages s s')
    (hends : ∀ t v m, s.lookup t v = some m → m.owned = true → (m.paddr ∈ pages ↔ Ends s t v c)) :
    Accounted s c s' := by
  intro t v m hv ho
  rw [h.givenBack, ← hends t v m hv ho]
  constructor
  · intro hmem
    exact ⟨h.gone t v m hv ho hmem, by rw [if_pos hmem]⟩
  · intro hmem
    exact ⟨h.kept t v m hv ho hmem, by rw [if_neg hmem, Nat.add_zero]⟩

/-- `release_pages` ends the entries of a row. -/
theorem Ledger.releasePages (h : Ledger s) {ptr pages : Nat} {released : Bool}
    (hrun : (AddressSpaces.releasePages pid ptr pages).run s = .ok released s') :
    Ledger s' ∧ Accounted s (.releasePages pid ptr pages) s' := by
  obtain ⟨t, htable⟩ := exists_tableOf hrun
  obtain ⟨hreaches, hgone⟩ := run_releasePages_reaches htable hrun
  obtain ⟨released, hremoves, hrow⟩ := h.drops hreaches
  refine ⟨h.removes hremoves, hremoves.accounted fun u v m hv ho => ⟨fun hmem => ?_, ?_⟩⟩
  · obtain ⟨rfl, hin⟩ := hrow u v m hv ho hmem
    exact ⟨htable, hin⟩
  · rintro ⟨htable', hin⟩
    cases htable.symm.trans htable'
    -- An entry that is not there any more has been released.
    by_contra hmem
    have hkept := hremoves.kept t v m hv ho hmem
    rw [hgone v hin] at hkept
    cases hkept

/-- Every call keeps the ledger and accounts for every page. -/
theorem Ledger.performs (h : Ledger s) {c : Call} (hstep : Performs trampoline s c s') :
    Ledger s' ∧ (¬ c.Loads → Accounted s c s') := by
  obtain ⟨it, hrun⟩ := hstep
  -- A call that only adds entries ends none.
  have hadding : (∀ t v, ¬ Ends s t v c) → Ledger s' ∧ Retains s s' →
      Ledger s' ∧ (¬ c.Loads → Accounted s c s') :=
    fun hends hboth => ⟨hboth.1, fun _ => hboth.2.accounted hends⟩
  cases c with
  | create =>
    obtain ⟨pid, r, hcreate, hrun⟩ := run_bind_eq_ok.mp hrun
    obtain ⟨-, machine, stack, hsupplies, rfl⟩ := run_create_eq_ok hcreate
    cases hrun
    have hjoins := joins_entered s machine stack
    exact hadding (fun _ _ hend => hend) ⟨h.joins hsupplies hjoins (Nat.le_refl _),
      h.retains_of_joins hsupplies hjoins⟩
  | clone pid flags =>
    obtain ⟨child, r, hclone, hrun⟩ := run_bind_eq_ok.mp hrun
    cases hrun
    exact hadding (fun _ _ hend => hend) (h.clone hclone)
  | createMappings pid code allocatedSize stackSize =>
    obtain ⟨t, htable⟩ := exists_tableOf hrun
    exact hadding (fun _ _ hend => hend) (h.adds htable (run_createMappings_image htable hrun).1)
  | initTls pid =>
    obtain ⟨_, r, hfind, -⟩ := run_bind_eq_ok.mp hrun
    obtain ⟨t, htable⟩ := exists_tableOf hfind
    have hadds : Reaches (Adds trampoline t UserPage) s s' := run_initTls_reaches htable hrun
    exact hadding (fun _ _ hend => hend) (h.adds htable hadds)
  | allocatePages pid pages =>
    obtain ⟨_, r, hpages, hrun⟩ := run_bind_eq_ok.mp hrun
    cases hrun
    obtain ⟨_, r, hfind, -⟩ := run_bind_eq_ok.mp hpages
    obtain ⟨t, htable⟩ := exists_tableOf hfind
    have hadds : Reaches (Adds trampoline t UserPage) s s' :=
      run_allocatePages_reaches htable hpages
    exact hadding (fun _ _ hend => hend) (h.adds htable hadds)
  | releasePages pid ptr pages =>
    obtain ⟨released, r, hrelease, hrun⟩ := run_bind_eq_ok.mp hrun
    cases hrun
    obtain ⟨hledger, haccounted⟩ := h.releasePages hrelease
    exact ⟨hledger, fun _ => haccounted⟩
  | createUserCallback pid callback argSizes =>
    obtain ⟨_, r, hcallback, hrun⟩ := run_bind_eq_ok.mp hrun
    cases hrun
    obtain ⟨t, htable⟩ := exists_tableOf hcallback
    have hadds : Reaches (Adds trampoline t UserPage) s s' :=
      run_createUserCallbackImpl_reaches htable hcallback
    exact hadding (fun _ _ hend => hend) (h.adds htable hadds)
  | loadUserCode pid code allocatedSize =>
    exact ⟨h.loadUserCode hrun, fun hload => absurd trivial hload⟩
  | taskSwitch pid => exact hadding (fun _ _ hend => hend) (h.taskSwitch hrun)
  | releaseZombie pid =>
    obtain ⟨hledger, t, r, machine, pages, htable, hremoves, hpages, rfl⟩ := h.releaseZombie hrun
    refine ⟨hledger, fun _ u v m hv ho => ?_⟩
    refine @Removes.accounted s r (.releaseZombie pid) pages hremoves (fun u v m hv ho => ?_)
      u v m hv ho
    rw [hpages u v m hv ho, unshared_iff htable]
    constructor
    · rintro ⟨rfl, hunshared⟩
      exact ⟨htable, hunshared⟩
    · rintro ⟨htable', hunshared⟩
      cases htable.symm.trans htable'
      exact ⟨rfl, hunshared⟩

/-- The system after `create_init_task`: there is one process, with an empty table. It is never
destroyed, and its kernel stack is not told from the rest of the kernel's memory. -/
def boot (machine : Machine) (paging : PageTables) : System where
  machine
  paging
  tables _ := ∅
  processes := [some { mappings := 0 }]
  current := 0
  nextTable := 1
  log := []

section

variable (machine : Machine) (paging : PageTables)

include machine paging

theorem lookup_boot (t v : Nat) : (boot machine paging).lookup t v = none := TreeMap.getElem?_emptyc

theorem tableOf_boot : (boot machine paging).tableOf 0 = some 0 := rfl

theorem stackOf_boot (pid : Nat) : (boot machine paging).stackOf pid = [] := by
  cases pid with
  | zero => rfl
  | succ pid => rfl

theorem ledger_boot : Ledger (boot machine paging) := by
  have hempty : ∀ page, ¬ Owned (boot machine paging) page := by
    rintro page ⟨t, v, m, hv, -⟩
    rw [lookup_boot] at hv
    cases hv
  refine ⟨fun t v m hv => ?_, fun t v m u w n hv => ?_, fun t v m hv => ?_,
    ⟨fun pid page hmem => ?_, fun pid pid' page hmem => ?_⟩, fun t v m hv => ?_,
    fun pid t htable => ?_, Option.some_ne_none _, fun page ho => absurd ho (hempty page),
    fun _ _ => rfl⟩
  · rw [lookup_boot] at hv
    cases hv
  · rw [lookup_boot] at hv
    cases hv
  · rw [lookup_boot] at hv
    cases hv
  · rw [stackOf_boot] at hmem
    cases hmem
  · rw [stackOf_boot] at hmem
    cases hmem
  · rw [lookup_boot] at hv
    cases hv
  · cases pid with
    | zero =>
      cases htable
      exact Nat.one_pos
    | succ pid => cases htable

end

/-- After every history of calls an owned page stands in one entry of one table, some process refers
to the table, and the page is marked as used. A page has been taken as often as it has been given
back, once more if it is owned, and the next call gives back the pages of exactly the entries that
it ends. -/
theorem one_owner_per_page {machine : Machine} {paging : PageTables} {calls : List Call}
    (hrun : Steps (Guarded (fun _ c => ¬ c.Loads) (Performs trampoline)) (boot machine paging)
      calls s) : (∀ t v m, s.lookup t v = some m → m.owned = true →
      s.used m.paddr = true ∧ (∃ pid, s.tableOf pid = some t) ∧
        ∀ u w n, s.lookup u w = some n → n.owned = true → n.paddr = m.paddr → u = t ∧ w = v) ∧
    (∀ page, (Owned s page → s.taken page = s.givenBack page + 1) ∧
      (¬ Owned s page → s.taken page = s.givenBack page)) ∧
    ∀ c s', ¬ c.Loads → Performs trampoline s c s' → Accounted s c s' := by
  have h : Ledger s := hrun.invariant Ledger (fun _ _ _ h hstep => (h.performs hstep.2).1)
    (ledger_boot machine paging)
  refine ⟨fun t v m hv ho => ⟨(h.owned t v m hv ho).2, h.referenced t v m hv, ?_⟩,
    fun page => ⟨h.held page, h.returned page⟩, fun c s' hload hstep => (h.performs hstep).2 hload⟩
  intro u w n hw ho' heq
  exact h.distinct u w n t v m hw hv ho' ho heq

/-- On a machine with all memory free the first page is owned after it has been allocated. -/
theorem one_owner_allocated_page : ∃ s m,
    Steps (Guarded (fun _ c => ¬ c.Loads) (Performs 0)) (boot blankMachine ⟨0, fun _ => {}⟩)
      [.allocatePages 0 1] s ∧ s.lookup 0 userVirtualBase = some m ∧ s.used m.paddr = true ∧
      s.taken m.paddr = s.givenBack m.paddr + 1 := by
  generalize hs : endState ((Call.allocatePages 0 1).perform 0 inAddressOrder)
    (boot blankMachine ⟨0, fun _ => {}⟩) = s
  have hsteps : Steps (Guarded (fun _ c => ¬ c.Loads) (Performs 0))
      (boot blankMachine ⟨0, fun _ => {}⟩) ([] ++ [.allocatePages 0 1]) s :=
    .snoc (.refl _) ⟨fun hload => hload, inAddressOrder, hs ▸ run_of_outcome_ok (by decide +kernel)⟩
  have hlookup : s.lookup 0 userVirtualBase = some ⟨0, userFlags, true⟩ := by
    rw [← hs]
    decide +kernel
  obtain ⟨howner, hbalance, -⟩ := one_owner_per_page hsteps
  exact ⟨s, _, hsteps, hlookup, (howner _ _ _ hlookup rfl).1,
    (hbalance 0).1 ⟨0, userVirtualBase, _, hlookup, rfl, rfl⟩⟩

end

end LudOS.Tasking.AddressSpaces
