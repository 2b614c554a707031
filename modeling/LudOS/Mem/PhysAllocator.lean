import LudOS.Lib.Transition
import LudOS.Utils.Bitarray
import LudOS.Utils.Span

/-!
# The physical page allocator

The model of `i686/mem/physallocator.cpp`. A bit per page says whether the page is used, and the
search for a free page starts where the last call left off and wraps around once. Filling a page
with the pattern, which `clear_page` does through a temporary mapping, does not touch the allocator
and is left out.

`find_free_page_cases` is what one search does, and `each_page_handed_out_once` what holds after
every history of allocations and releases.
-/

namespace LudOS.Mem

open Lib

/-- `Paging::page_size`. -/
def pageSize : Nat := 4096

/-- `mem_bitmap.array_size`. -/
def pageCount : Nat := 1024 * 1024

/-- The static members of `PhysPageAllocator`. -/
structure PhysPageAllocator where
  /-- A set bit means that the page is used. -/
  memBitmap : Bitarray 32
  lastPos : Nat
  allocatedPages : Int

/-- The first clear bit among `count` bits from `start` on: the loop of `find_free_page`. -/
def scan (bits : Bitarray 32) : (start count : Nat) → Option Nat
  | _, 0 => none
  | start, count + 1 => if bits.get start then scan bits (start + 1) count else some start

namespace PhysPageAllocator

variable {page : Nat}

/-- The page at an address is marked as used. -/
def used (s : PhysPageAllocator) (addr : Nat) : Bool := s.memBitmap.get (addr / pageSize)

/-- The pages that are released before the machine stops for lack of memory. -/
def freeEssential (s : PhysPageAllocator) : PhysPageAllocator :=
  { s with memBitmap := (List.range pageSize).foldl (fun bits i => bits.set i false) s.memBitmap }

/-- `PhysPageAllocator::find_free_page`. The jump back to the label `loop` is the recursive call,
which happens at most once, since it sets `last_pos` to 0. -/
def findFreePage (s : PhysPageAllocator) : EStateM.Result Fault PhysPageAllocator Nat :=
  match scan s.memBitmap s.lastPos (pageCount - s.lastPos) with
  | some i => .ok (i * pageSize) { s with memBitmap := s.memBitmap.set i true, lastPos := i + 1 }
  | none =>
    if s.lastPos ≠ 0 then findFreePage { s with lastPos := 0 }
    else .error .panic s.freeEssential
termination_by s.lastPos

/-- `PhysPageAllocator::alloc_physical_page`. -/
def allocPhysicalPage : EStateM Fault PhysPageAllocator Nat := do
  let page ← findFreePage
  modify fun s => { s with allocatedPages := s.allocatedPages + 1 }
  pure page

/-- `PhysPageAllocator::release_physical_page`. -/
def releasePhysicalPage (pAddr : Nat) : EStateM Fault PhysPageAllocator Bool := do
  let s ← get
  let basePage := pAddr / 2 ^ 12
  let released := s.memBitmap.get basePage
  set { s with memBitmap := s.memBitmap.set basePage false }
  check .assertion (released = true)
  modify fun s => { s with lastPos := basePage, allocatedPages := s.allocatedPages - 1 }
  pure released

/-! ## One call -/

variable {s s' : PhysPageAllocator} {bits : Bitarray 32} {start count i : Nat}

theorem scan_eq_some (h : scan bits start count = some i) :
    start ≤ i ∧ i < start + count ∧ bits.get i = false := by
  induction count generalizing start with
  | zero => cases h
  | succ count ih =>
    unfold scan at h
    split at h
    case isTrue =>
      obtain ⟨hle, hlt, hbit⟩ := ih h
      exact ⟨by omega, by omega, hbit⟩
    case isFalse hbit =>
      cases h
      exact ⟨by omega, by omega, by simpa using hbit⟩

theorem scan_of_first (hge : start ≤ i) (hlt : i < start + count)
    (hused : ∀ j, start ≤ j → j < i → bits.get j = true) (hfree : bits.get i = false) :
    scan bits start count = some i := by
  induction count generalizing start with
  | zero => omega
  | succ count ih =>
    unfold scan
    rcases Nat.eq_or_lt_of_le hge with rfl | hgt
    · rw [if_neg (by rw [hfree]; decide)]
    · rw [if_pos (hused start (Nat.le_refl _) hgt)]
      exact ih hgt (by omega) fun j hj => hused j (by omega)

theorem scan_eq_none (h : scan bits start count = none) (hge : start ≤ i)
    (hlt : i < start + count) : bits.get i = true := by
  induction count generalizing start with
  | zero => omega
  | succ count ih =>
    unfold scan at h
    split at h
    case isTrue hbit =>
      rcases Nat.eq_or_lt_of_le hge with rfl | hgt
      · exact hbit
      · exact ih h hgt (by omega)
    case isFalse => cases h

/-- The allocator after page `i` has been taken. -/
def take (s : PhysPageAllocator) (i : Nat) : PhysPageAllocator :=
  { s with memBitmap := s.memBitmap.set i true, lastPos := i + 1 }

theorem findFreePage_of_scan (h : scan s.memBitmap s.lastPos (pageCount - s.lastPos) = some i) :
    findFreePage s = .ok (i * pageSize) (s.take i) := by
  unfold findFreePage
  rw [h]
  rfl

/-- The search ends with a free page, or it stops the machine when there is none. -/
theorem find_free_page_cases (hpos : s.lastPos ≤ pageCount) :
    (∃ i < pageCount, s.memBitmap.get i = false ∧ findFreePage s = .ok (i * pageSize) (s.take i)) ∨
    ((∀ i < pageCount, s.memBitmap.get i = true) ∧ ∃ t, findFreePage s = .error .panic t) := by
  -- A search from the start sees every bit.
  have hfirst : ∀ t : PhysPageAllocator, t.lastPos = 0 →
      (∃ i < pageCount, t.memBitmap.get i = false ∧
        findFreePage t = .ok (i * pageSize) (t.take i)) ∨
      ((∀ i < pageCount, t.memBitmap.get i = true) ∧
        findFreePage t = .error .panic t.freeEssential) := by
    intro t ht
    unfold findFreePage
    rw [ht]
    split
    case h_1 i hscan =>
      obtain ⟨-, hlt, hbit⟩ := scan_eq_some hscan
      exact .inl ⟨i, by omega, hbit, rfl⟩
    case h_2 hscan =>
      exact .inr ⟨fun i hi => scan_eq_none hscan (Nat.zero_le i) (by omega), rfl⟩
  by_cases hzero : s.lastPos = 0
  · rcases hfirst s hzero with hfound | ⟨hfull, hrun⟩
    · exact .inl hfound
    · exact .inr ⟨hfull, _, hrun⟩
  unfold findFreePage
  split
  case h_1 i hscan =>
    obtain ⟨-, hlt, hbit⟩ := scan_eq_some hscan
    exact .inl ⟨i, by omega, hbit, rfl⟩
  case h_2 hscan =>
    rw [if_pos hzero]
    rcases hfirst { s with lastPos := 0 } rfl with hfound | ⟨hfull, hrun⟩
    · exact .inl hfound
    · exact .inr ⟨hfull, _, hrun⟩

theorem get_set (bits : Bitarray 32) (i j : Nat) (val : Bool) :
    (bits.set i val).get j = if j = i then val else bits.get j :=
  Bitarray.get_set (by decide) bits i j val

/-- `alloc_physical_page` with a free page left, and without. -/
theorem run_allocPhysicalPage (hpos : s.lastPos ≤ pageCount) :
    (∃ i < pageCount, s.memBitmap.get i = false ∧ allocPhysicalPage.run s =
      .ok (i * pageSize) { s.take i with allocatedPages := s.allocatedPages + 1 }) ∨
    ((∀ i < pageCount, s.memBitmap.get i = true) ∧
      ∃ t, allocPhysicalPage.run s = .error .panic t) := by
  rcases find_free_page_cases hpos with ⟨i, hi, hbit, hrun⟩ | ⟨hfull, t, hrun⟩
  · exact .inl ⟨i, hi, hbit, run_bind_ok hrun⟩
  · exact .inr ⟨hfull, t, run_bind_error hrun⟩

/-- The allocator after a page has been given back. -/
def freed (s : PhysPageAllocator) (page : Nat) : PhysPageAllocator :=
  { s with
    memBitmap := s.memBitmap.set (page / pageSize) false
    lastPos := page / pageSize
    allocatedPages := s.allocatedPages - 1 }

/-- `release_physical_page` accepts the pages that are marked as used. -/
theorem run_releasePhysicalPage_eq_ok {released : Bool} :
    (releasePhysicalPage page).run s = .ok released s' ↔
      s.used page = true ∧ released = true ∧ s' = s.freed page := by
  unfold releasePhysicalPage
  rw [run_get_bind, run_set_bind, run_check_bind_eq_ok]
  refine and_congr_right fun hused => ?_
  have hbit : s.memBitmap.get (page / 2 ^ 12) = true := hused
  rw [run_modify_bind, hbit]
  constructor
  · rintro ⟨⟩
    exact ⟨rfl, rfl⟩
  · rintro ⟨rfl, rfl⟩
    rfl

/-! ## Histories -/

/-- A call of one of the two functions, with the page it returned or was given. -/
inductive Event where
  | alloc (page : Nat)
  | release (page : Nat)
  deriving DecidableEq, Repr

/-- The number of allocations in a history. -/
def allocations : List Event → Nat
  | [] => 0
  | .alloc _ :: es => allocations es + 1
  | .release _ :: es => allocations es

/-- The number of releases in a history. -/
def releases : List Event → Nat
  | [] => 0
  | .alloc _ :: es => releases es
  | .release _ :: es => releases es + 1

theorem counts_snoc_alloc (es : List Event) (page : Nat) :
    allocations (es ++ [.alloc page]) = allocations es + 1 ∧
      releases (es ++ [.alloc page]) = releases es := by
  induction es with
  | nil => exact ⟨rfl, rfl⟩
  | cons e es ih => cases e <;> simp [allocations, releases, ih]

theorem counts_snoc_release (es : List Event) (page : Nat) :
    allocations (es ++ [.release page]) = allocations es ∧
      releases (es ++ [.release page]) = releases es + 1 := by
  induction es with
  | nil => exact ⟨rfl, rfl⟩
  | cons e es ih => cases e <;> simp [allocations, releases, ih]

/-- The calls a history consists of: allocations, and releases of outstanding pages. The second
component lists the outstanding pages. -/
inductive Call : PhysPageAllocator × List Nat → Event → PhysPageAllocator × List Nat → Prop where
  | alloc {s s' : PhysPageAllocator} {out : List Nat} {page : Nat} :
      allocPhysicalPage.run s = .ok page s' → Call (s, out) (.alloc page) (s', page :: out)
  | release {s s' : PhysPageAllocator} {out : List Nat} {page : Nat} {released : Bool} :
      page ∈ out → (releasePhysicalPage page).run s = .ok released s' →
      Call (s, out) (.release page) (s', out.erase page)

/-- The invariant of a history that started with the counter at `initial`. -/
structure Kept (initial : Int) (es : List Event) (state : PhysPageAllocator × List Nat) :
    Prop where
  pos_le : state.1.lastPos ≤ pageCount
  nodup : state.2.Nodup
  page : ∀ page ∈ state.2, ∃ i < pageCount, page = i * pageSize ∧ state.1.memBitmap.get i = true
  count : state.1.allocatedPages = initial + allocations es - releases es

theorem mul_pageSize_div (i : Nat) : i * pageSize / pageSize = i := Nat.mul_div_cancel i (by decide)

theorem Kept.used {initial : Int} {es : List Event} {out : List Nat}
    (h : Kept initial es (s, out)) (hmem : page ∈ out) : s.used page = true := by
  obtain ⟨i, -, rfl, hbit⟩ := h.page page hmem
  unfold PhysPageAllocator.used
  rw [mul_pageSize_div]
  exact hbit

/-- Every call keeps the invariant. -/
theorem Call.kept {initial : Int} {es : List Event} {e : Event}
    {state state' : PhysPageAllocator × List Nat} (hcall : Call state e state')
    (h : Kept initial es state) : Kept initial (es ++ [e]) state' := by
  cases hcall with
  | @alloc s s' out page hrun =>
    rcases run_allocPhysicalPage h.pos_le with ⟨i, hi, hclear, hrun'⟩ | ⟨-, t, hrun'⟩
    · cases hrun.symm.trans hrun'
      refine ⟨hi, List.nodup_cons.mpr ⟨fun hmem => ?_, h.nodup⟩, fun page hpage => ?_, ?_⟩
      · have hused := h.used hmem
        unfold PhysPageAllocator.used at hused
        rw [mul_pageSize_div, hclear] at hused
        cases hused
      · rcases List.mem_cons.mp hpage with rfl | hpage
        · exact ⟨i, hi, rfl, by rw [take, get_set, if_pos rfl]⟩
        · obtain ⟨j, hj, rfl, hbit⟩ := h.page page hpage
          refine ⟨j, hj, rfl, ?_⟩
          rw [take, get_set]
          split
          case isTrue => rfl
          case isFalse => exact hbit
      · have hcount : s.allocatedPages = _ := h.count
        obtain ⟨hallocs, hreleases⟩ := counts_snoc_alloc es (i * pageSize)
        dsimp only
        omega
    · cases hrun.symm.trans hrun'
  | @release s s' out page released hmem hrun =>
    obtain ⟨-, -, rfl⟩ := run_releasePhysicalPage_eq_ok.mp hrun
    obtain ⟨i, hi, rfl, -⟩ := h.page page hmem
    rw [freed, mul_pageSize_div]
    refine ⟨Nat.le_of_lt hi, h.nodup.erase _, fun page hpage => ?_, ?_⟩
    · obtain ⟨hne, hpage⟩ := (h.nodup.mem_erase_iff).mp hpage
      obtain ⟨j, hj, rfl, hbit⟩ := h.page page hpage
      have hij : j ≠ i := fun heq => hne (heq ▸ rfl)
      exact ⟨j, hj, rfl, by rw [get_set, if_neg hij]; exact hbit⟩
    · have hcount : s.allocatedPages = _ := h.count
      obtain ⟨hallocs, hreleases⟩ := counts_snoc_release es (i * pageSize)
      dsimp only
      omega

/-- Page `page` has been handed out by a call that turned `s` into `s'`: its bit was clear and is
set now, it was not outstanding, and no other bit has changed. -/
structure HandedOut (s : PhysPageAllocator) (out : List Nat) (page : Nat) (s' : PhysPageAllocator) :
    Prop where
  on_page : ∃ i < pageCount, page = i * pageSize
  was_free : s.used page = false
  is_used : s'.used page = true
  not_outstanding : page ∉ out
  others : ∀ addr, addr / pageSize ≠ page / pageSize → s'.used addr = s.used addr

/-- What was in use before is in use. -/
theorem HandedOut.used {out : List Nat} (h : HandedOut s out page s') (addr : Nat)
    (haddr : s.used addr = true) : s'.used addr = true := by
  rw [h.others addr]
  · exact haddr
  · intro heq
    have hfree := h.was_free
    unfold PhysPageAllocator.used at haddr hfree
    rw [← heq, haddr] at hfree
    cases hfree

theorem handedOut_take (out : List Nat) (hi : i < pageCount) (hclear : s.memBitmap.get i = false)
    (hout : i * pageSize ∉ out) (count : Int) :
    HandedOut s out (i * pageSize) { s.take i with allocatedPages := count } := by
  refine ⟨⟨i, hi, rfl⟩, ?_, ?_, hout, fun addr hne => ?_⟩
  · unfold used
    rw [mul_pageSize_div]
    exact hclear
  · unfold used take
    rw [mul_pageSize_div, get_set, if_pos rfl]
  · rw [mul_pageSize_div] at hne
    unfold used take
    rw [get_set, if_neg hne]

/-- A search from behind the end starts over. -/
theorem findFreePage_of_lt (hpos : pageCount < s.lastPos) :
    findFreePage s = findFreePage { s with lastPos := 0 } := by
  rw [findFreePage, Nat.sub_eq_zero_of_le (Nat.le_of_lt hpos)]
  exact if_pos (by omega)

/-- `alloc_physical_page` wherever the last search has ended. -/
theorem allocPhysicalPage_cases (s : PhysPageAllocator) :
    (∃ page s', allocPhysicalPage.run s = .ok page s' ∧ HandedOut s [] page s') ∨
      ((∀ i < pageCount, s.memBitmap.get i = true) ∧
        ∃ t, allocPhysicalPage.run s = .error .panic t) := by
  rcases Nat.lt_or_ge pageCount s.lastPos with hlt | hle
  · have hrun : allocPhysicalPage.run s = allocPhysicalPage.run { s with lastPos := 0 } :=
      run_bind_congr (findFreePage_of_lt hlt) _
    rw [hrun]
    rcases run_allocPhysicalPage (s := { s with lastPos := 0 }) (Nat.zero_le _) with
      ⟨i, hi, hclear, hok⟩ | hfull
    · obtain ⟨hpage, hfree, hused, hout, hothers⟩ :=
        handedOut_take (s := s) [] hi hclear List.not_mem_nil (s.allocatedPages + 1)
      exact .inl ⟨_, _, hok, hpage, hfree, hused, hout, hothers⟩
    · exact .inr hfull
  · rcases run_allocPhysicalPage hle with ⟨i, hi, hclear, hok⟩ | hfull
    · exact .inl ⟨_, _, hok, handedOut_take [] hi hclear List.not_mem_nil _⟩
    · exact .inr hfull

/-- Page `page` has been taken back: its bit is clear, and no other bit has changed. -/
structure TakenBack (s : PhysPageAllocator) (page : Nat) (s' : PhysPageAllocator) : Prop where
  is_free : s'.used page = false
  others : ∀ addr, addr / pageSize ≠ page / pageSize → s'.used addr = s.used addr

/-- After every history no page is outstanding twice and the counter is exact. The next allocation
ends, with a free page or, if there is none, in a panic, and every outstanding page can be
released. -/
theorem each_page_handed_out_once {s₀ : PhysPageAllocator} (hpos : s₀.lastPos ≤ pageCount)
    {es : List Event} {out : List Nat} (hrun : Steps Call (s₀, []) es (s, out)) :
    out.Nodup ∧ s.allocatedPages = s₀.allocatedPages + allocations es - releases es ∧
      ((∃ page s', allocPhysicalPage.run s = .ok page s' ∧ HandedOut s out page s') ∨
        (∀ i < pageCount, s.memBitmap.get i = true) ∧
          ∃ t, allocPhysicalPage.run s = .error .panic t) ∧
      ∀ page ∈ out, ∃ s', (releasePhysicalPage page).run s = .ok true s' ∧ TakenBack s page s' := by
  have hkept : Kept s₀.allocatedPages es (s, out) := by
    refine hrun.history (Kept s₀.allocatedPages) (fun es t e t' h hcall => hcall.kept h) ?_
    refine ⟨hpos, List.nodup_nil, fun page hpage => absurd hpage List.not_mem_nil, ?_⟩
    show s₀.allocatedPages = s₀.allocatedPages + (0 : Nat) - (0 : Nat)
    omega
  refine ⟨hkept.nodup, hkept.count, ?_, fun page hpage => ?_⟩
  · rcases run_allocPhysicalPage hkept.pos_le with ⟨i, hi, hclear, halloc⟩ | hfull
    · refine .inl ⟨_, _, halloc, handedOut_take out hi hclear (fun hout => ?_) _⟩
      have hused := hkept.used hout
      unfold used at hused
      rw [mul_pageSize_div, hclear] at hused
      cases hused
    · exact .inr hfull
  · refine ⟨_, run_releasePhysicalPage_eq_ok.mpr ⟨hkept.used hpage, rfl, rfl⟩, ?_,
      fun addr hne => ?_⟩
    · unfold used freed
      rw [get_set, if_pos rfl]
    · unfold used freed
      rw [get_set, if_neg hne]

/-- A page allocated on a machine with all memory free can be released again. -/
theorem handed_out_once_sample :
    ∃ page t s', Steps Call (⟨⟨fun _ => 0⟩, 0, 0⟩, []) [.alloc page] (t, [page]) ∧
      t.allocatedPages = 1 ∧ (releasePhysicalPage page).run t = .ok true s' := by
  have hclear : ∀ i, (Bitarray.mk fun _ => 0 : Bitarray 32).get i = false := by
    intro i
    rw [Bitarray.get_eq_getLsbD (by decide)]
    exact BitVec.getLsbD_zero
  rcases run_allocPhysicalPage (s := ⟨⟨fun _ => 0⟩, 0, 0⟩) (by decide) with
    ⟨i, hi, -, hrun⟩ | ⟨hfull, -⟩
  · have hcall : Call (⟨⟨fun _ => 0⟩, 0, 0⟩, []) _ _ := Call.alloc hrun
    have hsteps := Steps.snoc (Steps.refl _) hcall
    obtain ⟨-, hcount, -, hrelease⟩ := each_page_handed_out_once (by decide) hsteps
    obtain ⟨s', hrun', -⟩ := hrelease _ List.mem_cons_self
    exact ⟨_, _, s', hsteps, hcount, hrun'⟩
  · have := hfull 0 (by decide)
    cases this

end PhysPageAllocator

end LudOS.Mem
