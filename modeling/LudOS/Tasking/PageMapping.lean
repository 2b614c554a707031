import Std.Data.TreeMap.Lemmas
import LudOS.Mem.PhysAllocator

/-!
# Pages of an address space

What the functions of `tasking/process_pagemapping.cpp` work on: the entries of a table of mappings,
the user callbacks, and the memory that pages are taken from. Physical memory is a flat array of
bytes next to the page allocator; a temporary mapping by `Memory::mmap`, as every copy uses one, is
a direct access to it.

`findPages` is the search for free addresses in `Process::allocate_virtual_page`. `Grows` is the
frame of everything that takes new pages and writes to them: what was in use keeps its content.
-/

namespace LudOS.Tasking.PageMapping

open Std (TreeMap)
open Lib Mem

/-! ## State -/

/-- `MemoryMapping` of `process_data.hpp`. -/
structure MemoryMapping where
  paddr : Nat
  flags : Nat
  owned : Bool
  deriving DecidableEq, Repr

/-- `UserCallbacks::CallbackEntry`; the function object is known by a number. -/
structure CallbackEntry where
  argSizes : List Nat
  callback : Nat
  deriving DecidableEq, Repr

/-- `UserCallbacks`, the pages without the handles of their fault handlers. -/
structure UserCallbacks where
  freeEntries : List Nat := []
  list : TreeMap Nat CallbackEntry := ∅
  pages : List Nat := []

/-- Physical memory and the allocator of its pages. -/
structure Machine where
  allocator : PhysPageAllocator
  memory : Bytes

/-- A function that works on physical memory. -/
abbrev Action := EStateM Fault Machine

/-- `USER_VIRTUAL_BASE`. -/
def userVirtualBase : Nat := 0x08000000

/-- `KERNEL_VIRTUAL_BASE`. -/
def kernelVirtualBase : Nat := 0xC0000000

/-- `Process::signal_trampoline_page`. -/
def signalTrampolinePage : Nat := kernelVirtualBase - 1 * pageSize

/-- `Process::user_stack_top`. -/
def userStackTop : Nat := kernelVirtualBase - 1 * pageSize

/-- `Process::tls_pages`. -/
def tlsPages : Nat := 1

/-- `CLONE_VM`. -/
def cloneVm : Nat := 0x100

/-- `fill_pattern` of `physallocator.cpp`. -/
def fillPattern : Nat := 0xDEADBEEF

/-- `Memory::Read|Memory::Write|Memory::User`. -/
def userFlags : Nat := 1 + 2 + 4

/-- `Memory::Read|Memory::Write|Memory::Executable|Memory::User`. -/
def codeFlags : Nat := 1 + 2 + 32 + 4

/-- `Memory::Read|Memory::User|Memory::Executable`. -/
def trampolineFlags : Nat := 1 + 4 + 32

/-- `Memory::Sentinel|Memory::User`. -/
def sentinelFlags : Nat := 64 + 4

/-- The page at a physical address is marked as used. -/
def Machine.used (m : Machine) (addr : Nat) : Bool := m.allocator.used addr

/-! ## Functions -/

/-- Write to physical memory. -/
def writePhysical (addr len : Nat) (src : Bytes) : Action Unit :=
  modify fun m => { m with memory := m.memory.splice addr len src }

/-- `PhysPageAllocator::clear_page`. -/
def clearPage (memory : Bytes) (pAddr : Nat) : Bytes :=
  memory.splice pAddr pageSize fun i => Bytes.ofNat fillPattern (i % 4)

/-- `Memory::allocate_physical_page`. -/
def allocatePhysicalPage : Action Nat := fun m =>
  match PhysPageAllocator.allocPhysicalPage.run m.allocator with
  | .ok page allocator => .ok page { allocator, memory := clearPage m.memory page }
  | .error fault allocator => .error fault { m with allocator }

/-- The number of pages that `size` bytes take. -/
def pagesOf (size : Nat) : Nat := size / pageSize + if size % pageSize ≠ 0 then 1 else 0

/-- The content of a page of the code. The bytes of the page that lie behind the code are cleared;
the conversion to `int` makes their number negative on a page wholly behind it. -/
def fillCodePage (code : List UInt8) (i physAddr : Nat) : Action Unit :=
  let copySize : Int := min (((code.length : Int) - wmul i pageSize).bmod (2 ^ 32)) pageSize
  if 0 < copySize then do
    writePhysical physAddr copySize.toNat fun k => code.getD (i * pageSize + k) 0
    writePhysical (physAddr + copySize.toNat) (pageSize - copySize.toNat) fun _ => 0
  else writePhysical physAddr pageSize fun _ => 0

/-- The loop of `allocate_virtual_page`: `left` pages from number `i` on are still to be looked at,
and the `counter` pages before it, which start at `addr`, are not mapped. -/
def searchPages (mapped : Nat → Bool) (count : Nat) : (i left addr counter : Nat) → Option Nat
  | _, 0, _, _ => none
  | i, left + 1, addr, counter =>
    let addr' := if mapped (i * 2 ^ 12) = false ∧ counter = 0 then i * 2 ^ 12 else addr
    let counter' := if mapped (i * 2 ^ 12) = false then counter + 1 else 0
    if counter' = count then some addr' else searchPages mapped count (i + 1) left addr' counter'

/-- The address that `allocate_virtual_page` returns, if there is one. -/
def findPages (mapped : Nat → Bool) (count : Nat) : Option Nat :=
  searchPages mapped count (userVirtualBase / 2 ^ 12)
    (kernelVirtualBase / 2 ^ 12 - userVirtualBase / 2 ^ 12) 0 0

/-! ## Physical pages -/

/-- The address of a physical page. -/
def IsPage (addr : Nat) : Prop := ∃ i < pageCount, addr = i * pageSize

variable {m' m : Machine} {page : Nat}

/-- The bytes of a page are used or free together. -/
theorem used_within {page addr : Nat} (hpage : IsPage page) (hge : page ≤ addr)
    (hlt : addr < page + pageSize) (m : Machine) : m.used addr = m.used page := by
  obtain ⟨i, -, rfl⟩ := hpage
  have hdiv : addr / pageSize = i * pageSize / pageSize := by
    unfold pageSize at hge hlt ⊢
    omega
  unfold Machine.used PhysPageAllocator.used
  rw [hdiv]

/-- The machine has given out `page`: the page was free and is used now, and outside of it nothing
has changed. -/
structure Takes (m : Machine) (page : Nat) (m' : Machine) : Prop where
  handedOut : PhysPageAllocator.HandedOut m.allocator [] page m'.allocator
  memory : ∀ addr, addr / pageSize ≠ page / pageSize → m'.memory addr = m.memory addr

/-- What was in use before is in use with the same content. -/
def Grows (m m' : Machine) : Prop :=
  ∀ addr, m.used addr = true → m'.used addr = true ∧ m'.memory addr = m.memory addr

theorem Grows.refl (m : Machine) : Grows m m := fun _ h => ⟨h, rfl⟩

theorem Grows.trans {m'' : Machine} (h : Grows m m') (h' : Grows m' m'') : Grows m m'' := by
  intro addr hused
  obtain ⟨hused', hbyte⟩ := h addr hused
  obtain ⟨hused'', hbyte'⟩ := h' addr hused'
  exact ⟨hused'', hbyte'.trans hbyte⟩

/-- A page that is free afterwards was free before. -/
theorem Grows.free {m m' : Machine} (h : Grows m m') {addr : Nat} (hfree : m'.used addr = false) :
    m.used addr = false := by
  cases hused : m.used addr with
  | false => rfl
  | true =>
    rw [(h addr hused).1] at hfree
    cases hfree

theorem Takes.grows (h : Takes m page m') : Grows m m' := by
  intro addr hused
  refine ⟨h.handedOut.used addr hused, h.memory addr fun heq => ?_⟩
  have hfree := h.handedOut.was_free
  unfold Machine.used PhysPageAllocator.used at hused
  unfold PhysPageAllocator.used at hfree
  rw [heq, hfree] at hused
  cases hused

/-- A write inside a page that was free keeps everything that was in use. -/
theorem Grows.write (h : Grows m m') {len : Nat} (hpage : IsPage page)
    (hfree : m.used page = false) (hlen : len ≤ pageSize) (src : Bytes) :
    Grows m { m' with memory := m'.memory.splice page len src } := by
  intro addr hused
  obtain ⟨hused', hbyte⟩ := h addr hused
  refine ⟨hused', (Bytes.splice_outside ?_).trans hbyte⟩
  by_contra hin
  have hsame := @used_within page addr hpage (by omega) (by omega) m
  rw [hused, hfree] at hsame
  cases hsame

theorem clearPage_other {i addr : Nat} (hne : addr / pageSize ≠ i) (memory : Bytes) :
    clearPage memory (i * pageSize) addr = memory addr := by
  refine Bytes.splice_outside ?_
  unfold pageSize at hne ⊢
  omega

/-- `allocate_physical_page` with a free page left, and without. -/
theorem run_allocatePhysicalPage (m : Machine) :
    (∃ page m', Takes m page m' ∧ allocatePhysicalPage.run m = .ok page m') ∨
    ((∀ i < pageCount, m.used (i * pageSize) = true) ∧
      ∃ t, allocatePhysicalPage.run m = .error .panic t) := by
  rcases PhysPageAllocator.allocPhysicalPage_cases m.allocator with
    ⟨page, allocator, hok, hout⟩ | ⟨hfull, t, herror⟩
  · refine .inl ⟨page, ⟨allocator, clearPage m.memory page⟩, ⟨hout, fun addr hne => ?_⟩, ?_⟩
    · obtain ⟨i, -, rfl⟩ := hout.on_page
      rw [PhysPageAllocator.mul_pageSize_div] at hne
      exact clearPage_other hne m.memory
    · show allocatePhysicalPage m = _
      simp only [allocatePhysicalPage, hok]
  · refine .inr ⟨fun i hi => ?_, { m with allocator := t }, ?_⟩
    · unfold Machine.used PhysPageAllocator.used
      rw [PhysPageAllocator.mul_pageSize_div]
      exact hfull i hi
    · show allocatePhysicalPage m = _
      simp only [allocatePhysicalPage, herror]

/-- Only the content of memory changes. -/
theorem run_fillCodePage (code : List UInt8) (i physAddr : Nat) (m : Machine) : ∃ memory,
    (fillCodePage code i physAddr).run m = .ok () { m with memory } := by
  unfold fillCodePage
  dsimp only
  split
  · exact ⟨_, rfl⟩
  · exact ⟨_, rfl⟩

/-- A machine with all of its memory free. -/
def blankMachine : Machine := ⟨⟨⟨fun _ => 0⟩, 0, 0⟩, fun _ => 0⟩

/-! ## Free virtual pages -/

variable {mapped : Nat → Bool} {count i left counter addr : Nat}

/-- The search returns the first of `count` pages in a row that are not mapped. -/
theorem searchPages_unmapped {found : Nat}
    (hrow : ∀ k < counter, mapped (addr + k * 2 ^ 12) = false)
    (haddr : counter ≠ 0 → addr + counter * 2 ^ 12 = i * 2 ^ 12)
    (h : searchPages mapped count i left addr counter = some found) :
    ∀ k < count, mapped (found + k * 2 ^ 12) = false := by
  induction left generalizing i addr counter with
  | zero => cases h
  | succ left ih =>
    unfold searchPages at h
    cases hfree : mapped (i * 2 ^ 12) with
    | true =>
      simp only [hfree, Bool.true_eq_false, false_and, if_false] at h
      split at h
      case isTrue hcount =>
        intro k hk
        omega
      case isFalse => exact ih (fun k hk => by omega) (fun hne => absurd rfl hne) h
    | false =>
      -- Either the row goes on or it starts here.
      have hstart : (if counter = 0 then i * 2 ^ 12 else addr) + counter * 2 ^ 12
          = i * 2 ^ 12 := by
        split
        case isTrue hzero => rw [hzero, Nat.zero_mul, Nat.add_zero]
        case isFalse hzero => exact haddr hzero
      have hrow' : ∀ k < counter + 1,
          mapped ((if counter = 0 then i * 2 ^ 12 else addr) + k * 2 ^ 12) = false := by
        intro k hk
        rcases Nat.lt_succ_iff_lt_or_eq.mp hk with hlt | rfl
        · rw [if_neg (by omega)]
          exact hrow k hlt
        · rwa [hstart]
      simp only [hfree, true_and, if_true] at h
      split at h
      case isTrue hcount =>
        cases h
        rwa [hcount] at hrow'
      case isFalse =>
        refine ih hrow' (fun _ => ?_) h
        rw [Nat.add_mul, Nat.add_mul, ← Nat.add_assoc, hstart]

theorem findPages_unmapped {found : Nat} (h : findPages mapped count = some found) :
    ∀ k < count, mapped (found + k * pageSize) = false :=
  searchPages_unmapped (fun k hk => by omega) (fun hne => absurd rfl hne) h

/-- The search at a page that is free. -/
theorem searchPages_free (h : mapped (i * 2 ^ 12) = false)
    (count left addr counter : Nat) : ∃ addr', searchPages mapped count i (left + 1) addr counter =
      if counter + 1 = count then some addr'
      else searchPages mapped count (i + 1) left addr' (counter + 1) := by
  refine ⟨if counter = 0 then i * 2 ^ 12 else addr, ?_⟩
  rw [searchPages]
  simp only [h, true_and, if_true]

/-- The search has seen `d` pages of a row of free ones, and the rest of the row follows. -/
theorem searchPages_isSome_row {d : Nat}
    (hd : d ≤ counter) (hcounter : counter < count) (hleft : count - d ≤ left)
    (hrow : ∀ k < count - d, mapped ((i + k) * 2 ^ 12) = false) :
    (searchPages mapped count i left addr counter).isSome = true := by
  induction left generalizing i addr counter d with
  | zero => omega
  | succ left ih =>
    obtain ⟨addr', hstep⟩ := searchPages_free (hrow 0 (by omega)) count left addr counter
    rw [show searchPages mapped count i (left + 1) addr counter = _ from hstep]
    split
    · rfl
    · refine ih (Nat.succ_le_succ hd) (by omega) (by omega) fun k hk => ?_
      rw [show i + 0 + 1 + k = i + (k + 1) by omega]
      exact hrow (k + 1) (by omega)

/-- The search finds a row of free pages when there is one. -/
theorem searchPages_isSome {j : Nat}
    (hcounter : counter < count) (hij : i ≤ j) (hj : j + count ≤ i + left)
    (hrow : ∀ k < count, mapped ((j + k) * 2 ^ 12) = false) :
    (searchPages mapped count i left addr counter).isSome = true := by
  induction left generalizing i addr counter with
  | zero => omega
  | succ left ih =>
    rcases Nat.eq_or_lt_of_le hij with rfl | hlt
    · exact searchPages_isSome_row (Nat.zero_le _) hcounter (by omega) hrow
    · cases hfree : mapped (i * 2 ^ 12) with
      | false =>
        obtain ⟨addr', hstep⟩ := searchPages_free hfree count left addr counter
        rw [hstep]
        split
        · rfl
        · exact ih (by omega) hlt (by omega)
      | true =>
        unfold searchPages
        simp only [hfree, Bool.true_eq_false, false_and, if_false]
        rw [if_neg (by omega)]
        exact ih (by omega) hlt (by omega)

theorem findPages_isSome {j : Nat} (hcount : 0 < count)
    (hge : userVirtualBase / 2 ^ 12 ≤ j) (hle : j + count ≤ kernelVirtualBase / 2 ^ 12)
    (hrow : ∀ k < count, mapped ((j + k) * 2 ^ 12) = false) :
    (findPages mapped count).isSome = true := by
  refine searchPages_isSome hcount hge ?_ hrow
  omega

end LudOS.Tasking.PageMapping
