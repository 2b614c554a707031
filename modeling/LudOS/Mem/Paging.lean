import LudOS.Tasking.PageMapping

/-!
# Page tables

The model of `i686/mem/paging.cpp`. The kernel sees physical memory from `KERNEL_VIRTUAL_BASE` on,
and `page_entry` finds the table of an address there through the entry of the directory. Entries of
the directory and of a table have the same layout, and the last entry of the directory makes the
directory a table itself, so that both are words of one memory here. Flushing the translation cache
is left out.

`Edited` are the page tables of a history: those that `create_paging_info` builds, and after any
calls of `map_page` and `release_virtual_page` that returned. `Intact` is what holds as long as no
call has touched the directory: the entries of user pages are words of their own.
-/

namespace LudOS.Mem

open Lib
open Tasking.PageMapping (kernelVirtualBase)

/-! ## Tables -/

/-- `PTEntry`, and `PDEntry` with `pt_addr` for `phys_addr`. -/
structure PTEntry where
  present : Bool := false
  write : Bool := false
  user : Bool := false
  wt : Bool := false
  cd : Bool := false
  osClaimed : Bool := false
  physAddr : Nat := 0
  deriving DecidableEq, Repr

/-- Where the linker has put the kernel: the frame in which `kernel_info` starts, and
`kernel_physical_end`. The kernel leaves the last page table alone. -/
structure KernelImage where
  info : Nat
  physicalEnd : Nat
  inside : (info + 1 + 1024) * pageSize ≤ physicalEnd
  small : physicalEnd + 2 * pageSize ≤ 2 ^ 30 - 2 ^ 22

/-- The memory that page tables lie in. Word `k` is at `KERNEL_VIRTUAL_BASE + 4 * k`, and the
directory starts with frame `info`, the page tables behind it. -/
structure PageTables where
  info : Nat
  word : Nat → PTEntry

namespace PageTables

/-- `page_directory[i]`. -/
def pageDirectory (t : PageTables) (i : Nat) : PTEntry := t.word (t.info * 1024 + i)

/-- `Paging::page_entry`: the number of the word that the pointer is to. -/
def pageEntry (t : PageTables) (addr : Nat) : Nat :=
  let pdindex := addr / 2 ^ 22
  let ptindex := addr / 2 ^ 12 % 2 ^ 10
  (t.pageDirectory pdindex).physAddr * 1024 + ptindex

/-- The entry of an address. -/
def entry (t : PageTables) (addr : Nat) : PTEntry := t.word (t.pageEntry addr)

/-- Store a word. -/
def put (t : PageTables) (k : Nat) (e : PTEntry) : PageTables :=
  { t with word := fun j => if j = k then e else t.word j }

@[simp] theorem info_put (t : PageTables) (k : Nat) (e : PTEntry) : (t.put k e).info = t.info := rfl

theorem word_put (t : PageTables) (k j : Nat) (e : PTEntry) :
    (t.put k e).word j = if j = k then e else t.word j := rfl

end PageTables

/-- `flags & flag`, for one of `Memory::MmapFlags`. -/
def hasFlag (flags flag : Nat) : Bool := flags &&& flag ≠ 0

/-- The entry that `map_page` writes. -/
def mappedEntry (pAddr flags : Nat) : PTEntry where
  physAddr := pAddr / 2 ^ 12 % 2 ^ 20
  write := hasFlag flags (2 ^ 1)
  cd := hasFlag flags (2 ^ 3)
  wt := hasFlag flags (2 ^ 4)
  user := hasFlag flags (2 ^ 2)
  present := !hasFlag flags (2 ^ 6)
  osClaimed := true

/-- `Paging::map_page`. -/
def mapPage (pAddr vAddr flags : Nat) : EStateM Fault PageTables Unit := do
  let t ← get
  check .assertion ((t.entry vAddr).present = false)
  set (t.put (t.pageEntry vAddr) (mappedEntry pAddr flags))

/-- `Paging::ReleaseFlags`. -/
inductive ReleaseFlags where
  | freePage
  | keepClaimed
  deriving DecidableEq, Repr

/-- One iteration of `release_virtual_page`, `entry` being the word number of `entry[0]`. -/
def releaseEntry (flags : ReleaseFlags) (entry i : Nat) : EStateM Fault PageTables Unit := do
  let t ← get
  check .assertion ((t.word (entry + i)).osClaimed = true)
  check .assertion (flags = .freePage)
  set (t.put (entry + i) { t.word (entry + i) with present := false, osClaimed := false })

/-- `Paging::release_virtual_page`. -/
def releaseVirtualPage (vAddr : Nat) (number : Nat := 1) (flags : ReleaseFlags := .freePage) :
    EStateM Fault PageTables Bool := do
  let t ← get
  loop (releaseEntry flags (t.pageEntry vAddr)) 0 number
  pure true

/-- `Paging::check_user_ptr`. -/
def checkUserPtr (t : PageTables) (vAddr size : Nat) : Bool :=
  let pageNum := size / pageSize + if size % pageSize ≠ 0 then 1 else 0
  let entry := t.pageEntry vAddr
  (List.range pageNum).all fun i => (t.word (entry + i)).present && (t.word (entry + i)).user

/-- `Paging::map_kernel`: the entries from that of `KERNEL_VIRTUAL_BASE` on, one for each page up to
the one behind `kernel_physical_end`. -/
def mapKernel (image : KernelImage) (t : PageTables) : PageTables :=
  let entry := t.pageEntry kernelVirtualBase
  { t with word := fun k =>
      if entry ≤ k ∧ (k - entry) * pageSize ≤ image.physicalEnd + pageSize then
        { t.word k with
          physAddr := k - entry, present := true, osClaimed := true, write := true, user := true }
      else t.word k }

/-- The loop of `create_paging_info`: every table is cleared, and the directory refers to it. -/
def clearTables (image : KernelImage) (memory : Nat → PTEntry) : PageTables where
  info := image.info
  word k :=
    if k < image.info * 1024 ∨ (image.info + 1 + 1024) * 1024 ≤ k then memory k
    else if k < (image.info + 1) * 1024 then
      { physAddr := image.info + 1 + (k - image.info * 1024)
        present := true, osClaimed := true, write := true, user := true }
    else {}

/-- `Paging::create_paging_info`. -/
def createPagingInfo (image : KernelImage) (memory : Nat → PTEntry) : PageTables :=
  let t := mapKernel image (clearTables image memory)
  let back := image.info * 1024 + 1023
  -- The last entry of the directory is mapped to the directory itself.
  t.put back { t.word back with
    physAddr := image.info, write := true, present := true, osClaimed := true, user := false }

/-! ## Histories -/

/-- The calls that change page tables. -/
inductive PagingCall where
  | mapPage (pAddr vAddr flags : UInt32)
  | releaseVirtualPage (vAddr : UInt32) (number : Nat) (flags : ReleaseFlags)

/-- One call that returns. -/
inductive PagingStep : PageTables → PagingCall → PageTables → Prop where
  | mapPage {t t' : PageTables} {pAddr vAddr flags : UInt32} :
      (mapPage pAddr.toNat vAddr.toNat flags.toNat).run t = .ok () t' →
      PagingStep t (.mapPage pAddr vAddr flags) t'
  | releaseVirtualPage {t t' : PageTables} {vAddr : UInt32} {number : Nat} {flags : ReleaseFlags}
      {released : Bool} : (releaseVirtualPage vAddr.toNat number flags).run t = .ok released t' →
      PagingStep t (.releaseVirtualPage vAddr number flags) t'

/-- The page tables of a history. -/
def Edited (image : KernelImage) (t : PageTables) : Prop :=
  ∃ memory calls, Steps PagingStep (createPagingInfo image memory) calls t

section

variable {image : KernelImage} {t t' : PageTables} {pAddr vAddr flags : Nat}

theorem edited_createPagingInfo (image : KernelImage) (memory : Nat → PTEntry) :
    Edited image (createPagingInfo image memory) := ⟨memory, [], .refl _⟩

theorem Edited.step (h : Edited image t) {call : PagingCall} (hstep : PagingStep t call t') :
    Edited image t' := by
  obtain ⟨memory, calls, hrun⟩ := h
  exact ⟨memory, _, hrun.snoc hstep⟩

/-- `map_page` of an address whose entry is not present. -/
theorem run_mapPage_eq_ok {u : Unit} : (mapPage pAddr vAddr flags).run t = .ok u t' ↔
    (t.entry vAddr).present = false ∧ t' = t.put (t.pageEntry vAddr) (mappedEntry pAddr flags) := by
  unfold mapPage
  rw [run_get_bind, run_check_bind_eq_ok, run_set_eq_ok]

/-- `map_page` of an address whose entry is present. -/
theorem run_mapPage_present (hpresent : (t.entry vAddr).present = true) :
    (mapPage pAddr vAddr flags).run t = .error .assertion t := by
  unfold mapPage
  rw [run_get_bind, run_bind_error (run_check_neg (by rw [hpresent]; decide) _)]

theorem Edited.mapPage (h : Edited image t) (pAddr vAddr flags : UInt32)
    (habsent : (t.entry vAddr.toNat).present = false) :
    Edited image (t.put (t.pageEntry vAddr.toNat) (mappedEntry pAddr.toNat flags.toNat)) :=
  h.step (.mapPage (run_mapPage_eq_ok.mpr ⟨habsent, rfl⟩))

/-- The entry of one page is given up. -/
def PageTables.release (t : PageTables) (vAddr : Nat) : PageTables :=
  t.put (t.pageEntry vAddr) { t.entry vAddr with present := false, osClaimed := false }

/-- The body of the loop returns for an entry that is claimed. -/
theorem run_releaseEntry_eq_ok {k i : Nat} {u : Unit} :
    (releaseEntry .freePage k i).run t = .ok u t' ↔
      (t.word (k + i)).osClaimed = true ∧
        t' = t.put (k + i) { t.word (k + i) with present := false, osClaimed := false } := by
  unfold releaseEntry
  rw [run_get_bind, run_check_bind_eq_ok]
  exact and_congr_right fun _ => run_set_eq_ok

/-- `release_virtual_page` of one page whose entry is claimed. -/
theorem run_releaseVirtualPage_eq_ok {released : Bool} :
    (releaseVirtualPage vAddr).run t = .ok released t' ↔
      (t.entry vAddr).osClaimed = true ∧ released = true ∧ t' = t.release vAddr := by
  unfold releaseVirtualPage
  rw [run_get_bind, run_bind_eq_ok]
  constructor
  · rintro ⟨_, s, hloop, hpure⟩
    cases hpure
    obtain ⟨_, r, hbody, hnil⟩ := run_bind_eq_ok.mp hloop
    cases hnil
    rw [run_releaseEntry_eq_ok, Nat.add_zero] at hbody
    exact ⟨hbody.1, rfl, hbody.2⟩
  · rintro ⟨hclaimed, rfl, rfl⟩
    refine ⟨(), t.release vAddr, run_loop_one ?_, rfl⟩
    rw [run_releaseEntry_eq_ok, Nat.add_zero]
    exact ⟨hclaimed, rfl⟩

theorem Edited.release (h : Edited image t) (vAddr : UInt32)
    (hclaimed : (t.entry vAddr.toNat).osClaimed = true) : Edited image (t.release vAddr.toNat) :=
  h.step (.releaseVirtualPage (run_releaseVirtualPage_eq_ok.mpr ⟨hclaimed, rfl, rfl⟩))

/-! ## The entries of user pages -/

/-- The directory refers to the page tables as `create_paging_info` has set it up. -/
structure Intact (image : KernelImage) (t : PageTables) : Prop where
  info : t.info = image.info
  directory : ∀ i < 1023, (t.pageDirectory i).physAddr = image.info + 1 + i

/-- The number of the first page of the kernel. -/
theorem kernelVirtualBase_div : kernelVirtualBase / pageSize = 768 * 1024 := by decide

/-- The word of a virtual page. -/
def pageWord (image : KernelImage) (page : Nat) : Nat := (image.info + 1) * 1024 + page

/-- As long as the directory is intact, every address below the last table has a word of its own. -/
theorem Intact.pageEntry (h : Intact image t) (haddr : vAddr < 1023 * 2 ^ 22) :
    t.pageEntry vAddr = pageWord image (vAddr / pageSize) := by
  unfold PageTables.pageEntry pageWord
  dsimp only
  rw [h.directory _ (by omega)]
  unfold pageSize
  omega

theorem Intact.le_pageEntry (h : Intact image t) (haddr : vAddr < 1023 * 2 ^ 22) :
    (image.info + 1) * 1024 ≤ t.pageEntry vAddr := by
  rw [h.pageEntry haddr]
  exact Nat.le_add_right _ _

/-- A word behind the directory can be replaced. -/
theorem Intact.put (h : Intact image t) {k : Nat} (hk : (image.info + 1) * 1024 ≤ k) (e : PTEntry) :
    Intact image (t.put k e) := by
  refine ⟨h.info, fun i hi => ?_⟩
  rw [← h.directory i hi]
  unfold PageTables.pageDirectory
  rw [PageTables.info_put, PageTables.word_put, if_neg (by rw [h.info]; omega)]

theorem word_clearTables_directory (memory : Nat → PTEntry) {i : Nat} (hi : i < 1024) :
    (clearTables image memory).word (image.info * 1024 + i) =
      { physAddr := image.info + 1 + i
        present := true, osClaimed := true, write := true, user := true } := by
  unfold clearTables
  dsimp only
  rw [if_neg (by omega), if_pos (by omega), Nat.add_sub_cancel_left]

theorem word_clearTables_page (memory : Nat → PTEntry) {page : Nat} (hpage : page < 1024 * 1024) :
    (clearTables image memory).word (pageWord image page) = {} := by
  unfold clearTables pageWord
  dsimp only
  rw [if_neg (by omega), if_neg (by omega)]

/-- The kernel starts with the first page of table 768. -/
theorem pageEntry_clearTables (memory : Nat → PTEntry) :
    (clearTables image memory).pageEntry kernelVirtualBase =
      pageWord image (kernelVirtualBase / pageSize) := by
  have hdir : (clearTables image memory).pageDirectory (kernelVirtualBase / 2 ^ 22) = _ :=
    word_clearTables_directory memory (by decide)
  have hindex : kernelVirtualBase / 2 ^ 12 % 2 ^ 10 = 0 := by decide
  unfold PageTables.pageEntry pageWord
  dsimp only
  rw [hdir, hindex, kernelVirtualBase_div]
  show (image.info + 1 + 768) * 1024 + 0 = _
  omega

section

variable (image : KernelImage) (memory : Nat → PTEntry) {k i : Nat}

/-- The entries that the kernel does not take. -/
theorem word_mapKernel
    (hk : k < pageWord image (kernelVirtualBase / pageSize) ∨ pageWord image (1023 * 1024) ≤ k) :
    (mapKernel image (clearTables image memory)).word k = (clearTables image memory).word k := by
  unfold mapKernel
  dsimp only
  rw [pageEntry_clearTables, if_neg]
  have hsmall := image.small
  unfold pageWord kernelVirtualBase pageSize at *
  omega

theorem word_createPagingInfo
    (hk : k ≠ image.info * 1024 + 1023) :
    (createPagingInfo image memory).word k =
      (mapKernel image (clearTables image memory)).word k := by
  unfold createPagingInfo
  rw [PageTables.word_put, if_neg hk]

/-- The entries of the directory but the last. -/
theorem directory_createPagingInfo (hi : i < 1023) :
    (createPagingInfo image memory).pageDirectory i =
      { physAddr := image.info + 1 + i
        present := true, osClaimed := true, write := true, user := true } := by
  have hword := word_createPagingInfo (k := image.info * 1024 + i) image memory (by omega)
  rw [word_mapKernel image memory (.inl (by rw [kernelVirtualBase_div]; unfold pageWord; omega)),
    word_clearTables_directory memory (by omega)] at hword
  exact hword

/-- The last entry of the directory. -/
theorem back_createPagingInfo :
    (createPagingInfo image memory).pageDirectory 1023 =
      { physAddr := image.info
        present := true, osClaimed := true, write := true, user := false } := by
  unfold createPagingInfo PageTables.pageDirectory
  rw [PageTables.info_put, PageTables.word_put]
  rw [if_pos (show (mapKernel image (clearTables image memory)).info * 1024 + 1023 =
    image.info * 1024 + 1023 from rfl),
    word_mapKernel image memory (.inl (by rw [kernelVirtualBase_div]; unfold pageWord; omega)),
    word_clearTables_directory memory (by omega)]

theorem intact_createPagingInfo :
    Intact image (createPagingInfo image memory) := by
  refine ⟨rfl, fun i hi => ?_⟩
  rw [directory_createPagingInfo image memory hi]

/-- At first no page below the kernel is mapped. -/
theorem entry_createPagingInfo (haddr : vAddr < kernelVirtualBase) :
    (createPagingInfo image memory).entry vAddr = {} := by
  have hpage : vAddr / pageSize < 768 * 1024 := by
    unfold kernelVirtualBase at haddr
    unfold pageSize
    omega
  unfold PageTables.entry
  rw [(intact_createPagingInfo image memory).pageEntry
    (by unfold kernelVirtualBase at haddr; omega),
    word_createPagingInfo image memory (by unfold pageWord pageSize; omega),
    word_mapKernel image memory (.inl (by rw [kernelVirtualBase_div]; unfold pageWord; omega)),
    word_clearTables_page memory (by omega)]

/-- At first an entry is empty or one of the kernel's, which is the user's as well. -/
theorem entry_createPagingInfo_cases (haddr : vAddr < 1023 * 2 ^ 22) :
    (createPagingInfo image memory).entry vAddr = {} ∨
      ∃ frame, frame * pageSize ≤ image.physicalEnd + pageSize ∧
        (createPagingInfo image memory).entry vAddr =
          { physAddr := frame, present := true, osClaimed := true, write := true,
            user := true } := by
  unfold PageTables.entry
  rw [(intact_createPagingInfo image memory).pageEntry haddr,
    word_createPagingInfo image memory (by unfold pageWord pageSize; omega)]
  unfold mapKernel
  dsimp only
  rw [word_clearTables_page memory (by unfold pageSize; omega)]
  split
  case isTrue hkernel => exact .inr ⟨_, hkernel.2, rfl⟩
  case isFalse => exact .inl rfl

/-- What is present of the tables at first is the user's as well. -/
theorem user_createPagingInfo (haddr : vAddr < 1023 * 2 ^ 22)
    (hpresent : ((createPagingInfo image memory).entry vAddr).present = true) :
    ((createPagingInfo image memory).entry vAddr).user = true := by
  rcases entry_createPagingInfo_cases image memory haddr with hempty | ⟨frame, -, hkernel⟩
  · rw [hempty] at hpresent
    cases hpresent
  · rw [hkernel]

/-- The entries of the last table are those of the directory. -/
theorem entry_createPagingInfo_last
    (hge : 1023 * 2 ^ 22 ≤ vAddr) (hlt : vAddr < 2 ^ 32) :
    (createPagingInfo image memory).entry vAddr =
      (createPagingInfo image memory).pageDirectory (vAddr / 2 ^ 12 % 2 ^ 10) := by
  have hback := back_createPagingInfo image memory
  unfold PageTables.entry PageTables.pageEntry
  dsimp only
  rw [show vAddr / 2 ^ 22 = 1023 by omega, hback]
  rfl

/-! ## User pointers -/

end

/-- A user page: present and not reserved to the kernel. -/
def PageTables.isUser (t : PageTables) (addr : Nat) : Bool :=
  (t.entry addr).present && (t.entry addr).user

/-- All addresses of a page have one entry. -/
theorem PageTables.pageEntry_congr (t : PageTables) {addr addr' : Nat}
    (h : addr / pageSize = addr' / pageSize) : t.pageEntry addr = t.pageEntry addr' := by
  have htable : addr / 2 ^ 22 = addr' / 2 ^ 22 := by
    unfold pageSize at h
    omega
  have hindex : addr / 2 ^ 12 = addr' / 2 ^ 12 := h
  unfold PageTables.pageEntry
  rw [htable, hindex]

theorem PageTables.isUser_congr (t : PageTables) {addr addr' : Nat}
    (h : addr / pageSize = addr' / pageSize) : t.isUser addr = t.isUser addr' := by
  unfold PageTables.isUser PageTables.entry
  rw [t.pageEntry_congr h]

namespace Intact

variable (h : Intact image t) (haddr : vAddr < 1023 * 2 ^ 22)

include h haddr

/-- The entries after one of them has been stored. -/
theorem entry_put {addr : Nat}
    (haddr' : addr < 1023 * 2 ^ 22) (e : PTEntry) :
    (t.put (t.pageEntry vAddr) e).entry addr =
      if addr / pageSize = vAddr / pageSize then e else t.entry addr := by
  have hput := h.put (h.le_pageEntry haddr) e
  unfold PageTables.entry
  rw [hput.pageEntry haddr', h.pageEntry haddr, h.pageEntry haddr', PageTables.word_put]
  unfold pageWord
  simp only [Nat.add_left_cancel_iff]

/-- The directory is not touched. -/
theorem pageDirectory_put (e : PTEntry)
    {i : Nat} (hi : i < 1024) :
    (t.put (t.pageEntry vAddr) e).pageDirectory i = t.pageDirectory i := by
  have hle := h.le_pageEntry haddr
  unfold PageTables.pageDirectory
  rw [PageTables.info_put, PageTables.word_put, if_neg]
  rw [h.info]
  omega

/-- The entry that has just been stored for an address. -/
theorem isUser_put (e : PTEntry) :
    (t.put (t.pageEntry vAddr) e).isUser vAddr = (e.present && e.user) := by
  unfold PageTables.isUser
  rw [h.entry_put haddr haddr, if_pos rfl]

end Intact

/-- The last entry of the directory is its own entry as long as it refers to the directory. -/
theorem pageEntry_of_back (hback : (t.pageDirectory 1023).physAddr = t.info)
    (haddr : vAddr / 2 ^ 12 = 2 ^ 20 - 1) : t.pageEntry vAddr = t.info * 1024 + 1023 := by
  unfold PageTables.pageEntry
  dsimp only
  rw [show vAddr / 2 ^ 22 = 1023 by omega, show vAddr / 2 ^ 12 % 2 ^ 10 = 1023 by omega, hback]

theorem pageDirectory_put_back (t : PageTables) (e : PTEntry) :
    (t.put (t.info * 1024 + 1023) e).pageDirectory 1023 = e := by
  unfold PageTables.pageDirectory
  rw [PageTables.info_put, PageTables.word_put, if_pos rfl]

/-- That entry is not the user's at first, but it can be released and mapped again. -/
theorem exists_edited_isUser_back (image : KernelImage) {addr : UInt32}
    (haddr : addr.toNat / 2 ^ 12 = 2 ^ 20 - 1) :
    ∃ t, Edited image t ∧ t.isUser addr.toNat = true := by
  -- An entry whose word is the last of the directory.
  have hentry : ∀ t : PageTables, (t.pageDirectory 1023).physAddr = t.info →
      t.entry addr.toNat = t.pageDirectory 1023 :=
    fun t hback => congrArg t.word (pageEntry_of_back hback haddr)
  obtain ⟨t, hinfo, hback, hedited⟩ : ∃ t, t.info = image.info ∧
      t.pageDirectory 1023 = { physAddr := t.info, write := true } ∧ Edited image t := by
    have hback := back_createPagingInfo image fun _ => {}
    have hself : ((createPagingInfo image fun _ => {}).pageDirectory 1023).physAddr =
        (createPagingInfo image fun _ => {}).info := by
      rw [hback]
      rfl
    have hreleased := (edited_createPagingInfo image fun _ => {}).release addr (by
      rw [hentry _ hself, hback])
    unfold PageTables.release at hreleased
    rw [hentry _ hself, hback, pageEntry_of_back hself haddr] at hreleased
    exact ⟨_, rfl, pageDirectory_put_back _ _, hreleased⟩
  have hself : (t.pageDirectory 1023).physAddr = t.info := by rw [hback]
  have hmapped := hedited.mapPage (UInt32.ofNat (t.info * pageSize)) addr 4 (by
    rw [hentry t hself, hback])
  rw [pageEntry_of_back hself haddr] at hmapped
  have hframe : (UInt32.ofNat (t.info * pageSize)).toNat / 2 ^ 12 % 2 ^ 20 = t.info := by
    have hinside := image.inside
    have hsmall := image.small
    unfold pageSize at hinside hsmall ⊢
    rw [UInt32.toNat_ofNat']
    omega
  refine ⟨_, hmapped, ?_⟩
  unfold PageTables.isUser
  rw [hentry, pageDirectory_put_back]
  · rfl
  · rw [pageDirectory_put_back]
    exact hframe

/-- Every address can become one of a user page, those of the kernel included. -/
theorem exists_edited_isUser (image : KernelImage) (addr : UInt32) :
    ∃ t, Edited image t ∧ t.isUser addr.toNat = true := by
  have hstart := edited_createPagingInfo image fun _ => {}
  have hintact := intact_createPagingInfo image fun _ => {}
  have hlt := addr.toNat_lt
  by_cases hlast : addr.toNat < 1023 * 2 ^ 22
  · cases hpresent : ((createPagingInfo image fun _ => {}).entry addr.toNat).present with
    | true =>
      refine ⟨_, hstart, ?_⟩
      unfold PageTables.isUser
      rw [hpresent, user_createPagingInfo image _ hlast hpresent]
      rfl
    | false =>
      refine ⟨_, hstart.mapPage 0 addr 4 hpresent, ?_⟩
      rw [hintact.isUser_put hlast]
      rfl
  by_cases hback : addr.toNat / 2 ^ 12 = 2 ^ 20 - 1
  · exact exists_edited_isUser_back image hback
  · refine ⟨_, hstart, ?_⟩
    unfold PageTables.isUser
    rw [entry_createPagingInfo_last image _ (by omega) hlt,
      directory_createPagingInfo image _ (by omega)]
    rfl

/-- Mapping one user page leaves the next one unmapped. -/
theorem exists_edited_isUser_alone (image : KernelImage) (addr : UInt32)
    (hlt : addr.toNat < kernelVirtualBase) :
    ∃ t, Edited image t ∧ t.isUser addr.toNat = true ∧
      ∀ addr' < kernelVirtualBase, addr' / pageSize ≠ addr.toNat / pageSize →
        t.isUser addr' = false := by
  have hbase : kernelVirtualBase ≤ 1023 * 2 ^ 22 := by decide
  have hintact := intact_createPagingInfo image fun _ => {}
  have habsent : ((createPagingInfo image fun _ => {}).entry addr.toNat).present = false := by
    rw [entry_createPagingInfo image _ hlt]
  refine ⟨_, (edited_createPagingInfo image _).mapPage 0 addr 4 habsent, ?_,
    fun addr' hlt' hne => ?_⟩
  · rw [hintact.isUser_put (by omega)]
    rfl
  · unfold PageTables.isUser
    rw [hintact.entry_put (by omega) (by omega), if_neg hne, entry_createPagingInfo image _ hlt']
    rfl

end

end LudOS.Mem
