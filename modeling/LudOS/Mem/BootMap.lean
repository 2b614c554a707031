import LudOS.Mem.PhysAllocator

/-!
# The memory map of the boot loader

`MultibootMeminfo` of `i686/pc/mem/mbmeminfo.cpp`, and the functions of the physical page allocator
that mark ranges. All pages are used at first, those of the available regions are marked as free,
and those from 0 to the end of the kernel and its reserved memory as used again. The map is the list
of its entries; how an entry leads to the next one in memory is left out.

A range is marked from the page of its first byte to the page behind its last one, and its addresses
are cut off to 32 bits. `boot_map_respected_iff` says what the map must be like for that to be
right.
-/

namespace LudOS.Mem

/-! ## Ranges of pages -/

/-- The page behind an end address. -/
def endPage (endAddr : Nat) : Nat := endAddr / 2 ^ 12 + if endAddr % 2 ^ 12 ≠ 0 then 1 else 0

namespace PhysPageAllocator

/-- Set the bits from `basePage` to `lastPage`. -/
def setPages (val : Bool) (basePage lastPage : Nat) (bits : Bitarray 32) : Bitarray 32 :=
  (List.range' basePage (lastPage + 1 - basePage)).foldl (fun bits i => bits.set i val) bits

/-- `PhysPageAllocator::init`. -/
def init (s : PhysPageAllocator) : PhysPageAllocator :=
  { s with memBitmap := (List.range pageCount).foldl (fun bits i => bits.set i true) s.memBitmap }

/-- Mark the pages of a range. -/
def mark (val : Bool) (addr size : Nat) (s : PhysPageAllocator) : PhysPageAllocator :=
  { s with memBitmap := setPages val (addr / 2 ^ 12) (endPage (wadd addr size)) s.memBitmap }

/-- `PhysPageAllocator::mark_as_used`. -/
def markAsUsed (addr size : Nat) : PhysPageAllocator → PhysPageAllocator := mark true addr size

/-- `PhysPageAllocator::mark_as_free`. -/
def markAsFree (addr size : Nat) : PhysPageAllocator → PhysPageAllocator := mark false addr size

end PhysPageAllocator

/-! ## The map -/

/-- `multiboot_memory_map_t`. -/
structure MmapEntry where
  addr : UInt64
  len : UInt64
  type : UInt32
  deriving DecidableEq, Repr

/-- `MultibootMeminfo::free_frames`. -/
def freeFrames (mmap : List MmapEntry) : Nat :=
  mmap.foldl (fun counter zone => if zone.type = 1 then counter + 1 else counter) 0

/-- The loop of `MultibootMeminfo::frame`. -/
def frameFrom (idx : Nat) : (counter : Nat) → List MmapEntry → Option MmapEntry
  | _, [] => none
  | counter, zone :: mmap =>
    if zone.type = 1 then
      if counter = idx then some zone else frameFrom idx (counter + 1) mmap
    else frameFrom idx counter mmap

/-- `MultibootMeminfo::frame`. -/
def frame (mmap : List MmapEntry) (idx : Nat) : Option MmapEntry := frameFrom idx 0 mmap

/-- One iteration of `init_alloc_bitmap`. -/
def freeFrame (mmap : List MmapEntry) (s : PhysPageAllocator) (idx : Nat) : PhysPageAllocator :=
  match frame mmap idx with
  | some zone => s.markAsFree (zone.addr.toNat % 2 ^ 32) (zone.len.toNat % 2 ^ 32)
  | none => s

/-- `&kernel_physical_end + 0x160000`: the symbol is an `int`. -/
def reservedEnd (kernelPhysicalEnd : UInt32) : Nat := wadd kernelPhysicalEnd.toNat (0x160000 * 4)

/-- `MultibootMeminfo::init_alloc_bitmap`. -/
def initAllocBitmap (mmap : List MmapEntry) (kernelPhysicalEnd : UInt32) (s : PhysPageAllocator) :
    PhysPageAllocator :=
  ((List.range (freeFrames mmap)).foldl (freeFrame mmap) s.init).markAsUsed 0
    (reservedEnd kernelPhysicalEnd)

/-! ## What the bitmap should be -/

/-- All bytes of the page are in the region. -/
def MmapEntry.Contains (zone : MmapEntry) (page : Nat) : Prop :=
  zone.addr.toNat ≤ page * pageSize ∧ (page + 1) * pageSize ≤ zone.addr.toNat + zone.len.toNat

/-- The page is in an available region. -/
def Available (mmap : List MmapEntry) (page : Nat) : Prop :=
  ∃ zone ∈ mmap, zone.type = 1 ∧ zone.Contains page

/-- Only available pages that are not reserved are free, and all of those are. -/
def Respected (mmap : List MmapEntry) (kernelPhysicalEnd : UInt32) (s : PhysPageAllocator) : Prop :=
  ∀ page < pageCount,
    (s.used (page * pageSize) = false →
      Available mmap page ∧ reservedEnd kernelPhysicalEnd ≤ page * pageSize) ∧
    (endPage (reservedEnd kernelPhysicalEnd) ≤ page → Available mmap page →
      s.used (page * pageSize) = false)

/-- The page is one of those that the region is taken for: from the page of its first byte to the
one behind its end, both addresses cut off. -/
def MmapEntry.Covers (zone : MmapEntry) (page : Nat) : Prop :=
  zone.addr.toNat % 2 ^ 32 / 2 ^ 12 ≤ page ∧
    page ≤ endPage ((zone.addr.toNat + zone.len.toNat) % 2 ^ 32)

/-- The page is taken for one of an available region. -/
def TakenFree (mmap : List MmapEntry) (page : Nat) : Prop :=
  ∃ zone ∈ mmap, zone.type = 1 ∧ zone.Covers page

namespace PhysPageAllocator

variable {s : PhysPageAllocator}

theorem get_foldl_set (val : Bool) (pages : List Nat) (bits : Bitarray 32) (j : Nat) :
    (pages.foldl (fun bits i => bits.set i val) bits).get j =
      if j ∈ pages then val else bits.get j := by
  induction pages generalizing bits with
  | nil => simp
  | cons i pages ih =>
    rw [List.foldl_cons, ih, get_set]
    by_cases hmem : j ∈ pages
    · simp [hmem]
    · by_cases heq : j = i
      · simp [heq]
      · simp [hmem, heq]

theorem used_init (s : PhysPageAllocator) {page : Nat} (hpage : page < pageCount) :
    s.init.used (page * pageSize) = true := by
  unfold used init
  rw [mul_pageSize_div, get_foldl_set, if_pos (List.mem_range.mpr hpage)]

theorem used_mark (val : Bool) (addr size : Nat) (s : PhysPageAllocator) (page : Nat) :
    (s.mark val addr size).used (page * pageSize) =
      if addr / 2 ^ 12 ≤ page ∧ page ≤ endPage (wadd addr size) then val
      else s.used (page * pageSize) := by
  unfold used mark setPages
  rw [mul_pageSize_div, get_foldl_set]
  congr 1
  rw [List.mem_range'_1]
  have hiff : (addr / 2 ^ 12 ≤ page ∧ page < addr / 2 ^ 12 +
      (endPage (wadd addr size) + 1 - addr / 2 ^ 12)) ↔
      addr / 2 ^ 12 ≤ page ∧ page ≤ endPage (wadd addr size) := by omega
  exact propext hiff

end PhysPageAllocator

section

variable {mmap : List MmapEntry} {zone : MmapEntry} {kernelPhysicalEnd : UInt32}

/-! ## What the bitmap is -/

theorem frameFrom_eq (mmap : List MmapEntry) {counter idx : Nat} (hle : counter ≤ idx) :
    frameFrom idx counter mmap = (mmap.filter (·.type = 1))[idx - counter]? := by
  induction mmap generalizing counter with
  | nil => rfl
  | cons zone mmap ih =>
    rw [frameFrom]
    by_cases htype : zone.type = 1
    · rw [if_pos htype, List.filter_cons_of_pos (by simpa using htype)]
      split
      case isTrue heq => simp [heq]
      case isFalse hne =>
        rw [ih (by omega), show idx - counter = idx - (counter + 1) + 1 by omega,
          List.getElem?_cons_succ]
    · rw [if_neg htype, List.filter_cons_of_neg (by simpa using htype)]
      exact ih hle

theorem freeFrames_eq (mmap : List MmapEntry) :
    freeFrames mmap = (mmap.filter (·.type = 1)).length := by
  have hcount : ∀ counter, mmap.foldl (fun counter zone =>
      if zone.type = 1 then counter + 1 else counter) counter =
        counter + (mmap.filter (·.type = 1)).length := by
    induction mmap with
    | nil => simp
    | cons zone mmap ih =>
      intro counter
      by_cases htype : zone.type = 1
      · simp [htype, ih]
        omega
      · simp [htype, ih]
  unfold freeFrames
  simpa using hcount 0

/-- The frames are the available regions. -/
theorem exists_frame : (∃ idx < freeFrames mmap, frame mmap idx = some zone) ↔
    zone ∈ mmap ∧ zone.type = 1 := by
  have hmem : zone ∈ mmap.filter (·.type = 1) ↔ zone ∈ mmap ∧ zone.type = 1 := by simp
  rw [← hmem, List.mem_iff_getElem?]
  unfold frame
  simp only [frameFrom_eq mmap (Nat.zero_le _), Nat.sub_zero, freeFrames_eq]
  refine exists_congr fun idx => ⟨fun h => h.2, fun h => ⟨?_, h⟩⟩
  exact (List.getElem?_eq_some_iff.mp h).1

theorem used_freeFrames (mmap : List MmapEntry) (s : PhysPageAllocator) (frames page : Nat) :
    ((List.range frames).foldl (freeFrame mmap) s).used (page * pageSize) = false ↔
      s.used (page * pageSize) = false ∨
        ∃ idx < frames, ∃ zone, frame mmap idx = some zone ∧ zone.Covers page := by
  induction frames with
  | zero => simp
  | succ frames ih =>
    rw [List.range_succ, List.foldl_append, List.foldl_cons, List.foldl_nil]
    have hlast : ∀ t : PhysPageAllocator, (freeFrame mmap t frames).used (page * pageSize) = false ↔
        t.used (page * pageSize) = false ∨
          ∃ zone, frame mmap frames = some zone ∧ zone.Covers page := by
      intro t
      unfold freeFrame
      cases frame mmap frames with
      | none => simp
      | some zone =>
        dsimp only
        rw [PhysPageAllocator.markAsFree, PhysPageAllocator.used_mark, wadd, ← Nat.add_mod]
        unfold MmapEntry.Covers
        split
        case isTrue hcovers => simpa using .inr hcovers
        case isFalse hcovers => simpa using fun hlow hhigh => absurd ⟨hlow, hhigh⟩ hcovers
    rw [hlast, ih]
    constructor
    · rintro ((hused | ⟨idx, hlt, hzone⟩) | hzone)
      · exact .inl hused
      · exact .inr ⟨idx, by omega, hzone⟩
      · exact .inr ⟨frames, by omega, hzone⟩
    · rintro (hused | ⟨idx, hlt, hzone⟩)
      · exact .inl (.inl hused)
      · rcases Nat.eq_or_lt_of_le (Nat.le_of_lt_succ hlt) with rfl | hlt
        · exact .inr hzone
        · exact .inl (.inr ⟨idx, hlt, hzone⟩)

theorem reservedEnd_lt (kernelPhysicalEnd : UInt32) : reservedEnd kernelPhysicalEnd < 2 ^ 32 :=
  Nat.mod_lt _ (by decide)

theorem le_endPage (endAddr : Nat) : endAddr ≤ endPage endAddr * pageSize := by
  unfold endPage pageSize
  split <;> omega

/-- The pages that are free in the end. -/
theorem used_initAllocBitmap (mmap : List MmapEntry) (kernelPhysicalEnd : UInt32)
    (s : PhysPageAllocator) {page : Nat} (hpage : page < pageCount) :
    (initAllocBitmap mmap kernelPhysicalEnd s).used (page * pageSize) = false ↔
      endPage (reservedEnd kernelPhysicalEnd) < page ∧ TakenFree mmap page := by
  have hlt := reservedEnd_lt kernelPhysicalEnd
  have hframes := used_freeFrames mmap s.init (freeFrames mmap) page
  rw [PhysPageAllocator.used_init s hpage] at hframes
  have hzones : (∃ idx < freeFrames mmap, ∃ zone, frame mmap idx = some zone ∧ zone.Covers page) ↔
      TakenFree mmap page := by
    refine ⟨?_, ?_⟩
    · intro hframe
      obtain ⟨idx, hidx, zone, hzone, hcovers⟩ := hframe
      obtain ⟨hmem, htype⟩ := exists_frame.mp ⟨idx, hidx, hzone⟩
      exact ⟨zone, hmem, htype, hcovers⟩
    · intro htaken
      obtain ⟨zone, hmem, htype, hcovers⟩ := htaken
      obtain ⟨idx, hidx, hzone⟩ := exists_frame.mpr ⟨hmem, htype⟩
      exact ⟨idx, hidx, zone, hzone, hcovers⟩
  unfold initAllocBitmap
  rw [PhysPageAllocator.markAsUsed, PhysPageAllocator.used_mark, wadd, Nat.zero_add,
    Nat.mod_eq_of_lt hlt]
  split
  case isTrue hreserved =>
    refine ⟨fun h => Bool.noConfusion h, fun h => ?_⟩
    omega
  case isFalse hreserved =>
    rw [hframes, hzones]
    simp only [Bool.true_eq_false, false_or]
    refine ⟨fun h => ⟨by omega, h⟩, fun h => h.2⟩

/-! ## When the map is respected -/

/-- The map is respected if and only if all pages behind the reserved memory that regions are taken
for are available, and the available ones are among them. The first page behind the reserved memory
must not be available, since it stays reserved. -/
theorem boot_map_respected_iff (mmap : List MmapEntry) (kernelPhysicalEnd : UInt32)
    (s : PhysPageAllocator) :
    Respected mmap kernelPhysicalEnd (initAllocBitmap mmap kernelPhysicalEnd s) ↔
      ∀ page < pageCount,
        (endPage (reservedEnd kernelPhysicalEnd) < page → TakenFree mmap page →
          Available mmap page) ∧
        (endPage (reservedEnd kernelPhysicalEnd) ≤ page → Available mmap page →
          page ≠ endPage (reservedEnd kernelPhysicalEnd) ∧ TakenFree mmap page) := by
  refine forall_congr' fun page => forall_congr' fun hpage => ?_
  have hle := le_endPage (reservedEnd kernelPhysicalEnd)
  rw [used_initAllocBitmap mmap kernelPhysicalEnd s hpage]
  refine and_congr ⟨?_, ?_⟩ ⟨?_, ?_⟩
  · intro hfree hlt htaken
    exact (hfree ⟨hlt, htaken⟩).1
  · intro havailable hfree
    refine ⟨havailable hfree.1 hfree.2, hle.trans ?_⟩
    exact Nat.mul_le_mul_right _ (Nat.le_of_lt hfree.1)
  · intro hfree hge havailable
    obtain ⟨hlt, htaken⟩ := hfree hge havailable
    exact ⟨Nat.ne_of_gt hlt, htaken⟩
  · intro htaken hge havailable
    obtain ⟨hne, htaken⟩ := htaken hge havailable
    exact ⟨Nat.lt_of_le_of_ne hge hne.symm, htaken⟩

end

/-! ## A machine with 128 MiB -/

/-- The memory from 1 MiB to 128 MiB is available. -/
def smallMap : List MmapEntry := [⟨0x100000, 0x7F00000, 1⟩]

/-- The allocator before the call. -/
def blankAllocator : PhysPageAllocator := ⟨⟨fun _ => 0⟩, 0, 0⟩

/-- The page at 128 MiB, which is no memory, is free. -/
theorem boot_map_not_respected :
    ¬ Respected smallMap 0x800000 (initAllocBitmap smallMap 0x800000 blankAllocator) := by
  intro hrespected
  have hfree : (initAllocBitmap smallMap 0x800000 blankAllocator).used (0x8000 * pageSize) =
      false := by
    rw [used_initAllocBitmap smallMap 0x800000 blankAllocator (by decide)]
    refine ⟨by decide, _, List.mem_singleton.mpr rfl, rfl, ?_⟩
    unfold MmapEntry.Covers
    decide
  obtain ⟨⟨zone, hmem, -, hcontains⟩, -⟩ := (hrespected 0x8000 (by decide)).1 hfree
  rw [List.mem_singleton.mp hmem] at hcontains
  revert hcontains
  unfold MmapEntry.Contains
  decide

end LudOS.Mem
