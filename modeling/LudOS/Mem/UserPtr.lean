import LudOS.Mem.Paging

/-!
# Ranges of user memory

`check_user_ptr` looks at as many entries as the size of the range takes pages, from the entry of
its first byte on. A range that starts inside a page can touch one page more, and the entries of the
last table are not behind those of the table before it. `check_user_ptr_covers_iff` says for which
ranges the answer is right in all page tables.
-/

namespace LudOS.Mem

/-- The directory refers to the page tables behind it, and its last entry to itself. -/
structure LaidOut (t : PageTables) : Prop where
  directory : ∀ i < 1023, (t.pageDirectory i).physAddr = t.info + 1 + i
  back : (t.pageDirectory 1023).physAddr = t.info

theorem laidOut_createPagingInfo (image : KernelImage) (memory : Nat → PTEntry) :
    LaidOut (createPagingInfo image memory) := by
  refine ⟨(intact_createPagingInfo image memory).directory, ?_⟩
  rw [back_createPagingInfo]
  rfl

/-- Within the last table, and within the tables before it, the entries of consecutive pages are
consecutive words. -/
theorem LaidOut.pageEntry {t : PageTables} (h : LaidOut t) {addr : Nat} (haddr : addr < 2 ^ 32) :
    t.pageEntry addr = t.info * 1024 +
      if addr < 1023 * 2 ^ 22 then 1024 + addr / pageSize else addr / pageSize % 1024 := by
  unfold PageTables.pageEntry pageSize
  dsimp only
  split
  · rw [h.directory _ (by omega)]
    omega
  · rw [show addr / 2 ^ 22 = 1023 by omega, h.back]
    rfl

/-- Page tables in which every page is the user's, except for one entry. -/
def userTables (bad : Nat) : PageTables where
  info := 0
  word k := { physAddr := if k = 1023 then 0 else 1 + k, present := k ≠ bad, user := true }

theorem laidOut_userTables (bad : Nat) : LaidOut (userTables bad) := by
  refine ⟨fun i hi => ?_, by simp [userTables, PageTables.pageDirectory]⟩
  unfold userTables PageTables.pageDirectory
  dsimp only
  rw [if_neg (by omega)]
  omega

theorem isUser_userTables {bad addr : Nat} :
    (userTables bad).isUser addr = true ↔ (userTables bad).pageEntry addr ≠ bad := by
  simp [userTables, PageTables.isUser, PageTables.entry]

/-- What `check_user_ptr` looks at. -/
theorem checkUserPtr_iff {t : PageTables} {vAddr size : Nat} : checkUserPtr t vAddr size = true ↔
    ∀ i < chunkCount size pageSize, (t.word (t.pageEntry vAddr + i)).present = true ∧
      (t.word (t.pageEntry vAddr + i)).user = true := by
  simp [checkUserPtr, chunkCount]

theorem checkUserPtr_userTables {bad vAddr size : Nat} :
    checkUserPtr (userTables bad) vAddr size = true ↔
      ∀ i < chunkCount size pageSize, (userTables bad).pageEntry vAddr + i ≠ bad := by
  rw [checkUserPtr_iff]
  simp [userTables]

/-- The pages that `check_user_ptr` looks at are those of the range: the range touches as many pages
as its size takes, and does not enter the last table from below. -/
def CountsPages (vAddr size : Nat) : Prop :=
  vAddr % pageSize + size ≤ chunkCount size pageSize * pageSize ∧
    (vAddr + size ≤ 1023 * 2 ^ 22 ∨ 1023 * 2 ^ 22 ≤ vAddr)

/-- Every byte of the range lies in a page that is present and the user's. -/
def PageTables.Covers (t : PageTables) (vAddr size : Nat) : Prop :=
  ∀ addr, vAddr ≤ addr → addr < vAddr + size → t.isUser addr = true

section

variable {vAddr size : Nat} (hsize : 1 ≤ size) (hend : vAddr + size ≤ 2 ^ 32)

include hsize hend

/-- The pages looked at are those of the range. -/
theorem LaidOut.checkUserPtr_iff_covers {t : PageTables} (h : LaidOut t)
    (hrange : CountsPages vAddr size) :
    checkUserPtr t vAddr size = true ↔ t.Covers vAddr size := by
  obtain ⟨hpages, hside⟩ := hrange
  have hlt : ∀ i < chunkCount size pageSize, i * pageSize < size :=
    fun _ => chunk_count_pred_lt (by decide)
  rw [checkUserPtr_iff]
  generalize chunkCount size pageSize = n at hpages hlt
  have hentry : ∀ i < n, t.pageEntry vAddr + i = t.pageEntry (vAddr + i * pageSize) := by
    intro i hi
    have hi := hlt i hi
    rw [h.pageEntry (by omega), h.pageEntry (by omega)]
    unfold pageSize at *
    split <;> split <;> omega
  constructor
  · intro hcheck addr hge hlt'
    have hi : addr / pageSize - vAddr / pageSize < n := by
      unfold pageSize at *
      omega
    have hpage : t.isUser addr =
        t.isUser (vAddr + (addr / pageSize - vAddr / pageSize) * pageSize) :=
      t.isUser_congr (by unfold pageSize; omega)
    have huser := hcheck _ hi
    rw [hentry _ hi] at huser
    rw [hpage]
    exact Bool.and_eq_true_iff.mpr huser
  · intro hcovers i hi
    have hlt := hlt i hi
    rw [hentry i hi]
    exact Bool.and_eq_true_iff.mp (hcovers _ (by omega) (by omega))

variable (h : ∀ t, LaidOut t → (checkUserPtr t vAddr size = true ↔ t.Covers vAddr size))

include h

/-- If the range touches one page more than its size takes, that page is not looked at. -/
theorem pages_of_checks : vAddr % pageSize + size ≤ chunkCount size pageSize * pageSize := by
  by_contra hlong
  have hlaid := laidOut_userTables ((userTables 0).pageEntry (vAddr + size - 1))
  have hlast : ¬ (userTables ((userTables 0).pageEntry (vAddr + size - 1))).isUser
      (vAddr + size - 1) = true := by
    rw [isUser_userTables]
    exact not_not_intro rfl
  refine hlast ((h _ hlaid).mp ?_ _ (by omega) (by omega))
  rw [checkUserPtr_userTables]
  intro i hi
  rw [hlaid.pageEntry (by omega), (laidOut_userTables 0).pageEntry (by omega)]
  have hge := @chunk_count_mul_ge size pageSize (by decide)
  generalize chunkCount size pageSize = n at hlong hi hge
  unfold userTables pageSize at *
  dsimp only
  split <;> split <;> omega

/-- If the range enters the last table from below, the words behind the table before it are looked
at. -/
theorem side_of_checks : vAddr + size ≤ 1023 * 2 ^ 22 ∨ 1023 * 2 ^ 22 ≤ vAddr := by
  by_contra hcross
  have hpages := pages_of_checks hsize hend h
  have hlaid := laidOut_userTables (1024 + 1023 * 1024)
  have hcovers : (userTables (1024 + 1023 * 1024)).Covers vAddr size := by
    intro addr hge hlt
    rw [isUser_userTables, hlaid.pageEntry (by omega)]
    unfold userTables pageSize
    dsimp only
    split <;> omega
  have hcheck := (h _ hlaid).mpr hcovers
  rw [checkUserPtr_userTables] at hcheck
  have hlt : 1023 * 1024 - vAddr / pageSize < chunkCount size pageSize := by
    generalize chunkCount size pageSize = n at hpages
    unfold pageSize at *
    omega
  refine hcheck _ hlt ?_
  rw [hlaid.pageEntry (by omega), if_pos (by omega)]
  unfold userTables pageSize
  dsimp only
  omega

end

/-- `check_user_ptr` is right about a range in all page tables exactly if it counts its pages
right. -/
theorem check_user_ptr_covers_iff {vAddr size : Nat} (hsize : 1 ≤ size)
    (hend : vAddr + size ≤ 2 ^ 32) :
    (∀ t, LaidOut t → (checkUserPtr t vAddr size = true ↔ t.Covers vAddr size)) ↔
      CountsPages vAddr size :=
  ⟨fun h => ⟨pages_of_checks hsize hend h, side_of_checks hsize hend h⟩,
    fun hrange _ ht => ht.checkUserPtr_iff_covers hsize hend hrange⟩

/-- A range that is one page. -/
theorem check_user_ptr_covers_page : CountsPages (2 ^ 12) (2 ^ 12) ∧
    (checkUserPtr (userTables 1025) (2 ^ 12) (2 ^ 12) = true ↔
      (userTables 1025).Covers (2 ^ 12) (2 ^ 12)) := by
  have hcounts : CountsPages (2 ^ 12) (2 ^ 12) := ⟨by decide, by decide⟩
  refine ⟨hcounts, ?_⟩
  exact (check_user_ptr_covers_iff (by decide) (by decide)).mpr hcounts _ (laidOut_userTables 1025)

/-- Two bytes on two pages: the second one is not looked at. -/
theorem check_user_ptr_straddling : ∃ t, LaidOut t ∧ checkUserPtr t 4095 2 = true ∧
    ¬ t.Covers 4095 2 := by
  refine ⟨userTables 1025, laidOut_userTables 1025, by decide, fun hcovers => ?_⟩
  exact absurd (hcovers 4096 (by decide) (by decide)) (by decide)

end LudOS.Mem
