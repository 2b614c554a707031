import Mathlib.Data.Nat.Basic

/-!
# Runs of free places

A scan looks at one place after the other and counts how many free places it has seen in a row. It
ends when it has counted enough of them, and otherwise hands its counter on.

`Counted` says what a counter that was 0 at the start of a scan means. A scan that is started with
another counter may count places that are not adjacent: `scan_carried` and `scan_carried_run` say
what it finds.
-/

namespace LudOS.Lib.Runs

/-- All places from `addr` on are free, as many as given. -/
def IsRun (free : Nat → Bool) (addr number : Nat) : Prop :=
  ∀ j, addr ≤ j → j < addr + number → free j = true

/-- There is a run between two places. -/
def HasRun (free : Nat → Bool) (number low high : Nat) : Prop :=
  ∃ addr, low ≤ addr ∧ addr + number ≤ high ∧ IsRun free addr number

/-- How a scan ends: at the place `last` with a run that is said to start at `addr`, or behind the
last place, with the counter and the start it has by then. -/
inductive ScanResult where
  | found (addr last : Nat)
  | exhausted (counter addr : Nat)
  deriving DecidableEq, Repr

/-- Scan `count` places from `i` on. -/
def scan (free : Nat → Bool) (number : Nat) : (count i counter addr : Nat) → ScanResult
  | 0, _, counter, addr => .exhausted counter addr
  | count + 1, i, counter, addr =>
    let addr' := if free i = true ∧ counter = 0 then i else addr
    let counter' := if free i = true then counter + 1 else 0
    if counter' = number then .found addr' i else scan free number count (i + 1) counter' addr'

section

variable {free : Nat → Bool} {number count i counter addr addr' start : Nat}

theorem IsRun.mono {fewer : Nat} (h : IsRun free addr number) (hle : fewer ≤ number) :
    IsRun free addr fewer := fun j hge hlt => h j hge (by omega)

/-- What a counter means at the place `i` of a scan from `start` on. -/
structure Counted (free : Nat → Bool) (number start i counter addr : Nat) : Prop where
  le : start + counter ≤ i
  run : ∀ j, i - counter ≤ j → j < i → free j = true
  addr : counter ≠ 0 → addr + counter = i
  full : i = start + counter ∨ free (i - counter - 1) = false
  none : ¬ HasRun free number start i

theorem counted_start (hnumber : 0 < number) (start addr : Nat) :
    Counted free number start start 0 addr where
  le := Nat.le_refl _
  run j hge hlt := by omega
  addr hne := absurd rfl hne
  full := .inl rfl
  none := by
    intro hrun
    obtain ⟨a, hge, hle, -⟩ := hrun
    omega

theorem Counted.lt (h : Counted free number start i counter addr) : counter < number := by
  by_contra hge
  have hle := h.le
  refine h.none ⟨i - number, by omega, by omega, ?_⟩
  intro j hlow hhigh
  exact h.run j (by omega) (by omega)

/-- A free place makes the run longer. -/
theorem Counted.longer (h : Counted free number start i counter addr) (hfree : free i = true)
    (hne : counter + 1 ≠ number) :
    Counted free number start (i + 1) (counter + 1) (if counter = 0 then i else addr) where
  le := by
    have hle := h.le
    omega
  run j hge hlt := by
    rcases Nat.eq_or_lt_of_le (Nat.le_of_lt_succ hlt) with rfl | hlt
    · exact hfree
    · exact h.run j (by omega) hlt
  addr _ := by
    have haddr := h.addr
    split
    · omega
    · omega
  full := by
    rw [show i + 1 - (counter + 1) - 1 = i - counter - 1 by omega]
    exact h.full.imp_left (by omega)
  none := by
    intro hrun
    obtain ⟨a, hge, hle, hrun⟩ := hrun
    have hlt := h.lt
    -- The run would end at the place, and start before the free places counted so far.
    have hlast : a + number = i + 1 := by
      by_contra hother
      exact h.none ⟨a, hge, by omega, hrun⟩
    rcases h.full with hfirst | hclaimed
    · omega
    · have hbefore := hrun (i - counter - 1) (by omega) (by omega)
      rw [hclaimed] at hbefore
      cases hbefore

/-- A place that is not free ends every run. -/
theorem counted_broken (hlow : start ≤ i) (hnone : ¬ HasRun free number start i)
    (hclaimed : free i = false) (addr : Nat) : Counted free number start (i + 1) 0 addr where
  le := by omega
  run j hge hlt := by omega
  addr hne := absurd rfl hne
  full := .inr hclaimed
  none := by
    intro hrun
    obtain ⟨a, hge, hle, hrun⟩ := hrun
    by_cases hlast : a + number ≤ i
    · exact hnone ⟨a, hge, hlast, hrun⟩
    · rcases Nat.eq_zero_or_pos number with rfl | hpos
      · exact hnone ⟨start, Nat.le_refl _, hlow, fun j hge hlt => by omega⟩
      · have hfree := hrun i (by omega) (by omega)
        rw [hclaimed] at hfree
        cases hfree

/-! ## Scans from the start -/

/-- The next place of a scan. -/
theorem scan_succ : scan free number (count + 1) i counter addr = if free i = true then
      if counter + 1 = number then .found (if counter = 0 then i else addr) i
      else scan free number count (i + 1) (counter + 1) (if counter = 0 then i else addr)
    else if 0 = number then .found addr i else scan free number count (i + 1) 0 addr := by
  rw [scan]
  by_cases hfree : free i = true
  · simp [hfree]
  · simp [hfree]

/-- A scan ends at one of its places. -/
theorem last_of_scan {last : Nat}
    (hscan : scan free number count i counter addr = .found addr' last) :
    i ≤ last ∧ last < i + count := by
  induction count generalizing i counter addr with
  | zero => cases hscan
  | succ count ih =>
    unfold scan at hscan
    dsimp only at hscan
    by_cases hdone : (if free i = true then counter + 1 else 0) = number
    · rw [if_pos hdone] at hscan
      obtain ⟨-, hlast⟩ := ScanResult.found.inj hscan
      omega
    · rw [if_neg hdone] at hscan
      have hrest := ih hscan
      omega

section

variable (hnumber : 0 < number) (h : Counted free number start i counter addr)

include hnumber h

/-- A scan finds the run it has counted. -/
theorem scan_eq_found {last : Nat}
    (hscan : scan free number count i counter addr = .found addr' last) :
    start ≤ addr' ∧ addr' + number ≤ i + count ∧ IsRun free addr' number := by
  induction count generalizing i counter addr with
  | zero => cases hscan
  | succ count ih =>
    rw [scan_succ] at hscan
    split at hscan
    case isTrue hfree =>
      split at hscan
      case isTrue heq =>
        obtain ⟨haddr', -⟩ := ScanResult.found.inj hscan
        have hle := h.le
        have haddr : addr' + counter = i := by
          have haddr := h.addr
          rw [← haddr']
          split
          · omega
          · omega
        refine ⟨by omega, by omega, ?_⟩
        intro j hge hlt
        rcases Nat.lt_or_ge j i with hbefore | hlast
        · exact h.run j (by omega) hbefore
        · rw [show j = i by omega]
          exact hfree
      case isFalse hne =>
        obtain ⟨hlow, hhigh, hrun⟩ := ih (h.longer hfree hne) hscan
        exact ⟨hlow, by omega, hrun⟩
    case isFalse hclaimed =>
      rw [if_neg (by omega)] at hscan
      have hle := h.le
      have hcounted := counted_broken (by omega) h.none (by simpa using hclaimed) addr
      obtain ⟨hlow, hhigh, hrun⟩ := ih hcounted hscan
      exact ⟨hlow, by omega, hrun⟩

/-- A scan that has come to its end without a run has counted everything it has seen. -/
theorem scan_eq_exhausted {counter' : Nat}
    (hscan : scan free number count i counter addr = .exhausted counter' addr') :
    Counted free number start (i + count) counter' addr' := by
  induction count generalizing i counter addr with
  | zero =>
    cases hscan
    exact h
  | succ count ih =>
    rw [scan_succ] at hscan
    rw [show i + (count + 1) = i + 1 + count by omega]
    split at hscan
    case isTrue hfree =>
      split at hscan
      case isTrue => cases hscan
      case isFalse hne => exact ih (h.longer hfree hne) hscan
    case isFalse hclaimed =>
      rw [if_neg (by omega)] at hscan
      have hle := h.le
      exact ih (counted_broken (by omega) h.none (by simpa using hclaimed) addr) hscan

end

/-! ## Scans with a counter from elsewhere -/

/-- The counter is completed by the first places of the scan, and the run is said to start where the
counter comes from. -/
theorem scan_carried_run (hcounter : counter ≠ 0) (hlt : counter < number)
    (hrun : IsRun free i (number - counter)) (hcount : number - counter ≤ count) :
    scan free number count i counter addr = .found addr (i + (number - counter) - 1) := by
  induction count generalizing i counter with
  | zero => omega
  | succ count ih =>
    have hfree : free i = true := hrun i (Nat.le_refl i) (by omega)
    rw [scan_succ, if_pos hfree, if_neg hcounter]
    split
    case isTrue heq => rw [show i + (number - counter) - 1 = i by omega]
    case isFalse hne =>
      rw [ih (by omega) (by omega) ?_ (by omega)]
      · congr 1
        omega
      · intro j hge hlt
        exact hrun j (by omega) (by omega)

/-- Otherwise the counter is forgotten at the first place that is not free. -/
theorem scan_carried {carry : Nat} (addr : Nat) (hcarry : carry < number) (hle : start ≤ i)
    (hbefore : IsRun free start (i - start))
    (hrun : ¬ (IsRun free start (number - carry) ∧ start + (number - carry) ≤ i + count)) :
    (∀ addr' last, scan free number count i (carry + (i - start)) addr = .found addr' last →
      start ≤ addr' ∧ addr' + number ≤ i + count ∧ IsRun free addr' number) ∧
    (∀ counter' addr', scan free number count i (carry + (i - start)) addr =
      .exhausted counter' addr' → ¬ HasRun free number start (i + count)) := by
  have hnumber : 0 < number := by omega
  have hshort : ∀ high, high < start + (number - carry) → ¬ HasRun free number start high := by
    intro high hhigh hrun
    obtain ⟨a, hge, hle, -⟩ := hrun
    omega
  have hplaces : i < start + (number - carry) := by
    by_contra hge
    exact hrun ⟨hbefore.mono (by omega), by omega⟩
  induction count generalizing i addr with
  | zero =>
    refine ⟨?_, ?_⟩
    · intro addr' last hscan
      cases hscan
    · intro counter' addr' hscan
      exact hshort _ hplaces
  | succ count ih =>
    rw [scan_succ]
    by_cases hfree : free i = true
    case pos =>
      have hnext : IsRun free start (i + 1 - start) := by
        intro j hge hlt
        rcases Nat.lt_or_ge j i with hbefore' | hlast
        · exact hbefore j hge (by omega)
        · rw [show j = i by omega]
          exact hfree
      have hne : carry + (i - start) + 1 ≠ number := by
        intro heq
        exact hrun ⟨hnext.mono (by omega), by omega⟩
      have hcounter : carry + (i - start) + 1 = carry + (i + 1 - start) := by omega
      have hend : i + (count + 1) = i + 1 + count := by omega
      rw [if_pos hfree, if_neg hne, hcounter, hend]
      rw [hend] at hrun
      exact ih _ (by omega) hnext hrun (by omega)
    case neg =>
      have hcounted := counted_broken hle (hshort i hplaces) (by simpa using hfree) addr
      rw [if_neg hfree, if_neg (by omega), show i + (count + 1) = i + 1 + count by omega]
      refine ⟨?_, ?_⟩
      · intro addr' last hscan
        exact scan_eq_found hnumber hcounted hscan
      · intro counter' addr' hscan
        exact (scan_eq_exhausted hnumber hcounted hscan).none

end

end LudOS.Lib.Runs
