import Mathlib.Data.Nat.Basic

/-!
# Search around a circle

The places `0, ..., size - 1` lie on a circle. A search starts behind a place and goes on from each
place to the next until it meets one that passes a test. `gap` counts the steps that one place is
ahead of another, from 1 to `size`: a place is a whole round ahead of itself.

`search_eq_some` says that a search ends at the first place ahead, and `exists_visit` that a
sequence of searches visits a place that passes every test.
-/

namespace LudOS.Lib.Circle

/-- Go on from `place` until the test is passed, for at most as many steps as are given. -/
def search (size : Nat) (test : Nat → Bool) : (steps place : Nat) → Option Nat
  | 0, _ => none
  | steps + 1, place =>
    let next := (place + 1) % size
    if test next then some next else search size test steps next

/-- The number of steps from `place` to `target`. -/
def gap (size place target : Nat) : Nat := (target + size - 1 - place % size) % size + 1

section

variable {size place target next steps : Nat} {test : Nat → Bool}

theorem gap_pos : 0 < gap size place target := Nat.succ_pos _

theorem gap_le (hsize : 0 < size) (place target : Nat) : gap size place target ≤ size :=
  Nat.mod_lt _ hsize

/-- A gap without a remainder of a difference. -/
theorem gap_eq (htarget : target < size) : gap size place target =
    if place % size < target then target - place % size else target + size - place % size := by
  have hplace := Nat.mod_lt place (Nat.zero_lt_of_lt htarget)
  unfold gap
  split
  · rw [show target + size - 1 - place % size = target - place % size - 1 + size by omega,
      Nat.add_mod_right, Nat.mod_eq_of_lt (by omega)]
    omega
  · rw [Nat.mod_eq_of_lt (by omega)]
    omega

theorem succ_mod (hsize : 0 < size) :
    (place + 1) % size = if place % size + 1 = size then 0 else place % size + 1 := by
  have hplace := Nat.mod_lt place hsize
  rw [← Nat.mod_add_mod]
  split
  case isTrue heq => rw [heq, Nat.mod_self]
  case isFalse hlt => exact Nat.mod_eq_of_lt (by omega)

/-- The first step. -/
theorem gap_step (htarget : target < size) (hne : (place + 1) % size ≠ target) :
    gap size place target = gap size ((place + 1) % size) target + 1 := by
  have hsize := Nat.zero_lt_of_lt htarget
  have hplace := Nat.mod_lt place hsize
  rw [gap_eq htarget, gap_eq htarget, Nat.mod_mod]
  rw [succ_mod hsize] at hne ⊢
  grind

theorem gap_next (htarget : target < size) (heq : (place + 1) % size = target) :
    gap size place target = 1 := by
  have hsize := Nat.zero_lt_of_lt htarget
  have hplace := Nat.mod_lt place hsize
  rw [gap_eq htarget]
  rw [succ_mod hsize] at heq
  grind

/-- A target behind the next place is as far away as both gaps together. -/
theorem gap_add (hnext : next < size) (htarget : target < size)
    (hlt : gap size place next < gap size place target) :
    gap size place target = gap size place next + gap size next target := by
  have hplace := Nat.mod_lt place (Nat.zero_lt_of_lt hnext)
  simp only [gap_eq hnext, gap_eq htarget, Nat.mod_eq_of_lt hnext] at hlt ⊢
  grind

/-- Different places are at different gaps. -/
theorem gap_inj (hnext : next < size) (htarget : target < size)
    (heq : gap size place next = gap size place target) : next = target := by
  have hplace := Nat.mod_lt place (Nat.zero_lt_of_lt hnext)
  simp only [gap_eq hnext, gap_eq htarget] at heq
  grind

/-! ## Searches -/

/-- A search that ends has found the first place ahead. -/
theorem search_eq_some (hsize : 0 < size) (hrun : search size test steps place = some next) :
    next < size ∧ test next = true ∧
      ∀ target < size, test target = true → gap size place next ≤ gap size place target := by
  induction steps generalizing place with
  | zero => simp [search] at hrun
  | succ steps ih =>
    unfold search at hrun
    dsimp only at hrun
    split at hrun
    case isTrue htest =>
      cases hrun
      refine ⟨Nat.mod_lt _ hsize, htest, ?_⟩
      intro target _ _
      rw [gap_next (Nat.mod_lt _ hsize) rfl]
      exact gap_pos
    case isFalse htest =>
      obtain ⟨hnext, htested, hfirst⟩ := ih hrun
      refine ⟨hnext, htested, ?_⟩
      intro target htarget htest'
      have hne : ∀ found, test found = true → (place + 1) % size ≠ found := by
        intro found hfound heq
        rw [heq] at htest
        exact htest hfound
      rw [gap_step hnext (hne next htested), gap_step htarget (hne target htest')]
      exact Nat.add_le_add_right (hfirst target htarget htest') 1

/-- A search goes far enough when it may go as far as to some place that passes the test. -/
theorem exists_search (htarget : target < size) (htest : test target = true)
    (hsteps : gap size place target ≤ steps) :
    ∃ next, search size test steps place = some next := by
  induction steps generalizing place with
  | zero => exact absurd hsteps (Nat.not_le.mpr gap_pos)
  | succ steps ih =>
    unfold search
    dsimp only
    split
    case isTrue => exact ⟨_, rfl⟩
    case isFalse hfails =>
      apply ih
      have hne : (place + 1) % size ≠ target := by
        intro heq
        rw [heq] at hfails
        exact hfails htest
      have hstep := gap_step htarget hne
      omega

/-- More steps do not change the result. -/
theorem search_mono {more : Nat} (hle : steps ≤ more)
    (hrun : search size test steps place = some next) :
    search size test more place = some next := by
  induction steps generalizing place more with
  | zero => simp [search] at hrun
  | succ steps ih =>
    obtain ⟨more, rfl⟩ : ∃ rest, more = rest + 1 := ⟨more - 1, by omega⟩
    unfold search at hrun ⊢
    dsimp only at hrun ⊢
    split at hrun
    case isTrue htest => rw [if_pos htest, hrun]
    case isFalse htest =>
      rw [if_neg htest]
      exact ih (by omega) hrun

end

/-- Every move goes to a place ahead that is no further than the target. The target is then visited
within as many moves as it is ahead at first. -/
theorem exists_visit {size target : Nat} (htarget : target < size) {place : Nat → Nat} {moves : Nat}
    (hmove : ∀ i < moves, place (i + 1) < size ∧
      gap size (place i) (place (i + 1)) ≤ gap size (place i) target)
    (hmoves : gap size (place 0) target ≤ moves) : ∃ i < moves, place (i + 1) = target := by
  by_contra hnever
  -- Each move that does not end at the target comes closer to it.
  have hcloser : ∀ i ≤ moves, i + gap size (place i) target ≤ gap size (place 0) target := by
    intro i hi
    induction i with
    | zero => simp
    | succ i ih =>
      obtain ⟨hnext, hle⟩ := hmove i hi
      have hne : place (i + 1) ≠ target := fun heq => hnever ⟨i, hi, heq⟩
      have hlt : gap size (place i) (place (i + 1)) < gap size (place i) target :=
        Nat.lt_of_le_of_ne hle fun heq => hne (gap_inj hnext htarget heq)
      have hadd := gap_add hnext htarget hlt
      have hpos : 0 < gap size (place i) (place (i + 1)) := gap_pos
      have hsofar := ih (by omega)
      omega
  have hlast := hcloser moves (Nat.le_refl moves)
  have hpos : 0 < gap size (place moves) target := gap_pos
  omega

end LudOS.Lib.Circle
