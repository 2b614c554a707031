import Mathlib.Data.List.Basic

/-!
# Tables of optional slots

A table that hands out the first free index and takes indices back is a list of optional values.
The lemmas say what `slot` finds after a replacement, a release and an allocation, and when a value
is counted twice.
-/

namespace LudOS.Lib

variable {α : Type}

/-- What stands at an index. Beyond the end of the list there is nothing. -/
def slot (l : List (Option α)) (i : Nat) : Option α := l[i]?.join

/-- The first free index, or the length of the list when there is none. -/
def firstFree (l : List (Option α)) : Nat := l.findIdx Option.isNone

/-- Occupy an index, growing the list when it is its length. -/
def occupy (l : List (Option α)) (i : Nat) (a : α) : List (Option α) :=
  if i = l.length then l ++ [some a] else l.set i (some a)

variable {l : List (Option α)} {i j : Nat} {a b : α}

theorem lt_length_of_slot (h : slot l i = some a) : i < l.length := by
  by_contra hge
  simp [slot, List.getElem?_eq_none (Nat.le_of_not_lt hge)] at h

theorem slot_set_other (x : Option α) (h : j ≠ i) : slot (l.set i x) j = slot l j := by
  simp [slot, List.getElem?_set_ne (Ne.symm h)]

theorem slot_set_some (h : slot l i = some a) (b : α) (j : Nat) :
    slot (l.set i (some b)) j = if j = i then some b else slot l j := by
  by_cases hj : j = i
  · subst hj
    simp [slot, lt_length_of_slot h]
  · rw [slot_set_other _ hj, if_neg hj]

theorem slot_set_none (l : List (Option α)) (i j : Nat) :
    slot (l.set i none) j = if j = i then none else slot l j := by
  by_cases hj : j = i
  · subst hj
    by_cases hlt : j < l.length
    · simp [slot, hlt]
    · simp [slot, hlt]
  · rw [slot_set_other _ hj, if_neg hj]

theorem slot_firstFree (l : List (Option α)) : slot l (firstFree l) = none := by
  by_cases hlt : firstFree l < l.length
  · have hnone : (l[firstFree l]).isNone = true := List.findIdx_getElem (w := hlt)
    rw [Option.isNone_iff_eq_none] at hnone
    rw [slot, List.getElem?_eq_getElem hlt, hnone]
    rfl
  · simp [slot, List.getElem?_eq_none (Nat.le_of_not_lt hlt)]

theorem slot_occupy (l : List (Option α)) (a : α) (j : Nat) :
    slot (occupy l (firstFree l) a) j = if j = firstFree l then some a else slot l j := by
  have hle : firstFree l ≤ l.length := List.findIdx_le_length
  unfold occupy
  by_cases hend : firstFree l = l.length
  · rw [if_pos hend, hend]
    by_cases hj : j = l.length
    · simp [slot, hj]
    · rw [if_neg hj]
      rcases Nat.lt_or_ge j l.length with hlt | hge
      · simp [slot, List.getElem?_append_left hlt]
      · simp only [slot]
        rw [List.getElem?_eq_none (by simp; omega), List.getElem?_eq_none hge]
  · rw [if_neg hend]
    by_cases hj : j = firstFree l
    · subst hj
      simp [slot, show firstFree l < l.length by omega]
    · rw [slot_set_other _ hj, if_neg hj]

/-- Something in the table is counted. -/
theorem countP_slot_pos {p : α → Bool} :
    0 < l.countP (Option.any p) ↔ ∃ i a, slot l i = some a ∧ p a = true := by
  rw [List.countP_pos_iff]
  constructor
  · rintro ⟨x, hmem, hx⟩
    obtain ⟨i, hi⟩ := List.mem_iff_getElem?.mp hmem
    cases x with
    | none => cases hx
    | some a => exact ⟨i, a, by simp [slot, hi], hx⟩
  · rintro ⟨i, a, hslot, ha⟩
    refine ⟨some a, List.mem_iff_getElem?.mpr ⟨i, ?_⟩, ha⟩
    simpa [slot, Option.join_eq_some_iff] using hslot

/-- Besides the value at one index another is counted. -/
theorem one_lt_countP_slot {p : α → Bool} (h : slot l i = some a) (ha : p a = true) :
    1 < l.countP (Option.any p) ↔ ∃ j b, j ≠ i ∧ slot l j = some b ∧ p b = true := by
  have hget : l[i]? = some (some a) := by simpa [slot, Option.join_eq_some_iff] using h
  obtain ⟨hlt, hi⟩ := List.getElem?_eq_some_iff.mp hget
  have hcount : (l.set i none).countP (Option.any p) = l.countP (Option.any p) - 1 := by
    rw [List.countP_set hlt]
    simp [hi, ha]
  rw [show 1 < l.countP (Option.any p) ↔ 0 < (l.set i none).countP (Option.any p) by omega,
    countP_slot_pos]
  constructor
  · rintro ⟨j, b, hslot, hb⟩
    rw [slot_set_none] at hslot
    split at hslot
    · cases hslot
    · exact ⟨j, b, ‹_›, hslot, hb⟩
  · rintro ⟨j, b, hne, hslot, hb⟩
    exact ⟨j, b, by rw [slot_set_none, if_neg hne]; exact hslot, hb⟩

end LudOS.Lib
