import Mathlib.Data.List.Basic
import Mathlib.Order.MinMax

/-!
# The lines a terminal keeps

`CircularBuffer` of `utils/circularbuffer.hpp` against the list of the values that have been added
since it was cleared. An assertion that fails and an access outside of the vector are `none`.

`Holds` is the invariant: a value stands at its number modulo the height, until as many others have
followed it.
-/

namespace LudOS

/-- `CircularBuffer`. -/
structure CircularBuffer (α : Type) where
  data : List α
  front : Nat
  full : Bool

namespace CircularBuffer

variable {α : Type}

/-- The buffer as it is constructed; its vector holds values made by default. -/
def new (height : Nat) (value : α) : CircularBuffer α := ⟨.replicate height value, 0, false⟩

/-- `get_entry`. -/
def getEntry (b : CircularBuffer α) (idx : Nat) : Option α :=
  if idx < b.data.length then
    b.data[if b.full then (b.front + idx) % b.data.length else idx]?
  else none

/-- `add`. -/
def add (b : CircularBuffer α) (entry : α) : Option (CircularBuffer α) :=
  if b.front < b.data.length then
    let data := b.data.set b.front entry
    if b.front + 1 = data.length then some ⟨data, 0, true⟩
    else some ⟨data, b.front + 1, b.full⟩
  else none

/-- `size`. -/
def size (b : CircularBuffer α) : Nat := if b.full then b.data.length else b.front

/-- `clear`. -/
def clear (b : CircularBuffer α) : CircularBuffer α := { b with front := 0, full := false }

/-- The calls that change the buffer. -/
inductive Op (α : Type) where
  | add (entry : α)
  | clear

/-- A call is performed. -/
def perform (b : CircularBuffer α) : Op α → Option (CircularBuffer α)
  | .add entry => b.add entry
  | .clear => some b.clear

/-- The values added since the last `clear`, after those of `xs`. -/
def added (xs : List α) : List (Op α) → List α
  | [] => xs
  | .add entry :: ops => added (xs ++ [entry]) ops
  | .clear :: ops => added [] ops

/-- The buffer holds the last of the values, each at its number modulo the height. -/
structure Holds (height : Nat) (b : CircularBuffer α) (xs : List α) : Prop where
  length : b.data.length = height
  front : b.front = xs.length % height
  full : b.full = true ↔ height ≤ xs.length
  entry : ∀ k < xs.length, xs.length ≤ k + height → b.data[k % height]? = xs[k]?

namespace Holds

variable {height : Nat} {b : CircularBuffer α} {xs : List α}

/-- A value that is added takes the place of the oldest one. -/
theorem add (h : Holds height b xs) (hpos : 0 < height) (entry : α) :
    ∃ b', b.add entry = some b' ∧ Holds height b' (xs ++ [entry]) := by
  obtain ⟨hlength, hfront, hfull, hentry⟩ := h
  have hlt := Nat.mod_lt xs.length hpos
  have hle := Nat.mod_le xs.length height
  have hsmall : xs.length < height → xs.length % height = xs.length := Nat.mod_eq_of_lt
  have hlen : (xs ++ [entry]).length = xs.length + 1 := List.length_append
  have hset : ∀ k < xs.length + 1, xs.length + 1 ≤ k + height →
      (b.data.set b.front entry)[k % height]? = (xs ++ [entry])[k]? := by
    intro k hk hheld
    obtain rfl | hk := Nat.eq_or_lt_of_le (Nat.le_of_lt_succ hk)
    · simp [hfront, hlength, hlt]
    · -- A value that is still held does not stand where the new one is stored.
      have hne : xs.length % height ≠ k % height := fun hsame => by
        have hdvd := Nat.dvd_of_mod_eq_zero (Nat.sub_mod_eq_zero_of_mod_eq hsame)
        have hzero := Nat.eq_zero_of_dvd_of_lt hdvd (by omega)
        omega
      rw [hfront, List.getElem?_set_ne hne, hentry k hk (by omega), List.getElem?_append_left hk]
  unfold CircularBuffer.add
  rw [hfront] at hset ⊢
  simp only [hlength, hlt, if_true, List.length_set]
  split
  case isTrue hend =>
    refine ⟨_, rfl, by simpa using hlength, ?_, by grind, hlen ▸ hset⟩
    rw [hlen, ← Nat.mod_add_mod, hend, Nat.mod_self]
  case isFalse hend =>
    refine ⟨_, rfl, by simpa using hlength, ?_, by grind, hlen ▸ hset⟩
    rw [hlen, ← Nat.mod_add_mod]
    exact (Nat.mod_eq_of_lt (show xs.length % height + 1 < height by omega)).symm

theorem size (h : Holds height b xs) : b.size = min height xs.length := by
  obtain ⟨hlength, hfront, hfull, -⟩ := h
  have hsmall : xs.length < height → xs.length % height = xs.length := Nat.mod_eq_of_lt
  grind [CircularBuffer.size]

/-- The entries are the last values, the oldest first. -/
theorem getEntry (h : Holds height b xs) {i : Nat} (hi : i < b.size) :
    b.getEntry i = (xs.drop (xs.length - b.size))[i]? := by
  rw [h.size] at hi ⊢
  rw [List.getElem?_drop, ← h.entry _ (by omega) (by omega)]
  simp only [CircularBuffer.getEntry, h.length, h.front, show i < height by omega, if_true]
  split
  case isTrue hfull =>
    rw [Nat.mod_add_mod, Nat.min_eq_left (h.full.mp hfull),
      ← Nat.add_mod_right (xs.length - height + i)]
    congr 2
    have := h.full.mp hfull
    omega
  case isFalse hfull =>
    have hlt := Nat.lt_of_not_le (mt h.full.mpr hfull)
    rw [Nat.min_eq_right hlt.le, Nat.sub_self, Nat.zero_add, Nat.mod_eq_of_lt (by omega)]

/-- The invariant holds after every sequence of calls, none of which fails. -/
theorem run (h : Holds height b xs) (hpos : 0 < height) (ops : List (Op α)) :
    ∃ b', ops.foldlM perform b = some b' ∧ Holds height b' (added xs ops) := by
  induction ops generalizing b xs with
  | nil => exact ⟨b, rfl, h⟩
  | cons op ops ih =>
    cases op with
    | add entry =>
      obtain ⟨b', hadd, h'⟩ := h.add hpos entry
      obtain ⟨b'', hrun, h''⟩ := ih h'
      exact ⟨b'', (congrArg (· >>= _) hadd).trans hrun, h''⟩
    | clear =>
      exact ih ⟨h.length, (Nat.zero_mod _).symm, by simp [CircularBuffer.clear, hpos.ne'], by simp⟩

end Holds

/-- After any calls the buffer shows the last values that were added, oldest first. -/
theorem circular_buffer_shows_last {height : Nat} (hpos : 0 < height) (value : α)
    (ops : List (Op α)) : ∃ b, ops.foldlM perform (new height value) = some b ∧
      b.size = min height (added [] ops).length ∧ ∀ i < b.size,
        b.getEntry i = ((added [] ops).drop ((added [] ops).length - b.size))[i]? := by
  have hnew : Holds height (new height value) [] :=
    ⟨List.length_replicate, (Nat.zero_mod _).symm, by simp [new, hpos.ne'], by simp⟩
  obtain ⟨b, hrun, h⟩ := hnew.run hpos ops
  exact ⟨b, hrun, h.size, fun i hi => h.getEntry hi⟩

/-- A buffer of two entries that is cleared and then overfilled. -/
theorem circular_buffer_wraps : ∃ b,
    [Op.add 1, .clear, .add 2, .add 3, .add 4].foldlM perform (new 2 0) = some b ∧
      b.size = min 2 3 ∧ ∀ i < b.size, b.getEntry i = ([2, 3, 4].drop (3 - b.size))[i]? :=
  circular_buffer_shows_last (show 0 < 2 by decide) 0 _

end CircularBuffer

end LudOS
