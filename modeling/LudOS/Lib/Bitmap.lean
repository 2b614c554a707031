import Mathlib.Data.Finset.Card
import LudOS.Lib.Bytes

/-!
# Bitmaps

A byte memory read as a sequence of bits, bit `j` being bit `j % 8` of byte `j / 8`. Setting or
clearing one bit moves the number of clear bits by one, and `firstClear` is the scan for the first
clear bit.
-/

namespace LudOS.Lib.Bytes

/-- Bit `j` of the bitmap. -/
def bit (m : Bytes) (j : Nat) : Bool := (m (j / 8)).toBitVec.getLsbD (j % 8)

/-- The bitmap with bit `j` set. -/
def setBit (m : Bytes) (j : Nat) : Bytes :=
  Function.update m (j / 8) ⟨(m (j / 8)).toBitVec ||| BitVec.twoPow 8 (j % 8)⟩

/-- The bitmap with bit `j` cleared. -/
def clearBit (m : Bytes) (j : Nat) : Bytes :=
  Function.update m (j / 8) ⟨(m (j / 8)).toBitVec &&& ~~~BitVec.twoPow 8 (j % 8)⟩

/-- The first clear bit among the first `n`. -/
def firstClear (m : Bytes) (n : Nat) : Option Nat := (List.range n).find? fun j => !m.bit j

/-- The clear bits among the first `n`. -/
def clearBits (m : Bytes) (n : Nat) : Finset Nat := (Finset.range n).filter fun j => m.bit j = false

variable {m : Bytes} {i j n : Nat}

theorem mem_clearBits : j ∈ m.clearBits n ↔ j < n ∧ m.bit j = false := by
  rw [clearBits, Finset.mem_filter, Finset.mem_range]

/-! ## One bit -/

theorem bit_setBit (m : Bytes) (i j : Nat) : (m.setBit j).bit i = (decide (i = j) || m.bit i) := by
  by_cases hbyte : i / 8 = j / 8
  · have hsame : j % 8 = i % 8 ↔ i = j := by omega
    have hlt : j % 8 < 8 := Nat.mod_lt _ (by decide)
    simp only [bit, setBit, hbyte, Function.update_self, BitVec.getLsbD_or, BitVec.getLsbD_twoPow,
      hlt, decide_true, Bool.true_and, hsame]
    exact Bool.or_comm _ _
  · have hij : i ≠ j := fun h => hbyte (h ▸ rfl)
    simp [bit, setBit, Function.update_of_ne hbyte, hij]

theorem bit_clearBit (m : Bytes) (i j : Nat) :
    (m.clearBit j).bit i = (!decide (i = j) && m.bit i) := by
  by_cases hbyte : i / 8 = j / 8
  · have hsame : j % 8 = i % 8 ↔ i = j := by omega
    have hlt : j % 8 < 8 := Nat.mod_lt _ (by decide)
    have hlt' : i % 8 < 8 := Nat.mod_lt _ (by decide)
    simp only [bit, clearBit, hbyte, Function.update_self, BitVec.getLsbD_and, BitVec.getLsbD_not,
      BitVec.getLsbD_twoPow, hlt, hlt', decide_true, Bool.true_and, hsame]
    exact Bool.and_comm _ _
  · have hij : i ≠ j := fun h => hbyte (h ▸ rfl)
    simp [bit, clearBit, Function.update_of_ne hbyte, hij]

/-- Only the bytes of the bitmap decide its bits. -/
theorem bit_congr {m' : Bytes} (h : m (j / 8) = m' (j / 8)) : m.bit j = m'.bit j := by
  rw [bit, bit, h]

/-! ## Counting and scanning -/

theorem clearBits_setBit (m : Bytes) (n j : Nat) :
    (m.setBit j).clearBits n = (m.clearBits n).erase j := by
  ext i
  rw [mem_clearBits, bit_setBit, Finset.mem_erase, mem_clearBits]
  simp only [Bool.or_eq_false_iff, decide_eq_false_iff_not]
  tauto

theorem clearBits_clearBit (m : Bytes) (h : j < n) :
    (m.clearBit j).clearBits n = insert j (m.clearBits n) := by
  ext i
  rw [mem_clearBits, bit_clearBit, Finset.mem_insert, mem_clearBits]
  by_cases hij : i = j
  · simp [hij, h]
  · simp [hij]

/-- The bytes after the bitmap do not matter. -/
theorem clearBits_trunc (m : Bytes) (n : Nat) :
    (m.trunc n).clearBits (n * 8) = m.clearBits (n * 8) := by
  ext i
  rw [mem_clearBits, mem_clearBits]
  refine and_congr_right fun hi => ?_
  rw [bit_congr (trunc_apply (by omega))]

/-- The scan finds a clear bit, the first one. -/
theorem firstClear_eq_some (h : m.firstClear n = some j) : j ∈ m.clearBits n := by
  rw [mem_clearBits]
  exact ⟨List.mem_range.mp (List.mem_of_find?_eq_some h), by simpa using List.find?_some h⟩

/-- The scan finds nothing exactly when no bit is clear. -/
theorem firstClear_eq_none : m.firstClear n = none ↔ m.clearBits n = ∅ := by
  rw [firstClear, List.find?_eq_none, Finset.eq_empty_iff_forall_notMem]
  simp [mem_clearBits]

end LudOS.Lib.Bytes
