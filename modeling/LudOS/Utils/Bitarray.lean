import Mathlib.Tactic.Common

/-!
# Packed bits

The model of `utils/bitarray.hpp`: an array of bits packed into machine words, bit `bitnum` being
bit `bitnum % w` of word `bitnum / w`. A bit is read and written through a mask, as `bitref` does.
-/

namespace LudOS

/-- `bitarray<Size, IntType>` for an integer type of `w` bits: the words `m_vals`. -/
structure Bitarray (w : Nat) where
  vals : Nat → BitVec w

namespace Bitarray

variable {w : Nat}

/-- `IntType(1) << bitnum` for the position of a bit in its word. -/
def mask (bitnum : Nat) : BitVec w := 1#w <<< (bitnum % w)

/-- `bitarray::operator[]`. -/
def get (bits : Bitarray w) (bitnum : Nat) : Bool :=
  bits.vals (bitnum / w) &&& mask bitnum != 0#w

/-- `bitref::operator=`. -/
def set (bits : Bitarray w) (bitnum : Nat) (val : Bool) : Bitarray w :=
  ⟨Function.update bits.vals (bitnum / w)
    (if val then bits.vals (bitnum / w) ||| mask bitnum
      else bits.vals (bitnum / w) &&& ~~~mask bitnum)⟩

theorem getLsbD_mask {bitnum i : Nat} (hi : i < w) :
    (mask bitnum : BitVec w).getLsbD i = decide (i = bitnum % w) := by
  have hlt : bitnum % w < w := Nat.mod_lt _ (by omega)
  unfold mask
  rw [BitVec.getLsbD_shiftLeft, BitVec.getLsbD_one]
  simp only [decide_eq_true hi, Bool.true_and]
  by_cases hle : i < bitnum % w
  · have hne : i ≠ bitnum % w := by omega
    simp [hle, hne]
  · have hsub : i - bitnum % w = 0 ↔ i = bitnum % w := by omega
    simp [hle, hsub, show 0 < w by omega]

/-- Reading through the mask gives the bit of the word. -/
theorem get_eq_getLsbD (hw : 0 < w) (bits : Bitarray w) (bitnum : Nat) :
    bits.get bitnum = (bits.vals (bitnum / w)).getLsbD (bitnum % w) := by
  have hlt : bitnum % w < w := Nat.mod_lt _ hw
  unfold get
  cases hbit : (bits.vals (bitnum / w)).getLsbD (bitnum % w) with
  | true =>
    have hne : bits.vals (bitnum / w) &&& mask bitnum ≠ 0#w := by
      intro hzero
      have := congrArg (fun v => v.getLsbD (bitnum % w)) hzero
      simp [BitVec.getLsbD_and, getLsbD_mask hlt, hbit] at this
    simpa using hne
  | false =>
    have hzero : bits.vals (bitnum / w) &&& mask bitnum = 0#w := by
      refine BitVec.eq_of_getLsbD_eq fun i hi => ?_
      rw [BitVec.getLsbD_and, getLsbD_mask hi, BitVec.getLsbD_zero]
      by_cases heq : i = bitnum % w
      · simp [heq, hbit]
      · simp [heq]
    simp [hzero]

/-- Writing a bit changes that bit and no other one. -/
theorem get_set (hw : 0 < w) (bits : Bitarray w) (i j : Nat) (val : Bool) :
    (bits.set i val).get j = if j = i then val else bits.get j := by
  have hlt : j % w < w := Nat.mod_lt _ hw
  rw [get_eq_getLsbD hw, get_eq_getLsbD hw]
  unfold set
  dsimp only
  by_cases hword : j / w = i / w
  · -- The same word: only the bit under the mask is changed.
    have hsame : j % w = i % w ↔ j = i := by
      refine ⟨fun hmod => ?_, fun heq => heq ▸ rfl⟩
      rw [← Nat.div_add_mod j w, ← Nat.div_add_mod i w, hword, hmod]
    have hmask : (mask i : BitVec w).getLsbD (j % w) = decide (j = i) := by
      rw [getLsbD_mask hlt]
      exact decide_eq_decide.mpr hsame
    rw [hword, Function.update_self]
    cases val with
    | true =>
      rw [if_pos rfl, BitVec.getLsbD_or, hmask]
      by_cases heq : j = i <;> simp only [heq, decide_true, decide_false, if_true, if_false,
        Bool.or_true, Bool.or_false]
    | false =>
      rw [if_neg (by decide), BitVec.getLsbD_and, BitVec.getLsbD_not, hmask, decide_eq_true hlt]
      by_cases heq : j = i <;> simp only [heq, decide_true, decide_false, if_true, if_false,
        Bool.not_true, Bool.not_false, Bool.and_true, Bool.and_false]
  · have hne : j ≠ i := fun h => hword (h ▸ rfl)
    rw [Function.update_of_ne hword, if_neg hne]

end Bitarray

end LudOS
