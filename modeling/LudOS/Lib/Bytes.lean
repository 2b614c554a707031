import Mathlib.Tactic.Ring
import Mathlib.Data.Nat.Bitwise

/-!
# Byte memories

A byte memory is a total map from addresses to bytes. `view` shifts the origin, `splice`
overwrites a range, and `u16`, `u32`, `putU16`, `putU32` are the little-endian accessors a
packed C structure is read and written with. The lemmas say which bytes an operation changes
and that every read outside of them is unchanged.
-/

namespace LudOS.Lib

/-- A byte-addressed memory. -/
abbrev Bytes := Nat → UInt8

namespace Bytes

variable {m src m' : Bytes} {off len base off' i n value : Nat}

/-- The memory seen from address `base` on. -/
def view (m : Bytes) (base : Nat) : Bytes := fun i => m (base + i)

/-- The memory with its `len` bytes from `base` on replaced by the first bytes of `src`. -/
def splice (m : Bytes) (base len : Nat) (src : Bytes) : Bytes :=
  fun a => if base ≤ a ∧ a < base + len then src (a - base) else m a

/-- The little-endian 16-bit value at `off`. -/
def u16 (m : Bytes) (off : Nat) : Nat := (m off).toNat + 2 ^ 8 * (m (off + 1)).toNat

/-- The little-endian 32-bit value at `off`. -/
def u32 (m : Bytes) (off : Nat) : Nat :=
  (m off).toNat + 2 ^ 8 * (m (off + 1)).toNat + 2 ^ 16 * (m (off + 2)).toNat +
    2 ^ 24 * (m (off + 3)).toNat

/-- The little-endian bytes of a number. -/
def ofNat (value : Nat) : Bytes := fun i => UInt8.ofNat (value / 2 ^ (8 * i))

/-- Store the low 16 bits of `value` at `off`. -/
def putU16 (m : Bytes) (off value : Nat) : Bytes := m.splice off 2 (ofNat value)

/-- Store the low 32 bits of `value` at `off`. -/
def putU32 (m : Bytes) (off value : Nat) : Bytes := m.splice off 4 (ofNat value)

@[simp] theorem view_apply (m : Bytes) (base i : Nat) : m.view base i = m (base + i) := rfl

@[simp] theorem view_zero (m : Bytes) : m.view 0 = m := by
  funext i
  rw [view_apply, Nat.zero_add]

/-! ## What a splice changes -/

theorem splice_inside {a : Nat} (h : base ≤ a) (h' : a < base + len) :
    m.splice base len src a = src (a - base) := by
  simp [splice, h, h']

theorem splice_outside {a : Nat} (h : a < base ∨ base + len ≤ a) :
    m.splice base len src a = m a := by
  have hno : ¬ (base ≤ a ∧ a < base + len) := by omega
  simp [splice, hno]

/-- A splice of bytes that are already there changes nothing. -/
theorem splice_self (h : ∀ i < len, src i = m (base + i)) : m.splice base len src = m := by
  funext a
  by_cases ha : base ≤ a ∧ a < base + len
  · rw [splice_inside ha.1 ha.2, h (a - base) (by omega), Nat.add_sub_cancel' ha.1]
  · exact splice_outside (by omega)

/-- Only the first `len` bytes of the source matter. -/
theorem splice_congr {src' : Bytes} (h : ∀ i < len, src i = src' i) :
    m.splice base len src = m.splice base len src' := by
  funext a
  by_cases ha : base ≤ a ∧ a < base + len
  · rw [splice_inside ha.1 ha.2, splice_inside ha.1 ha.2, h (a - base) (by omega)]
  · rw [splice_outside (by omega), splice_outside (by omega)]

@[simp] theorem splice_zero (m src : Bytes) (base : Nat) : m.splice base 0 src = m :=
  splice_self (by simp)

/-- The last splice of a range counts. -/
theorem splice_splice (m src src' : Bytes) (base len : Nat) :
    (m.splice base len src).splice base len src' = m.splice base len src' := by
  funext a
  by_cases ha : base ≤ a ∧ a < base + len
  · rw [splice_inside ha.1 ha.2, splice_inside ha.1 ha.2]
  · rw [splice_outside (by omega), splice_outside (by omega), splice_outside (by omega)]

/-- Two adjacent splices from one source are one splice. -/
theorem splice_append (m src : Bytes) (base n k : Nat) :
    (m.splice base n src).splice (base + n) k (src.view n) = m.splice base (n + k) src := by
  funext a
  by_cases hk : base + n ≤ a ∧ a < base + n + k
  · rw [splice_inside hk.1 hk.2, splice_inside (by omega) (by omega), view_apply]
    congr 1
    omega
  · rw [splice_outside (by omega)]
    by_cases hn : base ≤ a ∧ a < base + n
    · rw [splice_inside hn.1 hn.2, splice_inside (by omega) (by omega)]
    · rw [splice_outside (by omega), splice_outside (by omega)]

/-- Reading a range, splicing into it and writing it back is a splice of the memory. -/
theorem splice_of_rewrite {buf : Bytes} (h : off + n ≤ len)
    (hbuf : ∀ i < len, buf i = m (base + i)) :
    m.splice base len (buf.splice off n src) = m.splice (base + off) n src := by
  funext a
  by_cases ha : base ≤ a ∧ a < base + len
  · rw [splice_inside ha.1 ha.2]
    by_cases hn : base + off ≤ a ∧ a < base + off + n
    · rw [splice_inside (by omega) (by omega), splice_inside hn.1 hn.2]
      congr 1
      omega
    · rw [splice_outside (by omega), splice_outside (by omega), hbuf _ (by omega)]
      congr 1
      omega
  · rw [splice_outside (by omega), splice_outside (by omega)]

/-- A head, a tail and a middle that fill a range between them. -/
theorem three_splices (m b₁ b₂ b₃ : Bytes) {h k e : Nat} (hi : i < h + k + e) :
    ((m.splice 0 h b₁).splice (h + k) e b₂).splice h k b₃ i =
      if i < h then b₁ i else if i < h + k then b₃ (i - h) else b₂ (i - (h + k)) := by
  by_cases h1 : i < h
  · rw [if_pos h1, splice_outside (by omega), splice_outside (by omega),
      splice_inside (by omega) (by omega), Nat.sub_zero]
  · rw [if_neg h1]
    by_cases h2 : i < h + k
    · rw [if_pos h2, splice_inside (by omega) h2]
    · rw [if_neg h2, splice_outside (by omega), splice_inside (by omega) (by omega)]

/-! ## Blocks -/

/-- The first `n` bytes, followed by zeroes. -/
def trunc (m : Bytes) (n : Nat) : Bytes := fun i => if i < n then m i else 0

/-- Block `n` of a memory cut into blocks of `size` bytes. -/
def block (m : Bytes) (size n : Nat) : Bytes := (m.view (n * size)).trunc size

theorem trunc_apply (h : i < n) : m.trunc n i = m i := if_pos h

@[simp] theorem trunc_trunc (m : Bytes) (n : Nat) : (m.trunc n).trunc n = m.trunc n := by
  funext i
  unfold trunc
  split <;> rfl

@[simp] theorem trunc_block (m : Bytes) (size n : Nat) :
    (m.block size n).trunc size = m.block size n := trunc_trunc _ _

theorem block_apply {size : Nat} (h : i < size) :
    m.block size n i = m (n * size + i) := trunc_apply h

theorem trunc_eq_trunc : m.trunc n = m'.trunc n ↔ ∀ i < n, m i = m' i := by
  constructor
  · intro h i hi
    have := congrFun h i
    rwa [trunc_apply hi, trunc_apply hi] at this
  · intro h
    funext i
    unfold trunc
    split
    case isTrue hi => exact h i hi
    case isFalse => rfl

theorem trunc_splice (h : base + len ≤ n) :
    (m.splice base len src).trunc n = (m.trunc n).splice base len src := by
  funext a
  by_cases ha : base ≤ a ∧ a < base + len
  · rw [trunc_apply (by omega), splice_inside ha.1 ha.2, splice_inside ha.1 ha.2]
  · rw [splice_outside (by omega)]
    unfold trunc
    rw [splice_outside (by omega)]

/-- Storing to a part of one block changes no other block. -/
theorem block_splice_other {size k : Nat} (h : n * size ≤ base)
    (h' : base + len ≤ n * size + size) (hne : k ≠ n) :
    (m.splice base len src).block size k = m.block size k := by
  refine trunc_eq_trunc.mpr fun i hi => ?_
  rw [view_apply, view_apply]
  refine splice_outside ?_
  rcases Nat.lt_or_gt_of_ne hne with hlt | hgt
  · have := Nat.mul_le_mul_right size (Nat.succ_le_of_lt hlt)
    rw [Nat.succ_mul] at this
    omega
  · have := Nat.mul_le_mul_right size (Nat.succ_le_of_lt hgt)
    rw [Nat.succ_mul] at this
    omega

/-- Overwriting one block changes that block and no other one. -/
theorem block_splice (m src : Bytes) (size n k : Nat) :
    (m.splice (n * size) size src).block size k =
      if k = n then src.trunc size else m.block size k := by
  split
  case isTrue h =>
    subst h
    refine trunc_eq_trunc.mpr fun i hi => ?_
    rw [view_apply, splice_inside (by omega) (by omega), Nat.add_sub_cancel_left]
  case isFalse h => exact block_splice_other (Nat.le_refl _) (Nat.le_refl _) h

/-! ## Little-endian values -/

theorem u32_lt (m : Bytes) (off : Nat) : m.u32 off < 2 ^ 32 := by
  have h0 := (m off).toNat_lt
  have h1 := (m (off + 1)).toNat_lt
  have h2 := (m (off + 2)).toNat_lt
  have h3 := (m (off + 3)).toNat_lt
  simp only [u32]
  omega

theorem u16_congr (h : ∀ i < 2, m (off + i) = m' (off' + i)) : m.u16 off = m'.u16 off' := by
  have h0 := h 0 (by omega)
  have h1 := h 1 (by omega)
  simp only [Nat.add_zero] at h0
  simp only [u16, h0, h1]

theorem u32_congr (h : ∀ i < 4, m (off + i) = m' (off' + i)) : m.u32 off = m'.u32 off' := by
  have h0 := h 0 (by omega)
  have h1 := h 1 (by omega)
  have h2 := h 2 (by omega)
  have h3 := h 3 (by omega)
  simp only [Nat.add_zero] at h0
  simp only [u32, h0, h1, h2, h3]

theorem u16_splice_outside
    (h : off + 2 ≤ base ∨ base + len ≤ off) : (m.splice base len src).u16 off = m.u16 off :=
  u16_congr fun i hi => splice_outside (by omega)

theorem u32_splice_outside
    (h : off + 4 ≤ base ∨ base + len ≤ off) : (m.splice base len src).u32 off = m.u32 off :=
  u32_congr fun i hi => splice_outside (by omega)

theorem u16_splice_inside (h : base ≤ off)
    (h' : off + 2 ≤ base + len) : (m.splice base len src).u16 off = src.u16 (off - base) := by
  refine u16_congr fun i hi => ?_
  rw [splice_inside (by omega) (by omega)]
  congr 1
  omega

theorem u32_splice_inside (h : base ≤ off)
    (h' : off + 4 ≤ base + len) : (m.splice base len src).u32 off = src.u32 (off - base) := by
  refine u32_congr fun i hi => ?_
  rw [splice_inside (by omega) (by omega)]
  congr 1
  omega

theorem u16_of_nat (value : Nat) : (ofNat value).u16 0 = value % 2 ^ 16 := by
  simp only [u16, ofNat, UInt8.toNat_ofNat']
  omega

theorem u32_of_nat (value : Nat) : (ofNat value).u32 0 = value % 2 ^ 32 := by
  simp only [u32, ofNat, UInt8.toNat_ofNat']
  omega

@[simp] theorem u16_putU16_same (m : Bytes) (off value : Nat) :
    (m.putU16 off value).u16 off = value % 2 ^ 16 := by
  rw [putU16, u16_splice_inside (Nat.le_refl _) (Nat.le_refl _), Nat.sub_self, u16_of_nat]

@[simp] theorem u32_putU32_same (m : Bytes) (off value : Nat) :
    (m.putU32 off value).u32 off = value % 2 ^ 32 := by
  rw [putU32, u32_splice_inside (Nat.le_refl _) (Nat.le_refl _), Nat.sub_self, u32_of_nat]

theorem u32_putU16_other (h : off' + 4 ≤ off ∨ off + 2 ≤ off') :
    (m.putU16 off value).u32 off' = m.u32 off' :=
  u32_splice_outside h

theorem u16_putU16_other (h : off' + 2 ≤ off ∨ off + 2 ≤ off') :
    (m.putU16 off value).u16 off' = m.u16 off' :=
  u16_splice_outside h

theorem u32_putU32_other (h : off' + 4 ≤ off ∨ off + 4 ≤ off') :
    (m.putU32 off value).u32 off' = m.u32 off' :=
  u32_splice_outside h

theorem u16_putU32_other (h : off' + 2 ≤ off ∨ off + 4 ≤ off') :
    (m.putU32 off value).u16 off' = m.u16 off' :=
  u16_splice_outside h

end Bytes

end LudOS.Lib
