import Mathlib.Algebra.Order.Ring.Rat

/-!
# Arithmetic of `double`

Numbers of the type `double` are known by their values, which are rational. An operation computes
the exact result and rounds it to 53 binary digits, a tie to the even one. Only finite numbers of
the normal range are covered: there is no overflow, no subnormal number and no negative zero.
-/

namespace LudOS.Lib.Binary64

/-- The quotient rounded to the nearest whole number, a tie to the even one. -/
def divNearest (n d : Nat) : Nat :=
  let q := n / d
  if 2 * (n % d) < d then q
  else if d < 2 * (n % d) then q + 1
  else q + q % 2

/-- Numerator and denominator of `n / d` times `2 ^ k`. -/
def scaled (n d : Nat) (k : Int) : Nat × Nat :=
  if 0 ≤ k then (n * 2 ^ k.toNat, d) else (n, d * 2 ^ (-k).toNat)

/-- The positive fraction `n / d` rounded to 53 binary digits. -/
def roundPos (n d : Nat) : ℚ :=
  -- The logarithms of numerator and denominator give the exponent up to one.
  let k : Int := 52 - n.log2 + d.log2
  let k := if (scaled n d k).1 / (scaled n d k).2 < 2 ^ 52 then k + 1 else k
  let m := divNearest (scaled n d k).1 (scaled n d k).2
  if 0 ≤ k then mkRat m (2 ^ k.toNat) else (m * 2 ^ (-k).toNat : Nat)

/-- The number of type `double` next to `q`. -/
def nearest (q : ℚ) : ℚ :=
  if q.num = 0 then 0
  else if 0 < q.num then roundPos q.num.natAbs q.den
  else -roundPos q.num.natAbs q.den

/-- The sum of two numbers. -/
def add (x y : ℚ) : ℚ := nearest (x + y)

/-- The difference of two numbers. -/
def sub (x y : ℚ) : ℚ := nearest (x - y)

/-- The product of two numbers. -/
def mul (x y : ℚ) : ℚ := nearest (x * y)

/-- The quotient of two numbers. -/
def div (x y : ℚ) : ℚ := nearest (x / y)

/-- The conversion to an integer type cuts the fraction off. -/
def truncate (x : ℚ) : Int := x.num.tdiv x.den

/-- A number divided by itself is one, without an error. -/
theorem div_same {x : ℚ} (h : x ≠ 0) : div x x = 1 := by
  unfold div
  rw [Rat.div_def, Rat.mul_inv_cancel x h]
  decide

end LudOS.Lib.Binary64
