import LudOS.Lib.Binary64
import LudOS.Utils.Span

/-!
# Powers

`ipow` of `mathutils.hpp` at the type `size_t`: binary exponentiation in which every product wraps.
The result is the power, reduced once.

`is_power_of` compares the quotient of two logarithms with its `floor`. The logarithm is that of
`libc/math.c`, a polynomial with an error of about `10 ^ -7`, so that the quotient is a whole number
for the base itself but not for its other powers. Every operation is taken to round to `double`; the
processor may keep more digits in between.
-/

namespace LudOS.Utils

/-! ## Logarithms -/

section

open Lib.Binary64

/-- The first loop of `log10`; `left` bounds its iterations. -/
def scaleUp : (left : Nat) → (xi : ℚ) → (ex : Int) → ℚ × Int
  | 0, xi, ex => (xi, ex)
  | left + 1, xi, ex => if xi < 1 then scaleUp left (mul xi 10) (ex - 1) else (xi, ex)

/-- The second loop of `log10`. -/
def scaleDown : (left : Nat) → (xi : ℚ) → (ex : Int) → ℚ × Int
  | 0, xi, ex => (xi, ex)
  | left + 1, xi, ex =>
    if 10 < xi then scaleDown left (mul xi (nearest (1 / 10))) (ex + 1) else (xi, ex)

/-- `log10`. A number of type `double` has fewer than 400 digits. -/
def log10 (x : ℚ) : ℚ :=
  if x ≤ 0 then 0
  else
    let (xi, ex) := scaleUp 400 x 0
    let (xi, ex) := scaleDown 400 xi ex
    let q := div (sub xi (nearest 3.16227766)) (add xi (nearest 3.16227766))
    let q2 := mul q q
    let y := add (mul (nearest 0.191337714) q2) (nearest 0.094376476)
    let y := add (mul y q2) (nearest 0.177522071)
    let y := add (mul y q2) (nearest 0.289335524)
    let y := add (mul y q2) (nearest 0.868591718)
    let y := add (mul y q) (nearest 0.5)
    add y ex

/-- `floor`, for numbers so small that neither of its loops is entered. -/
def floor (x : ℚ) : ℚ :=
  if 0 < x then truncate x else truncate (sub x (nearest 0.9999999999))

/-- `is_power_of`. -/
def isPowerOf (value base : Nat) : Bool :=
  let quotient := div (log10 value) (log10 base)
  quotient = floor quotient

/-- A number is always taken for a power of itself. -/
theorem isPowerOf_self {base : Nat} (h : log10 base ≠ 0) : isPowerOf base base = true := by
  unfold isPowerOf
  rw [div_same h]
  decide

/-- Other powers are not recognised. -/
example : (List.range' 1 60).filter (fun i => isPowerOf i 3 || isPowerOf i 5 || isPowerOf i 7) =
    [3, 5, 7] := by
  decide +kernel

end

/-! ## Integer powers -/

/-- The loop of `ipow`; `left` bounds its iterations. -/
def ipowLoop : (left result base exp : Nat) → Nat
  | 0, result, _, _ => result
  | left + 1, result, base, exp =>
    if exp = 0 then result
    else ipowLoop left (if exp % 2 = 1 then wmul result base else result) (wmul base base) (exp / 2)

/-- `ipow<size_t>`. -/
def ipow (base exp : Nat) : Nat := ipowLoop exp 1 base exp

/-- The product of the result and the power that is left does not change modulo the size of the
type. -/
theorem ipowLoop_eq {left result base exp : Nat} (hleft : exp ≤ left) (h : result < 2 ^ 32) :
    ipowLoop left result base exp = result * base ^ exp % 2 ^ 32 := by
  induction left generalizing result base exp with
  | zero =>
    obtain rfl : exp = 0 := Nat.le_zero.mp hleft
    rw [ipowLoop, pow_zero, mul_one, Nat.mod_eq_of_lt h]
  | succ left ih =>
    rw [ipowLoop]
    by_cases hzero : exp = 0
    · rw [if_pos hzero, hzero, pow_zero, mul_one, Nat.mod_eq_of_lt h]
    have hsquare : (wmul base base) ^ (exp / 2) % 2 ^ 32 = base ^ (2 * (exp / 2)) % 2 ^ 32 := by
      unfold wmul
      rw [← Nat.pow_mod, ← pow_two, ← pow_mul]
    have hle : exp / 2 ≤ left := by omega
    have hexp := Nat.div_add_mod exp 2
    rw [if_neg hzero]
    by_cases hodd : exp % 2 = 1
    · have hwmul : wmul result base < 2 ^ 32 := Nat.mod_lt _ (by decide)
      rw [if_pos hodd, ih hle hwmul, Nat.mul_mod, hsquare, ← Nat.mul_mod]
      unfold wmul
      rw [Nat.mod_mul_mod, mul_assoc, ← pow_succ', ← hodd, hexp]
    · rw [if_neg hodd, ih hle h, Nat.mul_mod, hsquare, ← Nat.mul_mod,
        show 2 * (exp / 2) = exp by omega]

/-- `ipow` wraps like a single product. -/
theorem ipow_eq (base exp : Nat) : ipow base exp = base ^ exp % 2 ^ 32 := by
  unfold ipow
  rw [ipowLoop_eq (Nat.le_refl exp) (by decide), one_mul]

end LudOS.Utils
