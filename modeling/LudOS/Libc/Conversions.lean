import Mathlib.Data.Nat.Digits.Lemmas

/-!
# Numbers as text

`itoa` of `libc/itoa.cpp` and `atoi` of `libc/atoi.cpp`, on the values of the 64-bit type. `itoa`
writes the canonical digits of a value in every base, and `atoi` reads the decimal ones back, for
the least value as well.
-/

namespace LudOS.Libc

/-- The character that `itoa` stores for a digit. -/
def digitChar (i : Nat) : Char :=
  if i < 10 then .ofNat (i + '0'.toNat) else .ofNat (i + 'a'.toNat - 10)

/-- The loop of `itoa` that fills `tmp`, with the last character first; `room` characters are left
there, and `none` means that they do not suffice. -/
def fillDigits (radix : Nat) : (room v : Nat) → (tmp : List Char) → Option (List Char)
  | 0, v, tmp => if v ≠ 0 ∨ tmp = [] then none else some tmp
  | room + 1, v, tmp =>
    if v ≠ 0 ∨ tmp = [] then fillDigits radix room (v / radix) (digitChar (v % radix) :: tmp)
    else some tmp

/-- `itoa`: the characters that are stored, and the number that is returned. -/
def itoa (value : BitVec 64) (radix : Nat) : Option (List Char × Nat) :=
  let sign := radix = 10 ∧ value.toInt < 0
  let v := if sign then (-value).toNat else value.toNat
  (fillDigits radix 65 v []).map fun tmp =>
    if sign then ('-' :: tmp, tmp.length + 1) else (tmp, tmp.length)

/-- The loop of `atoi`. -/
def atoiFrom (value : BitVec 64) : List Char → BitVec 64
  | [] => value
  | c :: s => if c.isDigit then atoiFrom (value * 10 + .ofNat 64 (c.toNat - '0'.toNat)) s else value

/-- `atoi` of a text with a zero after it. -/
def atoi (c : List Char) : BitVec 64 :=
  let sign : BitVec 64 := if c.head? = some '-' then -1 else 1
  atoiFrom 0#64 (if c.head? = some '+' ∨ c.head? = some '-' then c.tail else c) * sign

/-- The digits of a number, the last one first. -/
def digitsOf (radix v : Nat) : List Nat := if v = 0 then [0] else Nat.digits radix v

/-- The characters of these digits, the first one first. -/
def canonicalDigits (radix v : Nat) : List Char := ((digitsOf radix v).map digitChar).reverse

/-- The text of a value. -/
def canonicalText (value : BitVec 64) (radix : Nat) : List Char :=
  if radix = 10 ∧ value.toInt < 0 then '-' :: canonicalDigits radix value.toInt.natAbs
  else canonicalDigits radix value.toNat

variable {radix room v : Nat}

/-- The loop puts the digits that are left before those that it has. -/
theorem fillDigits_eq (hradix : 2 ≤ radix) (hv : v < 2 ^ room) {tmp : List Char}
    (hne : v = 0 → tmp ≠ []) :
    fillDigits radix room v tmp = some (((Nat.digits radix v).map digitChar).reverse ++ tmp) := by
  induction room generalizing v tmp with
  | zero =>
    obtain rfl : v = 0 := by simpa using hv
    simp [fillDigits, hne]
  | succ room ih =>
    by_cases hzero : v = 0
    · subst hzero
      simp [fillDigits, hne]
    · have hdiv : v / radix < 2 ^ room := by
        rw [Nat.div_lt_iff_lt_mul (by omega)]
        exact hv.trans_le (pow_succ 2 room ▸ Nat.mul_le_mul_left _ hradix)
      rw [fillDigits, if_pos (.inl hzero), ih hdiv (fun _ => List.cons_ne_nil _ _),
        Nat.digits_of_two_le_of_pos hradix (Nat.pos_of_ne_zero hzero)]
      simp

/-- The 65 characters of `tmp` suffice. -/
theorem fillDigits_canonical (hradix : 2 ≤ radix) (hv : v < 2 ^ 64) :
    fillDigits radix 65 v [] = some (canonicalDigits radix v) := by
  unfold canonicalDigits digitsOf
  split
  case isTrue hzero => simp [fillDigits, hzero]
  case isFalse hne =>
    rw [fillDigits_eq hradix (by omega) fun h => absurd h hne, List.append_nil]

/-- The characters of decimal digits are those that `atoi` takes. -/
theorem isDigit_digitChar {i : Nat} (hi : i < 10) :
    (digitChar i).isDigit = true ∧ (digitChar i).toNat - '0'.toNat = i := by
  interval_cases i <;> decide

theorem digitsOf_spec (v : Nat) :
    (∀ d ∈ digitsOf 10 v, d < 10) ∧ Nat.ofDigits 10 (digitsOf 10 v) = v := by
  unfold digitsOf
  split
  case isTrue hzero => simp [hzero]
  case isFalse => exact ⟨fun d => Nat.digits_lt_base (by decide), Nat.ofDigits_digits 10 v⟩

/-- `atoi` reads digits as a number, whatever follows them. -/
theorem atoiFrom_digits {ds : List Nat} (hds : ∀ d ∈ ds, d < 10) (s : List Char) :
    atoiFrom 0#64 ((ds.map digitChar).reverse ++ s) =
      atoiFrom (.ofNat 64 (Nat.ofDigits 10 ds)) s := by
  induction ds generalizing s with
  | nil => rfl
  | cons d ds ih =>
    obtain ⟨hd, hds⟩ := List.forall_mem_cons.mp hds
    obtain ⟨hdigit, hvalue⟩ := isDigit_digitChar hd
    rw [List.map_cons, List.reverse_cons, List.append_assoc, List.singleton_append, ih hds,
      atoiFrom,
      if_pos hdigit, hvalue, Nat.ofDigits_cons]
    congr 1
    apply BitVec.eq_of_toNat_eq
    simp
    omega

theorem atoiFrom_canonical (v : Nat) : atoiFrom 0#64 (canonicalDigits 10 v) = .ofNat 64 v := by
  have hread := atoiFrom_digits (digitsOf_spec v).1 []
  rwa [List.append_nil, (digitsOf_spec v).2] at hread

/-- No digit is taken for a sign. -/
theorem atoi_canonical (v : Nat) : atoi (canonicalDigits 10 v) = .ofNat 64 v := by
  have hhead : ∀ c : Char, c.isDigit = false → (canonicalDigits 10 v).head? ≠ some c := by
    intro c hc hhead
    obtain ⟨d, hd, rfl⟩ := List.mem_map.mp (List.mem_reverse.mp (List.mem_of_mem_head? hhead))
    rw [(isDigit_digitChar ((digitsOf_spec v).1 d hd)).1] at hc
    cases hc
  simp [atoi, hhead '+' (by decide), hhead '-' (by decide), atoiFrom_canonical]

/-- The negation of the least value is its absolute value as an unsigned number. -/
theorem toNat_neg_of_neg {value : BitVec 64} (h : value.toInt < 0) :
    (-value).toNat = value.toInt.natAbs := by
  rw [BitVec.toInt_eq_toNat_cond] at h ⊢
  rw [BitVec.toNat_neg]
  split at h <;> omega

/-- `itoa` writes the text of the value. -/
theorem itoa_eq (value : BitVec 64) (hradix : 2 ≤ radix) :
    itoa value radix = some (canonicalText value radix, (canonicalText value radix).length) := by
  unfold itoa canonicalText
  split
  case isTrue hsign =>
    rw [← toNat_neg_of_neg hsign.2]
    simp only [if_pos hsign, fillDigits_canonical hradix (BitVec.isLt _)]
    rfl
  case isFalse hsign =>
    simp only [if_neg hsign, fillDigits_canonical hradix value.isLt]
    rfl

/-- `itoa` writes the canonical text and returns its length, and `atoi` reads the value back. -/
theorem itoa_atoi_inverse (value : BitVec 64) (radix : Nat) (hradix : 2 ≤ radix) :
    itoa value radix = some (canonicalText value radix, (canonicalText value radix).length) ∧
      (itoa value 10).map (fun out => atoi out.1) = some value := by
  refine ⟨itoa_eq value hradix, ?_⟩
  rw [itoa_eq value (by decide), Option.map_some, Option.some.injEq]
  unfold canonicalText
  split
  case isTrue hsign =>
    rw [← toNat_neg_of_neg hsign.2]
    calc atoi ('-' :: canonicalDigits 10 (-value).toNat)
      _ = atoiFrom 0#64 (canonicalDigits 10 (-value).toNat) * -1#64 := rfl
      _ = -value * -1#64 := by rw [atoiFrom_canonical, BitVec.ofNat_toNat, BitVec.setWidth_eq]
      _ = value := by rw [BitVec.mul_neg, BitVec.mul_one, BitVec.neg_neg]
  case isFalse => simp [atoi_canonical]

/-- The least value, which has no positive counterpart. -/
theorem itoa_atoi_least : itoa (.intMin 64) 16 = some ("8000000000000000".toList, 16) ∧
    (itoa (.intMin 64) 10).map (fun out => atoi out.1) = some (.intMin 64) :=
  ⟨by decide +kernel, (itoa_atoi_inverse (.intMin 64) 16 (by decide)).2⟩

end LudOS.Libc
