import Mathlib.Algebra.BigOperators.Intervals
import Mathlib.Algebra.Order.BigOperators.Group.Finset
import Mathlib.Tactic.IntervalCases

/-!
# Dates and seconds

`from_unix` and `to_unix` of `time/time.cpp` and `rtc::get_time` of `i686/pc/devices/rtc.hpp`.
`Gregorian` says which date a number of seconds since 1970 falls on.

`from_unix` looks for the month in the year 1970 whatever the year is, so it is wrong from the 29th
of February of a leap year on. `get_time` gives its seven values to a structure of eight fields, and
each of them ends up one field too far.
-/

namespace LudOS.Time

/-! ## Numbers in consecutive stretches -/

section

variable {len : Nat → Nat} {n k k' r r' : Nat}

/-- With stretches of the lengths `len`, the number `n` is at place `r` of stretch `k`. -/
def Falls (len : Nat → Nat) (n k r : Nat) : Prop := r < len k ∧ n = ∑ i ∈ Finset.range k, len i + r

theorem sum_add_le_of_lt (len : Nat → Nat) (h : k < k') :
    ∑ i ∈ Finset.range k, len i + len k ≤ ∑ i ∈ Finset.range k', len i := by
  rw [← Finset.sum_range_succ]
  exact Finset.sum_le_sum_of_subset (Finset.range_mono h)

/-- A number is in one stretch only. -/
theorem Falls.unique (h : Falls len n k r) (h' : Falls len n k' r') : k = k' ∧ r = r' := by
  obtain ⟨hr, hn⟩ := h
  obtain ⟨hr', hn'⟩ := h'
  rcases Nat.lt_trichotomy k k' with hlt | rfl | hlt
  · have := sum_add_le_of_lt len hlt
    omega
  · omega
  · have := sum_add_le_of_lt len hlt
    omega

end

/-! ## The calendar -/

/-- `Date`. -/
structure Date where
  ns : Nat
  sec : Nat
  min : Nat
  hour : Nat
  mday : Nat
  yday : Nat
  month : Nat
  year : Nat
  deriving DecidableEq, Repr

/-- The leap years of the Gregorian calendar. -/
def Leap (year : Nat) : Prop := 4 ∣ year ∧ (¬ 100 ∣ year ∨ 400 ∣ year)

instance (year : Nat) : Decidable (Leap year) := inferInstanceAs (Decidable (_ ∧ _))

/-- The days of a year. -/
def yearLength (year : Nat) : Nat := if Leap year then 366 else 365

/-- The days of a month, counted from 0. -/
def monthLength (year month : Nat) : Nat :=
  [31, if Leap year then 29 else 28, 31, 30, 31, 30, 31, 31, 30, 31, 30, 31].getD month 0

/-- A time of the Gregorian calendar and the seconds that have passed since 1970 began. -/
structure Gregorian (epoch : Nat) (d : Date) : Prop where
  ns : d.ns = 0
  sec : d.sec < 60
  min : d.min < 60
  hour : d.hour < 24
  month : 1 ≤ d.month ∧ d.month ≤ 12
  mday : 1 ≤ d.mday
  year : 1970 ≤ d.year
  yday : Falls (monthLength d.year) d.yday (d.month - 1) (d.mday - 1)
  day : Falls (fun i => yearLength (1970 + i)) (epoch / 86400) (d.year - 1970) d.yday
  time : epoch % 86400 = d.hour * 3600 + d.min * 60 + d.sec

/-- A number of seconds is on one date only. -/
theorem Gregorian.unique {epoch : Nat} {d d' : Date} (h : Gregorian epoch d)
    (h' : Gregorian epoch d') : d = d' := by
  obtain ⟨ns, sec, min, hour, mday, yday, month, year⟩ := d
  obtain ⟨ns', sec', min', hour', mday', yday', month', year'⟩ := d'
  obtain ⟨hns, hsec, hmin, hhour, hmonth, hmday, hyear, hyday, hday, htime⟩ := h
  obtain ⟨hns', hsec', hmin', hhour', hmonth', hmday', hyear', hyday', hday', htime'⟩ := h'
  dsimp only at *
  obtain ⟨hy, hyd⟩ := hday.unique hday'
  obtain rfl : year = year' := by omega
  subst hyd
  obtain ⟨hm, hmd⟩ := hyday.unique hyday'
  obtain rfl : month = month' := by omega
  obtain rfl : mday = mday' := by omega
  have htimes := htime.symm.trans htime'
  clear htime htime' hyday hyday' hday hday'
  simp only [Date.mk.injEq, hns, hns', and_self, true_and, and_true]
  refine ⟨?_, ?_, ?_⟩ <;> omega

/-! ## `from_unix` -/

/-- `leap_year`. -/
def leapYear (year : Nat) : Bool :=
  if year % 4 ≠ 0 then false
  else if year % 100 ≠ 0 then true
  else if year % 400 ≠ 0 then false
  else true

/-- `days_in_months`. -/
def daysInMonths : List Nat := [31, 28, 31, 30, 31, 30, 31, 31, 30, 31, 30, 31]

/-- The days of the year, as the first loop of `from_unix` has them. -/
def yearDays (year : Nat) : Nat := if leapYear year then 366 else 365

/-- The days of the month, as the second loop has them. -/
def monthDays (y m : Nat) : Nat :=
  daysInMonths.getD m 0 + if m == 1 && leapYear y then 1 else 0

theorem yearDays_pos (year : Nat) : 0 < yearDays year := by
  unfold yearDays
  split <;> decide

/-- The loop of `from_unix` over the years. It returns the year and the day of the year. -/
def yearFrom (year dayno : Nat) : Nat × Nat :=
  if yearDays year ≤ dayno then yearFrom (year + 1) (dayno - yearDays year) else (year, dayno)
termination_by dayno
decreasing_by
  have := yearDays_pos year
  omega

/-- The loop of `from_unix` over the last `left` months of the year `y`, from `m` on. It is left
with the month and the day of the month, or ends with the days that are left over. -/
def monthFrom (y : Nat) : (left m dayno : Nat) → Nat ⊕ (Nat × Nat)
  | 0, _, dayno => .inl dayno
  | left + 1, m, dayno =>
    if dayno < monthDays y m then .inr (m + 1, dayno)
    else monthFrom y left (m + 1) (dayno - monthDays y m)

/-- The loop around it, over `years` years from `y` on. -/
def monthLoop : (years y dayno : Nat) → Nat × Nat
  | 0, _, dayno => (0, dayno)
  | years + 1, y, dayno =>
    match monthFrom y 12 0 dayno with
    | .inr found => found
    | .inl dayno => monthLoop years (y + 1) dayno

/-- `from_unix`. -/
def fromUnix (epoch : Nat) : Date :=
  let dayclock := epoch % (60 * 60 * 24)
  let (year, yday) := yearFrom 1970 (epoch / (60 * 60 * 24))
  let (month, dayno) := monthLoop (year + 1 - 1970) 1970 yday
  { ns := 0, sec := dayclock % 60, min := dayclock % 3600 / 60, hour := dayclock / 3600,
    mday := dayno + 1, yday := yday, month := month, year := year }

theorem leapYear_iff {year : Nat} : leapYear year = true ↔ Leap year := by
  unfold leapYear Leap
  grind

theorem yearDays_eq (year : Nat) : yearDays year = yearLength year := by
  simp only [yearDays, yearLength, leapYear_iff]

theorem monthDays_eq (year : Nat) {m : Nat} (hm : m < 12) :
    monthDays year m = monthLength year m := by
  unfold monthDays monthLength
  by_cases h : Leap year
  · simp only [leapYear_iff.mpr h, if_pos h]
    interval_cases m <;> rfl
  · simp only [Bool.eq_false_iff.mpr (mt leapYear_iff.mp h), if_neg h]
    interval_cases m <;> rfl

/-- The first loop finds the year and the day of the year. -/
theorem yearFrom_falls (k dayno : Nat) :
    ∃ k' r, yearFrom (1970 + k) dayno = (1970 + k', r) ∧
      Falls (fun i => yearLength (1970 + i))
        (∑ i ∈ Finset.range k, yearLength (1970 + i) + dayno) k' r := by
  induction dayno using Nat.strong_induction_on generalizing k with
  | h dayno ih =>
    have hpos := yearDays_pos (1970 + k)
    unfold yearFrom
    split
    case isTrue hle =>
      obtain ⟨k', r, hfrom, hfalls⟩ := ih (dayno - yearDays (1970 + k)) (by omega) (k + 1)
      refine ⟨k', r, hfrom, ?_⟩
      rw [Finset.sum_range_succ, ← yearDays_eq, Nat.add_assoc, Nat.add_sub_cancel' hle] at hfalls
      exact hfalls
    case isFalse hlt =>
      rw [yearDays_eq] at hlt
      exact ⟨k, dayno, rfl, Nat.lt_of_not_le hlt, rfl⟩

/-- The second loop finds the month in the year it looks at. -/
theorem monthFrom_falls (y : Nat) {left m dayno : Nat} (hm : m + left = 12)
    (hlt : ∑ i ∈ Finset.range m, monthLength y i + dayno < ∑ i ∈ Finset.range 12, monthLength y i) :
    ∃ k r, monthFrom y left m dayno = .inr (k + 1, r) ∧ k < 12 ∧
      Falls (monthLength y) (∑ i ∈ Finset.range m, monthLength y i + dayno) k r := by
  induction left generalizing m dayno with
  | zero =>
    obtain rfl : m = 12 := hm
    omega
  | succ left ih =>
    unfold monthFrom
    have hdays := monthDays_eq y (show m < 12 by omega)
    split
    case isTrue hfound => exact ⟨m, dayno, rfl, by omega, hdays ▸ hfound, rfl⟩
    case isFalse hnext =>
      have hsum : ∑ i ∈ Finset.range (m + 1), monthLength y i + (dayno - monthDays y m) =
          ∑ i ∈ Finset.range m, monthLength y i + dayno := by
        rw [Finset.sum_range_succ, hdays]
        omega
      rw [← hsum] at hlt ⊢
      exact ih (by omega) hlt

theorem sum_monthLength (y : Nat) {k : Nat} (hk : k ≤ 12) :
    ∑ i ∈ Finset.range k, monthLength y i =
      ∑ i ∈ Finset.range k, monthLength 1970 i + if Leap y ∧ 2 ≤ k then 1 else 0 := by
  by_cases h : Leap y
  · simp only [monthLength, h, true_and]
    interval_cases k <;> decide
  · simp only [monthLength, h, false_and]
    rfl

theorem sum_yearLength (y : Nat) : ∑ i ∈ Finset.range 12, monthLength y i = yearLength y := by
  rw [sum_monthLength y le_rfl, yearLength]
  by_cases h : Leap y
  · simp only [h, true_and]
    decide
  · simp only [h, false_and]
    decide

/-- The first two months of 1970. -/
theorem falls_1970 {n k r : Nat} (hk : k < 2) : Falls (monthLength 1970) n k r ↔
    k = 0 ∧ r < 31 ∧ n = r ∨ k = 1 ∧ r < 28 ∧ n = 31 + r := by
  interval_cases k <;> simp [Falls, monthLength, show ¬ Leap 1970 by decide]

/-- The month is right although it is looked up in 1970, unless the day comes behind the end of a
February of 28 days in a leap year. -/
theorem falls_1970_iff {y n k r k' r' : Nat} (hk : k < 12) (h : Falls (monthLength y) n k r)
    (h' : Falls (monthLength 1970) n k' r') : k' = k ∧ r' = r ↔ ¬ (Leap y ∧ 59 ≤ n) := by
  obtain ⟨hr, hn⟩ := h
  have hsum := sum_monthLength y (show k ≤ 12 by omega)
  constructor
  · rintro ⟨rfl, rfl⟩ ⟨hleap, h59⟩
    have hk2 : k' < 2 := by
      by_contra hge
      rw [if_pos ⟨hleap, Nat.not_lt.mp hge⟩] at hsum
      have := h'.2
      omega
    have := (falls_1970 hk2).mp h'
    omega
  · intro hbefore
    refine h'.unique ?_
    by_cases hleap : Leap y
    case neg =>
      have hlength : monthLength 1970 = monthLength y := by
        funext m
        simp only [monthLength, hleap, show ¬ Leap 1970 by decide]
      rw [hlength]
      exact ⟨hr, hn⟩
    case pos =>
      have h59 : n < 59 := by
        by_contra hge
        exact hbefore ⟨hleap, Nat.not_lt.mp hge⟩
      have hk2 : k < 2 := by
        by_contra hge
        have hmono := Finset.sum_le_sum_of_subset (f := monthLength y)
          (Finset.range_mono (Nat.not_lt.mp hge))
        have h60 := sum_monthLength y (show 2 ≤ 12 by decide)
        rw [if_pos ⟨hleap, le_rfl⟩, show ∑ i ∈ Finset.range 2, monthLength 1970 i = 59 by decide]
          at h60
        omega
      rw [falls_1970 hk2]
      rw [if_neg (by omega)] at hsum
      interval_cases k
      · simp_all [monthLength]
      · simp_all [monthLength]
        omega

/-- The month loops look no further than 1970, but for the last day of a leap year. -/
theorem monthLoop_eq {k yday : Nat} (hyday : yday < yearLength (1970 + k)) :
    (∃ j q, monthLoop (k + 1) 1970 yday = (j + 1, q) ∧ Falls (monthLength 1970) yday j q) ∨
      yday = 365 ∧ monthLoop (k + 1) 1970 yday = (1, 0) := by
  by_cases hlt : yday < 365
  case pos =>
    have hin : ∑ i ∈ Finset.range 0, monthLength 1970 i + yday <
        ∑ i ∈ Finset.range 12, monthLength 1970 i := by
      rw [sum_yearLength, Finset.sum_range_zero, Nat.zero_add]
      exact hlt
    obtain ⟨j, q, hfrom, -, hfalls⟩ := monthFrom_falls 1970 (show 0 + 12 = 12 from rfl) hin
    rw [Finset.sum_range_zero, Nat.zero_add] at hfalls
    exact .inl ⟨j, q, by rw [monthLoop, hfrom], hfalls⟩
  case neg =>
    have hleap : Leap (1970 + k) := by
      by_contra hnot
      rw [yearLength, if_neg hnot] at hyday
      omega
    rw [yearLength, if_pos hleap] at hyday
    obtain rfl : yday = 365 := by omega
    cases k with
    | zero => exact absurd hleap (by decide)
    | succ k => exact .inr ⟨rfl, rfl⟩

/-- Every number of seconds has its date, and `from_unix` returns it unless it is the 29th of
February or a later day of a leap year. -/
theorem from_unix_gregorian_iff (epoch : Nat) :
    ∃ d, (∀ d', Gregorian epoch d' ↔ d' = d) ∧
      (fromUnix epoch = d ↔ ¬ (Leap d.year ∧ 59 ≤ d.yday)) := by
  obtain ⟨k, yday, hyears, hday⟩ := yearFrom_falls 0 (epoch / 86400)
  rw [Finset.sum_range_zero, Nat.zero_add] at hday
  have hin : ∑ i ∈ Finset.range 0, monthLength (1970 + k) i + yday <
      ∑ i ∈ Finset.range 12, monthLength (1970 + k) i := by
    rw [sum_yearLength, Finset.sum_range_zero, Nat.zero_add]
    exact hday.1
  obtain ⟨m, r, -, hm, hmonth⟩ := monthFrom_falls (1970 + k) (show 0 + 12 = 12 from rfl) hin
  rw [Finset.sum_range_zero, Nat.zero_add] at hmonth
  let d : Date := {
    ns := 0, sec := epoch % 86400 % 60, min := epoch % 86400 % 3600 / 60,
    hour := epoch % 86400 / 3600, mday := r + 1, yday := yday, month := m + 1, year := 1970 + k }
  have hd : Gregorian epoch d := {
    ns := rfl
    sec := Nat.mod_lt _ (by decide)
    min := by dsimp only [d]; omega
    hour := by dsimp only [d]; omega
    month := by dsimp only [d]; omega
    mday := by dsimp only [d]; omega
    year := by dsimp only [d]; omega
    yday := hmonth
    day := by simpa [d] using hday
    time := by dsimp only [d]; omega }
  refine ⟨d, fun d' => ⟨fun h => h.unique hd, fun h => h ▸ hd⟩, ?_⟩
  have hunix : fromUnix epoch = d ↔ monthLoop (k + 1) 1970 yday = (m + 1, r) := by
    have hcount : 1970 + k + 1 - 1970 = k + 1 := by omega
    simp only [fromUnix, Nat.reduceMul, hyears, hcount, d, Date.mk.injEq, Prod.ext_iff]
    grind
  rw [hunix]
  rcases monthLoop_eq hday.1 with ⟨j, q, hloop, hfalls⟩ | ⟨hlast, hloop⟩
  · rw [hloop, ← falls_1970_iff hm hmonth hfalls]
    simp
  · have hleap : Leap (1970 + k) := by
      by_contra hnot
      have hlt : yday < yearLength (1970 + k) := hday.1
      rw [yearLength, if_neg hnot] at hlt
      omega
    rw [hloop, Prod.mk.injEq]
    refine iff_of_false ?_ fun hnot => hnot ⟨hleap, show 59 ≤ yday by omega⟩
    rintro ⟨hfirst, rfl⟩
    obtain rfl : m = 0 := by omega
    exact absurd hmonth.2 (by simp [hlast])

/-- The 29th of February 1972. -/
theorem from_unix_leap_day :
    Gregorian 68169600 ⟨0, 0, 0, 0, 29, 59, 2, 1972⟩ ∧
      fromUnix 68169600 = ⟨0, 0, 0, 0, 1, 59, 3, 1972⟩ := by
  refine ⟨⟨rfl, by decide, by decide, by decide, by decide, by decide, by decide, ⟨by decide, rfl⟩,
    ⟨by decide, rfl⟩, rfl⟩, ?_⟩
  simp [fromUnix, yearFrom, yearDays, leapYear]
  decide

/-! ## The clock -/

/-- `to_unix`: the loop over the years behind 1970, down from `year`. -/
def yearSeconds : (year : Nat) → Nat
  | 0 => 0
  | year + 1 => if 1970 < year + 1 then yearDays (year + 1) * 86400 + yearSeconds year else 0

/-- `to_unix`. -/
def toUnix (date : Date) : Nat :=
  (date.sec + date.min * 60 + date.hour * 3600 + (date.yday + 2 ^ 32 - 1) % 2 ^ 32 * 86400 +
    yearSeconds date.year) % 2 ^ 32

/-- The registers of the clock while they do not change, the number of the one for the century, and
`CURRENT_YEAR`. -/
structure Rtc where
  register : Nat → UInt8
  centuryRegister : Nat
  currentYear : Nat

namespace Rtc

variable (rtc : Rtc)

/-- `get_register`. -/
def getRegister (reg : Nat) : Nat := (rtc.register reg).toNat

/-- Whether register B says that numbers are not in BCD. -/
def binary : Bool := rtc.getRegister 0x0B &&& 0x04 ≠ 0

/-- Whether register B says that hours go up to 23. -/
def fullDay : Bool := rtc.getRegister 0x0B &&& 0x02 ≠ 0

/-- A register whose number is converted from BCD if necessary. -/
def number (reg : Nat) : Nat :=
  if rtc.binary then rtc.getRegister reg
  else (rtc.getRegister reg &&& 0x0F) + rtc.getRegister reg / 16 * 10

/-- The hour, converted from BCD and from the twelve hour clock if necessary. -/
def hour : Nat :=
  let hour := rtc.getRegister 0x04
  let hour :=
    if rtc.binary then hour
    else (hour &&& 0x0F) + (hour &&& 0x70) / 16 * 10 ||| hour &&& 0x80
  if !rtc.fullDay && hour &&& 0x80 ≠ 0 then ((hour &&& 0x7F) + 12) % 24 else hour

/-- The year with its century. -/
def year : Nat :=
  if rtc.centuryRegister ≠ 0 then rtc.number 0x09 + rtc.number rtc.centuryRegister * 100
  else
    let year := rtc.number 0x09 + rtc.currentYear / 100 * 100
    if year < rtc.currentYear then year + 100 else year

/-- `get_time`. The registers are read until two readings agree; as they do not change, the first
two do. `none` is `wait_update` that waits for ever. -/
def getTime : Option Date :=
  if rtc.register 0x0A &&& 0x80 ≠ 0 then none
  else
    let day := rtc.number 0x07
    let month := rtc.number 0x08
    let yday := (List.range (month - 1)).foldr (fun i yday => yday + monthDays rtc.year i) day
    -- seven values for the eight fields of `Date`
    some ⟨rtc.number 0x00, rtc.number 0x02, rtc.hour, day, yday, month, rtc.year, 0⟩

end Rtc

/-- A number as a register holds it. -/
def encode (binary : Bool) (n : Nat) : Nat := if binary then n else n / 10 * 16 + n % 10

/-- An hour as its register holds it. -/
def encodeHour (binary fullDay : Bool) (hour : Nat) : Nat :=
  if fullDay then encode binary hour
  else encode binary (if hour % 12 = 0 then 12 else hour % 12) + if 12 ≤ hour then 0x80 else 0

/-- The clock shows the date, and is not about to change it. -/
structure Rtc.Encodes (rtc : Rtc) (d : Date) : Prop where
  stable : rtc.register 0x0A &&& 0x80 = 0
  sec : rtc.getRegister 0x00 = encode rtc.binary d.sec
  min : rtc.getRegister 0x02 = encode rtc.binary d.min
  hour : rtc.getRegister 0x04 = encodeHour rtc.binary rtc.fullDay d.hour
  mday : rtc.getRegister 0x07 = encode rtc.binary d.mday
  month : rtc.getRegister 0x08 = encode rtc.binary d.month
  year : rtc.getRegister 0x09 = encode rtc.binary (d.year % 100)
  century : rtc.centuryRegister ≠ 0 →
    rtc.getRegister rtc.centuryRegister = encode rtc.binary (d.year / 100)

theorem number_of_encode {rtc : Rtc} {reg n : Nat} (hn : n < 100)
    (h : rtc.getRegister reg = encode rtc.binary n) : rtc.number reg = n := by
  have hbcd : ∀ n < 100,
      (n / 10 * 16 + n % 10 &&& 0x0F) + (n / 10 * 16 + n % 10) / 16 * 10 = n := by decide
  unfold Rtc.number encode at *
  cases hbinary : rtc.binary with
  | true => simpa [hbinary] using h
  | false =>
    rw [hbinary] at h
    simpa [h] using hbcd n hn

/-- Twelve o'clock is taken for the other one in the twelve hour clock. -/
theorem hour_of_encode {rtc : Rtc} {hour : Nat} (hhour : hour < 24)
    (h : rtc.getRegister 0x04 = encodeHour rtc.binary rtc.fullDay hour) :
    rtc.hour = hour ∨ hour = 0 ∧ rtc.hour = 12 ∨ hour = 12 ∧ rtc.hour = 0 := by
  unfold Rtc.hour
  rw [h]
  cases rtc.binary <;> cases rtc.fullDay <;> interval_cases hour <;> decide

/-- No month has less than 28 days. -/
theorem mul_le_sum_monthLength (year : Nat) {k : Nat} (hk : k ≤ 12) :
    28 * k ≤ ∑ i ∈ Finset.range k, monthLength year i := by
  rw [sum_monthLength year hk]
  have h1970 : 28 * k ≤ ∑ i ∈ Finset.range k, monthLength 1970 i := by
    interval_cases k <;> decide
  omega

theorem monthLength_le (year : Nat) {month : Nat} (hmonth : month < 12) :
    monthLength year month ≤ 31 := by
  unfold monthLength
  split <;> interval_cases month <;> decide

/-- The sum of the years behind 1970. -/
theorem le_sum_yearLength {k : Nat} (hk : 0 < k) :
    365 ≤ ∑ i ∈ Finset.range k, yearLength (1970 + i) :=
  (Finset.sum_le_sum_of_subset (Finset.range_mono hk)).trans' (by decide)

/-- The seconds that come of the clock are right for one time only, as each value of `get_time` is
taken for the one behind it. -/
theorem rtc_epoch_iff {rtc : Rtc} {d : Date} {epoch : Nat} (hd : Gregorian epoch d)
    (hrtc : rtc.Encodes d) :
    ∃ date, rtc.getTime = some date ∧ (toUnix date = epoch ↔
      d.year = 1970 ∧ d.month = 1 ∧ d.mday = 1 ∧ d.hour = 1 ∧ d.min = 1 ∧ d.sec = 1) := by
  obtain ⟨-, hsec, hmin, hhour, hmonth, hmday, hyear, ⟨hmlt, hyday⟩, ⟨-, hday⟩, htime⟩ := hd
  have hmle := monthLength_le d.year (show d.month - 1 < 12 by omega)
  have hminute : rtc.number 0x02 = d.min := number_of_encode (by omega) hrtc.min
  have hmday' : rtc.number 0x07 = d.mday := number_of_encode (by omega) hrtc.mday
  have hmonth' : rtc.number 0x08 = d.month := number_of_encode (by omega) hrtc.month
  have hhour' := hour_of_encode hhour hrtc.hour
  have hmonths := mul_le_sum_monthLength d.year (show d.month - 1 ≤ 12 by omega)
  refine ⟨_, if_neg (by simpa using hrtc.stable), ?_⟩
  have hunix : (d.min + rtc.hour * 60 + d.mday * 3600 + (d.month + 2 ^ 32 - 1) % 2 ^ 32 * 86400 +
      0) % 2 ^ 32 = d.min + rtc.hour * 60 + d.mday * 3600 + (d.month - 1) * 86400 := by omega
  have hepoch := (Nat.div_add_mod epoch 86400).symm
  rw [hday, hyday, htime] at hepoch
  beta_reduce at hepoch
  simp only [toUnix, hminute, hmday', hmonth', yearSeconds, hunix]
  rw [hepoch]
  clear hunix hepoch hday hyday htime hminute hmday' hmonth'
  by_cases hlater : d.year = 1970
  case pos =>
    simp only [hlater, Nat.sub_self, Finset.sum_range_zero, Nat.zero_add, true_and]
    by_cases hfirst : d.month = 1
    case pos =>
      simp only [hfirst, Nat.sub_self, Finset.sum_range_zero, Nat.zero_add, true_and]
      constructor
      · intro heq
        have hmday1 : d.mday = 1 := by omega
        have hhour1 : d.hour = 1 := by omega
        omega
      · omega
    case neg =>
      rw [hlater] at hmonths
      omega
  case neg =>
    have hyears := le_sum_yearLength (show 0 < d.year - 1970 by omega)
    omega

/-- A clock that shows a date, in binary and with hours up to 23. -/
def clock (d : Date) : Rtc where
  register
    | 0x00 => .ofNat d.sec
    | 0x02 => .ofNat d.min
    | 0x04 => .ofNat d.hour
    | 0x07 => .ofNat d.mday
    | 0x08 => .ofNat d.month
    | 0x09 => .ofNat (d.year % 100)
    | 0x0B => 0x06
    | 0x32 => .ofNat (d.year / 100)
    | _ => 0
  centuryRegister := 0x32
  currentYear := 2021

theorem rtc_epoch_first_day :
    ∃ date, (clock ⟨0, 1, 1, 1, 1, 0, 1, 1970⟩).getTime = some date ∧ toUnix date = 3661 := by
  have hd : Gregorian 3661 ⟨0, 1, 1, 1, 1, 0, 1, 1970⟩ :=
    ⟨rfl, by decide, by decide, by decide, by decide, by decide, by decide, ⟨by decide, rfl⟩,
      ⟨by decide, rfl⟩, rfl⟩
  have hclock : (clock ⟨0, 1, 1, 1, 1, 0, 1, 1970⟩).Encodes ⟨0, 1, 1, 1, 1, 0, 1, 1970⟩ :=
    ⟨rfl, rfl, rfl, rfl, rfl, rfl, rfl, fun _ => rfl⟩
  obtain ⟨date, hget, hepoch⟩ := rtc_epoch_iff hd hclock
  exact ⟨date, hget, hepoch.mpr ⟨rfl, rfl, rfl, rfl, rfl, rfl⟩⟩

/-- The first day of the year 2000 comes out as one o'clock of the first day of 1970. -/
theorem rtc_epoch_millennium :
    Gregorian 946684800 ⟨0, 0, 0, 0, 1, 0, 1, 2000⟩ ∧
      (clock ⟨0, 0, 0, 0, 1, 0, 1, 2000⟩).Encodes ⟨0, 0, 0, 0, 1, 0, 1, 2000⟩ ∧
      (clock ⟨0, 0, 0, 0, 1, 0, 1, 2000⟩).getTime.map toUnix = some 3600 := by
  refine ⟨⟨rfl, by decide, by decide, by decide, by decide, by decide, by decide, ⟨by decide, rfl⟩,
    ⟨by decide, ?_⟩, rfl⟩, ⟨rfl, rfl, rfl, rfl, rfl, rfl, rfl, fun _ => rfl⟩, rfl⟩
  decide

end LudOS.Time
