import Mathlib.Data.List.Infix
import Mathlib.Data.List.Lex

/-!
# Comparing and searching strings

`strcmp` and `strncmp` of `libc/string/strcmp.cpp`, and `strstr` of `libc/string/strstr.cpp`. A
`char` is signed on this processor. For the comparison a pointer is given by the bytes from it to
the end of the memory, and `none` is an access behind that end. For the search a string is the list
of its bytes before the zero.

The comparison looks for the end of a string only after its first byte, takes bytes for signed
numbers, and knows no limit of zero; `strcmp_orders_iff` says for which strings the order is right
all the same. The search takes its arguments the other way round, which is what `strstr_finds_iff`
comes down to.
-/

namespace LudOS.Libc

/-! ## Comparing -/

/-- A `char` as an `int`. -/
def charValue (c : UInt8) : Int := if c.toNat < 128 then (c.toNat : Int) else c.toNat - 256

/-- The loop that `strcmp` and `strncmp` share; `stop` is the test of the counter after a
character. -/
def compareFrom (stop : Nat → Bool) (i : Nat) : (str1 str2 : List UInt8) → Option Int
  | c :: str1, d :: str2 =>
    if c ≠ d then some (if charValue c < charValue d then -1 else 1)
    else if stop (i + 1) then some 0
    else do
      let c ← str1.head?
      let d ← str2.head?
      if c ≠ 0 ∧ d ≠ 0 then compareFrom stop (i + 1) str1 str2
      else some (charValue c - charValue d)
  | _, _ => none

/-- `strcmp`. -/
def strcmp : (str1 str2 : List UInt8) → Option Int := compareFrom (fun _ => false) 0

/-- `strncmp`; no text is so long that the counter wraps around. -/
def strncmp (n : Nat) : (str1 str2 : List UInt8) → Option Int := compareFrom (· = n) 0

/-- The function orders the texts `s` and `t` as `a` and `b` are ordered, with a result that does
not depend on what follows their zeros. -/
def Orders (compare : List UInt8 → List UInt8 → Option Int) (s t a b : List UInt8) : Prop :=
  ∃ r, (∀ after1 after2, compare (s ++ 0 :: after1) (t ++ 0 :: after2) = some r) ∧
    (r < 0 ↔ a < b) ∧ (0 < r ↔ b < a)

/-- The bytes at the first place where two texts differ or end; an end counts as zero. -/
def diverge : List UInt8 → List UInt8 → UInt8 × UInt8
  | [], t => (0, t.headD 0)
  | c :: _, [] => (c, 0)
  | c :: s, d :: t => if c = d then diverge s t else (c, d)

/-- Both bytes at that place are below 128, or none is. -/
def SameSide (s t : List UInt8) : Prop := (diverge s t).1 < 128 ↔ (diverge s t).2 < 128

variable {c d : UInt8} {r : Int} {s t : List UInt8}

/-- A number with the sign of the difference of two characters. -/
structure Signs (c d : UInt8) (r : Int) : Prop where
  neg : r < 0 ↔ charValue c < charValue d
  pos : 0 < r ↔ charValue d < charValue c

theorem Signs.sub (c d : UInt8) : Signs c d (charValue c - charValue d) := ⟨by omega, by omega⟩

theorem charValue_inj (h : charValue c = charValue d) : c = d := by
  have hc := c.toNat_lt
  have hd := d.toNat_lt
  rw [← UInt8.toNat_inj]
  grind [charValue]

/-- What is returned at the first difference. -/
theorem Signs.ite (hne : c ≠ d) : Signs c d (if charValue c < charValue d then -1 else 1) := by
  have hne' := mt charValue_inj hne
  split
  · exact ⟨by omega, by omega⟩
  · exact ⟨by omega, by omega⟩

/-- Signed and unsigned characters are ordered alike if both are below 128 or none is. -/
theorem charValue_lt_iff (c d : UInt8) : (charValue c < charValue d ↔ c < d) ∧
    (charValue d < charValue c ↔ d < c) ↔ (c < 128 ↔ d < 128) := by
  have hc := c.toNat_lt
  have hd := d.toNat_lt
  simp only [UInt8.lt_iff_toNat_lt]
  grind [charValue]

theorem headD_eq_zero_iff (hs : 0 ∉ s) : s.headD 0 = 0 ↔ s = [] := by
  cases s with
  | nil => simp
  | cons c s => exact iff_of_false (fun h => hs (h ▸ List.mem_cons_self)) (List.cons_ne_nil c s)

section

variable (hs : 0 ∉ s) (ht : 0 ∉ t)

include hs ht

/-- The order of two texts is that of the bytes where they diverge. -/
theorem diverge_lt_iff : (s < t ↔ (diverge s t).1 < (diverge s t).2) ∧
    (t < s ↔ (diverge s t).2 < (diverge s t).1) ∧ (s = t ↔ (diverge s t).1 = (diverge s t).2) := by
  induction s generalizing t with
  | nil =>
    cases t with
    | nil => simp [diverge, UInt8.lt_irrefl]
    | cons d t => simp_all [diverge, UInt8.pos_iff_ne_zero, eq_comm]
  | cons c s ih =>
    cases t with
    | nil => simp_all [diverge, UInt8.pos_iff_ne_zero, eq_comm]
    | cons d t =>
      rw [List.mem_cons, not_or] at hs ht
      by_cases hcd : c = d
      · simpa [diverge, hcd] using ih hs.2 ht.2
      · simp [diverge, hcd, Ne.symm hcd, List.cons_lt_cons_iff]

theorem sameSide_iff : SameSide s t ↔
    (charValue (diverge s t).1 < charValue (diverge s t).2 ↔ s < t) ∧
      (charValue (diverge s t).2 < charValue (diverge s t).1 ↔ t < s) := by
  obtain ⟨hlt, hgt, -⟩ := diverge_lt_iff hs ht
  rw [SameSide, hlt, hgt, charValue_lt_iff]

variable {stop : Nat → Bool} {i m last : Nat}

/-- The loop goes on if neither text has ended. -/
theorem compareFrom_next (after1 after2 : List UInt8) (c : UInt8) (hnext : stop (i + 1) = false) :
    compareFrom stop i (c :: s ++ 0 :: after1) (c :: t ++ 0 :: after2) =
      if s = [] ∨ t = [] then some (charValue (s.headD 0) - charValue (t.headD 0))
      else compareFrom stop (i + 1) (s ++ 0 :: after1) (t ++ 0 :: after2) := by
  cases s with
  | nil => cases t <;> simp [compareFrom, hnext]
  | cons e s =>
    have he : e ≠ 0 := fun h => hs (h ▸ List.mem_cons_self)
    cases t with
    | nil => simp [compareFrom, hnext]
    | cons f t =>
      have hf : f ≠ 0 := fun h => ht (h ▸ List.mem_cons_self)
      simp [compareFrom, hnext, he, hf]

/-- The result for two texts is about their first `m + 1` bytes if the loop stops after them, or if
there are no more. -/
theorem compareFrom_spec (hne : s = [] → t = [] → stop (i + 1) = true) (hm : i + m + 1 = last)
    (hstop : ∀ j, i < j → j < last → stop j = false)
    (hlast : stop last = true ∨ s.length ≤ m ∧ t.length ≤ m) :
    ∃ r, (∀ after1 after2,
        compareFrom stop i (s ++ 0 :: after1) (t ++ 0 :: after2) = some r) ∧
      Signs (diverge (s.take (m + 1)) (t.take (m + 1))).1
        (diverge (s.take (m + 1)) (t.take (m + 1))).2 r := by
  induction s generalizing t i m with
  | nil =>
    cases t with
    | nil => exact ⟨0, fun _ _ => by simp [compareFrom, hne rfl rfl], .sub 0 0⟩
    | cons d t =>
      have hd := Ne.symm ((headD_eq_zero_iff ht).not.mpr (List.cons_ne_nil d t))
      exact ⟨_, fun _ _ => if_pos hd, .ite hd⟩
  | cons c s ih =>
    have hc := (headD_eq_zero_iff hs).not.mpr (List.cons_ne_nil c s)
    cases t with
    | nil => exact ⟨_, fun _ _ => if_pos hc, .ite hc⟩
    | cons d t =>
      rw [List.take_succ_cons, List.take_succ_cons, diverge]
      split
      case isFalse hcd => exact ⟨_, fun _ _ => if_pos hcd, .ite hcd⟩
      case isTrue heq =>
        subst heq
        rw [List.mem_cons, not_or] at hs ht
        cases hnext : stop (i + 1) with
        | true =>
          obtain rfl : m = 0 := by
            by_contra
            exact absurd (hstop (i + 1) (by omega) (by omega)) (by simp [hnext])
          exact ⟨0, fun _ _ => by simp [compareFrom, hnext], .sub 0 0⟩
        | false =>
          obtain ⟨m, rfl⟩ : ∃ k, m = k + 1 := Nat.exists_eq_succ_of_ne_zero fun hm' => by
            simp [hm', ← hm, hnext] at hlast
          simp only [compareFrom_next hs.2 ht.2 _ _ c hnext]
          split
          case isTrue hnil =>
            have hends : diverge (s.take (m + 1)) (t.take (m + 1)) = (s.headD 0, t.headD 0) := by
              cases s <;> cases t <;> simp_all [diverge]
            exact ⟨_, fun _ _ => rfl, hends ▸ .sub _ _⟩
          case isFalse hnil =>
            exact ih hs.2 ht.2 (fun h => absurd (.inl h) hnil) (by omega)
              (fun j hj => hstop j (by omega)) (by simpa using hlast)

end

/-- After two empty texts the loop compares what follows them. -/
theorem not_orders_empty {stop : Nat → Bool} (hstop : stop 1 = false) (a b : List UInt8) :
    ¬ Orders (compareFrom stop 0) [] [] a b := by
  rintro ⟨r, hrun, -⟩
  have hless : compareFrom stop 0 [0, 1] [0, 2] = some (-1) := by
    simp [compareFrom, hstop, charValue]
  have hmore : compareFrom stop 0 [0, 2] [0, 1] = some 1 := by
    simp [compareFrom, hstop, charValue]
  have hsame := ((hrun [1] [2]).symm.trans hless).symm.trans ((hrun [2] [1]).symm.trans hmore)
  exact absurd hsame (by decide)

/-- What is compared in effect are the bytes where the texts diverge, as signed numbers. -/
theorem orders_iff {stop : Nat → Bool} {m : Nat} (hs : 0 ∉ s) (ht : 0 ∉ t) (a b : List UInt8)
    (hstop : ∀ j, 0 < j → j < m + 1 → stop j = false)
    (hlast : stop (m + 1) = true ∨ s.length ≤ m ∧ t.length ≤ m)
    (hp : diverge (s.take (m + 1)) (t.take (m + 1)) = (c, d)) :
    Orders (compareFrom stop 0) s t a b ↔ (s = [] → t = [] → stop 1 = true) ∧
      (charValue c < charValue d ↔ a < b) ∧ (charValue d < charValue c ↔ b < a) := by
  by_cases hne : s = [] → t = [] → stop 1 = true
  · obtain ⟨r, hrun, hsigns⟩ := compareFrom_spec hs ht hne (by omega) hstop hlast
    rw [hp] at hsigns
    rw [and_iff_right hne]
    constructor
    · rintro ⟨r', hrun', hneg, hpos⟩
      obtain rfl : r' = r := Option.some.inj ((hrun' [] []).symm.trans (hrun [] []))
      exact ⟨hsigns.neg.symm.trans hneg, hsigns.pos.symm.trans hpos⟩
    · intro h
      exact ⟨r, hrun, hsigns.neg.trans h.1, hsigns.pos.trans h.2⟩
  · obtain ⟨rfl, rfl, hnext⟩ : s = [] ∧ t = [] ∧ stop 1 = false := by simpa using hne
    exact iff_of_false (not_orders_empty hnext a b) fun h => hne h.1

/-- The order is right unless both texts are empty or a byte above 127 is compared with one below.
A limit of zero is none at all. -/
theorem strcmp_orders_iff (hs : 0 ∉ s) (ht : 0 ∉ t) (n : Nat) :
    (Orders strcmp s t s t ↔ (s = [] → t ≠ []) ∧ SameSide s t) ∧
    (Orders (strncmp n) s t (s.take n) (t.take n) ↔
      if n = 0 then s = t ∧ s ≠ []
      else (s = [] → t = [] → n = 1) ∧ SameSide (s.take n) (t.take n)) := by
  have hlong : s.length ≤ s.length + t.length ∧ t.length ≤ s.length + t.length := by omega
  have hall : diverge (s.take (s.length + t.length + 1)) (t.take (s.length + t.length + 1)) =
      diverge s t := by
    rw [List.take_of_length_le (by omega), List.take_of_length_le (by omega)]
  refine ⟨?_, ?_⟩
  · refine (orders_iff hs ht s t (fun _ _ _ => rfl) (.inr hlong) hall).trans ?_
    rw [sameSide_iff hs ht]
    simp
  · cases n with
    | zero =>
      refine (orders_iff hs ht [] [] (fun j hj _ => decide_eq_false hj.ne') (.inr hlong)
        hall).trans ?_
      -- The result would have to be zero, so the texts must not diverge.
      have hzero : (charValue (diverge s t).1 < charValue (diverge s t).2 ↔
            [] < ([] : List UInt8)) ∧
          (charValue (diverge s t).2 < charValue (diverge s t).1 ↔
            [] < ([] : List UInt8)) ↔ s = t := by
        rw [(diverge_lt_iff hs ht).2.2]
        simp only [List.lt_irrefl, iff_false, Int.not_lt]
        constructor
        · exact fun h => charValue_inj (Int.le_antisymm h.2 h.1)
        · exact fun h => h ▸ ⟨Int.le_refl _, Int.le_refl _⟩
      rw [hzero, if_pos rfl]
      constructor
      · rintro ⟨hne, rfl⟩
        exact ⟨rfl, fun hnil => absurd (hne hnil hnil) (by decide)⟩
      · rintro ⟨rfl, hne⟩
        exact ⟨fun hnil => absurd hnil hne, rfl⟩
    | succ n =>
      have htake {l : List UInt8} (hl : 0 ∉ l) : 0 ∉ l.take (n + 1) :=
        fun h => hl (List.mem_of_mem_take h)
      refine (orders_iff hs ht _ _ (fun j _ hj => decide_eq_false hj.ne)
        (.inl (decide_eq_true rfl)) rfl).trans ?_
      rw [sameSide_iff (htake hs) (htake ht)]
      simp [eq_comm]

/-- Two texts of one byte are ordered by it. -/
theorem strcmp_orders_letters :
    Orders strcmp [1] [2] [1] [2] ∧ Orders (strncmp 1) [1] [2] [1] [2] := by
  have h := strcmp_orders_iff (s := [1]) (t := [2]) (by decide) (by decide) 1
  have hside : SameSide [1] [2] := iff_of_true (by decide) (by decide)
  exact ⟨h.1.mpr ⟨by decide, hside⟩, h.2.mpr ⟨by decide, hside⟩⟩

/-- Two empty strings are ordered by what follows them, a byte above 127 comes before one below, and
a limit of zero lets two strings differ. -/
theorem strcmp_misorders : ¬ Orders strcmp [] [] [] [] ∧
    (strcmp [128, 0] [1, 0] = some (-1) ∧ ([1] : List UInt8) < [128]) ∧
    strncmp 0 [1, 0] [2, 0] = some (-1) :=
  ⟨not_orders_empty rfl [] [], by decide, by decide⟩

/-! ## Searching -/

/-- The inner loop of `strstr`: `s1` has ended, or both strings go on with the same byte. -/
def matchesAt : (s1 s2 : List UInt8) → Bool
  | [], _ => true
  | c :: s1, s2 => if s2.head? = some c then matchesAt s1 s2.tail else false

/-- The loop of `strstr` over the second string from index `i` on. -/
def searchFrom (s1 : List UInt8) (i : Nat) : (s2 : List UInt8) → Option Nat
  | [] => none
  | d :: s2 =>
    if s1.head? = some d ∧ matchesAt s1 (d :: s2) then some i else searchFrom s1 (i + 1) s2

/-- `strstr` with the strings at the addresses `p1` and `p2`. -/
def strstr (p1 p2 : Nat) (s1 s2 : List UInt8) : Option Nat :=
  if p2 = 0 ∨ p1 = 0 then none else (searchFrom s1 0 s2).map (p2 + ·)

/-- The first position at which a string occurs. -/
def firstOccurrence (haystack needle : List UInt8) : Option Nat :=
  haystack.tails.findIdx? (needle <+: ·)

variable {s1 s2 : List UInt8}

/-- The inner loop compares up to the end of the first string. -/
theorem matchesAt_iff : matchesAt s1 s2 = true ↔ s1 <+: s2 := by
  induction s1 generalizing s2 with
  | nil => simp [matchesAt]
  | cons c s1 ih => cases s2 <;> simp [matchesAt, ih, List.cons_prefix_cons, @eq_comm _ c]

/-- An empty first string is never found, since the loop looks for its first byte. -/
theorem searchFrom_eq_none_iff {i : Nat} :
    searchFrom s1 i s2 = none ↔ s1 = [] ∨ ¬ s1 <:+: s2 := by
  induction s2 generalizing i with
  | nil => simp [searchFrom, em]
  | cons d s2 ih =>
    simp only [searchFrom, List.infix_cons_iff, matchesAt_iff]
    cases s1 with
    | nil => simp [ih]
    | cons c s1 =>
      by_cases h : c :: s1 <+: d :: s2
      · have hhead := (List.cons_prefix_cons.mp h).1
        rw [if_pos ⟨congrArg some hhead, h⟩]
        simp [h]
      · simp [h, ih]

theorem firstOccurrence_eq_none_iff : firstOccurrence s1 s2 = none ↔ ¬ s2 <:+: s1 := by
  simp [firstOccurrence, List.infix_iff_prefix_suffix, imp_not_comm]

/-- The arguments are taken the other way round, so that only a string that is its own needle is
found. -/
theorem strstr_finds_iff {p1 p2 : Nat} (h1 : p1 ≠ 0) (h2 : p2 ≠ 0) (s1 s2 : List UInt8) :
    strstr p1 p2 s1 s2 = (firstOccurrence s1 s2).map (p1 + ·) ↔
      ¬ s2 <:+: s1 ∧ (s1 = [] ∨ ¬ s1 <:+: s2) ∨ s1 = s2 ∧ s1 ≠ [] ∧ p1 = p2 := by
  rw [strstr, if_neg (by simp [h1, h2])]
  by_cases hin : s1 = [] ∨ ¬ s1 <:+: s2
  · have hself : ¬ (s1 = s2 ∧ s1 ≠ [] ∧ p1 = p2) := by
      rintro ⟨rfl, hne, -⟩
      simp [hne] at hin
    rw [searchFrom_eq_none_iff.mpr hin, Option.map_none, eq_comm, Option.map_eq_none_iff,
      firstOccurrence_eq_none_iff]
    simp [hin, hself]
  · obtain ⟨i, hi⟩ := Option.ne_none_iff_exists'.mp (mt searchFrom_eq_none_iff.mp hin)
    rw [not_or, not_not] at hin
    by_cases hocc : s2 <:+: s1
    · -- Strings that occur in each other are the same, and both searches stop at once.
      obtain rfl := hin.2.sublist.antisymm hocc.sublist
      obtain ⟨c, s1, rfl⟩ := List.exists_cons_of_ne_nil hin.1
      have hcode : searchFrom (c :: s1) 0 (c :: s1) = some 0 :=
        if_pos ⟨rfl, matchesAt_iff.mpr List.prefix_rfl⟩
      have hfirst : firstOccurrence (c :: s1) (c :: s1) = some 0 := by
        simp [firstOccurrence, List.findIdx?_cons]
      simp [hcode, hfirst, eq_comm]
    · have hself : s1 ≠ s2 := fun h => hocc (h ▸ List.infix_rfl)
      rw [hi, firstOccurrence_eq_none_iff.mpr hocc]
      simp [hin, hself]

/-- Neither string occurs in the other one. -/
theorem strstr_not_found : strstr 8 4 [1, 2] [3] = (firstOccurrence [1, 2] [3]).map (8 + ·) :=
  (strstr_finds_iff (by decide) (by decide) [1, 2] [3]).mpr (by decide)

/-- A needle that occurs is not found. -/
theorem strstr_misses_needle :
    strstr 8 4 [1, 2] [2] = none ∧ firstOccurrence [1, 2] [2] = some 1 := by
  decide

end LudOS.Libc
