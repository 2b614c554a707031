import Mathlib

/-!
# Strings

The operators of `kernel_string` for characters of any ordered type. `operator<` is the
lexicographic order, as `lt_iff` says, and `operator==` is equality.

`find` and `erase` take substrings, which must start inside of the string. A needle that is longer
than the string, the last element and the empty string are not treated apart.
-/

namespace LudOS.KernelString

variable {α : Type} [LinearOrder α]

/-- The loop of `operator==`, which starts at the end: the characters before index `i`. -/
def eqBefore (lhs rhs : List α) : (i : Nat) → Bool
  | 0 => true
  | i + 1 => if lhs[i]? ≠ rhs[i]? then false else eqBefore lhs rhs i

/-- `operator==`. -/
def eq (lhs rhs : List α) : Bool :=
  if lhs.length ≠ rhs.length then false else eqBefore lhs rhs lhs.length

/-- `operator<`: the loop over the indices of both strings. A string that has ended is less than
one that has not. -/
def lt : List α → List α → Bool
  | [], rhs => 0 < rhs.length
  | _ :: _, [] => false
  | l :: lhs, r :: rhs => if l < r then true else if l > r then false else lt lhs rhs

theorem eqBefore_iff {lhs rhs : List α} {n : Nat} :
    eqBefore lhs rhs n = true ↔ ∀ i < n, lhs[i]? = rhs[i]? := by
  induction n with
  | zero => simp [eqBefore]
  | succ n ih => grind [eqBefore]

theorem eq_iff {lhs rhs : List α} : eq lhs rhs = true ↔ lhs = rhs := by
  unfold eq
  split
  case isTrue hne => grind
  case isFalse heq =>
    rw [eqBefore_iff, List.ext_getElem?_iff]
    grind

theorem lt_iff {lhs rhs : List α} : lt lhs rhs = true ↔ lhs < rhs := by
  induction lhs generalizing rhs with
  | nil => cases rhs <;> simp [lt]
  | cons l lhs ih =>
    cases rhs with
    | nil => simp [lt]
    | cons r rhs =>
      rw [List.cons_lt_cons_iff]
      rcases lt_trichotomy l r with h | rfl | h
      · simp [lt, h]
      · simp [lt, ih]
      · simp [lt, h, lt_asymm h, ne_of_gt h]

/-- Exactly one of `a < b`, `a == b` and `b < a` holds, `<` is transitive, and `==` holds only of
the same characters. -/
theorem string_order_total (a b c : List α) :
    (lt a b = true ∧ eq a b = false ∧ lt b a = false ∨ lt a b = false ∧ eq a b = true ∧
      lt b a = false ∨ lt a b = false ∧ eq a b = false ∧ lt b a = true) ∧
    (lt a b = true → lt b c = true → lt a c = true) ∧
    (eq a b = true ↔ a.length = b.length ∧ ∀ i : Nat, a[i]? = b[i]?) := by
  simp only [← Bool.not_eq_true, lt_iff, eq_iff]
  refine ⟨?_, lt_trans, ?_⟩
  · rcases lt_trichotomy a b with h | rfl | h
    · exact .inl ⟨h, ne_of_lt h, lt_asymm h⟩
    · exact .inr (.inl ⟨lt_irrefl a, rfl, lt_irrefl a⟩)
    · exact .inr (.inr ⟨lt_asymm h, ne_of_gt h, h⟩)
  · exact ⟨fun h => h ▸ ⟨rfl, fun _ => rfl⟩, fun h => List.ext_getElem? h.2⟩

/-! ## Searching -/

/-- `npos`. -/
def npos : Nat := 2 ^ 32 - 1

/-- `substr`. `none` is the assertion of `assign`. -/
def substr (s : List α) (pos len : Nat) : Option (List α) :=
  if pos < s.length then some ((s.drop pos).take (min len (s.length - pos))) else none

omit [LinearOrder α] in
theorem substr_eq_some {s sub : List α} {pos len : Nat} :
    substr s pos len = some sub ↔ pos < s.length ∧ sub = (s.drop pos).take len := by
  unfold substr
  split
  case isTrue h =>
    rw [Option.some.injEq, ← List.length_drop, ← List.take_take, List.take_length]
    exact ⟨fun heq => ⟨h, heq.symm⟩, fun heq => heq.2.symm⟩
  case isFalse h => exact ⟨nofun, fun heq => absurd heq.1 h⟩

/-- The loop of `find` from index `i` on. The difference of the sizes is unsigned. -/
def findFrom (s str : List α) (i : Nat) : Option Nat :=
  if i ≤ (s.length + 2 ^ 32 - str.length) % 2 ^ 32 then
    match hsub : substr s i str.length with
    | none => none
    | some sub => if eq sub str then some i else findFrom s str (i + 1)
  else some npos
termination_by s.length - i
decreasing_by
  have := (substr_eq_some.mp hsub).1
  omega

/-- `find`. -/
def find (s str : List α) (pos : Nat) : Option Nat :=
  if str.isEmpty then some npos else findFrom s str pos

/-- The needle occurs at index `i`. -/
def Occurs (s str : List α) (i : Nat) : Prop := (s.drop i).take str.length = str

/-- A result is the least index from `pos` on at which the needle occurs, or `npos`. -/
def Finds (s str : List α) (pos : Nat) (result : Option Nat) : Prop :=
  ∃ i, result = some i ∧ (∀ j, pos ≤ j → j < i → ¬ Occurs s str j) ∧
    (pos ≤ i ∧ Occurs s str i ∨ i = npos ∧ ∀ j, pos ≤ j → ¬ Occurs s str j)

section

variable {s str : List α}

omit [LinearOrder α] in
theorem Occurs.le (hstr : str ≠ []) {i : Nat} (h : Occurs s str i) :
    i + str.length ≤ s.length := by
  have hlength := congrArg List.length h
  have hpos := List.length_pos_iff.mpr hstr
  rw [List.length_take, List.length_drop] at hlength
  omega

/-- A needle that is not longer is found. -/
theorem finds_of_le (hstr : str ≠ []) (hs : s.length < 2 ^ 32) (hle : str.length ≤ s.length)
    (pos : Nat) : Finds s str pos (findFrom s str pos) := by
  have hpos := List.length_pos_iff.mpr hstr
  have hbound : (s.length + 2 ^ 32 - str.length) % 2 ^ 32 = s.length - str.length := by omega
  induction hn : s.length - pos using Nat.strong_induction_on generalizing pos with
  | h n ih =>
    unfold findFrom
    rw [hbound]
    split
    case isFalse hgt =>
      have hnone : ∀ j, pos ≤ j → ¬ Occurs s str j := fun j hj hat => by
        have := hat.le hstr
        omega
      exact ⟨npos, rfl, fun j hj _ => hnone j hj, .inr ⟨rfl, hnone⟩⟩
    case isTrue hin =>
      split
      case h_1 hsub =>
        unfold substr at hsub
        split at hsub
        · cases hsub
        · omega
      case h_2 sub hsub =>
        obtain ⟨hlt, rfl⟩ := substr_eq_some.mp hsub
        split
        case isTrue heq =>
          exact ⟨pos, rfl, fun j hj hlt => absurd hj (by omega), .inl ⟨le_rfl, eq_iff.mp heq⟩⟩
        case isFalse hne =>
          have hnot : ¬ Occurs s str pos := fun hat => hne (eq_iff.mpr hat)
          obtain ⟨i, hi, hleast, hresult⟩ := ih _ (by omega) (pos + 1) rfl
          have hfrom : ∀ j, pos ≤ j → (pos + 1 ≤ j → ¬ Occurs s str j) → ¬ Occurs s str j :=
            fun j hj hlater => by
              rcases Nat.eq_or_lt_of_le hj with rfl | hlt
              · exact hnot
              · exact hlater hlt
          refine ⟨i, hi, fun j hj hji => hfrom j hj fun hlater => hleast j hlater hji, ?_⟩
          rcases hresult with ⟨hle, hat⟩ | ⟨hi, hnone⟩
          · exact .inl ⟨by omega, hat⟩
          · exact .inr ⟨hi, fun j hj => hfrom j hj (hnone j)⟩

/-- The search for a longer one runs to the end of the string and fails there. -/
theorem findFrom_of_lt (hlt : s.length < str.length) (hstr : str.length < 2 ^ 32) {pos : Nat}
    (hpos : pos + str.length ≤ 2 ^ 32 + s.length) : findFrom s str pos = none := by
  induction hn : s.length - pos using Nat.strong_induction_on generalizing pos with
  | h n ih =>
    unfold findFrom
    rw [if_pos (by omega)]
    split
    case h_1 => rfl
    case h_2 sub hsub =>
      obtain ⟨hin, rfl⟩ := substr_eq_some.mp hsub
      have hne : (s.drop pos).take str.length ≠ str := fun heq => by
        have hlength := congrArg List.length heq
        rw [List.length_take, List.length_drop] at hlength
        omega
      rw [if_neg (mt eq_iff.mp hne)]
      exact ih _ (by omega) (by omega) rfl

/-- When the search is right. -/
theorem finds_find_iff (hstr : str ≠ []) (hs : s.length < 2 ^ 32) (hlen : str.length < 2 ^ 32)
    (pos : Nat) : Finds s str pos (find s str pos) ↔
      str.length ≤ s.length ∨ 2 ^ 32 + s.length < pos + str.length := by
  rw [find, if_neg (by simpa using hstr)]
  rcases Nat.lt_or_ge s.length str.length with hlt | hle
  · have hnone : ∀ j, ¬ Occurs s str j := fun j hat => by
      have := hat.le hstr
      omega
    constructor
    · rintro ⟨i, hi, -⟩
      refine .inr (Nat.lt_of_not_le fun hpos => ?_)
      rw [findFrom_of_lt hlt hlen hpos] at hi
      cases hi
    · intro hpos
      refine ⟨npos, ?_, fun j _ _ => hnone j, .inr ⟨rfl, fun j _ => hnone j⟩⟩
      rw [findFrom, if_neg (by omega)]
  · exact iff_of_true (finds_of_le hstr hs hle pos) (.inl hle)

end

/-! ## Erasing -/

section

variable (nul : α) (s : List α)

/-- `operator+=`, which takes the other string as a C string. -/
def appendStr (other : List α) : List α := s ++ other.takeWhile (· ≠ nul)

/-- `erase` of the element at an iterator. -/
def eraseElement (idx : Nat) : Option (List α) := do
  let newStr ← substr s 0 idx
  let rest ← substr s (idx + 1) npos
  some (appendStr nul newStr rest)

/-- `erase` of `len` elements from `pos` on. -/
def erase (pos len : Nat) : Option (List α) := do
  let newStr ← substr s 0 pos
  if len ≠ npos ∧ (pos + len) % 2 ^ 32 < s.length then
    let rest ← substr s ((pos + len) % 2 ^ 32) npos
    some (appendStr nul newStr rest)
  else some newStr

/-- `erase` of the elements between two iterators. -/
def eraseRange (start stop : Nat) : Option (List α) := erase nul s start (stop - start)

variable {nul s} (hs : s.length < npos)

theorem appendStr_eq_iff {first rest : List α} :
    appendStr nul first rest = first ++ rest ↔ nul ∉ rest := by
  rw [appendStr, List.append_cancel_left_eq, List.takeWhile_eq_self_iff]
  grind

omit [LinearOrder α] in
theorem substr_zero (hne : s ≠ []) (len : Nat) : substr s 0 len = some (s.take len) :=
  substr_eq_some.mpr ⟨List.length_pos_iff.mpr hne, rfl⟩

include hs

omit [LinearOrder α] in
theorem substr_npos {pos : Nat} (hpos : pos < s.length) : substr s pos npos = some (s.drop pos) :=
  substr_eq_some.mpr ⟨hpos, (List.take_of_length_le (by rw [List.length_drop]; omega)).symm⟩

theorem eraseElement_iff {idx : Nat} (hidx : idx < s.length) :
    eraseElement nul s idx = some (s.eraseIdx idx) ↔
      idx + 1 < s.length ∧ nul ∉ s.drop (idx + 1) := by
  have hne : s ≠ [] := List.ne_nil_of_length_pos (by omega)
  unfold eraseElement
  rw [substr_zero hne, List.eraseIdx_eq_take_drop_succ]
  by_cases hlast : idx + 1 < s.length
  · simp [substr_npos hs hlast, appendStr_eq_iff, hlast]
  · simp [substr, hlast]

/-- A sum that wraps around is an index before `pos`, behind which nothing is to be appended. -/
theorem erase_iff {pos len : Nat} (hpos : pos ≤ s.length) (hlen : len ≤ npos) :
    erase nul s pos len = some (s.take pos ++ s.drop (pos + len)) ↔
      s ≠ [] ∧ (len ≠ npos → if pos + len < 2 ^ 32 then nul ∉ s.drop (pos + len)
        else s[pos + len - 2 ^ 32]? = some nul) := by
  by_cases hne : s = []
  case pos => simp [hne, erase, substr]
  case neg =>
    have hnpos : npos = 2 ^ 32 - 1 := rfl
    unfold erase
    rw [substr_zero hne]
    by_cases hall : len = npos
    case pos => simp [hall, hne, List.drop_eq_nil_of_le (show s.length ≤ pos + npos by omega)]
    case neg =>
      by_cases hwrap : pos + len < 2 ^ 32
      case pos =>
        rw [Nat.mod_eq_of_lt hwrap, if_pos hwrap]
        by_cases hin : pos + len < s.length
        · simp [hall, hne, hin, substr_npos hs hin, appendStr_eq_iff]
        · simp [hall, hne, hin, List.drop_eq_nil_of_le (Nat.not_lt.mp hin)]
      case neg =>
        have hmod : (pos + len) % 2 ^ 32 = pos + len - 2 ^ 32 := by omega
        have hin : pos + len - 2 ^ 32 < s.length := by omega
        have hend : s.drop (pos + len) = [] := List.drop_eq_nil_of_le (by omega)
        rw [hmod, if_neg hwrap, hend]
        generalize pos + len - 2 ^ 32 = e at hin
        have hrest := substr_npos hs hin
        rw [List.drop_eq_getElem_cons hin] at hrest
        simp [hall, hne, hin, hrest, appendStr]

/-- Searching fails for needles that are longer than the string. Erasing fails for the last element
and for the empty string, and loses what stands behind a zero character. -/
theorem string_find_erase_iff {str : List α} (hstr : str ≠ []) (hlen : str.length < 2 ^ 32) :
    (∀ pos, Finds s str pos (find s str pos) ↔
      str.length ≤ s.length ∨ 2 ^ 32 + s.length < pos + str.length) ∧
    (∀ idx < s.length, eraseElement nul s idx = some (s.eraseIdx idx) ↔
      idx + 1 < s.length ∧ nul ∉ s.drop (idx + 1)) ∧
    (∀ start stop, start ≤ stop → stop ≤ s.length →
      (eraseRange nul s start stop = some (s.take start ++ s.drop stop) ↔
        s ≠ [] ∧ nul ∉ s.drop stop)) ∧
    ∀ pos ≤ s.length, ∀ len ≤ npos,
      (erase nul s pos len = some (s.take pos ++ s.drop (pos + len)) ↔
        s ≠ [] ∧ (len ≠ npos → if pos + len < 2 ^ 32 then nul ∉ s.drop (pos + len)
          else s[pos + len - 2 ^ 32]? = some nul)) := by
  have hnpos : npos = 2 ^ 32 - 1 := rfl
  refine ⟨finds_find_iff hstr (by omega) hlen, fun idx hidx => eraseElement_iff hs hidx,
    fun start stop hle hstop => ?_, fun pos hpos len hlen => erase_iff hs hpos hlen⟩
  have hnpos' : stop - start ≤ npos := by omega
  have hstop' := Nat.add_sub_cancel' hle
  rw [eraseRange, ← hstop', Nat.add_sub_cancel_left, erase_iff hs (hle.trans hstop) hnpos', hstop',
    if_pos (by omega)]
  exact and_congr_right fun _ => forall_prop_of_true (by omega)

omit hs

theorem string_find_erase_middle : Finds [1, 2, 3, 2] [2, 3] 0 (find [1, 2, 3, 2] [2, 3] 0) ∧
    eraseElement 0 [1, 2, 3, 2] 1 = some [1, 3, 2] := by
  have hlist := @string_find_erase_iff Nat _ 0 [1, 2, 3, 2] (by decide) [2, 3] (by decide)
    (by decide)
  exact ⟨(hlist.1 0).mpr (by decide), (hlist.2.1 1 (by decide)).mpr (by decide)⟩

/-- Assertions that fail for a longer needle, the last element and the empty string. -/
theorem string_find_erase_fail : find [1] [1, 2] 0 = none ∧ eraseElement 0 [1, 2] 1 = none ∧
    eraseRange 0 [] 0 0 = none ∧ erase 0 [] 0 npos = none := by
  refine ⟨?_, rfl, rfl, rfl⟩
  simp [find, findFrom, substr, eq]

end

end LudOS.KernelString
