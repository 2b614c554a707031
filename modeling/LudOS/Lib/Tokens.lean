import Mathlib.Data.List.Basic

/-!
# Strings cut at separators

`pieces` cuts a string at every separator, `words` keeps the pieces that are not empty. A separator
at the end closes the last piece and opens no new one. The rules say how both act on strings that
are put together around a separator.
-/

namespace LudOS.Lib

variable {α : Type} (sep : α → Bool) {c : α} {w : List α}

/-- The pieces of a string whose first piece has begun with `cur`. -/
def piecesFrom (cur : List α) : List α → List (List α)
  | [] => if cur.isEmpty then [] else [cur]
  | c :: s => if sep c then cur :: piecesFrom [] s else piecesFrom (cur ++ [c]) s

/-- The pieces between the separators. -/
def pieces (s : List α) : List (List α) := piecesFrom sep [] s

/-- The pieces that are not empty. -/
def words (s : List α) : List (List α) := (pieces sep s).filter (!·.isEmpty)

variable {sep}

theorem piecesFrom_sep {c : α} (hc : sep c = true) (cur : List α) (s : List α) :
    piecesFrom sep cur (c :: s) = cur :: pieces sep s := by
  simp [piecesFrom, pieces, hc]

/-- After a separator the cutting starts afresh. -/
theorem piecesFrom_append (hc : sep c = true) (cur s t : List α) :
    piecesFrom sep cur (s ++ c :: t) = piecesFrom sep cur (s ++ [c]) ++ pieces sep t := by
  induction s generalizing cur with
  | nil => simp [piecesFrom_sep hc, pieces, piecesFrom]
  | cons d s ih =>
    cases hd : sep d with
    | true => simp [piecesFrom, hd, ih]
    | false => simp [piecesFrom, hd, ih]

theorem pieces_append (hc : sep c = true) (s t : List α) :
    pieces sep (s ++ c :: t) = pieces sep (s ++ [c]) ++ pieces sep t :=
  piecesFrom_append hc [] s t

section

variable (hw : ∀ c ∈ w, sep c = false)

include hw

/-- A stretch without separators goes into the current piece. -/
theorem piecesFrom_of_not_sep (cur s : List α) :
    piecesFrom sep cur (w ++ s) = piecesFrom sep (cur ++ w) s := by
  induction w generalizing cur with
  | nil => simp
  | cons c w ih =>
    have hc : sep c = false := hw c List.mem_cons_self
    rw [List.cons_append, piecesFrom, hc, if_neg Bool.false_ne_true,
      ih (fun d hd => hw d (List.mem_cons_of_mem c hd)), List.append_assoc]
    rfl

/-- A stretch without separators, closed by one. -/
theorem pieces_closed (hc : sep c = true) : pieces sep (w ++ [c]) = [w] := by
  rw [pieces, piecesFrom_of_not_sep hw, piecesFrom_sep hc]
  rfl

/-- A string without separators is a word. -/
theorem words_of_not_sep (hne : w ≠ []) : words sep w = [w] := by
  have hpieces := piecesFrom_of_not_sep hw [] []
  rw [List.append_nil, List.nil_append] at hpieces
  simp [words, pieces, hpieces, piecesFrom, hne]

end

/-- A separator at the end does not matter. -/
theorem words_snoc (hc : sep c = true) (s : List α) : words sep (s ++ [c]) = words sep s := by
  have hfrom : ∀ cur : List α, (piecesFrom sep cur (s ++ [c])).filter (!·.isEmpty) =
      (piecesFrom sep cur s).filter (!·.isEmpty) := by
    induction s with
    | nil =>
      intro cur
      cases cur with
      | nil => simp [piecesFrom, hc]
      | cons d cur => simp [piecesFrom, hc]
    | cons d s ih =>
      intro cur
      cases hd : sep d with
      | true => simp [piecesFrom, hd, List.filter_cons, ih]
      | false => simp [piecesFrom, hd, ih]
  exact hfrom []

/-- The words on both sides of a separator. -/
theorem words_append (hc : sep c = true) (s t : List α) :
    words sep (s ++ c :: t) = words sep s ++ words sep t := by
  have hsnoc := words_snoc hc s
  unfold words at hsnoc ⊢
  rw [pieces_append hc, List.filter_append, hsnoc]

theorem not_sep_of_mem_piecesFrom {cur s p : List α} (hcur : ∀ c ∈ cur, sep c = false)
    (hp : p ∈ piecesFrom sep cur s) : ∀ c ∈ p, sep c = false := by
  induction s generalizing cur with
  | nil =>
    unfold piecesFrom at hp
    split at hp
    · cases hp
    · rw [List.mem_singleton.mp hp]
      exact hcur
  | cons d s ih =>
    unfold piecesFrom at hp
    split at hp
    case isTrue =>
      rcases List.mem_cons.mp hp with rfl | hp
      · exact hcur
      · exact ih (by simp) hp
    case isFalse hd =>
      refine ih (fun c hc => ?_) hp
      rcases List.mem_append.mp hc with hc | hc
      · exact hcur c hc
      · rw [List.mem_singleton.mp hc]
        simpa using hd

/-- No piece contains a separator. -/
theorem not_sep_of_mem_pieces {s p : List α} (hp : p ∈ pieces sep s) : ∀ c ∈ p, sep c = false :=
  not_sep_of_mem_piecesFrom (by simp) hp

theorem mem_of_mem_piecesFrom {cur s p : List α} {c : α} (hp : p ∈ piecesFrom sep cur s)
    (hc : c ∈ p) : c ∈ cur ++ s := by
  induction s generalizing cur with
  | nil =>
    unfold piecesFrom at hp
    split at hp
    · cases hp
    · rw [List.mem_singleton.mp hp] at hc
      simpa using hc
  | cons d s ih =>
    unfold piecesFrom at hp
    split at hp
    · rcases List.mem_cons.mp hp with rfl | hp
      · exact List.mem_append_left _ hc
      · exact List.mem_append_right cur (List.mem_cons_of_mem d (ih hp))
    · have hmem := ih hp
      rwa [List.append_assoc] at hmem

/-- The pieces have no other elements than the list. -/
theorem mem_of_mem_pieces {s p : List α} {c : α} (hp : p ∈ pieces sep s) (hc : c ∈ p) : c ∈ s :=
  mem_of_mem_piecesFrom hp hc

/-- The elements of a list that is put together. -/
theorem mem_intercalate {glue : List α} {ps : List (List α)} {c : α}
    (h : c ∈ List.intercalate glue ps) : c ∈ glue ∨ ∃ p ∈ ps, c ∈ p := by
  induction ps with
  | nil => cases h
  | cons p ps ih =>
    cases ps with
    | nil => exact .inr ⟨p, List.mem_cons_self, by simpa [List.intercalate] using h⟩
    | cons q ps =>
      rw [List.intercalate_cons_cons, List.mem_append, List.mem_append] at h
      rcases h with (hp | hglue) | hrest
      · exact .inr ⟨p, List.mem_cons_self, hp⟩
      · exact .inl hglue
      · rcases ih hrest with hglue | ⟨r, hr, hc⟩
        · exact .inl hglue
        · exact .inr ⟨r, List.mem_cons_of_mem p hr, hc⟩

/-- All pieces but the first one stand behind the glue. -/
theorem intercalate_cons (glue p : List α) (ps : List (List α)) :
    glue.intercalate (p :: ps) = p ++ ps.flatMap (glue ++ ·) := by
  induction ps generalizing p with
  | nil => simp [List.intercalate]
  | cons q ps ih => simp [List.intercalate_cons_cons, ih]

/-- All pieces but the last one are followed by the glue. -/
theorem intercalate_concat (glue : List α) (ps : List (List α)) (q : List α) :
    glue.intercalate (ps ++ [q]) = ps.flatMap (· ++ glue) ++ q := by
  induction ps with
  | nil => simp [List.intercalate]
  | cons p ps ih =>
    obtain ⟨r, rs, hrs⟩ := List.exists_cons_of_ne_nil (show ps ++ [q] ≠ [] by simp)
    rw [List.cons_append, hrs, List.intercalate_cons_cons, ← hrs, ih]
    simp

/-- A string that does not end in the separator is what its pieces make when they are joined. -/
theorem intercalate_piecesFrom (hsep : ∀ d, sep d = true ↔ d = c) (cur : List α) {s : List α}
    (hend : s.getLast? ≠ some c) : [c].intercalate (piecesFrom sep cur s) = cur ++ s := by
  induction s generalizing cur with
  | nil => cases cur <;> simp [piecesFrom, List.intercalate]
  | cons d s ih =>
    by_cases hd : d = c
    · subst hd
      rw [piecesFrom_sep ((hsep d).mpr rfl)]
      cases s with
      | nil => simp at hend
      | cons e s =>
        have hrest := ih [] (by simpa using hend)
        cases hp : piecesFrom sep [] (e :: s) with
        | nil => simp [hp] at hrest
        | cons q ps =>
          rw [pieces, hp, List.intercalate_cons_cons, ← hp, hrest]
          simp
    · have hnot : sep d = false := by simpa using mt (hsep d).mp hd
      have hrest := ih (cur ++ [d]) (by cases s <;> simp_all)
      simp [piecesFrom, hnot, hrest]

/-- The first piece ends at the first separator. -/
theorem piecesFrom_eq (cur : List α) {s : List α} (hne : cur ++ s ≠ []) : piecesFrom sep cur s =
      (cur ++ s.take (s.findIdx sep)) :: pieces sep (s.drop (s.findIdx sep + 1)) := by
  induction s generalizing cur with
  | nil => simp_all [piecesFrom, pieces]
  | cons d s ih =>
    cases hd : sep d with
    | true => simp [piecesFrom_sep hd, List.findIdx_cons, hd]
    | false => simp [piecesFrom, List.findIdx_cons, hd, ih]

/-- Pieces that are put together again are cut at the same places. -/
theorem pieces_intercalate (hc : sep c = true) {ps : List (List α)}
    (hps : ∀ p ∈ ps, p ≠ [] ∧ ∀ d ∈ p, sep d = false) :
    pieces sep (List.intercalate [c] ps) = ps := by
  induction ps with
  | nil => rfl
  | cons p ps ih =>
    obtain ⟨hne, hp⟩ := hps p List.mem_cons_self
    cases ps with
    | nil =>
      have hsingle : pieces sep (p ++ []) = piecesFrom sep ([] ++ p) [] :=
        piecesFrom_of_not_sep hp [] []
      simpa [List.intercalate, piecesFrom, hne] using hsingle
    | cons q ps =>
      have hrest := ih fun r hr => hps r (List.mem_cons_of_mem p hr)
      rw [List.intercalate_cons_cons, List.append_assoc, List.singleton_append, pieces_append hc,
        pieces_closed hp hc, hrest, List.singleton_append]

/-- The words of pieces that are put together again. -/
theorem words_intercalate (hc : sep c = true) {ps : List (List α)}
    (hps : ∀ p ∈ ps, ∀ d ∈ p, sep d = false) :
    words sep (List.intercalate [c] ps) = ps.filter (!·.isEmpty) := by
  induction ps with
  | nil => rfl
  | cons p ps ih =>
    have hword : words sep p = [p].filter (!·.isEmpty) := by
      cases p with
      | nil => rfl
      | cons d p => exact words_of_not_sep (hps _ List.mem_cons_self) (List.cons_ne_nil d p)
    cases ps with
    | nil => simpa [List.intercalate] using hword
    | cons q ps =>
      have hrest := ih fun r hr => hps r (List.mem_cons_of_mem p hr)
      rw [List.intercalate_cons_cons, List.append_assoc, List.singleton_append, words_append hc,
        hword, hrest, ← List.filter_append, List.singleton_append]

end LudOS.Lib
