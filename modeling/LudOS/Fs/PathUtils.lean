import Mathlib.Data.List.Destutter
import LudOS.Fs.Vfs

/-!
# Splitting and joining paths

The loops of `tokenize` and `join` of `utils/stlutils.hpp`, and `parent_path` and `filename` of
`fs/pathutils.hpp`. `tokenizeFrom_eq` and `joinLoop_eq` say that the loops compute the functions by
which the other modules take paths apart.

Splitting and joining are inverse to each other. A path is its parent path followed by its name, up
to slashes in a row, unless it has no slash at all: the parent path of a name is the root.
-/

namespace LudOS.Fs

open Lib

/-! ## The loops -/

/-- The loop of `tokenize` from `lastPos` on. -/
def tokenizeFrom (str delimiters : Str) (trimEmpty : Bool) (lastPos : Nat) : List Str :=
  if lastPos < str.length then
    -- `find_first_of`, or the length of the string
    let pos := lastPos + (str.drop lastPos).findIdx delimiters.contains
    (if pos ≠ lastPos ∨ ¬ trimEmpty then [(str.drop lastPos).take (pos - lastPos)] else []) ++
      tokenizeFrom str delimiters trimEmpty (pos + 1)
  else []
termination_by str.length - lastPos

/-- The loop of `join`, and its last append. -/
def joinLoop (cont : List Str) (joinStr : Str) : Str :=
  if cont = [] then []
  else
    appendStr (cont.dropLast.foldl (fun result tok => appendStr (appendStr result tok) joinStr) [])
      (cont.getLastD [])

/-- `tokenize` cuts the string at its delimiters. -/
theorem tokenizeFrom_eq (str delimiters : Str) (trimEmpty : Bool) (lastPos : Nat) :
    tokenizeFrom str delimiters trimEmpty lastPos =
      tokenize (str.drop lastPos) delimiters trimEmpty := by
  induction hn : str.length - lastPos using Nat.strong_induction_on generalizing lastPos with
  | h n ih =>
    unfold tokenizeFrom
    split
    case isFalse hge =>
      rw [List.drop_eq_nil_of_le (Nat.not_lt.mp hge)]
      cases trimEmpty <;> rfl
    case isTrue hlt =>
      have hne : str.drop lastPos ≠ [] := by simpa using hlt
      have hpieces : piecesFrom delimiters.contains [] _ = _ := piecesFrom_eq [] hne
      dsimp only
      rw [ih _ (by omega) _ rfl]
      cases trimEmpty with
      | false => simp [tokenize, pieces, hpieces, Nat.add_assoc]
      | true =>
        by_cases hk : (str.drop lastPos).findIdx delimiters.contains = 0 <;>
          simp_all [tokenize, words, pieces, Nat.add_assoc]

theorem foldl_appendStr (toks : List Str) (joinStr result : Str) :
    toks.foldl (fun result tok => appendStr (appendStr result tok) joinStr) result =
      result ++ toks.flatMap (fun tok => cStr tok ++ cStr joinStr) := by
  induction toks generalizing result with
  | nil => simp
  | cons tok toks ih =>
    rw [List.foldl_cons, ih]
    simp [appendStr]

/-- `join` puts the tokens together, each up to its zero character. -/
theorem joinLoop_eq (cont : List Str) (joinStr : Str) :
    joinLoop cont joinStr = join cont joinStr := by
  rcases List.eq_nil_or_concat' cont with rfl | ⟨toks, last, rfl⟩
  · rfl
  · have hne : toks ++ [last] ≠ [] := by simp
    rw [joinLoop, if_neg hne, List.dropLast_concat, List.getLastD_concat, foldl_appendStr, join,
      List.map_append, List.map_singleton, intercalate_concat, List.flatMap_map]
    rfl

/-! ## Tokens -/

section

variable {s : Str} {d : Char}

/-- The tokens of a string that does not end in the delimiter. -/
theorem exists_tokens (hne : s ≠ []) (hend : s.getLast? ≠ some d) :
    ∃ toks last, tokenize s [d] false = toks ++ [last] ∧ s = toks.flatMap (· ++ [d]) ++ last := by
  have hjoin : [d].intercalate (tokenize s [d] false) = s :=
    intercalate_piecesFrom (by simp) [] hend
  rcases List.eq_nil_or_concat' (tokenize s [d] false) with hnil | ⟨toks, last, htoks⟩
  · rw [hnil] at hjoin
    exact absurd hjoin.symm hne
  · rw [htoks, intercalate_concat] at hjoin
    exact ⟨toks, last, htoks, hjoin.symm⟩

theorem not_mem_of_mem_tokenize {tok : Str} (htok : tok ∈ tokenize s [d] false) : d ∉ tok := by
  intro hd
  simpa using not_sep_of_mem_pieces htok d hd

/-- Tokens of a string without zero characters are joined to the string. -/
theorem join_tokenize (hnul : nul ∉ s) (hend : s.getLast? ≠ some d) :
    join (tokenize s [d] false) [d] = s := by
  by_cases hne : s = []
  · subst hne
    rfl
  · obtain ⟨toks, last, htoks, hs⟩ := exists_tokens hne hend
    rw [hs, List.mem_append, List.mem_flatMap, not_or, not_exists] at hnul
    have hparts : ∀ tok ∈ toks, cStr tok ++ cStr [d] = tok ++ [d] := by
      intro tok htok
      have htok' : nul ∉ tok ++ [d] := fun hmem => hnul.1 tok ⟨htok, hmem⟩
      rw [List.mem_append, not_or] at htok'
      rw [cStr_eq_self htok'.1, cStr_eq_self htok'.2]
    calc join (tokenize s [d] false) [d]
      _ = (toks.map cStr).flatMap (· ++ cStr [d]) ++ cStr last := by
        rw [htoks, join, List.map_append, List.map_singleton, intercalate_concat]
      _ = toks.flatMap (· ++ [d]) ++ last := by
        rw [List.flatMap_map, List.flatMap_congr hparts, cStr_eq_self hnul.2]
      _ = s := hs.symm

end

/-- The tokens make the string again when they are joined, and `trimEmpty` leaves out the empty
ones. -/
theorem tokenize_join_inverse (s : Str) (d : Char) (hnul : nul ∉ s) (hend : s.getLast? ≠ some d) :
    joinLoop (tokenizeFrom s [d] false 0) [d] = s ∧
      (∀ tok ∈ tokenizeFrom s [d] false 0, d ∉ tok) ∧
      tokenizeFrom s [d] true 0 = (tokenizeFrom s [d] false 0).filter (!·.isEmpty) := by
  simp only [tokenizeFrom_eq, joinLoop_eq, List.drop_zero]
  exact ⟨join_tokenize hnul hend, fun tok => not_mem_of_mem_tokenize, rfl⟩

/-- A path with an empty token. -/
theorem tokenize_join_slashes : joinLoop (tokenizeFrom "/a//b".toList ['/'] false 0) ['/'] =
    "/a//b".toList :=
  (tokenize_join_inverse "/a//b".toList '/' (by decide) (by decide)).1

/-! ## Parent paths -/

/-- A path with every run of slashes made one. -/
def squeeze (path : Str) : Str := path.destutter fun a b => ¬ (a = '/' ∧ b = '/')

/-- The parent path and the name are the path, except for a path without slashes. -/
theorem parent_path_filename_iff {p : Str} (hne : p ≠ []) (hnul : nul ∉ p)
    (hend : p.getLast? ≠ some '/') :
    squeeze (parentPath p ++ filename p) = squeeze p ↔ '/' ∈ p := by
  obtain ⟨toks, last, htoks, hp⟩ := exists_tokens hne hend
  have hpieces : pieces ['/'].contains p = toks ++ [last] := htoks
  rw [parentPath_eq hnul, hpieces, filename, htoks, List.dropLast_concat, List.getLastD_concat]
  rcases List.eq_nil_or_concat' toks with rfl | ⟨toks, q, rfl⟩
  · -- A single token: the slash of the parent path is one too many.
    obtain rfl : p = last := hp
    have hslash : '/' ∉ p := not_mem_of_mem_tokenize (s := p) (by simp [htoks])
    obtain ⟨c, q, rfl⟩ := List.exists_cons_of_ne_nil hne
    have hc : c ≠ '/' := fun h => hslash (h ▸ List.mem_cons_self)
    have hadds : squeeze ('/' :: c :: q) = '/' :: squeeze (c :: q) := by
      rw [squeeze, List.destutter_cons_cons, if_pos (by simp [hc])]
      rfl
    simp [hadds, hslash]
  · have hall : toks.flatMap (· ++ ['/']) ++ q ++ ['/'] ++ last = p := by simp [hp]
    rw [intercalate_concat, hall, hp]
    simp

/-- A relative path with two slashes in a row. -/
theorem parent_path_filename_nested :
    squeeze (parentPath "a//b".toList ++ filename "a//b".toList) = squeeze "a//b".toList :=
  (parent_path_filename_iff (by decide) (by decide) (by decide)).mpr (by decide)

/-- The parent of a relative path may be the root. -/
theorem parent_path_relative : parentPath ['a'] = ['/'] ∧
    squeeze (parentPath ['a'] ++ filename ['a']) ≠ squeeze ['a'] := by
  decide

end LudOS.Fs
