import Mathlib.Data.List.DropRight
import LudOS.Fs.Vfs

/-!
# Command lines

`quote_tokenize` of `utils/stlutils.hpp`, by which the shell takes a command line apart. The pieces
between the double quotes are outside and inside of quotes by turns.

`quote_tokenize_command_line` says that a line returns the arguments it was put together from.
-/

namespace LudOS.CommandLine

open Lib Fs

/-- `isspace`. -/
def isspace (c : Char) : Bool := 0x9 ≤ c.toNat && c.toNat < 0x9 + 5 || c.toNat == 0x20

/-- `trim_right`. -/
def trimRight (str : Str) : Str := str.rdropWhile isspace

/-- `trim_left`. -/
def trimLeft (str : Str) : Str := str.dropWhile isspace

/-- `trim`. -/
def trim (str : Str) : Str := trimRight (trimLeft str)

/-- The loop of `quote_tokenize` over the pieces from the one with number `i` on. -/
def quoteTokenizeFrom (i : Nat) : List Str → List Str
  | [] => []
  | el :: tokens =>
    (if i % 2 = 1 then [el] else tokenize (trim el) [' '] true) ++ quoteTokenizeFrom (i + 1) tokens

/-- `quote_tokenize`. -/
def quoteTokenize (str : Str) : List Str := quoteTokenizeFrom 0 (tokenize str ['"'] false)

/-- An argument as it stands in a command line. -/
inductive Argument where
  | bare (text : Str) (hne : text ≠ []) (hplain : ∀ c ∈ text, c ≠ '"' ∧ isspace c = false)
  | quoted (text : Str) (hquote : '"' ∉ text)

namespace Argument

/-- What the argument says. -/
def text : Argument → Str
  | bare text _ _ => text
  | quoted text _ => text

/-- How it is written. -/
def render : Argument → Str
  | bare text _ _ => text
  | quoted text _ => '"' :: text ++ ['"']

end Argument

/-- The arguments with a blank between them. -/
def commandLine (args : List Argument) : Str := [' '].intercalate (args.map Argument.render)

/-- A character that can stand outside of quotes. The blank is the only space. -/
def Outside (c : Char) : Prop := c ≠ '"' ∧ (isspace c = true → c = ' ')

/-! ## Trimming -/

section

variable {s : Str} (hs : ∀ c ∈ s, Outside c)

include hs

theorem words_trimLeft : words [' '].contains (trimLeft s) = words [' '].contains s := by
  induction s with
  | nil => rfl
  | cons c s ih =>
    rw [List.forall_mem_cons] at hs
    cases hc : isspace c with
    | false => simp [trimLeft, hc]
    | true =>
      cases hs.1.2 hc
      rw [trimLeft, List.dropWhile_cons_of_pos hc]
      exact (ih hs.2).trans (words_append (by rfl) [] s).symm

theorem words_trimRight : words [' '].contains (trimRight s) = words [' '].contains s := by
  induction s using List.reverseRecOn with
  | nil => rfl
  | append_singleton s c ih =>
    cases hc : isspace c with
    | false => simp [trimRight, hc]
    | true =>
      cases (hs c (by simp)).2 hc
      rw [trimRight, List.rdropWhile_concat_pos _ _ _ hc, words_snoc (by rfl)]
      exact ih fun c hmem => hs c (by simp [hmem])

/-- Blanks at the ends of a piece do not matter to its words. -/
theorem words_trim : words [' '].contains (trim s) = words [' '].contains s := by
  have hleft : ∀ c ∈ trimLeft s, Outside c := fun c hc => hs c (List.dropWhile_subset _ hc)
  rw [trim, words_trimRight hleft, words_trimLeft hs]

end

/-! ## Pieces by turns outside and inside of quotes -/

theorem isspace_blank : isspace ' ' = true := by decide

/-- A bare argument is a word, and none of its characters is special. -/
theorem outside_of_bare {text : Str} (hplain : ∀ c ∈ text, c ≠ '"' ∧ isspace c = false) :
    (∀ c ∈ text, Outside c) ∧ ∀ c ∈ text, [' '].contains c = false := by
  refine ⟨fun c hc => ⟨(hplain c hc).1, fun hspace => ?_⟩, fun c hc => ?_⟩
  · rw [(hplain c hc).2] at hspace
    cases hspace
  · have hne : c ≠ ' ' := by
      rintro rfl
      exact absurd (hplain _ hc).2 (by rw [isspace_blank]; decide)
    simpa using hne

variable {i : Nat} (hi : i % 2 = 0) {cur : Str} (hcur : ∀ c ∈ cur, Outside c)

include hi hcur

/-- A piece outside of quotes is cut into words. -/
theorem quoteTokenizeFrom_outside (tokens : List Str) :
    quoteTokenizeFrom i (cur :: tokens) =
      words [' '].contains cur ++ quoteTokenizeFrom (i + 1) tokens := by
  rw [quoteTokenizeFrom, if_neg (by omega), tokenize, if_pos rfl, words_trim hcur]

/-- What stands between two quotes is one token. -/
theorem quoteTokenizeFrom_quoted {text : Str} (htext : '"' ∉ text) (s : Str) :
    quoteTokenizeFrom i (piecesFrom ['"'].contains cur ('"' :: text ++ '"' :: s)) =
      words [' '].contains cur ++
        text :: quoteTokenizeFrom (i + 2) (pieces ['"'].contains s) := by
  have hclosed : pieces ['"'].contains (text ++ ['"']) = [text] :=
    pieces_closed (fun c hc => by simpa using ne_of_mem_of_not_mem hc htext) (by rfl)
  rw [List.cons_append, piecesFrom_sep (by rfl), quoteTokenizeFrom_outside hi hcur,
    pieces_append (by rfl), hclosed, List.singleton_append, quoteTokenizeFrom,
    if_pos (by omega), List.singleton_append]

/-- One argument behind what is already read, and `rest` behind the argument. -/
theorem quoteTokenizeFrom_render (arg : Argument) {rest : Str} {toks : List Str}
    (happend : ∀ w, words [' '].contains (cur ++ w) =
      words [' '].contains cur ++ words [' '].contains w)
    (hrest : ∀ i cur, i % 2 = 0 → (∀ c ∈ cur, Outside c) →
      quoteTokenizeFrom i (piecesFrom ['"'].contains cur rest) =
        words [' '].contains cur ++ toks) :
    quoteTokenizeFrom i (piecesFrom ['"'].contains cur (arg.render ++ rest)) =
      words [' '].contains cur ++ arg.text :: toks := by
  cases arg with
  | bare text hne hplain =>
    obtain ⟨htext, hword⟩ := outside_of_bare hplain
    have hquote : ∀ c ∈ text, ['"'].contains c = false := fun c hc => by simpa using (htext c hc).1
    rw [Argument.render, piecesFrom_of_not_sep hquote,
      hrest _ _ hi fun c hc => (List.mem_append.mp hc).elim (hcur c) (htext c), happend,
      words_of_not_sep hword hne, List.append_assoc]
    rfl
  | quoted text hquote =>
    have hrender : (Argument.quoted text hquote).render ++ rest = '"' :: text ++ '"' :: rest := by
      simp [Argument.render]
    rw [hrender, quoteTokenizeFrom_quoted hi hcur hquote, pieces,
      hrest (i + 2) [] (by omega) (by simp)]
    rfl

/-- The arguments behind what is already read, each after a blank. -/
theorem quoteTokenizeFrom_rest (args : List Argument) :
    quoteTokenizeFrom i (piecesFrom ['"'].contains cur (args.flatMap (' ' :: ·.render))) =
      words [' '].contains cur ++ args.map Argument.text := by
  induction args generalizing i cur with
  | nil =>
    cases cur with
    | nil => rfl
    | cons c cur => exact quoteTokenizeFrom_outside hi hcur []
  | cons arg args ih =>
    have hblank : ∀ c ∈ cur ++ [' '], Outside c := by
      simp only [List.mem_append, List.mem_singleton]
      rintro c (hc | rfl)
      · exact hcur c hc
      · exact ⟨by decide, fun _ => rfl⟩
    have hsnoc : words [' '].contains (cur ++ [' ']) = words [' '].contains cur :=
      words_snoc (by rfl) cur
    have happend : ∀ w, words [' '].contains (cur ++ [' '] ++ w) =
        words [' '].contains (cur ++ [' ']) ++ words [' '].contains w := fun w => by
      rw [hsnoc, List.append_assoc]
      exact words_append (by rfl) cur w
    have hrender := quoteTokenizeFrom_render hi hblank arg happend fun i cur hi hcur => ih hi hcur
    rw [hsnoc] at hrender
    exact hrender

omit hi hcur

/-- A command line returns the arguments it is put together from. -/
theorem quote_tokenize_command_line (args : List Argument) :
    quoteTokenize (commandLine args) = args.map Argument.text := by
  cases args with
  | nil => rfl
  | cons arg args =>
    have hline : commandLine (arg :: args) = arg.render ++ args.flatMap (' ' :: ·.render) := by
      rw [commandLine, List.map_cons, intercalate_cons, List.flatMap_map]
      rfl
    rw [hline]
    exact quoteTokenizeFrom_render rfl (by simp) arg (fun w => rfl)
      fun i cur hi hcur => quoteTokenizeFrom_rest hi hcur args

example : quoteTokenize "cat \"a b\"  c".toList = ["cat".toList, "a b".toList, "c".toList] := by
  decide

end LudOS.CommandLine
