import TypeSpelling.Source.Grammar
import TypeSpelling.Source.ParseError

/-!
# Nesting depth

Before a text is matched its nesting is counted, so that nothing later has to
follow it deeper than a limit.  The text falls into pieces that need no grammar:
quoted literals and words are taken whole, every other character alone.  A
bracket opens a level until it is closed.  A keyword opens a level as well,
until the operand is certain to have ended: at a closing bracket or at the next
`|`, comma or colon.
-/

namespace TypeSpelling.Source

open TypeSpelling.Text

/-! ## Pieces -/

/-- What a piece of text does to the nesting. -/
inductive Mark where
  | opening
  | closing
  | separator
  | keyword
  | neutral
  deriving DecidableEq

/-- A piece of text and what it does to the nesting. -/
structure Piece where
  mark : Mark
  text : List Char

/-- Splits a text behind an opening quotation mark at the end of the literal.  A
backslash takes the next character along.  A literal that is never closed takes
everything. -/
def splitQuoted (quotation : Char) : List Char → List Char × List Char
  | [] => ([], [])
  | [c] => ([c], [])
  | c :: next :: rest =>
      if c = '\\' then
        let split := splitQuoted quotation rest
        (c :: next :: split.1, split.2)
      else if c = quotation then ([c], next :: rest)
      else
        let split := splitQuoted quotation (next :: rest)
        (c :: split.1, split.2)

theorem splitQuoted_append (quotation : Char) (input : List Char) :
    (splitQuoted quotation input).1 ++ (splitQuoted quotation input).2 = input := by
  fun_induction splitQuoted quotation input with
  | case1 => rfl
  | case2 => rfl
  | case3 next rest _ ih => simpa using ih
  | case4 => rfl
  | case5 c next rest _ _ _ ih => simpa using ih

/-- Whether a word goes on with a character: names hold dots. -/
def isNameChar (c : Char) : Bool :=
  isWordChar c || c = '.'

/-- The piece that begins with a character, and the text behind it. -/
def nextPiece (c : Char) (rest : List Char) : Piece × List Char :=
  if c = '(' || c = '[' || c = '\x7b' then (⟨.opening, [c]⟩, rest)
  else if c = ')' || c = ']' || c = '\x7d' then (⟨.closing, [c]⟩, rest)
  else if c = '|' || c = ',' || c = ':' then (⟨.separator, [c]⟩, rest)
  else if c = '\'' || c = '"' then
    (⟨.neutral, c :: (splitQuoted c rest).1⟩, (splitQuoted c rest).2)
  else if isWordStart c then
    let word := c :: rest.takeWhile isNameChar
    (⟨if word = "await".toList || word = "iter".toList || word = "with".toList
      then .keyword else .neutral, word⟩, rest.dropWhile isNameChar)
  else (⟨.neutral, [c]⟩, rest)

/-- A piece and the text behind it make up the text. -/
theorem nextPiece_append (c : Char) (rest : List Char) :
    (nextPiece c rest).1.text ++ (nextPiece c rest).2 = c :: rest := by
  unfold nextPiece
  split
  · rfl
  split
  · rfl
  split
  · rfl
  split
  · simp [splitQuoted_append]
  split
  · simp
  · rfl

theorem nextPiece_text_ne_nil (c : Char) (rest : List Char) :
    (nextPiece c rest).1.text ≠ [] := by
  unfold nextPiece
  repeat' split
  all_goals simp

theorem length_nextPiece_rest_lt (c : Char) (rest : List Char) :
    (nextPiece c rest).2.length < (c :: rest).length := by
  have whole := congrArg List.length (nextPiece_append c rest)
  have positive := List.length_pos_iff.mpr (nextPiece_text_ne_nil c rest)
  rw [List.length_append] at whole
  omega

/-- The pieces of a text. -/
def pieces : List Char → List Piece
  | [] => []
  | c :: rest => (nextPiece c rest).1 :: pieces (nextPiece c rest).2
termination_by input => input.length
decreasing_by exact length_nextPiece_rest_lt c rest

/-- The pieces in a row are the text. -/
theorem flatMap_text_pieces (input : List Char) : (pieces input).flatMap Piece.text = input := by
  fun_induction pieces input with
  | case1 => rfl
  | case2 c rest ih => rw [List.flatMap_cons, ih, nextPiece_append]

/-! ## Depth -/

/-- The depth at a place in a text, and the depths outside the brackets that are
open there, the innermost first. -/
structure Nesting where
  outer : List Nat
  depth : Nat

namespace Nesting

/-- At the beginning of a text nothing is open. -/
def start : Nesting :=
  ⟨[], 0⟩

/-- Depth between the separators of the innermost open bracket. -/
def base (nesting : Nesting) : Nat :=
  match nesting.outer with
  | [] => 0
  | outside :: _ => outside + 1

/-- The nesting behind a piece. -/
def after (nesting : Nesting) : Mark → Nesting
  | .opening => ⟨nesting.depth :: nesting.outer, nesting.depth + 1⟩
  | .closing => ⟨nesting.outer.tail, nesting.outer.headD 0⟩
  | .separator => ⟨nesting.outer, nesting.base⟩
  | .keyword => ⟨nesting.outer, nesting.depth + 1⟩
  | .neutral => nesting

end Nesting

/-- The first piece behind which the depth exceeds the limit, as an error. -/
def firstExcess? (limit : Nat) : Nat → Nesting → List Piece → Option ParseError
  | _, _, [] => none
  | position, nesting, piece :: rest =>
      let inner := nesting.after piece.mark
      let stop := position + utf8Length piece.text
      if limit < inner.depth then
        some ⟨.maxDepthExceeded inner.depth limit, ⟨position, stop⟩⟩
      else firstExcess? limit stop inner rest

/-- Checks that a text nests no deeper than the limit. -/
def depthError? (limit : Nat) (input : List Char) : Option ParseError :=
  firstExcess? limit 0 .start (pieces input)

end TypeSpelling.Source
