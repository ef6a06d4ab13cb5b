import TypeSpelling.Source.Rule

/-!
# Why a text is not a type expression

A parse error has a cause and a span of the text.  Causes carry what was found;
the wording is made in one place from them.
-/

namespace TypeSpelling.Source

/-- A range of byte positions of a text. -/
structure Span where
  start : Nat
  stop : Nat
  deriving DecidableEq

/-- A reason for which a text is not a type expression. -/
inductive ParseCause where
  /-- The grammar accepts one of the rules where something else was found. -/
  | unexpectedToken (expected : List Rule) (found : Option Char)
  /-- An integer literal has a value that 64 bits do not hold. -/
  | invalidNumber (text : String)
  /-- A subscript follows something that is not a name. -/
  | subscriptOnNonName (found : String)
  /-- Brackets and keywords nest deeper than allowed. -/
  | maxDepthExceeded (depth limit : Nat)
  /-- A match of the grammar that is not one expression. -/
  | malformed
  deriving DecidableEq

/-- A cause with the part of the text it lies in. -/
structure ParseError where
  cause : ParseCause
  span : Span
  deriving DecidableEq

/-- The words in which a rule is named to the reader. -/
def Rule.concept : Rule → String
  | .unionOp => "`|`"
  | .optionalOp => "`?`"
  | .subscript => "`[`"
  | .comma | .setRest => "`,`"
  | .colon | .mappingRest => "`:`"
  | .rparen => "`)`"
  | .rbracket => "`]`"
  | .rbrace => "`\x7d`"
  | .endOfInput => "end of input"
  | _ => "type expression"

/-- A list of alternatives in words. -/
def alternatives : List String → String
  | [] => "something else"
  | [only] => only
  | [first, last] => first ++ " or " ++ last
  | first :: rest => first ++ ", " ++ alternatives rest

namespace ParseCause

/-- The expected rules in words, each concept once. -/
def expectedText (expected : List Rule) : String :=
  alternatives (expected.map Rule.concept).eraseDups

/-- The character found, or the end of the text. -/
def foundText : Option Char → String
  | none => "end of input"
  | some c => "`" ++ c.toString ++ "`"

/-- The cause in words. -/
def message : ParseCause → String
  | .unexpectedToken expected found =>
      "expected " ++ expectedText expected ++ ", found " ++ foundText found
  | .invalidNumber text => "invalid integer literal `" ++ text ++ "`"
  | .subscriptOnNonName found => "only identifiers can be subscripted, found " ++ found
  | .maxDepthExceeded depth limit =>
      "expression nests " ++ depth.repr ++ " levels deep, the maximum is " ++ limit.repr
  | .malformed => "the match is not a single expression"

/-- The code under which the cause is documented. -/
def code : ParseCause → String
  | .unexpectedToken _ _ => "P001"
  | .invalidNumber _ => "P002"
  | .subscriptOnNonName _ => "P003"
  | .maxDepthExceeded _ _ => "P004"
  | .malformed => "P999"

/-- Advice on how to write what was meant. -/
def help? : ParseCause → Option String
  | .invalidNumber _ => some "integer literals must fit in a signed 64-bit integer"
  | .subscriptOnNonName _ =>
      some "write the container in canonical form, e.g. `typing.List[int]`"
  | .maxDepthExceeded _ _ => some "reduce nesting or simplify the expression"
  | .unexpectedToken _ _ | .malformed => none

end ParseCause

end TypeSpelling.Source
