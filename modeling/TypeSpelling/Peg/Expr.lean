import TypeSpelling.Text.Bytes

/-!
# Parsing expressions

A parsing expression says which initial part of a text it takes.  Choices are
ordered and repetitions are greedy, so a text is matched in at most one way.
Blanks between the parts of a sequence are taken by an explicit `skip`, which
stands for whatever the surrounding grammar counts as blank; under a rule that
reads a single token nothing is blank.

Rules are answered by a function passed in from outside, so matching recurs on
the expression alone.
-/

namespace TypeSpelling.Peg

open TypeSpelling.Text

/-- Parsing expressions over a type of rules. -/
inductive Expr (R : Type) where
  /-- One character that passes the test. -/
  | char (accepts : Char → Bool)
  /-- The given characters. -/
  | text (expected : List Char)
  /-- Nothing, where no character is left. -/
  | endOfInput
  /-- As many blanks as follow. -/
  | skip
  /-- What the rule takes. -/
  | call (rule : R)
  /-- The first part and then the second. -/
  | seq (first second : Expr R)
  /-- The first alternative, or the second where the first fails. -/
  | choice (first second : Expr R)
  /-- The item, or nothing where it fails. -/
  | optional (item : Expr R)
  /-- The item as often as it matches in a row. -/
  | repeated (item : Expr R)
  /-- Nothing, where the item fails. -/
  | refuse (item : Expr R)

namespace Expr

variable {R : Type}

/-- The parts one after another, with blanks between them. -/
def spaced : List (Expr R) → Expr R
  | [] => .text []
  | [part] => part
  | part :: parts => .seq part (.seq .skip (spaced parts))

/-- The first alternative of the list that matches. -/
def firstOf : List (Expr R) → Expr R
  | [] => .refuse (.text [])
  | [alternative] => alternative
  | alternative :: others => .choice alternative (firstOf others)

/-- The item any number of times, with blanks between two occurrences. -/
def many (item : Expr R) : Expr R :=
  .optional (.seq item (.repeated (.seq .skip item)))

/-- The item at least once, with blanks between two occurrences. -/
def many1 (item : Expr R) : Expr R :=
  spaced [item, many item]

/-- The given characters, written as a string. -/
def literal (expected : String) : Expr R :=
  .text expected.toList

end Expr

/-- A part of the text that a rule took, with the parts that its calls took.
Positions are byte positions in the whole text. -/
structure Node (R : Type) where
  rule : R
  start : Nat
  text : List Char
  children : List (Node R)

/-- Byte position at which the part ends. -/
def Node.stop {R : Type} (node : Node R) : Nat :=
  node.start + utf8Length node.text

/-- A match: the characters taken, the characters left, and the nodes of the
rules that took part. -/
structure Match (R : Type) where
  text : List Char
  rest : List Char
  nodes : List (Node R)

namespace Match

variable {R : Type}

/-- The match that takes nothing. -/
def empty (input : List Char) : Match R :=
  ⟨[], input, []⟩

/-- A match followed by a match of what it left. -/
def append (first second : Match R) : Match R :=
  ⟨first.text ++ second.text, second.rest, first.nodes ++ second.nodes⟩

end Match

/-- Removes an expected beginning. -/
def dropExpected? : List Char → List Char → Option (List Char)
  | [], input => some input
  | _ :: _, [] => none
  | e :: expected, c :: input => if c = e then dropExpected? expected input else none

/-- A way to match at a byte position of the characters that are left. -/
abbrev Matcher (R : Type) := Nat → List Char → Option (Match R)

/-- Matches the item again and again, at most the given number of times.  An
occurrence that takes nothing ends the repetition. -/
def repeatMatch {R : Type} (item : Matcher R) : Nat → Nat → List Char → Match R
  | 0, _, input => .empty input
  | limit + 1, position, input =>
      match item position input with
      | none => .empty input
      | some first =>
          if first.text.isEmpty then .empty input
          else first.append
            (repeatMatch item limit (position + utf8Length first.text) first.rest)

namespace Expr

variable {R : Type}

/-- Matches the expression at a byte position, given what is blank and how the
rules match. -/
def match? (isBlank : Char → Bool) (call : R → Matcher R) : Expr R → Matcher R
  | .char accepts, _, input =>
      match input with
      | [] => none
      | c :: rest => if accepts c then some ⟨[c], rest, []⟩ else none
  | .text expected, _, input =>
      (dropExpected? expected input).map fun rest => ⟨expected, rest, []⟩
  | .endOfInput, _, input => if input.isEmpty then some (.empty input) else none
  | .skip, _, input => some ⟨input.takeWhile isBlank, input.dropWhile isBlank, []⟩
  | .call rule, position, input => call rule position input
  | .seq first second, position, input =>
      match first.match? isBlank call position input with
      | none => none
      | some left =>
          (second.match? isBlank call (position + utf8Length left.text) left.rest).map
            left.append
  | .choice first second, position, input =>
      match first.match? isBlank call position input with
      | none => second.match? isBlank call position input
      | some found => some found
  | .optional item, position, input =>
      some ((item.match? isBlank call position input).getD (.empty input))
  | .repeated item, position, input =>
      some (repeatMatch (item.match? isBlank call) (input.length + 1) position input)
  | .refuse item, position, input =>
      match item.match? isBlank call position input with
      | none => some (.empty input)
      | some _ => none

end Expr

end TypeSpelling.Peg
