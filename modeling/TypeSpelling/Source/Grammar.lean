import TypeSpelling.Peg.Grammar
import TypeSpelling.Source.Rule

/-!
# The grammar of type expressions

Both spellings of a type share one grammar: the canonical spelling is the part
of it that writes everything as names with subscripts.  From the loosest to the
tightest the operators are `|`, the question mark behind an operand, the
keywords in front of one, and a subscript.

Punctuation has rules of its own, so that a failed match can name it.  Blanks
are space, tab, carriage return and line feed.
-/

namespace TypeSpelling.Source

open TypeSpelling.Peg

/-- The characters that may stand between tokens. -/
def isBlank (c : Char) : Bool :=
  c = ' ' || c = '\t' || c = '\r' || c = '\n'

/-- A decimal digit. -/
def isDigit (c : Char) : Bool :=
  '0' ≤ c && c ≤ '9'

/-- A Latin letter. -/
def isLetter (c : Char) : Bool :=
  ('a' ≤ c && c ≤ 'z') || ('A' ≤ c && c ≤ 'Z')

/-- A character that a word may begin with. -/
def isWordStart (c : Char) : Bool :=
  isLetter c || c = '_'

/-- A character that a word may go on with. -/
def isWordChar (c : Char) : Bool :=
  isLetter c || isDigit c || c = '_'

namespace Rule

open Expr

/-- The body of a string literal between two equal quotation marks.  A backslash
takes the character behind it along, so an escaped mark does not end the
literal. -/
def quotedBy (mark : Char) : Expr Rule :=
  spaced [.text [mark],
    many (.choice (.call .escape)
      (spaced [.refuse (.choice (.text [mark]) (.text ['\\'])), .char fun _ => true])),
    .text [mark]]

/-- A whole word: the next character must not carry it on. -/
def wholeWord (word : Expr Rule) : Expr Rule :=
  spaced [word, .refuse (.call .identChar)]

/-- One or more expressions with commas between them. -/
def expressions : Expr Rule :=
  spaced [.call .expression, many (spaced [.call .comma, .call .expression])]

/-- The words that cannot be the first segment of a name. -/
def keywords : List String :=
  ["true", "false", "True", "False", "null", "None", "await", "async", "iter", "with"]

/-- The body of each rule. -/
def body : Rule → Expr Rule
  | .endOfInput => .endOfInput
  | .whiteSpace => .char isBlank
  | .main => .seq .skip (spaced [.call .expression, .call .endOfInput])
  | .expression =>
      spaced [.call .optionalExpr, many (spaced [.call .unionOp, .call .optionalExpr])]
  | .optionalExpr => spaced [.call .prefixed, .optional (.call .optionalOp)]
  | .prefixed => spaced [many (.call .prefixOp), .call .subscripted]
  | .subscripted => spaced [.call .atom, .optional (.call .subscript)]
  | .subscript => spaced [.text ['['], expressions, .call .rbracket]
  | .prefixOp =>
      firstOf [.call .asyncIterOp, .call .asyncWithOp, .call .awaitOp, .call .iterOp,
        .call .withOp]
  | .asyncIterOp => spaced [.call .kwAsync, .call .kwIter]
  | .asyncWithOp => spaced [.call .kwAsync, .call .kwWith]
  | .awaitOp => .call .kwAwait
  | .iterOp => .call .kwIter
  | .withOp => .call .kwWith
  | .atom =>
      firstOf [.call .literal, .call .ellipsis, .call .wildcard, .call .parens, .call .braces,
        .call .brackets, .call .name]
  | .parens => spaced [.text ['('], expressions, .optional (.call .comma), .call .rparen]
  | .braces =>
      spaced [.text ['\x7b'], .call .expression,
        .choice (.call .mappingRest) (.call .setRest), .call .rbrace]
  | .mappingRest =>
      spaced [.call .colon, .call .expression,
        many (spaced [.call .comma, .call .expression, .call .colon, .call .expression])]
  | .setRest => many (spaced [.call .comma, .call .expression])
  | .brackets => spaced [.text ['['], expressions, .call .rbracket]
  | .unionOp => .text ['|']
  | .optionalOp => .text ['?']
  | .comma => .text [',']
  | .colon => .text [':']
  | .rparen => .text [')']
  | .rbracket => .text [']']
  | .rbrace => .text ['\x7d']
  | .ellipsis => .literal "..."
  | .literal =>
      firstOf [.call .bytes, .call .string, .call .integer, .call .boolean, .call .null]
  | .string => .call .quoted
  | .bytes => spaced [.text ['b'], .call .quoted]
  | .quoted => .choice (quotedBy '"') (quotedBy '\'')
  | .escape => spaced [.text ['\\'], .char fun _ => true]
  | .integer => wholeWord (spaced [.optional (.text ['-']), many1 (.char isDigit)])
  | .boolean =>
      wholeWord (firstOf (["true", "false", "True", "False"].map .literal))
  | .null => wholeWord (firstOf (["null", "None"].map .literal))
  | .wildcard => wholeWord (.text ['_'])
  | .name => spaced [.call .ident, many (spaced [.text ['.'], .call .segment])]
  | .ident => spaced [.refuse (.call .keyword), .call .segment]
  | .segment => spaced [.char isWordStart, many (.call .identChar)]
  | .identChar => .char isWordChar
  | .keyword => wholeWord (firstOf (keywords.map .literal))
  | .kwAsync => wholeWord (.literal "async")
  | .kwAwait => wholeWord (.literal "await")
  | .kwIter => wholeWord (.literal "iter")
  | .kwWith => wholeWord (.literal "with")

/-- What is kept of a match of each rule. -/
def kind : Rule → RuleKind
  | .whiteSpace | .prefixOp | .atom | .literal | .quoted | .escape | .identChar => .silent
  | .string | .bytes | .integer | .boolean | .null | .wildcard | .name | .ident | .segment
  | .keyword | .kwAsync | .kwAwait | .kwIter | .kwWith => .token
  | _ => .node

end Rule

/-- The grammar of type expressions. -/
def grammar : Grammar Rule where
  rules := Rule.all
  kind := Rule.kind
  body := Rule.body
  isBlank := isBlank

end TypeSpelling.Source
