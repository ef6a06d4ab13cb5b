/-!
# Rules of the grammar of type expressions

The rules are named here and get their bodies in `TypeSpelling.Source.Grammar`.
Failed matches name the rules that would have been accepted, always in the
order of `Rule.all`.
-/

namespace TypeSpelling.Source

/-- The rules of the grammar of type expressions. -/
inductive Rule where
  | endOfInput
  | whiteSpace
  | main
  | expression
  | optionalExpr
  | prefixed
  | subscripted
  | subscript
  | prefixOp
  | asyncIterOp
  | asyncWithOp
  | awaitOp
  | iterOp
  | withOp
  | atom
  | parens
  | braces
  | mappingRest
  | setRest
  | brackets
  | unionOp
  | optionalOp
  | comma
  | colon
  | rparen
  | rbracket
  | rbrace
  | ellipsis
  | literal
  | string
  | bytes
  | quoted
  | escape
  | integer
  | boolean
  | null
  | wildcard
  | name
  | ident
  | segment
  | identChar
  | keyword
  | kwAsync
  | kwAwait
  | kwIter
  | kwWith
  deriving DecidableEq, Repr

namespace Rule

/-- Every rule, in the order in which failures are reported. -/
def all : List Rule :=
  [.endOfInput, .whiteSpace, .main, .expression, .optionalExpr, .prefixed, .subscripted,
    .subscript, .prefixOp, .asyncIterOp, .asyncWithOp, .awaitOp, .iterOp, .withOp, .atom,
    .parens, .braces, .mappingRest, .setRest, .brackets, .unionOp, .optionalOp, .comma,
    .colon, .rparen, .rbracket, .rbrace, .ellipsis, .literal, .string, .bytes, .quoted,
    .escape, .integer, .boolean, .null, .wildcard, .name, .ident, .segment, .identChar,
    .keyword, .kwAsync, .kwAwait, .kwIter, .kwWith]

theorem mem_all (rule : Rule) : rule ∈ all := by
  cases rule <;> decide

end Rule

end TypeSpelling.Source
