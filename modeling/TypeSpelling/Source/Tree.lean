import TypeSpelling.Peg.Expr
import TypeSpelling.Source.ParseError
import TypeSpelling.TypeExpr.Basic

/-!
# From matches to trees

A node of a match contributes type expressions to the node above it: a token or
a bracketed form contributes one, a list of arguments contributes all of them,
punctuation contributes none.  What a node makes of the contributions of its
children depends only on its rule, so the tree of a match is found from the
leaves upwards.

Two constructs match the grammar and still have no tree: a subscript behind
something other than a name, and an integer that 64 bits do not hold.
-/

namespace TypeSpelling.Source

open TypeSpelling.Peg

/-! ## Tokens -/

/-- Value of a decimal digit. -/
def digitValue (c : Char) : Nat :=
  c.toNat - '0'.toNat

/-- Value of a run of decimal digits. -/
def naturalValue (digits : List Char) : Nat :=
  digits.foldl (fun value digit => 10 * value + digitValue digit) 0

/-- Value of an integer token. -/
def integerValue : List Char → Int
  | '-' :: digits => -(naturalValue digits : Int)
  | digits => naturalValue digits

/-- The integers that 64 bits hold with their sign. -/
def fitsInt64 (value : Int) : Bool :=
  -9223372036854775808 ≤ value && value ≤ 9223372036854775807

/-! ## Faults -/

/-- What is wrong with a node itself, whatever stands inside it. -/
def fault? (node : Node Rule) : Option ParseError :=
  match node.rule, node.children with
  | .integer, _ =>
      if fitsInt64 (integerValue node.text) then none
      else some ⟨.invalidNumber (String.ofList node.text), ⟨node.start, node.stop⟩⟩
  | .subscripted, atom :: subscript :: _ =>
      if atom.rule = .name then none
      else some ⟨.subscriptOnNonName (String.ofList atom.text), ⟨atom.start, subscript.stop⟩⟩
  | _, _ => none

mutual

/-- The first fault of a node or of a node below it, a node before its children
and children from left to right. -/
def firstFault? : Node Rule → Option ParseError
  | ⟨rule, start, text, children⟩ =>
      (fault? ⟨rule, start, text, children⟩).or (firstFaultOf? children)

/-- The first fault in a list of nodes. -/
def firstFaultOf? : List (Node Rule) → Option ParseError
  | [] => none
  | first :: rest => (firstFault? first).or (firstFaultOf? rest)

end

/-! ## Trees -/

/-- The container that a keyword wraps its operand in. -/
def wrapper? : Rule → Option Container
  | .asyncIterOp => some .asyncIterable
  | .asyncWithOp => some .asyncContextManager
  | .awaitOp => some .awaitable
  | .iterOp => some .iterable
  | .withOp => some .contextManager
  | _ => none

/-- An operand inside the containers of its keywords, the last keyword
innermost. -/
def wrap (wrappers : List Container) (operand : TypeExpr) : TypeExpr :=
  wrappers.foldr (fun kind inner => .container kind [inner]) operand

/-- What a node contributes, given its text, the rules of its children and what
its children contribute. -/
def combine (rule : Rule) (text : List Char) (parts : List Rule) (types : List TypeExpr) :
    List TypeExpr :=
  match rule with
  | .expression =>
      match types with
      | [single] => [single]
      | several => [.union several]
  | .optionalExpr => if .optionalOp ∈ parts then types.map .optional else types
  | .prefixed => types.map (wrap (parts.filterMap wrapper?))
  | .subscripted =>
      match types with
      | .name base :: args => if .subscript ∈ parts then [.generic base args] else types
      | _ => types
  | .parens => if .comma ∈ parts then [.tuple types] else types
  | .braces => [.container (if .mappingRest ∈ parts then .mapping else .set) types]
  | .brackets => [.container .sequence types]
  | .main | .subscript | .mappingRest | .setRest => types
  | .name => [.name (String.ofList text)]
  | .wildcard => [.wildcard]
  | .ellipsis => [.ellipsis]
  | .string => [.literal [.str (String.ofList text)]]
  | .bytes => [.literal [.bytes (String.ofList text)]]
  | .integer => [.literal [.int (integerValue text)]]
  | .boolean => [.literal [.bool (text = "true".toList || text = "True".toList)]]
  | .null => [.null]
  | _ => []

mutual

/-- The type expressions that a node contributes. -/
def typesOf : Node Rule → List TypeExpr
  | ⟨rule, _, text, children⟩ =>
      combine rule text (children.map Node.rule) (typesOfAll children)

/-- The type expressions that a list of nodes contributes. -/
def typesOfAll : List (Node Rule) → List TypeExpr
  | [] => []
  | first :: rest => typesOf first ++ typesOfAll rest

end

end TypeSpelling.Source
