import TypeSpelling.Peg.Failure
import TypeSpelling.Source.Grammar
import TypeSpelling.Source.Nesting
import TypeSpelling.Source.Tree

/-!
# Reading type expressions

`parse` reads a text as a type expression.  The nesting is checked first, then
the text is matched with the grammar, and last the match is searched for
constructs that have no tree, from left to right.  Identifiers are not looked up
here, and numbers of arguments are not checked.
-/

namespace TypeSpelling.Source

open TypeSpelling.Text

/-- The nesting that is usually allowed. -/
def defaultMaxDepth : Nat :=
  32

/-- The error of a text that the grammar does not match: what would have been
accepted at the furthest position that was tried, and what stands there. -/
def unexpectedToken (input : List Char) : ParseError :=
  let seen := grammar.furthest .main input
  ⟨.unexpectedToken (grammar.expected seen) (dropBytes seen.position input).head?,
    ⟨seen.position, seen.position⟩⟩

/-- The tree of the nodes that the grammar made of a text. -/
def treeOf (input : List Char) (nodes : List (Peg.Node Rule)) : Except ParseError TypeExpr :=
  match firstFaultOf? nodes with
  | some error => .error error
  | none =>
      match typesOfAll nodes with
      | [tree] => .ok tree
      | _ => .error ⟨.malformed, ⟨0, utf8Length input⟩⟩

/-- Reads characters that nest no deeper than the limit. -/
def parseChars (limit : Nat) (input : List Char) : Except ParseError TypeExpr :=
  match depthError? limit input with
  | some error => .error error
  | none =>
      match grammar.match? .main input with
      | none => .error (unexpectedToken input)
      | some found => treeOf input found.nodes

/-- Reads a string that nests no deeper than the limit. -/
def parseWithin (limit : Nat) (source : String) : Except ParseError TypeExpr :=
  parseChars limit source.toList

/-- Reads a string that nests no deeper than is usually allowed. -/
def parse (source : String) : Except ParseError TypeExpr :=
  parseWithin defaultMaxDepth source

end TypeSpelling.Source
