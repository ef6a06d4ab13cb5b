import TypeSpelling.Alias.Entry
import TypeSpelling.TypeExpr.Display

/-!
# Why a tree has no canonical form

Each cause names the node it lies in, as it stood in the tree that was given.
-/

namespace TypeSpelling

/-- A reason for which a tree has no canonical form. -/
inductive NormalizeError where
  /-- A node has a number of arguments that its identifier or shape refuses. -/
  | arity (node : TypeExpr) (expected : Arity) (actual : Nat)
  /-- A node has an ellipsis among its children where none may stand. -/
  | misplacedEllipsis (node : TypeExpr)
  /-- A literal form has an argument that is no literal. -/
  | nonLiteralArgument (node found : TypeExpr)

namespace NormalizeError

/-- The node that the error lies in. -/
def node : NormalizeError → TypeExpr
  | .arity node _ _ => node
  | .misplacedEllipsis node => node
  | .nonLiteralArgument node _ => node

/-- The error in words. -/
def message : NormalizeError → String
  | .arity node expected actual =>
      "`" ++ node.display ++ "` expects " ++ expected.describe ++
        " type argument(s), found " ++ actual.repr
  | .misplacedEllipsis node =>
      "`...` is only allowed as the last element of a tuple, found in `" ++ node.display ++ "`"
  | .nonLiteralArgument node found =>
      "literal types only accept literal values, found `" ++ found.display ++ "` in `" ++
        node.display ++ "`"

/-- The code under which the error is documented. -/
def code : NormalizeError → String
  | .arity _ _ _ => "N001"
  | .misplacedEllipsis _ => "N002"
  | .nonLiteralArgument _ _ => "N003"

/-- Advice on how to write what was meant. -/
def help? : NormalizeError → Option String
  | .arity _ (.exactly 2) _ =>
      some "mappings are written `\x7bK:V\x7d` or `typing.Dict[K, V]`"
  | .arity _ _ _ => none
  | .misplacedEllipsis _ => some "write a variable-length tuple as `(T,...)`"
  | .nonLiteralArgument _ _ =>
      some "use a union to combine a literal with other types, e.g. `lit[1]|int`"

end NormalizeError

end TypeSpelling
