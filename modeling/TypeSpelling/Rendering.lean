import TypeSpelling.Canonical.Shape
import TypeSpelling.Canonical.Text
import TypeSpelling.Shorthand
import TypeSpelling.TypeExpr.Display

/-!
# Spelling out canonical trees

Either spelling is given out for canonical trees only.  Anything else is refused
with the first node whose shape is not canonical, and always means that the tree
was not normalized.
-/

namespace TypeSpelling

/-- A tree was to be spelled out that has a node of a shape which is not
canonical. -/
structure RenderError where
  node : TypeExpr

namespace RenderError

/-- The error in words. -/
def message (error : RenderError) : String :=
  "cannot render non-canonical " ++ error.node.kindName ++ " `" ++ error.node.display ++ "`"

/-- The code under which the error is documented. -/
def code (_ : RenderError) : String :=
  "R001"

end RenderError

namespace TypeExpr

/-- Accepts a tree whose nodes all have canonical shapes. -/
def checkCanonical (node : TypeExpr) : Except RenderError Unit :=
  match node.firstOffender? with
  | none => .ok ()
  | some offender => .error ⟨offender⟩

/-- The canonical spelling of a canonical tree. -/
def renderCanonical (node : TypeExpr) : Except RenderError String := do
  node.checkCanonical
  return node.canonicalText

/-- The shorthand spelling of a canonical tree. -/
def renderShorthand (table : AliasTable) (node : TypeExpr) : Except RenderError String := do
  node.checkCanonical
  return node.shorthandText table

end TypeExpr

end TypeSpelling
