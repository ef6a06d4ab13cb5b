import TypeSpelling.TypeExpr.Basic

/-!
# The canonical spelling

The canonical spelling writes every type as a name, with its arguments in a
subscript.  A union of the null literal with one other member has a spelling of
its own.  The text is defined for every tree, since it also orders the members
of a union; `TypeSpelling.Rendering` gives it out for canonical trees only.
-/

namespace TypeSpelling.TypeExpr

/-- A name with the texts of its arguments in a subscript. -/
def subscriptText (base : String) (args : List String) : String :=
  base ++ "[" ++ ", ".intercalate args ++ "]"

/-- Whether a union holds the null literal and one other member, in this order. -/
def isNullable : List TypeExpr → Bool
  | [first, _] => first.isNull
  | _ => false

/-- The text of a union, given the texts of its members. -/
def canonicalUnionText (members : List TypeExpr) (texts : List String) : String :=
  if isNullable members then subscriptText "typing.Optional" texts.tail
  else subscriptText "typing.Union" texts

mutual

/-- The canonical spelling of a tree. -/
def canonicalText : TypeExpr → String
  | .name path => path
  | .wildcard => "typing.Any"
  | .generic base args => subscriptText base (canonicalTexts args)
  | .container kind args => subscriptText kind.canonicalName (canonicalTexts args)
  | .tuple elements => subscriptText "typing.Tuple" (canonicalTexts elements)
  | .union members => canonicalUnionText members (canonicalTexts members)
  | .optional inner => subscriptText "typing.Optional" [canonicalText inner]
  | .literal values =>
      if values = [.null] then "None"
      else subscriptText "typing.Literal" (values.map LiteralValue.canonicalToken)
  | .ellipsis => "..."

/-- The canonical spellings of a list of trees. -/
def canonicalTexts : List TypeExpr → List String
  | [] => []
  | first :: rest => canonicalText first :: canonicalTexts rest

end

theorem canonicalTexts_eq_map (nodes : List TypeExpr) :
    canonicalTexts nodes = nodes.map canonicalText := by
  induction nodes with
  | nil => rfl
  | cons first rest ih => simp [canonicalTexts, ih]

end TypeSpelling.TypeExpr
