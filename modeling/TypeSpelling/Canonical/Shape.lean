import TypeSpelling.TypeExpr.Basic

/-!
# Canonical shapes

A tree can be spelled out only if every node has a shape that normalization can
produce.  `firstOffender?` walks through a tree and finds the first node that has
not, a node before its children and children from left to right.
-/

namespace TypeSpelling.TypeExpr

mutual

/-- The first node whose shape is not canonical. -/
def firstOffender? : TypeExpr → Option TypeExpr
  | .name _ | .wildcard => none
  | .generic _ args => firstOffenderOf? args
  | .container kind args =>
      if args.length = kind.arity then firstOffenderOf? args else some (.container kind args)
  | .tuple elements =>
      match elements with
      | [] => some (.tuple [])
      | first :: rest => (firstOffender? first).or (firstOffenderOfRest? rest)
  | .union members =>
      if members.length < 2 || members.any isUnion then some (.union members)
      else firstOffenderOf? members
  | .optional inner => some (.optional inner)
  | .literal values => if values.isEmpty then some (.literal values) else none
  | .ellipsis => some .ellipsis

/-- The first offending node in a list of trees. -/
def firstOffenderOf? : List TypeExpr → Option TypeExpr
  | [] => none
  | first :: rest => (firstOffender? first).or (firstOffenderOf? rest)

/-- The first offending node among the elements of a tuple behind its first,
where an ellipsis may stand at the end. -/
def firstOffenderOfRest? : List TypeExpr → Option TypeExpr
  | [] => none
  | first :: rest =>
      if first.isEllipsis && rest.isEmpty then none
      else (firstOffender? first).or (firstOffenderOfRest? rest)

end

end TypeSpelling.TypeExpr
