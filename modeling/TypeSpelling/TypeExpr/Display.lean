import TypeSpelling.TypeExpr.Basic

/-!
# Trees as they were written

The text of any tree, canonical or not, as messages quote it.  It looks nothing
up and never fails, so a tree fresh from a text prints the way it was written,
blanks aside.
-/

namespace TypeSpelling.TypeExpr

/-- The texts two by two, each pair joined by a colon.  A text left over stays
alone. -/
def colonPairs : List String → List String
  | key :: value :: rest => (key ++ ": " ++ value) :: colonPairs rest
  | [single] => [single]
  | [] => []

mutual

/-- The text of a tree as it was written. -/
def display : TypeExpr → String
  | .name path => path
  | .wildcard => "_"
  | .generic base args => base ++ "[" ++ ", ".intercalate (displayAll args) ++ "]"
  | .container kind args =>
      match kind, kind.keyword? with
      | _, some keyword => keyword ++ " " ++ ", ".intercalate (displayAll args)
      | .mapping, none => "\x7b" ++ ", ".intercalate (colonPairs (displayAll args)) ++ "\x7d"
      | .set, none => "\x7b" ++ ", ".intercalate (displayAll args) ++ "\x7d"
      | _, none => "[" ++ ", ".intercalate (displayAll args) ++ "]"
  | .tuple elements =>
      "(" ++ ", ".intercalate (displayAll elements) ++
        (if elements.length = 1 then "," else "") ++ ")"
  | .union members => " | ".intercalate (displayAll members)
  | .optional inner =>
      if inner.isUnion then "(" ++ display inner ++ ")?" else display inner ++ "?"
  | .literal values =>
      match values with
      | [value] => value.shorthandToken
      | _ => "lit[" ++ ", ".intercalate (values.map LiteralValue.shorthandToken) ++ "]"
  | .ellipsis => "..."

/-- The texts of a list of trees. -/
def displayAll : List TypeExpr → List String
  | [] => []
  | first :: rest => display first :: displayAll rest

end

theorem displayAll_eq_map (nodes : List TypeExpr) : displayAll nodes = nodes.map display := by
  induction nodes with
  | nil => rfl
  | cons first rest ih => simp [displayAll, ih]

end TypeSpelling.TypeExpr
