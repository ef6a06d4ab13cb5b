import TypeSpelling.Alias.Table
import TypeSpelling.TypeExpr.Basic

/-!
# The shorthand spelling

The most compact spelling that the grammar accepts: brackets, braces and
keywords for the containers, `|` between the members of a union and a question
mark for its null literal, and for every other identifier the shortest of its
spellings.  Parentheses stand only around a union that a keyword or a question
mark would tear apart.
-/

namespace TypeSpelling.TypeExpr

/-- The text of a tree as the operand of a keyword or a question mark, which
bind tighter than `|`. -/
def operandText (node : TypeExpr) (text : String) : String :=
  match node with
  | .union _ | .optional _ => "(" ++ text ++ ")"
  | _ => text

/-- The text of a container, given the texts of its arguments. -/
def containerText (kind : Container) (args : List TypeExpr) (texts : List String) : String :=
  match kind, kind.keyword?, args, texts with
  | .mapping, _, _, [key, value] => "\x7b" ++ key ++ ":" ++ value ++ "\x7d"
  | _, some keyword, [arg], [text] => keyword ++ " " ++ operandText arg text
  | _, some keyword, _, _ => keyword ++ " " ++ ",".intercalate texts
  | .sequence, none, _, _ => "[" ++ ",".intercalate texts ++ "]"
  | _, none, _, _ => "\x7b" ++ ",".intercalate texts ++ "\x7d"

/-- The text of a union, given the texts of its members. -/
def unionText (members : List TypeExpr) (texts : List String) : String :=
  match members with
  | first :: rest =>
      if first.isNull then
        match rest with
        | [single] => operandText single ("|".intercalate texts.tail) ++ "?"
        | _ => "(" ++ "|".intercalate texts.tail ++ ")?"
      else "|".intercalate texts
  | [] => ""

mutual

/-- The shorthand spelling of a tree under an alias table. -/
def shorthandText (table : AliasTable) : TypeExpr → String
  | .name path => table.shortestSpelling path
  | .wildcard => "_"
  | .generic base args =>
      table.shortestSpelling base ++ "[" ++ ",".intercalate (shorthandTexts table args) ++ "]"
  | .container kind args => containerText kind args (shorthandTexts table args)
  | .tuple elements =>
      "(" ++ ",".intercalate (shorthandTexts table elements) ++
        (if elements.length = 1 then "," else "") ++ ")"
  | .union members => unionText members (shorthandTexts table members)
  | .optional inner => operandText inner (shorthandText table inner) ++ "?"
  | .literal values =>
      match values with
      | [value] => value.shorthandToken
      | _ =>
          table.shortestSpelling "typing.Literal" ++ "[" ++
            ",".intercalate (values.map LiteralValue.shorthandToken) ++ "]"
  | .ellipsis => "..."

/-- The shorthand spellings of a list of trees. -/
def shorthandTexts (table : AliasTable) : List TypeExpr → List String
  | [] => []
  | first :: rest => shorthandText table first :: shorthandTexts table rest

end

theorem shorthandTexts_eq_map (table : AliasTable) (nodes : List TypeExpr) :
    shorthandTexts table nodes = nodes.map (shorthandText table) := by
  induction nodes with
  | nil => rfl
  | cons first rest ih => simp [shorthandTexts, ih]

end TypeSpelling.TypeExpr
