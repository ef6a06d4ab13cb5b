import TypeSpelling.Canonical.Text

/-!
# Canonical unions

`unionOf` builds the one union that stands for a list of members: members of
nested unions become members themselves, of equal members the first is kept,
literals other than the null literal are merged into one, and what is left is
ordered by form and canonical text.  A single member stands for itself.
-/

namespace TypeSpelling.TypeExpr

mutual

/-- The members that a tree contributes to a union: those of a union, at any
depth, or the tree itself. -/
def flatMembers : TypeExpr → List TypeExpr
  | .union members => flatMembersOf members
  | .name path => [.name path]
  | .wildcard => [.wildcard]
  | .generic base args => [.generic base args]
  | .container kind args => [.container kind args]
  | .tuple elements => [.tuple elements]
  | .optional inner => [.optional inner]
  | .literal values => [.literal values]
  | .ellipsis => [.ellipsis]

/-- The members that a list of trees contributes to a union. -/
def flatMembersOf : List TypeExpr → List TypeExpr
  | [] => []
  | first :: rest => flatMembers first ++ flatMembersOf rest

end

/-- The values of a literal other than the null literal. -/
def mergeable? : TypeExpr → Option (List LiteralValue)
  | .literal values => if values = [.null] then none else some values
  | _ => none

/-- Replaces two or more mergeable literals by the literal of all their values,
in order and without repetition. -/
def mergeLiterals (members : List TypeExpr) : List TypeExpr :=
  let literals := members.filterMap mergeable?
  if literals.length < 2 then members
  else
    .literal (LiteralValue.sort literals.flatten.eraseDups) ::
      members.filter fun member => (mergeable? member).isNone

/-- The order of union members: by rank, then by canonical text. -/
def precedes (left right : TypeExpr) : Bool :=
  left.rank < right.rank ||
    (left.rank = right.rank && Text.textLe left.canonicalText right.canonicalText)

theorem precedes_total (left right : TypeExpr) :
    precedes left right = false → precedes right left = true := by
  simp only [precedes, Bool.or_eq_false_iff, Bool.or_eq_true, Bool.and_eq_true,
    Bool.and_eq_false_iff, decide_eq_true_eq, decide_eq_false_iff_not]
  rintro ⟨notLess, notSame | notBefore⟩
  · exact .inl (by omega)
  · by_cases same : right.rank = left.rank
    · exact .inr ⟨same, Text.textLe_total _ _ notBefore⟩
    · exact .inl (by omega)

theorem precedes_trans (left middle right : TypeExpr) :
    precedes left middle = true → precedes middle right = true →
      precedes left right = true := by
  simp only [precedes, Bool.or_eq_true, Bool.and_eq_true, decide_eq_true_eq]
  rintro (less | ⟨same, before⟩) (nextLess | ⟨nextSame, nextBefore⟩)
  · exact .inl (by omega)
  · exact .inl (by omega)
  · exact .inl (by omega)
  · exact .inr ⟨by omega, Text.textLe_trans _ _ _ before nextBefore⟩

/-- The canonical union of canonical members. -/
def unionOf (members : List TypeExpr) : TypeExpr :=
  match mergeLiterals (flatMembersOf members).eraseDups with
  | [single] => single
  | several => .union (Sorting.sort precedes several)

end TypeSpelling.TypeExpr
