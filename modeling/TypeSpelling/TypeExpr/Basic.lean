import TypeSpelling.TypeExpr.Container
import TypeSpelling.TypeExpr.Literal

/-!
# Type expressions

The tree that every stage works on.  A tree read from a text may have any shape
the grammar allows, with any number of arguments; which shapes are canonical is
said in `TypeSpelling.Canonical.Shape`.

Proofs about trees go by `TypeExpr.inductionOnChildren`, where a node may assume
the statement for its direct children.
-/

namespace TypeSpelling

/-- A type expression. -/
inductive TypeExpr where
  /-- A dotted identifier, never looked up by the tree itself. -/
  | name (path : String)
  /-- Any type at all. -/
  | wildcard
  /-- An identifier with type arguments. -/
  | generic (base : String) (args : List TypeExpr)
  /-- A structural shape with its arguments. -/
  | container (kind : Container) (args : List TypeExpr)
  /-- An ordered tuple; an ellipsis at the end repeats the element before it. -/
  | tuple (elements : List TypeExpr)
  | union (members : List TypeExpr)
  /-- A type or the null literal. -/
  | optional (inner : TypeExpr)
  /-- Literal values, in their order and with their repetitions. -/
  | literal (values : List LiteralValue)
  /-- The marker for any number of further elements. -/
  | ellipsis

namespace TypeExpr

/-- The null literal. -/
def null : TypeExpr :=
  .literal [.null]

/-- Direct children, from left to right. -/
def children : TypeExpr → List TypeExpr
  | .generic _ args => args
  | .container _ args => args
  | .tuple elements => elements
  | .union members => members
  | .optional inner => [inner]
  | .name _ | .wildcard | .literal _ | .ellipsis => []

def isNull : TypeExpr → Bool
  | .literal values => values = [.null]
  | _ => false

def isUnion : TypeExpr → Bool
  | .union _ => true
  | _ => false

def isEllipsis : TypeExpr → Bool
  | .ellipsis => true
  | _ => false

/-- Place of a node's form in the canonical order of union members.  The null
literal comes before everything else. -/
def rank : TypeExpr → Nat
  | .name _ => 1
  | .wildcard => 2
  | .generic _ _ => 3
  | .container _ _ => 4
  | .tuple _ => 5
  | .literal values => if values = [.null] then 0 else 6
  | .union _ => 7
  | .optional _ => 8
  | .ellipsis => 9

/-- The node's form in words. -/
def kindName : TypeExpr → String
  | .name _ => "identifier"
  | .wildcard => "wildcard"
  | .generic _ _ => "generic application"
  | .container kind _ => kind.describe
  | .tuple _ => "tuple"
  | .union _ => "union"
  | .optional _ => "optional"
  | .literal _ => "literal"
  | .ellipsis => "ellipsis"

theorem isNull_eq_true_iff (node : TypeExpr) : node.isNull = true ↔ node = null := by
  cases node <;> simp [isNull, null]

theorem isEllipsis_eq_true_iff (node : TypeExpr) :
    node.isEllipsis = true ↔ node = .ellipsis := by
  cases node <;> simp [isEllipsis]

mutual

private theorem inductionStep {motive : TypeExpr → Prop}
    (step : ∀ node, (∀ child ∈ node.children, motive child) → motive node) :
    ∀ node, motive node
  | .name path => step (.name path) (by simp [children])
  | .wildcard => step .wildcard (by simp [children])
  | .generic base args => step (.generic base args) (inductionSteps step args)
  | .container kind args => step (.container kind args) (inductionSteps step args)
  | .tuple elements => step (.tuple elements) (inductionSteps step elements)
  | .union members => step (.union members) (inductionSteps step members)
  | .optional inner =>
      step (.optional inner) (by simpa [children] using inductionStep step inner)
  | .literal values => step (.literal values) (by simp [children])
  | .ellipsis => step .ellipsis (by simp [children])

private theorem inductionSteps {motive : TypeExpr → Prop}
    (step : ∀ node, (∀ child ∈ node.children, motive child) → motive node) :
    ∀ nodes : List TypeExpr, ∀ node ∈ nodes, motive node
  | [] => by simp
  | first :: rest => by
      simpa using ⟨inductionStep step first, inductionSteps step rest⟩

end

/-- A statement holds of every tree if it holds of each node whose direct
children it holds of. -/
theorem inductionOnChildren {motive : TypeExpr → Prop} (node : TypeExpr)
    (step : ∀ node, (∀ child ∈ node.children, motive child) → motive node) : motive node :=
  inductionStep step node

/-! ## Equality -/

mutual

/-- Decides whether two trees are the same. -/
def same : TypeExpr → TypeExpr → Bool
  | .name left, .name right => left = right
  | .wildcard, .wildcard => true
  | .generic leftBase left, .generic rightBase right =>
      leftBase = rightBase && sameAll left right
  | .container leftKind left, .container rightKind right =>
      leftKind = rightKind && sameAll left right
  | .tuple left, .tuple right => sameAll left right
  | .union left, .union right => sameAll left right
  | .optional left, .optional right => same left right
  | .literal left, .literal right => left = right
  | .ellipsis, .ellipsis => true
  | _, _ => false

/-- Decides whether two lists hold the same trees in the same order. -/
def sameAll : List TypeExpr → List TypeExpr → Bool
  | [], [] => true
  | left :: lefts, right :: rights => same left right && sameAll lefts rights
  | _, _ => false

end

mutual

theorem same_eq_true_iff : ∀ left right, same left right = true ↔ left = right
  | .name _, right => by cases right <;> simp [same]
  | .wildcard, right => by cases right <;> simp [same]
  | .generic _ args, right => by
      cases right <;> simp [same, sameAll_eq_true_iff args]
  | .container _ args, right => by
      cases right <;> simp [same, sameAll_eq_true_iff args]
  | .tuple elements, right => by
      cases right <;> simp [same, sameAll_eq_true_iff elements]
  | .union members, right => by
      cases right <;> simp [same, sameAll_eq_true_iff members]
  | .optional inner, right => by
      cases right <;> simp [same, same_eq_true_iff inner]
  | .literal _, right => by cases right <;> simp [same]
  | .ellipsis, right => by cases right <;> simp [same]

theorem sameAll_eq_true_iff : ∀ left right, sameAll left right = true ↔ left = right
  | [], right => by cases right <;> simp [sameAll]
  | first :: rest, right => by
      cases right <;> simp [sameAll, same_eq_true_iff first, sameAll_eq_true_iff rest]

end

instance : DecidableEq TypeExpr := fun left right =>
  decidable_of_iff (same left right = true) (same_eq_true_iff left right)

end TypeExpr

end TypeSpelling
