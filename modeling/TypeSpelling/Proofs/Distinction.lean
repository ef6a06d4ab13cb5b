import TypeSpelling.Proofs.CanonicalSpelling

/-!
# The canonical spelling tells trees apart

No two canonical trees have the same canonical spelling.  A spelling is read as
one tree of names with subscripts, and that tree is turned back node by node,
even where a union repeats a member and normalization would not leave it alone.
-/

namespace TypeSpelling.TypeExpr

open TypeSpelling.Source

/-- The values of a literal. -/
def literalsOf : TypeExpr → List LiteralValue
  | .literal values => values
  | _ => []

/-- What a name with a subscript spells. -/
def unspelledNode (base : String) (args : List TypeExpr) : TypeExpr :=
  match (AliasTable.standard.resolve? base).map Entry.form with
  | none | some .plain => .generic base args
  | some .wildcard => .wildcard
  | some (.container kind) => .container kind args
  | some .tuple => .tuple args
  | some .union => .union args
  | some .optional => .union (null :: args)
  | some .literal => .literal (args.flatMap literalsOf)

mutual

/-- The tree that a tree of names with subscripts spells. -/
def unspelled : TypeExpr → TypeExpr
  | .name path => resolveName AliasTable.standard path
  | .generic base args => unspelledNode base (unspelledAll args)
  | .wildcard => .wildcard
  | .container kind args => .container kind args
  | .tuple elements => .tuple elements
  | .union members => .union members
  | .optional inner => .optional inner
  | .literal values => .literal values
  | .ellipsis => .ellipsis

/-- The trees that a list of trees of names with subscripts spells. -/
def unspelledAll : List TypeExpr → List TypeExpr
  | [] => []
  | first :: rest => unspelled first :: unspelledAll rest

end

theorem unspelledAll_eq_map (nodes : List TypeExpr) :
    unspelledAll nodes = nodes.map unspelled := by
  induction nodes with
  | nil => rfl
  | cons first rest ih => rw [unspelledAll, ih, List.map_cons]

theorem unspelledNode_of_declares {spelling : String} {form : Form} {arity : Arity}
    (declares : AliasTable.Declares spelling form arity) :
    (AliasTable.standard.resolve? spelling).map Entry.form = some form := by
  obtain ⟨entry, resolved, rfl, -⟩ := declares
  rw [resolved, Option.map_some]

theorem unspelledAll_spelledOutAll {args : List TypeExpr}
    (same : ∀ arg ∈ args, arg.spelledOut.unspelled = arg) :
    unspelledAll (spelledOutAll args) = args := by
  rw [unspelledAll_eq_map, spelledOutAll_eq_map, List.map_map]
  exact (List.map_congr_left same).trans (List.map_id args)

/-- Turning back the tree that the canonical spelling is read as gives the tree. -/
theorem unspelled_spelledOut {tree : TypeExpr} (normal : NormalForm AliasTable.standard tree) :
    tree.spelledOut.unspelled = tree := by
  induction normal with
  | name canonical => exact canonical
  | wildcard =>
      obtain ⟨entry, resolved, form, -⟩ := AliasTable.declares_any
      rw [spelledOut, unspelled, resolveName, resolved]
      exact if_pos form
  | unknown resolved guarded _ ih =>
      rw [spelledOut, unspelled, unspelledAll_spelledOutAll ih, unspelledNode, resolved]
      rfl
  | plain resolved form accepted guarded _ ih =>
      rw [spelledOut, unspelled, unspelledAll_spelledOutAll ih, unspelledNode, resolved,
        Option.map_some, form]
  | container exact guarded _ ih =>
      rw [spelledOut, unspelled, unspelledAll_spelledOutAll ih, unspelledNode,
        unspelledNode_of_declares (AliasTable.declares_container _)]
  | @tuple elements guarded _ ih =>
      have same : ∀ element ∈ elements, element.spelledOut.unspelled = element := by
        intro element mem
        by_cases isEllipsis : element = .ellipsis
        · rw [isEllipsis]
          rfl
        · exact ih element mem isEllipsis
      rw [spelledOut, unspelled, unspelledAll_spelledOutAll same, unspelledNode,
        unspelledNode_of_declares AliasTable.declares_tuple]
  | @union members canonical _ ih =>
      rw [spelledOut]
      by_cases nullable : isNullable members = true
      · obtain ⟨other, rfl⟩ := isNullable_eq_true_iff.mp nullable
        have same := ih other (by simp)
        rw [if_pos nullable, unspelled, unspelledNode,
          unspelledNode_of_declares AliasTable.declares_optional]
        simp [spelledOutAll, unspelledAll, same]
      · rw [if_neg nullable, unspelled, unspelledAll_spelledOutAll ih, unspelledNode,
          unspelledNode_of_declares AliasTable.declares_union]
  | literal values =>
      rw [spelledOut]
      by_cases isNull : values = [.null]
      · rw [if_pos isNull, isNull]
        rfl
      · rw [if_neg isNull, unspelled, unspelledAll_eq_map, unspelledNode,
          unspelledNode_of_declares AliasTable.declares_literal]
        rw [List.map_map, List.flatMap_map]
        exact congrArg TypeExpr.literal (List.flatMap_singleton' values)

/-- Canonical trees with the same canonical spelling are the same. -/
theorem eq_of_canonicalText_eq {left right : TypeExpr}
    (leftNormal : NormalForm AliasTable.standard left) (leftWritable : Writable left)
    (rightNormal : NormalForm AliasTable.standard right) (rightWritable : Writable right)
    (same : left.canonicalText = right.canonicalText) : left = right := by
  have leftReads := (readsAsPrimary_canonicalText leftWritable).prefixed.operand.expression
  have rightReads := (readsAsPrimary_canonicalText rightWritable).prefixed.operand.expression
  rw [same] at leftReads
  rw [← unspelled_spelledOut leftNormal, leftReads.unique rightReads,
    unspelled_spelledOut rightNormal]

end TypeSpelling.TypeExpr
