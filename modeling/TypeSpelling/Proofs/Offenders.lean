import TypeSpelling.Proofs.Checks
import TypeSpelling.Rendering

/-!
# The first node that cannot be spelled out

Whether a node has a canonical shape is seen from the node and, for an ellipsis, from
where it stands.  `occurrences` lists the nodes of a tree in the order of a walk, each
with where it stands, and `Bad` says which of them have no canonical shape.  The check
in front of both spellings walks on its own and stops at the first node it refuses,
and it passes the ellipsis that closes a tuple without a look.  It accepts a tree
exactly if no node is bad, and otherwise it reports the first bad node of the walk, so
the outermost one and of these the leftmost.
-/

namespace TypeSpelling.TypeExpr

/-! ## Nodes and where they stand -/

/-- A node of a tree with the node above it and its place among the children of that
node, counted from zero.  Nothing is above the node at the top. -/
structure Occurrence where
  node : TypeExpr
  above? : Option (TypeExpr × Nat)

mutual

/-- The nodes of a tree, a node before its children and children from left to right. -/
def occurrences (above? : Option (TypeExpr × Nat)) : TypeExpr → List Occurrence
  | .name path => [⟨.name path, above?⟩]
  | .wildcard => [⟨.wildcard, above?⟩]
  | .generic base args =>
      ⟨.generic base args, above?⟩ :: occurrencesFrom (.generic base args) 0 args
  | .container kind args =>
      ⟨.container kind args, above?⟩ :: occurrencesFrom (.container kind args) 0 args
  | .tuple elements => ⟨.tuple elements, above?⟩ :: occurrencesFrom (.tuple elements) 0 elements
  | .union members => ⟨.union members, above?⟩ :: occurrencesFrom (.union members) 0 members
  | .optional inner =>
      ⟨.optional inner, above?⟩ :: occurrences (some (.optional inner, 0)) inner
  | .literal values => [⟨.literal values, above?⟩]
  | .ellipsis => [⟨.ellipsis, above?⟩]

/-- The nodes of children of a node, the first of them at the given place. -/
def occurrencesFrom (parent : TypeExpr) (place : Nat) : List TypeExpr → List Occurrence
  | [] => []
  | first :: rest =>
      occurrences (some (parent, place)) first ++ occurrencesFrom parent (place + 1) rest

end

theorem occurrences_eq_cons (node : TypeExpr) (above? : Option (TypeExpr × Nat)) :
    node.occurrences above? = ⟨node, above?⟩ :: occurrencesFrom node 0 node.children := by
  cases node <;> simp [occurrences, occurrencesFrom, children]

/-- The nodes come in the order in which a walk sees them. -/
theorem map_node_occurrences (tree : TypeExpr) :
    ∀ above?, (tree.occurrences above?).map Occurrence.node = tree.preorder := by
  induction tree using inductionOnChildren with
  | step node ih =>
      have below : ∀ nodes : List TypeExpr, (∀ child ∈ nodes, child ∈ node.children) →
          ∀ place, (occurrencesFrom node place nodes).map Occurrence.node =
            nodes.flatMap preorder := by
        intro nodes among
        induction nodes with
        | nil => exact fun _ => rfl
        | cons first rest restIh =>
            intro place
            rw [List.forall_mem_cons] at among
            rw [occurrencesFrom, List.map_append, ih first among.1, restIh among.2,
              List.flatMap_cons]
      intro above?
      rw [occurrences_eq_cons, List.map_cons, below _ (fun _ mem => mem),
        preorder_eq_cons_children]

/-! ## Bad nodes -/

namespace Occurrence

/-- A node is the last element of a tuple, but not the first. -/
def ClosesTuple (occurrence : Occurrence) : Prop :=
  ∃ elements place, occurrence.above? = some (.tuple elements, place) ∧ 0 < place ∧
    place + 1 = elements.length

/-- The nodes that have no canonical shape where they stand. -/
inductive Bad : Occurrence → Prop where
  | optional (inner : TypeExpr) (above? : Option (TypeExpr × Nat)) : Bad ⟨.optional inner, above?⟩
  | ellipsis {above? : Option (TypeExpr × Nat)}
      (misplaced : ¬ ClosesTuple ⟨.ellipsis, above?⟩) : Bad ⟨.ellipsis, above?⟩
  | fewMembers {members : List TypeExpr} (few : members.length < 2)
      (above? : Option (TypeExpr × Nat)) : Bad ⟨.union members, above?⟩
  | nestedUnion {members inner : List TypeExpr} (mem : .union inner ∈ members)
      (above? : Option (TypeExpr × Nat)) : Bad ⟨.union members, above?⟩
  | arguments {kind : Container} {args : List TypeExpr} (wrong : args.length ≠ kind.arity)
      (above? : Option (TypeExpr × Nat)) : Bad ⟨.container kind args, above?⟩
  | emptyTuple (above? : Option (TypeExpr × Nat)) : Bad ⟨.tuple [], above?⟩
  | emptyLiteral (above? : Option (TypeExpr × Nat)) : Bad ⟨.literal [], above?⟩

end Occurrence

open Occurrence

/-- No node of a tree is bad. -/
def NoneBad (tree : TypeExpr) : Prop :=
  ∀ occurrence ∈ tree.occurrences none, ¬ occurrence.Bad

/-- A node is the first one of a list that is bad. -/
def FirstBadOf (occurrences : List Occurrence) (node : TypeExpr) : Prop :=
  ∃ before above? after, occurrences = before ++ ⟨node, above?⟩ :: after ∧
    (∀ other ∈ before, ¬ other.Bad) ∧ Bad ⟨node, above?⟩

/-- A node is the first bad one of a tree. -/
def FirstBad (tree node : TypeExpr) : Prop :=
  FirstBadOf (tree.occurrences none) node

theorem bad_union_iff {members : List TypeExpr} {above? : Option (TypeExpr × Nat)} :
    Bad ⟨.union members, above?⟩ ↔ members.length < 2 ∨ members.any isUnion = true := by
  constructor
  · intro bad
    cases bad with
    | fewMembers few => exact .inl few
    | nestedUnion mem => exact .inr (List.any_eq_true.mpr ⟨_, mem, rfl⟩)
  · rintro (few | nested)
    · exact .fewMembers few above?
    · obtain ⟨member, mem, isUnion⟩ := List.any_eq_true.mp nested
      cases member with
      | union inner => exact .nestedUnion mem above?
      | _ => cases isUnion

/-! ## The search -/

/-- A search finds the first bad node of a list, or nothing where none is bad. -/
def Finds (occurrences : List Occurrence) : Option TypeExpr → Prop
  | none => ∀ occurrence ∈ occurrences, ¬ occurrence.Bad
  | some node => FirstBadOf occurrences node

namespace Finds

variable {left right : List Occurrence} {found? other? : Option TypeExpr}

theorem append (first : Finds left found?) (second : Finds right other?) :
    Finds (left ++ right) (found?.or other?) := by
  cases found? with
  | some node =>
      obtain ⟨before, above?, after, rfl, good, bad⟩ := first
      exact ⟨before, above?, after ++ right, by simp, good, bad⟩
  | none =>
      cases other? with
      | none => exact List.forall_mem_append.mpr ⟨first, second⟩
      | some node =>
          obtain ⟨before, above?, after, rfl, good, bad⟩ := second
          exact ⟨left ++ before, above?, after, by simp, List.forall_mem_append.mpr ⟨first, good⟩,
            bad⟩

theorem behind {node : TypeExpr} {above? : Option (TypeExpr × Nat)} (good : ¬ Bad ⟨node, above?⟩)
    (below : Finds right found?) : Finds (⟨node, above?⟩ :: right) found? := by
  have first : Finds [⟨node, above?⟩] none := List.forall_mem_singleton.mpr good
  exact first.append below

theorem here {node : TypeExpr} {above? : Option (TypeExpr × Nat)} (bad : Bad ⟨node, above?⟩)
    (right : List Occurrence) : Finds (⟨node, above?⟩ :: right) (some node) :=
  ⟨[], above?, right, rfl, by simp, bad⟩

theorem eq_none_iff (finds : Finds left found?) :
    found? = none ↔ ∀ occurrence ∈ left, ¬ occurrence.Bad := by
  cases found? with
  | none => exact iff_of_true rfl finds
  | some node =>
      obtain ⟨before, above?, after, rfl, -, bad⟩ := finds
      exact iff_of_false (Option.some_ne_none _) fun good => good ⟨node, above?⟩ (by simp) bad

theorem eq_some_iff (finds : Finds left found?) {node : TypeExpr} :
    found? = some node ↔ FirstBadOf left node := by
  constructor
  · rintro rfl
    exact finds
  · rintro ⟨before, above?, after, whole, good, bad⟩
    cases found? with
    | none => exact absurd bad (finds ⟨node, above?⟩ (by simp [whole]))
    | some other =>
        obtain ⟨before', above', after', whole', good', bad'⟩ := finds
        cases first_unique (fun occurrence => ¬ occurrence.Bad) (whole'.symm.trans whole) good'
          (not_not_intro bad') good (not_not_intro bad)
        rfl

end Finds

/-- The search in a tree finds the first bad node, unless the tree is an ellipsis that
closes a tuple. -/
def SearchFinds (tree : TypeExpr) : Prop :=
  ∀ above?, (tree = .ellipsis → ¬ ClosesTuple ⟨tree, above?⟩) →
    Finds (tree.occurrences above?) tree.firstOffender?

/-- Children of a node that is no tuple are searched one after the other. -/
theorem finds_children {parent : TypeExpr} (notTuple : ∀ elements, parent ≠ .tuple elements)
    {nodes : List TypeExpr} (searched : ∀ child ∈ nodes, SearchFinds child) :
    ∀ place, Finds (occurrencesFrom parent place nodes) (firstOffenderOf? nodes) := by
  induction nodes with
  | nil => exact fun _ => List.forall_mem_nil _
  | cons first rest ih =>
      intro place
      rw [List.forall_mem_cons] at searched
      have notClosing : ¬ ClosesTuple ⟨first, some (parent, place)⟩ := by
        rintro ⟨elements, _, above, -⟩
        exact notTuple elements (congrArg Prod.fst (Option.some.inj above))
      exact (searched.1 _ fun _ => notClosing).append (ih searched.2 (place + 1))

/-- The elements of a tuple behind its first are searched one after the other, but for
an ellipsis at the end. -/
theorem finds_rest {elements nodes : List TypeExpr}
    (searched : ∀ child ∈ nodes, SearchFinds child) :
    ∀ place, 0 < place → place + nodes.length = elements.length →
      Finds (occurrencesFrom (.tuple elements) place nodes) (firstOffenderOfRest? nodes) := by
  induction nodes with
  | nil => exact fun _ _ _ => List.forall_mem_nil _
  | cons first rest ih =>
      intro place behind fits
      rw [List.forall_mem_cons] at searched
      rw [List.length_cons] at fits
      have later := ih searched.2 (place + 1) (Nat.succ_pos place) (by omega)
      rw [firstOffenderOfRest?, occurrencesFrom]
      split
      · rename_i closes
        rw [Bool.and_eq_true, isEllipsis_eq_true_iff, List.isEmpty_iff] at closes
        obtain ⟨rfl, rfl⟩ := closes
        have own : ¬ Bad ⟨.ellipsis, some (.tuple elements, place)⟩ := by
          intro bad
          cases bad with
          | ellipsis misplaced => exact misplaced ⟨elements, place, rfl, behind, fits⟩
        exact .behind own (List.forall_mem_nil _)
      · rename_i notClosing
        refine (searched.1 _ ?_).append later
        rintro rfl ⟨_, _, above, -, last⟩
        cases above
        have empty : rest = [] := List.eq_nil_of_length_eq_zero (by omega)
        exact notClosing (by simp [empty, isEllipsis])

/-- The search goes through the nodes in the order of a walk. -/
theorem searchFinds (tree : TypeExpr) : SearchFinds tree := by
  induction tree using inductionOnChildren with
  | step node ih =>
      intro above? notClosing
      rw [occurrences_eq_cons]
      cases node with
      | name | wildcard => exact .behind (by rintro ⟨⟩) (List.forall_mem_nil _)
      | generic base args =>
          exact .behind (by rintro ⟨⟩) (finds_children (fun _ => TypeExpr.noConfusion) ih 0)
      | container kind args =>
          rw [firstOffender?]
          split
          · rename_i exact
            have own : ¬ Bad ⟨.container kind args, above?⟩ := by
              intro bad
              cases bad with
              | arguments wrong => exact wrong exact
            exact .behind own (finds_children (fun _ => TypeExpr.noConfusion) ih 0)
          · rename_i wrong
            exact .here (.arguments wrong above?) _
      | tuple elements =>
          cases elements with
          | nil => exact .here (.emptyTuple above?) _
          | cons first rest =>
              obtain ⟨firstSearched, restSearched⟩ := List.forall_mem_cons.mp ih
              have leading : first = .ellipsis →
                  ¬ ClosesTuple ⟨first, some (.tuple (first :: rest), 0)⟩ := by
                rintro - ⟨_, _, above, notFirst, -⟩
                cases above
                exact Nat.lt_irrefl 0 notFirst
              have later : Finds (occurrencesFrom (.tuple (first :: rest)) 1 rest)
                  (firstOffenderOfRest? rest) :=
                finds_rest restSearched 1 Nat.one_pos (Nat.add_comm 1 _)
              exact .behind (by rintro ⟨⟩) ((firstSearched _ leading).append later)
      | union members =>
          rw [firstOffender?]
          split
          · rename_i offends
            rw [Bool.or_eq_true, decide_eq_true_eq] at offends
            exact .here (bad_union_iff.mpr offends) _
          · rename_i accepted
            rw [Bool.or_eq_true, decide_eq_true_eq] at accepted
            exact .behind (mt bad_union_iff.mp accepted)
              (finds_children (fun _ => TypeExpr.noConfusion) ih 0)
      | optional inner => exact .here (.optional inner above?) _
      | literal values =>
          cases values with
          | nil => exact .here (.emptyLiteral above?) _
          | cons value others => exact .behind (by rintro ⟨⟩) (List.forall_mem_nil _)
      | ellipsis => exact .here (.ellipsis (notClosing rfl)) _

/-! ## The check and the spellings -/

/-- A result is given out exactly if no node of a tree is bad, and is otherwise refused
with the first bad node. -/
def RefusesFirstBad {α : Type} (tree : TypeExpr) (result : Except RenderError α) : Prop :=
  ((∃ value, result = .ok value) ↔ NoneBad tree) ∧
    ∀ node, result = .error ⟨node⟩ ↔ FirstBad tree node

/-- What is computed behind the check of a tree is refused with the first bad node. -/
theorem refusesFirstBad_of_checked {α : Type} (tree : TypeExpr) (value : α) :
    RefusesFirstBad tree (tree.checkCanonical >>= fun _ => .ok value) := by
  have atTop : tree = .ellipsis → ¬ ClosesTuple ⟨tree, none⟩ := by
    rintro - ⟨_, _, above, -⟩
    cases above
  have finds := searchFinds tree none atTop
  unfold RefusesFirstBad NoneBad FirstBad checkCanonical
  rw [← finds.eq_none_iff]
  simp only [← finds.eq_some_iff]
  cases tree.firstOffender? <;> simp [bind, Except.bind]

/-- A walk sees the nodes of a tree in the order in which they are listed.  The check
and both spellings succeed exactly if none of them is bad, and otherwise fail with the
first one that is. -/
theorem spellings_refuse_firstBad (tree : TypeExpr) :
    (tree.occurrences none).map Occurrence.node = tree.preorder ∧
      RefusesFirstBad tree tree.checkCanonical ∧ RefusesFirstBad tree tree.renderCanonical ∧
        ∀ table, RefusesFirstBad tree (tree.renderShorthand table) := by
  have checked := refusesFirstBad_of_checked tree ()
  have same : (tree.checkCanonical >>= fun _ => .ok ()) = tree.checkCanonical := by
    cases tree.checkCanonical <;> rfl
  rw [same] at checked
  exact ⟨map_node_occurrences tree none, checked, refusesFirstBad_of_checked tree _,
    fun table => refusesFirstBad_of_checked tree _⟩

end TypeSpelling.TypeExpr
