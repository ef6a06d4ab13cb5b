import TypeSpelling.TypeExpr.Traversal

/-!
# Visiting and rebuilding

A visitor is shown the nodes of a tree through the children of each node, and a tree is
rebuilt form by form.  Both go through the nodes in the order of `preorder`: under any
effect, rebuilding a tree without replacing a node is visiting it and giving the tree
back.  So a rebuilding that stops at a node has seen what a visitor sees up to that node.
-/

namespace TypeSpelling.TypeExpr

theorem sizeOf_lt_of_mem_children {node child : TypeExpr} (mem : child ∈ node.children) :
    sizeOf child < sizeOf node := by
  cases node with
  | name | wildcard | literal | ellipsis => cases mem
  | generic _ nodes | container _ nodes | tuple nodes | union nodes =>
      have smaller := List.sizeOf_lt_of_mem (show child ∈ nodes from mem)
      simp only [generic.sizeOf_spec, container.sizeOf_spec, tuple.sizeOf_spec, union.sizeOf_spec]
      omega
  | optional inner =>
      obtain rfl : child = inner := List.mem_singleton.mp mem
      simp only [optional.sizeOf_spec]
      omega

/-! ## Any effect -/

section

variable {m : Type → Type} [Monad m]

/-- Shows a visitor every node of a tree, a node before its children and the children
from left to right. -/
def visitM (see : TypeExpr → m Unit) (node : TypeExpr) : m Unit := do
  see node
  forM node.children.attach fun child => visitM see child.1
termination_by sizeOf node
decreasing_by exact sizeOf_lt_of_mem_children child.2

/-- The visitor that leaves every node it has seen to be rebuilt from its children. -/
def keeping (see : TypeExpr → m Unit) (node : TypeExpr) : m (Option TypeExpr) := do
  see node
  return none

variable [LawfulMonad m] {see : TypeExpr → m Unit}

theorem visitM_eq (node : TypeExpr) :
    node.visitM see = (do
      see node
      forM node.children (visitM see)) := by
  have children : forM node.children (visitM see) =
      forM (node.children.attach.map Subtype.val) (visitM see) := by
    rw [List.attach_map_subtype_val]
  rw [visitM, children, List.forM_map]

/-- A visit is a loop over the nodes of the tree. -/
theorem visitM_eq_forM_preorder (tree : TypeExpr) :
    tree.visitM see = forM tree.preorder see := by
  induction tree using inductionOnChildren with
  | step tree ih =>
      have below : ∀ nodes : List TypeExpr,
          (∀ node ∈ nodes, node.visitM see = forM node.preorder see) →
            forM nodes (visitM see) = forM (nodes.flatMap preorder) see := by
        intro nodes all
        induction nodes with
        | nil => rfl
        | cons first rest restIh =>
            obtain ⟨firstAll, restAll⟩ := List.forall_mem_cons.mp all
            rw [List.forM_cons, firstAll, restIh restAll, List.flatMap_cons, List.forM_append]
      rw [visitM_eq, preorder_eq_cons_children, List.forM_cons, below tree.children ih]

theorem rebuildAllM_keeping {nodes : List TypeExpr}
    (all : ∀ node ∈ nodes, node.rebuildM (keeping see) = (do
      node.visitM see
      return node)) :
    rebuildAllM (keeping see) nodes = (do
      forM nodes (visitM see)
      return nodes) := by
  induction nodes with
  | nil => simp [rebuildAllM]
  | cons first rest ih =>
      obtain ⟨firstAll, restAll⟩ := List.forall_mem_cons.mp all
      simp [rebuildAllM, firstAll, ih restAll]

/-- Rebuilding a tree without replacing a node is visiting it and giving it back. -/
theorem rebuildM_keeping (tree : TypeExpr) :
    tree.rebuildM (keeping see) = (do
      tree.visitM see
      return tree) := by
  induction tree using inductionOnChildren with
  | step tree ih =>
      rw [visitM_eq]
      cases tree with
      | name | wildcard | literal | ellipsis => simp [rebuildM, keeping, children]
      | generic _ nodes | container _ nodes | tuple nodes | union nodes =>
          have below : rebuildAllM (keeping see) nodes = _ := rebuildAllM_keeping ih
          simp [rebuildM, below, keeping, children]
      | optional inner =>
          have below := ih inner (List.mem_singleton_self inner)
          simp [rebuildM, below, keeping, children]

end

/-! ## Recording -/

section

variable {ε : Type} {rejects : TypeExpr → Bool} (fault : TypeExpr → ε)

/-- Records a node behind the nodes seen so far. -/
def record (node : TypeExpr) : StateM (List TypeExpr) Unit :=
  modify (· ++ [node])

/-- Records a node, and fails if it is to be rejected. -/
def recordUnless (rejects : TypeExpr → Bool) (fault : TypeExpr → ε) (node : TypeExpr) :
    ExceptT ε (StateM (List TypeExpr)) Unit := do
  record node
  if rejects node then throw (fault node)

theorem run_forM_record (nodes seen : List TypeExpr) :
    (forM nodes record).run seen = ((), seen ++ nodes) := by
  induction nodes generalizing seen with
  | nil => rw [List.append_nil]; rfl
  | cons first rest ih => simp [record, ih]

theorem run_recordUnless (node : TypeExpr) (seen : List TypeExpr) :
    (recordUnless rejects fault node).run.run seen =
      (if rejects node then .error (fault node) else .ok (), seen ++ [node]) := by
  cases rejected : rejects node <;> simp only [recordUnless, rejected] <;> rfl

/-- What was recorded before a failure stays recorded. -/
theorem run_bind {α β : Type} (first : ExceptT ε (StateM (List TypeExpr)) α)
    (next : α → ExceptT ε (StateM (List TypeExpr)) β) (seen : List TypeExpr) :
    (first >>= next).run.run seen =
      match first.run.run seen with
      | (.ok value, later) => (next value).run.run later
      | (.error error, later) => (.error error, later) := by
  rw [ExceptT.run_bind, StateT.run_bind]
  rcases first.run.run seen with ⟨_ | _, later⟩ <;> rfl

/-- A loop over nodes none of which is rejected records them all. -/
theorem run_forM_recordUnless {nodes : List TypeExpr}
    (accepted : ∀ node ∈ nodes, rejects node = false) (seen : List TypeExpr) :
    (forM nodes (recordUnless rejects fault)).run.run seen = (.ok (), seen ++ nodes) := by
  induction nodes generalizing seen with
  | nil => rw [List.append_nil]; rfl
  | cons first rest ih =>
      obtain ⟨firstAccepted, restAccepted⟩ := List.forall_mem_cons.mp accepted
      rw [List.forM_cons, run_bind, run_recordUnless, firstAccepted]
      simp [ih restAccepted]

/-- A loop ends at the first node that is rejected, and records no node behind it. -/
theorem run_forM_recordUnless_append {before : List TypeExpr}
    (accepted : ∀ node ∈ before, rejects node = false) {bad : TypeExpr}
    (rejected : rejects bad = true) (after seen : List TypeExpr) :
    (forM (before ++ bad :: after) (recordUnless rejects fault)).run.run seen =
      (.error (fault bad), seen ++ (before ++ [bad])) := by
  rw [List.forM_append, run_bind, run_forM_recordUnless fault accepted, List.forM_cons]
  simp only [run_bind, run_recordUnless, rejected, if_true, List.append_assoc]

/-- A rebuilding that records every node, fails at a rejected one and rebuilds the others
from their children sees what a recording visitor sees.  Where no node is rejected, it
gives the tree back and has recorded the whole visit.  Otherwise it fails at the first
rejected node of the visit and has recorded the visit up to that node. -/
theorem rebuildM_recordUnless (rejects : TypeExpr → Bool) (fault : TypeExpr → ε)
    (tree : TypeExpr) :
    let rebuilt := (tree.rebuildM (keeping (recordUnless rejects fault))).run.run []
    let visited := ((tree.visitM record).run []).2
    visited = tree.preorder ∧
      ((rebuilt = (.ok tree, visited) ∧ ∀ node ∈ visited, rejects node = false) ∨
        ∃ before bad after, visited = before ++ bad :: after ∧
          (∀ node ∈ before, rejects node = false) ∧ rejects bad = true ∧
            rebuilt = (.error (fault bad), before ++ [bad])) := by
  intro rebuilt visited
  have visit : visited = tree.preorder := by
    simp [visited, visitM_eq_forM_preorder, run_forM_record]
  refine ⟨visit, ?_⟩
  rw [visit]
  simp only [rebuilt, rebuildM_keeping, visitM_eq_forM_preorder]
  cases found : tree.preorder.find? rejects with
  | none =>
      have accepted : ∀ node ∈ tree.preorder, rejects node = false := by
        simpa using found
      have reached := run_forM_recordUnless fault accepted []
      exact .inl ⟨by rw [run_bind, reached]; rfl, accepted⟩
  | some bad =>
      obtain ⟨rejected, before, after, split, accepted⟩ := List.find?_eq_some_iff_append.mp found
      have accepted : ∀ node ∈ before, rejects node = false := by simpa using accepted
      have ended := run_forM_recordUnless_append fault accepted rejected after []
      exact .inr ⟨before, bad, after, split, accepted, rejected,
        by rw [split, run_bind, ended]; rfl⟩

end

end TypeSpelling.TypeExpr
