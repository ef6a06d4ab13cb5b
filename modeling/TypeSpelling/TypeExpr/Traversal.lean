import TypeSpelling.TypeExpr.Basic

/-!
# Walking and rebuilding trees

`preorder` lists the nodes of a tree as a walk meets them, a node before its
children and the children from left to right.  `rebuildM` rebuilds a tree in the
same order under any effect: it shows each node to a visitor, which either gives
a replacement, and then nothing below the node is seen, or leaves the node to be
rebuilt from its children.
-/

namespace TypeSpelling.TypeExpr

/-! ## Walking -/

mutual

/-- Every node, a node before its children and children from left to right. -/
def preorder : TypeExpr → List TypeExpr
  | .name path => [.name path]
  | .wildcard => [.wildcard]
  | .generic base args => .generic base args :: preorderAll args
  | .container kind args => .container kind args :: preorderAll args
  | .tuple elements => .tuple elements :: preorderAll elements
  | .union members => .union members :: preorderAll members
  | .optional inner => .optional inner :: preorder inner
  | .literal values => [.literal values]
  | .ellipsis => [.ellipsis]

/-- Every node of a list of trees, tree by tree. -/
def preorderAll : List TypeExpr → List TypeExpr
  | [] => []
  | first :: rest => preorder first ++ preorderAll rest

end

theorem preorderAll_eq_flatMap (nodes : List TypeExpr) :
    preorderAll nodes = nodes.flatMap preorder := by
  induction nodes with
  | nil => rfl
  | cons first rest ih => simp [preorderAll, ih]

/-- A walk sees the node itself and then walks through its children. -/
theorem preorder_eq_cons_children (node : TypeExpr) :
    node.preorder = node :: node.children.flatMap preorder := by
  cases node <;> simp [preorder, children, preorderAll_eq_flatMap]

theorem mem_preorder_self (node : TypeExpr) : node ∈ node.preorder := by
  rw [preorder_eq_cons_children]
  exact List.mem_cons_self ..

theorem mem_preorder_of_child {node child inner : TypeExpr} (mem : child ∈ node.children)
    (inside : inner ∈ child.preorder) : inner ∈ node.preorder := by
  rw [preorder_eq_cons_children]
  exact List.mem_cons_of_mem _ (List.mem_flatMap.mpr ⟨child, mem, inside⟩)

/-- A walk comes to the node itself, or to a node below one of its children. -/
theorem eq_or_exists_child_of_mem_preorder {node inner : TypeExpr} (mem : inner ∈ node.preorder) :
    inner = node ∨ ∃ child ∈ node.children, inner ∈ child.preorder := by
  rwa [preorder_eq_cons_children, List.mem_cons, List.mem_flatMap] at mem

/-- What every child has of a node that has it, every node of a tree has. -/
theorem forall_mem_preorder {motive : TypeExpr → Prop}
    (child : ∀ node, motive node → ∀ child ∈ node.children, motive child) (tree : TypeExpr) :
    motive tree → ∀ node ∈ tree.preorder, motive node := by
  induction tree using inductionOnChildren with
  | step tree ih =>
      intro holds node mem
      rcases eq_or_exists_child_of_mem_preorder mem with rfl | ⟨inner, innerMem, inside⟩
      · exact holds
      · exact ih inner innerMem (child tree holds inner innerMem) node inside

/-- A node below a node of a tree is a node of the tree. -/
theorem mem_preorder_trans (tree : TypeExpr) {middle inner : TypeExpr} :
    middle ∈ tree.preorder → inner ∈ middle.preorder → inner ∈ tree.preorder := by
  induction tree using inductionOnChildren with
  | step tree ih =>
      intro mem inside
      rcases eq_or_exists_child_of_mem_preorder mem with rfl | ⟨child, childMem, below⟩
      · exact inside
      · exact mem_preorder_of_child childMem (ih child childMem below inside)

mutual

/-- Number of nodes on the longest path from the root to a leaf. -/
def depth : TypeExpr → Nat
  | .name _ | .wildcard | .literal _ | .ellipsis => 1
  | .generic _ args => depthAll args + 1
  | .container _ args => depthAll args + 1
  | .tuple elements => depthAll elements + 1
  | .union members => depthAll members + 1
  | .optional inner => depth inner + 1

/-- Depth of the deepest tree of a list. -/
def depthAll : List TypeExpr → Nat
  | [] => 0
  | first :: rest => max (depth first) (depthAll rest)

end

theorem depth_le_depthAll {node : TypeExpr} {nodes : List TypeExpr} (mem : node ∈ nodes) :
    node.depth ≤ depthAll nodes := by
  induction nodes with
  | nil => cases mem
  | cons first rest ih =>
      rcases List.mem_cons.mp mem with rfl | inRest
      · exact Nat.le_max_left _ _
      · exact Nat.le_trans (ih inRest) (Nat.le_max_right _ _)

theorem depth_eq_depthAll_children (node : TypeExpr) :
    node.depth = depthAll node.children + 1 := by
  cases node <;> simp [depth, children, depthAll]

/-! ## Rebuilding -/

section Rebuild

variable {m : Type → Type} [Monad m]

mutual

/-- Rebuilds a tree.  The visitor sees each node before its children and either
replaces it or leaves it to be rebuilt from its children in order. -/
def rebuildM (visit : TypeExpr → m (Option TypeExpr)) : TypeExpr → m TypeExpr
  | .name path => do
      let replacement? ← visit (.name path)
      return replacement?.getD (.name path)
  | .wildcard => do
      let replacement? ← visit .wildcard
      return replacement?.getD .wildcard
  | .generic base args => do
      match ← visit (.generic base args) with
      | some replacement => return replacement
      | none => return .generic base (← rebuildAllM visit args)
  | .container kind args => do
      match ← visit (.container kind args) with
      | some replacement => return replacement
      | none => return .container kind (← rebuildAllM visit args)
  | .tuple elements => do
      match ← visit (.tuple elements) with
      | some replacement => return replacement
      | none => return .tuple (← rebuildAllM visit elements)
  | .union members => do
      match ← visit (.union members) with
      | some replacement => return replacement
      | none => return .union (← rebuildAllM visit members)
  | .optional inner => do
      match ← visit (.optional inner) with
      | some replacement => return replacement
      | none => return .optional (← rebuildM visit inner)
  | .literal values => do
      let replacement? ← visit (.literal values)
      return replacement?.getD (.literal values)
  | .ellipsis => do
      let replacement? ← visit .ellipsis
      return replacement?.getD .ellipsis

/-- Rebuilds the trees of a list from left to right. -/
def rebuildAllM (visit : TypeExpr → m (Option TypeExpr)) : List TypeExpr → m (List TypeExpr)
  | [] => return []
  | first :: rest => do
      let first ← rebuildM visit first
      let rest ← rebuildAllM visit rest
      return first :: rest

end

end Rebuild

/-! ## Renaming -/

/-- The visitor of a renaming: it notes every node it sees, stops at the
rejected name and replaces a name that has a new one. -/
def renameVisit (newName? : String → Option String) (rejected? : Option String)
    (node : TypeExpr) : ExceptT String (StateM (List TypeExpr)) (Option TypeExpr) := do
  modify (· ++ [node])
  match node with
  | .name path =>
      if rejected? = some path then throw path
      else return (newName? path).map .name
  | _ => return none

/-- Gives names new names, once each, and stops at a rejected name.  Bases of
generics are not names of their own.  The nodes seen come along in either
case. -/
def rename (newName? : String → Option String) (rejected? : Option String) (node : TypeExpr) :
    Except String TypeExpr × List TypeExpr :=
  ((node.rebuildM (renameVisit newName? rejected?)).run).run []

end TypeSpelling.TypeExpr
