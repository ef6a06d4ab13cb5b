import Mathlib.Logic.Relation
import TypeSpelling.Proofs.Reordering

/-!
# Spelled and structural nodes

The same type can be noted down in several ways: under another spelling of an
identifier, or as the structure that the identifier stands for.  Under the
standard table it makes no difference which way is taken, at any depth and in any
mixture.  All of them pass the checks together and have the same canonical form.
-/

namespace TypeSpelling.TypeExpr

open AliasTable (standard)

variable {table : AliasTable} {tree other normal : TypeExpr}

/-! ## Replacing one part of a tree -/

/-- One tree is another with one of its parts replaced. -/
inductive Replaces (step : TypeExpr → TypeExpr → Prop) : TypeExpr → TypeExpr → Prop where
  | here {part other : TypeExpr} (replaced : step part other) : Replaces step part other
  | inGeneric (base : String) (before after : List TypeExpr) {arg other : TypeExpr}
      (inside : Replaces step arg other) :
      Replaces step (.generic base (before ++ arg :: after))
        (.generic base (before ++ other :: after))
  | inContainer (kind : Container) (before after : List TypeExpr) {arg other : TypeExpr}
      (inside : Replaces step arg other) :
      Replaces step (.container kind (before ++ arg :: after))
        (.container kind (before ++ other :: after))
  | inTuple (before after : List TypeExpr) {element other : TypeExpr}
      (inside : Replaces step element other) :
      Replaces step (.tuple (before ++ element :: after)) (.tuple (before ++ other :: after))
  | inUnion (before after : List TypeExpr) {member other : TypeExpr}
      (inside : Replaces step member other) :
      Replaces step (.union (before ++ member :: after)) (.union (before ++ other :: after))
  | inOptional {inner other : TypeExpr} (inside : Replaces step inner other) :
      Replaces step (.optional inner) (.optional other)

/-- Whether nodes of the kind are written without arguments. -/
def isLeaf : TypeExpr → Bool
  | .name _ | .wildcard | .literal _ | .ellipsis => true
  | .generic .. | .container .. | .tuple _ | .union _ | .optional _ => false

/-- Every node that is written with arguments has some. -/
inductive Filled : TypeExpr → Prop where
  | node {tree : TypeExpr} (leaf : tree.children = [] → tree.isLeaf = true)
      (all : ∀ child ∈ tree.children, Filled child) : Filled tree

theorem filled_iff (tree : TypeExpr) :
    Filled tree ↔
      (tree.children = [] → tree.isLeaf = true) ∧ ∀ child ∈ tree.children, Filled child := by
  constructor
  · rintro ⟨leaf, all⟩
    exact ⟨leaf, all⟩
  · rintro ⟨leaf, all⟩
    exact .node leaf all

theorem Filled.child (filled : Filled tree) {child : TypeExpr} (mem : child ∈ tree.children) :
    Filled child :=
  ((filled_iff tree).mp filled).2 child mem

theorem filled_congr (sameChildren : tree.children = other.children)
    (sameLeaf : tree.isLeaf = other.isLeaf) : Filled tree ↔ Filled other := by
  rw [filled_iff, filled_iff other, sameChildren, sameLeaf]

theorem filled_exchange (node : List TypeExpr → TypeExpr)
    (childrenOf : ∀ args, (node args).children = args) {arg other : TypeExpr}
    (same : Filled arg ↔ Filled other) (before after : List TypeExpr) :
    Filled (node (before ++ arg :: after)) ↔ Filled (node (before ++ other :: after)) := by
  rw [filled_iff, filled_iff (node _), childrenOf, childrenOf, List.forall_mem_append,
    List.forall_mem_cons, List.forall_mem_append, List.forall_mem_cons, same]
  simp

/-- Replacing parts empties no node if the steps empty none. -/
theorem Replaces.filled_iff {step : TypeExpr → TypeExpr → Prop}
    (keeps : ∀ {part other}, step part other → (Filled part ↔ Filled other))
    (replaces : Replaces step tree other) : Filled tree ↔ Filled other := by
  induction replaces with
  | here replaced => exact keeps replaced
  | inGeneric base before after _ ih =>
      exact filled_exchange (.generic base) (fun _ => rfl) ih before after
  | inContainer kind before after _ ih =>
      exact filled_exchange (.container kind) (fun _ => rfl) ih before after
  | inTuple before after _ ih => exact filled_exchange .tuple (fun _ => rfl) ih before after
  | inUnion before after _ ih => exact filled_exchange .union (fun _ => rfl) ih before after
  | @inOptional inner other _ ih =>
      rw [TypeExpr.filled_iff, TypeExpr.filled_iff (.optional other)]
      simp [children, ih]

/-! ## Notations of one node -/

/-- Two notations of one node: two spellings of an identifier, or an identifier
and the structure that it stands for. -/
inductive Respells (table : AliasTable) : TypeExpr → TypeExpr → Prop where
  | name {path other : String} {entry : Entry} (resolved : table.resolve? path = some entry)
      (otherResolved : table.resolve? other = some entry) :
      Respells table (.name path) (.name other)
  | base {base other : String} {entry : Entry} (args : List TypeExpr)
      (resolved : table.resolve? base = some entry)
      (otherResolved : table.resolve? other = some entry) :
      Respells table (.generic base args) (.generic other args)
  | wildcard {path : String} {entry : Entry} (resolved : table.resolve? path = some entry)
      (form : entry.form = .wildcard) : Respells table (.name path) .wildcard
  | container {base : String} {entry : Entry} {kind : Container} (args : List TypeExpr)
      (resolved : table.resolve? base = some entry) (form : entry.form = .container kind) :
      Respells table (.generic base args) (.container kind args)
  | tuple {base : String} {entry : Entry} (elements : List TypeExpr)
      (resolved : table.resolve? base = some entry) (form : entry.form = .tuple) :
      Respells table (.generic base elements) (.tuple elements)
  | union {base : String} {entry : Entry} (members : List TypeExpr)
      (resolved : table.resolve? base = some entry) (form : entry.form = .union) :
      Respells table (.generic base members) (.union members)
  | optional {base : String} {entry : Entry} (inner : TypeExpr)
      (resolved : table.resolve? base = some entry) (form : entry.form = .optional) :
      Respells table (.generic base [inner]) (.optional inner)

/-- Notations of one node have the same arguments. -/
theorem Respells.filled_iff (respells : Respells table tree other) :
    Filled tree ↔ Filled other := by
  cases respells <;> exact filled_congr rfl rfl

theorem Respells.ne_ellipsis (respells : Respells table tree other) :
    tree ≠ .ellipsis ∧ other ≠ .ellipsis := by
  cases respells <;> exact ⟨TypeExpr.noConfusion, TypeExpr.noConfusion⟩

/-! ## Canonical forms of notations -/

/-- Tuples and unions of the standard table take any arguments but none. -/
theorem accepts_of_filled {base : String} {entry : Entry} {args normals : List TypeExpr}
    (resolved : standard.resolve? base = some entry)
    (form : entry.form = .tuple ∨ entry.form = .union) (filled : Filled (.generic base args))
    (arguments : List.Forall₂ (ArgumentNormal standard) args normals) :
    entry.arity.accepts normals.length = true := by
  have declared := (AliasTable.resolve?_standard_eq_some_iff.mp resolved).1
  have some : args ≠ [] := fun empty => Bool.false_ne_true (((filled_iff _).mp filled).1 empty)
  rw [(AliasTable.arity_of_mem_standardEntries entry declared).1 form, ← arguments.length_eq]
  exact accepts_atLeast_one some

/-- Notations of one node are normalized alike. -/
theorem Respells.normalize_iff (respells : Respells standard tree other) (filled : Filled tree) :
    tree.normalize standard = .ok normal ↔ other.normalize standard = .ok normal := by
  cases respells with
  | name resolved otherResolved => simp [normalize, resolveName, resolved, otherResolved]
  | base args resolved otherResolved =>
      rw [normalize_known_iff resolved, normalize_known_iff otherResolved]
  | wildcard resolved form => simp [normalize, resolveName, resolved, form]
  | container args resolved form =>
      rw [normalize_known_iff resolved, normalize_container_iff,
        guardedArgs_eq_self (by simp [form]), coherent_standard.exact resolved form]
      simp only [Arity.accepts, decide_eq_true_eq, applied_iff (.container form)]
  | tuple elements resolved form =>
      rw [normalize_known_iff resolved, normalize_tuple_iff, guardedArgs, if_pos form]
      refine and_congr_right fun _ => exists_congr fun normals =>
        and_congr_right fun arguments => ?_
      rw [and_iff_right (accepts_of_filled resolved (.inl form) filled arguments),
        applied_iff (.tuple form)]
  | union members resolved form =>
      rw [normalize_known_iff resolved, normalize_union_iff, guardedArgs_eq_self (by simp [form])]
      refine and_congr_right fun _ => exists_congr fun normals =>
        and_congr_right fun arguments => ?_
      rw [and_iff_right (accepts_of_filled resolved (.inr form) filled arguments),
        applied_iff (.union form)]
  | @optional base entry inner resolved form =>
      have declared := (AliasTable.resolve?_standard_eq_some_iff.mp resolved).1
      have arity := (AliasTable.arity_of_mem_standardEntries entry declared).2 form
      rw [normalize_known_iff resolved, normalize_optional_iff,
        guardedArgs_eq_self (by simp [form]), List.mem_singleton, arity, ne_comm]
      refine and_congr_right fun notEllipsis => ⟨?_, ?_⟩
      · rintro ⟨normals, arguments, -, applied⟩
        obtain ⟨argument, _, ⟨same, -⟩ | ⟨-, success⟩, nothing, rfl⟩ :=
          List.forall₂_cons_left_iff.mp arguments
        · exact absurd same (Ne.symm notEllipsis)
        · cases nothing
          exact ⟨argument, success, (applied_iff (.optional form)).mp applied⟩
      · rintro ⟨argument, success, rfl⟩
        exact ⟨[argument], .cons (.inr ⟨Ne.symm notEllipsis, success⟩) .nil, rfl,
          .optional form⟩

/-! ## Notations at any depth -/

namespace Replaces

variable {step : TypeExpr → TypeExpr → Prop}

theorem ne_ellipsis (apart : ∀ {part other}, step part other → part ≠ .ellipsis ∧ other ≠ .ellipsis)
    (replaces : Replaces step tree other) : tree ≠ .ellipsis ∧ other ≠ .ellipsis := by
  cases replaces with
  | here replaced => exact apart replaced
  | _ => exact ⟨TypeExpr.noConfusion, TypeExpr.noConfusion⟩

/-- Arguments with another notation in one place stand in for each other. -/
theorem standsIn (replaces : Replaces (Respells standard) tree other)
    (same : ∀ normal, tree.normalize standard = .ok normal ↔ other.normalize standard = .ok normal)
    (before after : List TypeExpr) :
    StandsIn standard (before ++ tree :: after) (before ++ other :: after) ∧
      StandsIn standard (before ++ other :: after) (before ++ tree :: after) := by
  obtain ⟨notEllipsis, otherNotEllipsis⟩ := replaces.ne_ellipsis Respells.ne_ellipsis
  exact ⟨.exchange notEllipsis otherNotEllipsis (fun normal => (same normal).mp) before after,
    .exchange otherNotEllipsis notEllipsis (fun normal => (same normal).mpr) before after⟩

/-- A tree and the same tree with another notation in one place have the same
canonical form. -/
theorem normalize_iff (replaces : Replaces (Respells standard) tree other) :
    Filled tree → ∀ normal,
      tree.normalize standard = .ok normal ↔ other.normalize standard = .ok normal := by
  induction replaces with
  | here respells => exact fun filled normal => respells.normalize_iff filled
  | inGeneric base before after inside ih =>
      intro filled normal
      have same := ih (filled.child (by simp [children]))
      obtain ⟨forth, back⟩ := inside.standsIn same before after
      rw [normalize_eq_ok_iff, normalize_eq_ok_iff]
      exact ⟨forth.generic, back.generic⟩
  | inContainer kind before after inside ih =>
      intro filled normal
      have same := ih (filled.child (by simp [children]))
      obtain ⟨forth, back⟩ := inside.standsIn same before after
      rw [normalize_eq_ok_iff, normalize_eq_ok_iff]
      exact ⟨forth.container, back.container⟩
  | inTuple before after inside ih =>
      intro filled normal
      have same := ih (filled.child (by simp [children]))
      obtain ⟨forth, back⟩ := inside.standsIn same before after
      rw [normalize_eq_ok_iff, normalize_eq_ok_iff]
      exact ⟨forth.tuple, back.tuple⟩
  | inUnion before after inside ih =>
      intro filled normal
      have same := ih (filled.child (by simp [children]))
      obtain ⟨forth, back⟩ := inside.standsIn same before after
      rw [normalize_eq_ok_iff, normalize_eq_ok_iff]
      exact ⟨forth.union, back.union⟩
  | inOptional inside ih =>
      intro filled normal
      obtain ⟨notEllipsis, otherNotEllipsis⟩ := inside.ne_ellipsis Respells.ne_ellipsis
      have same := ih (filled.child (by simp [children]))
      rw [normalize_eq_ok_iff, normalize_eq_ok_iff]
      constructor
      · rintro ⟨⟩
        exact .optional otherNotEllipsis ((same _).mp ‹_›)
      · rintro ⟨⟩
        exact .optional notEllipsis ((same _).mpr ‹_›)

end Replaces

/-- How a type is noted down makes no difference.  Trees that differ in the
notations of their nodes, at any depth and in any number of places, have canonical
forms together, and the same ones. -/
theorem normalize_respelled_iff
    (respelled : Relation.EqvGen (Replaces (Respells standard)) tree other)
    (filled : Filled tree) :
    tree.normalize standard = .ok normal ↔ other.normalize standard = .ok normal := by
  suffices both : (Filled tree ↔ Filled other) ∧ (Filled tree → ∀ normal,
      tree.normalize standard = .ok normal ↔ other.normalize standard = .ok normal) from
    both.2 filled normal
  clear filled
  induction respelled with
  | rel _ _ replaces => exact ⟨replaces.filled_iff Respells.filled_iff, replaces.normalize_iff⟩
  | refl => exact ⟨Iff.rfl, fun _ _ => Iff.rfl⟩
  | symm _ _ _ ih =>
      exact ⟨ih.1.symm, fun filled normal => (ih.2 (ih.1.mpr filled) normal).symm⟩
  | trans _ _ _ _ _ first second =>
      exact ⟨first.1.trans second.1, fun filled normal =>
        (first.2 filled normal).trans (second.2 (first.1.mp filled) normal)⟩

/-- A tuple of any length is spelled on one side, an optional and an ellipsis
inside it on the other. -/
theorem normalize_respelled_iff_of_mixture :
    let tree := TypeExpr.generic "tuple" [.optional (.name "Any"), .ellipsis]
    let other := TypeExpr.tuple [.generic "Optional" [.wildcard], .ellipsis]
    let normal := TypeExpr.tuple [.union [null, .wildcard], .ellipsis]
    Relation.EqvGen (Replaces (Respells standard)) tree other ∧ Filled tree ∧
      tree.normalize standard = .ok normal ∧ other.normalize standard = .ok normal := by
  intro tree other normal
  have structural : Replaces (Respells standard) tree
      (.tuple [.optional (.name "Any"), .ellipsis]) := .here (.tuple _ rfl rfl)
  have spelled : Replaces (Respells standard)
      (.tuple [.generic "Optional" [.name "Any"], .ellipsis])
      (.tuple [.optional (.name "Any"), .ellipsis]) :=
    .inTuple [] [_] (.here (.optional _ rfl rfl))
  have wildcard : Replaces (Respells standard)
      (.tuple [.generic "Optional" [.name "Any"], .ellipsis]) other :=
    .inTuple [] [_] (.inGeneric _ [] [] (.here (.wildcard rfl rfl)))
  have respelled : Relation.EqvGen (Replaces (Respells standard)) tree other :=
    .trans _ _ _ (.rel _ _ structural)
      (.trans _ _ _ (.symm _ _ (.rel _ _ spelled)) (.rel _ _ wildcard))
  have filled : Filled tree := by
    have leaf : ∀ {leaf : TypeExpr}, leaf.children = [] → leaf.isLeaf = true → Filled leaf :=
      fun none isLeaf => .node (fun _ => isLeaf) (by simp [none])
    have optional : Filled (.optional (.name "Any")) :=
      .node (by simp [children]) (List.forall_mem_singleton.mpr (leaf rfl rfl))
    exact .node (by simp [tree, children]) (List.forall_mem_cons.mpr
      ⟨optional, List.forall_mem_singleton.mpr (leaf rfl rfl)⟩)
  have normalized : tree.normalize standard = .ok normal := rfl
  exact ⟨respelled, filled, normalized,
    (normalize_respelled_iff respelled filled).mp normalized⟩

end TypeSpelling.TypeExpr
