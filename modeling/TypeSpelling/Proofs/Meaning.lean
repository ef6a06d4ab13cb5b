import Mathlib.Order.CompletePartialOrder
import Mathlib.Order.ConditionallyCompleteLattice.Basic
import TypeSpelling.Proofs.Normalizing
import TypeSpelling.Proofs.StandardTable
import TypeSpelling.Proofs.Unions

/-!
# Normalization keeps the meaning

Trees are interpreted in a join-semilattice with a least element.  A union means
the join of its members, an optional the join of the null literal with what is
inside, a literal the join of its values.  A known identifier means what its
entry says it stands for.  Everything else is left open: what a literal value
means, and how the meaning of a container, a tuple or a generic depends on the
meanings of its arguments.  Under every such interpretation a tree and its
canonical form mean the same.
-/

namespace TypeSpelling.TypeExpr

universe u

/-- What a subscripted identifier stands for with raw arguments, by the form of
its entry. -/
def entryNode (entry : Entry) (args : List TypeExpr) : TypeExpr :=
  match entry.form with
  | .plain => .generic entry.canonical args
  | .wildcard => .wildcard
  | .container kind => .container kind args
  | .tuple => .tuple args
  | .union => .union args
  | .optional => .union (null :: args)
  -- A literal form admits what any of its arguments admits.
  | .literal => .union args

section

variable {α : Type u}

/-- The meaning of an argument, or nothing for the marker `...`. -/
def argumentMeaning (meaning : TypeExpr → α) (node : TypeExpr) : Option α :=
  if node.isEllipsis then none else some (meaning node)

variable [SemilatticeSup α] [OrderBot α]

/-- The join of a list. -/
def join (items : List α) : α :=
  items.foldr (· ⊔ ·) ⊥

theorem join_le_iff {items : List α} {bound : α} :
    join items ≤ bound ↔ ∀ item ∈ items, item ≤ bound := by
  induction items with
  | nil => simp [join]
  | cons first rest ih =>
      simp only [join, List.foldr_cons, sup_le_iff, List.forall_mem_cons] at ih ⊢
      rw [ih]

theorem join_map_le_iff {ι : Type} {meaning : ι → α} {items : List ι} {bound : α} :
    join (items.map meaning) ≤ bound ↔ ∀ item ∈ items, meaning item ≤ bound := by
  rw [join_le_iff, List.forall_mem_map]

end

/-- A way to give meaning to trees, with the identifiers of a table. -/
structure Interpretation (table : AliasTable) (α : Type u) [SemilatticeSup α] [OrderBot α] where
  meaning : TypeExpr → α
  /-- What each literal value means. -/
  value : LiteralValue → α
  /-- How containers, tuples and generics depend on their arguments. -/
  container : Container → List (Option α) → α
  tuple : List (Option α) → α
  generic : String → List (Option α) → α
  meaning_union : ∀ members, meaning (.union members) = join (members.map meaning)
  meaning_optional : ∀ inner, meaning (.optional inner) = meaning null ⊔ meaning inner
  meaning_literal : ∀ values, meaning (.literal values) = join (values.map value)
  meaning_container : ∀ kind args,
    meaning (.container kind args) = container kind (args.map (argumentMeaning meaning))
  meaning_tuple : ∀ elements,
    meaning (.tuple elements) = tuple (elements.map (argumentMeaning meaning))
  meaning_generic : ∀ base args,
    meaning (.generic base args) = generic base (args.map (argumentMeaning meaning))
  /-- A known name means its canonical spelling, or anything at all. -/
  meaning_known_name : ∀ path entry, table.resolve? path = some entry →
    meaning (.name path) =
      meaning (if entry.form = .wildcard then .wildcard else .name entry.canonical)
  /-- A known subscripted name means the node that its entry stands for. -/
  meaning_known_generic : ∀ base entry args, table.resolve? base = some entry →
    meaning (.generic base args) = meaning (entryNode entry args)

namespace Interpretation

variable {α : Type u} [SemilatticeSup α] [OrderBot α] {table : AliasTable}
  (interpretation : Interpretation table α)

/-! ## Unions -/

/-- What bounds all members that a tree contributes bounds the tree. -/
theorem flatMembers_le_iff {bound : α} (node : TypeExpr) :
    (∀ member ∈ node.flatMembers, interpretation.meaning member ≤ bound) ↔
      interpretation.meaning node ≤ bound := by
  induction node using inductionOnChildren with
  | step node ih =>
      cases node with
      | union members =>
          rw [interpretation.meaning_union, join_map_le_iff]
          constructor
          · intro bounded member mem
            apply (ih member mem).mp
            intro inner innerMem
            exact bounded inner (mem_flatMembersOf.mpr ⟨member, mem, innerMem⟩)
          · intro bounded inner innerMem
            obtain ⟨member, mem, inside⟩ := mem_flatMembersOf.mp innerMem
            exact (ih member mem).mpr (bounded member mem) inner inside
      | _ => rw [flatMembers_eq_singleton rfl, List.forall_mem_singleton]

theorem flatMembersOf_le_iff {bound : α} (nodes : List TypeExpr) :
    (∀ member ∈ flatMembersOf nodes, interpretation.meaning member ≤ bound) ↔
      ∀ node ∈ nodes, interpretation.meaning node ≤ bound := by
  constructor
  · intro bounded node mem
    apply (interpretation.flatMembers_le_iff node).mp
    intro member inside
    exact bounded member (mem_flatMembersOf.mpr ⟨node, mem, inside⟩)
  · intro bounded member memberMem
    obtain ⟨node, mem, inside⟩ := mem_flatMembersOf.mp memberMem
    exact (interpretation.flatMembers_le_iff node).mpr (bounded node mem) member inside

/-- The merged literal is bounded by what bounds every literal merged into it. -/
theorem mergedLiteral_le_iff {bound : α} (members : List TypeExpr) :
    interpretation.meaning (mergedLiteral members) ≤ bound ↔
      ∀ member ∈ members, mergeable? member ≠ none → interpretation.meaning member ≤ bound := by
  simp only [mergedLiteral, interpretation.meaning_literal, join_map_le_iff,
    LiteralValue.sort, Sorting.mem_sort, List.mem_eraseDups, List.mem_flatten]
  constructor
  · intro bounded member mem mergeable
    obtain ⟨values, merged⟩ := Option.ne_none_iff_exists'.mp mergeable
    obtain ⟨rfl, notNull⟩ := mergeable?_eq_some_iff.mp merged
    rw [interpretation.meaning_literal, join_map_le_iff]
    intro value valueMem
    exact bounded value ⟨values, mem_literals_iff.mpr ⟨mem, notNull⟩, valueMem⟩
  · rintro bounded value ⟨values, valuesMem, valueMem⟩
    obtain ⟨mem, notNull⟩ := mem_literals_iff.mp valuesMem
    have merged := mergeable?_eq_some_iff.mpr ⟨rfl, notNull⟩
    have whole := bounded _ mem (by rw [merged]; exact Option.some_ne_none values)
    rw [interpretation.meaning_literal, join_map_le_iff] at whole
    exact whole value valueMem

/-- Merging loses no member and invents none. -/
theorem mergeLiterals_le_iff {bound : α} (members : List TypeExpr) :
    (∀ member ∈ mergeLiterals members, interpretation.meaning member ≤ bound) ↔
      ∀ member ∈ members, interpretation.meaning member ≤ bound := by
  by_cases few : (members.filterMap mergeable?).length < 2
  · rw [mergeLiterals_eq_self few]
  · rw [mergeLiterals_eq_cons (Nat.not_lt.mp few), List.forall_mem_cons,
      interpretation.mergedLiteral_le_iff]
    simp only [mem_unmerged_iff, and_imp]
    constructor
    · rintro ⟨merged, others⟩ member mem
      by_cases mergeable : mergeable? member = none
      · exact others member mem mergeable
      · exact merged member mem mergeable
    · intro bounded
      exact ⟨fun member mem _ => bounded member mem, fun member mem _ => bounded member mem⟩

/-- A canonical union means the join of the members it was built from. -/
theorem meaning_unionOf (members : List TypeExpr) :
    interpretation.meaning (unionOf members) = join (members.map interpretation.meaning) := by
  apply eq_of_forall_ge_iff
  intro bound
  have merged : (∀ member ∈ mergedMembers members, interpretation.meaning member ≤ bound) ↔
      join (members.map interpretation.meaning) ≤ bound := by
    rw [mergedMembers, interpretation.mergeLiterals_le_iff, join_map_le_iff,
      ← interpretation.flatMembersOf_le_iff members]
    simp only [List.mem_eraseDups]
  rw [← merged]
  rcases unionOf_cases members with single | ⟨-, several⟩
  · rw [single, List.forall_mem_singleton]
  · rw [several, interpretation.meaning_union, join_map_le_iff]
    simp only [Sorting.mem_sort]

/-! ## Nodes -/

/-- A canonical tree is never the marker, so normalization turns no type into
the marker. -/
theorem argumentMeaning_eq {raw normal : TypeExpr} (argument : ArgumentNormal table raw normal)
    (same : ∀ normal, raw.normalize table = .ok normal →
      interpretation.meaning normal = interpretation.meaning raw) :
    argumentMeaning interpretation.meaning normal = argumentMeaning interpretation.meaning raw := by
  rcases argument with ⟨rfl, rfl⟩ | ⟨isOther, success⟩
  · rfl
  · have rawType := isEllipsis_eq_false_iff.mpr isOther
    have normalType := isEllipsis_eq_false_iff.mpr (normalize_ne_ellipsis success)
    rw [argumentMeaning, argumentMeaning, rawType, normalType, same normal success]

/-- Arguments that mean the same one by one give lists of the same meanings. -/
theorem map_argumentMeaning_eq {raws normals : List TypeExpr}
    (arguments : List.Forall₂ (ArgumentNormal table) raws normals)
    (same : ∀ raw ∈ raws, ∀ normal, raw.normalize table = .ok normal →
      interpretation.meaning normal = interpretation.meaning raw) :
    normals.map (argumentMeaning interpretation.meaning) =
      raws.map (argumentMeaning interpretation.meaning) := by
  induction arguments with
  | nil => rfl
  | cons argument _ ih =>
      rw [List.forall_mem_cons] at same
      rw [List.map_cons, List.map_cons, ih same.2,
        interpretation.argumentMeaning_eq argument same.1]

/-- Members among which no marker stands mean the same one by one. -/
theorem map_meaning_eq {raws normals : List TypeExpr} (guarded : .ellipsis ∉ raws)
    (arguments : List.Forall₂ (ArgumentNormal table) raws normals)
    (same : ∀ raw ∈ raws, ∀ normal, raw.normalize table = .ok normal →
      interpretation.meaning normal = interpretation.meaning raw) :
    normals.map interpretation.meaning = raws.map interpretation.meaning := by
  induction arguments with
  | nil => rfl
  | cons argument _ ih =>
      rw [List.forall_mem_cons] at same
      rw [List.mem_cons, not_or] at guarded
      rcases argument with ⟨isEllipsis, -⟩ | ⟨-, success⟩
      · exact absurd isEllipsis.symm guarded.1
      · rw [List.map_cons, List.map_cons, ih guarded.2 same.2, same.1 _ success]

/-- Members mean together what their canonical union means. -/
theorem meaning_union_eq {raws normals : List TypeExpr} (guarded : .ellipsis ∉ raws)
    (arguments : List.Forall₂ (ArgumentNormal table) raws normals)
    (same : ∀ raw ∈ raws, ∀ normal, raw.normalize table = .ok normal →
      interpretation.meaning normal = interpretation.meaning raw) :
    interpretation.meaning (unionOf normals) = interpretation.meaning (.union raws) := by
  rw [interpretation.meaning_unionOf, interpretation.meaning_union,
    interpretation.map_meaning_eq guarded arguments same]

/-- A null literal in front of the members joins the null literal. -/
theorem meaning_unionOf_null_cons (members : List TypeExpr) :
    interpretation.meaning (unionOf (null :: members)) =
      interpretation.meaning null ⊔ join (members.map interpretation.meaning) := by
  rw [interpretation.meaning_unionOf]
  rfl

/-- A literal means the join of the literals whose values it lists. -/
theorem meaning_literal_flatten (lists : List (List LiteralValue)) :
    interpretation.meaning (.literal lists.flatten) =
      join ((lists.map .literal).map interpretation.meaning) := by
  apply eq_of_forall_ge_iff
  intro bound
  rw [interpretation.meaning_literal, join_map_le_iff, join_map_le_iff, List.forall_mem_map]
  simp only [interpretation.meaning_literal, join_map_le_iff, List.mem_flatten]
  constructor
  · intro bounded list listMem value valueMem
    exact bounded value ⟨list, listMem, valueMem⟩
  · rintro bounded value ⟨list, listMem, valueMem⟩
    exact bounded list listMem value valueMem

/-- A known identifier with canonical arguments means what its entry stands for
with the raw arguments. -/
theorem meaning_applied {normal : TypeExpr} {entry : Entry} {raws normals : List TypeExpr}
    (guarded : .ellipsis ∉ guardedArgs entry raws)
    (arguments : List.Forall₂ (ArgumentNormal table) raws normals)
    (same : ∀ raw ∈ raws, ∀ normal, raw.normalize table = .ok normal →
      interpretation.meaning normal = interpretation.meaning raw)
    (applied : Applied entry normals normal) :
    interpretation.meaning normal = interpretation.meaning (entryNode entry raws) := by
  have mapped := interpretation.map_argumentMeaning_eq arguments same
  unfold entryNode
  cases applied with
  | plain form =>
      simp only [form]
      rw [interpretation.meaning_generic, interpretation.meaning_generic, mapped]
  | wildcard form => simp only [form]
  | container form =>
      simp only [form]
      rw [interpretation.meaning_container, interpretation.meaning_container, mapped]
  | tuple form =>
      simp only [form]
      rw [interpretation.meaning_tuple, interpretation.meaning_tuple, mapped]
  | union form =>
      simp only [form]
      rw [guardedArgs_eq_self (by simp [form])] at guarded
      rw [interpretation.meaning_union_eq guarded arguments same]
  | optional form =>
      simp only [form]
      rw [guardedArgs_eq_self (by simp [form])] at guarded
      rw [interpretation.meaning_unionOf_null_cons,
        interpretation.map_meaning_eq guarded arguments same, interpretation.meaning_union]
      rfl
  | literal form literals =>
      subst literals
      simp only [form]
      rw [guardedArgs_eq_self (by simp [form])] at guarded
      rw [interpretation.meaning_literal_flatten, interpretation.meaning_union,
        interpretation.map_meaning_eq guarded arguments same]

theorem meaning_resolveName (path : String) :
    interpretation.meaning (resolveName table path) = interpretation.meaning (.name path) := by
  unfold resolveName
  split
  · rfl
  · rename_i entry resolved
    exact (interpretation.meaning_known_name path entry resolved).symm

end Interpretation

/-! ## Trees -/

/-- A tree and its canonical form mean the same under every interpretation. -/
theorem normalize_preserves_meaning {α : Type u} [SemilatticeSup α] [OrderBot α]
    {table : AliasTable} (interpretation : Interpretation table α) {tree normal : TypeExpr}
    (success : tree.normalize table = .ok normal) :
    interpretation.meaning normal = interpretation.meaning tree := by
  induction tree using inductionOnChildren generalizing normal with
  | step tree ih =>
      cases normalize_eq_ok_iff.mp success with
      | name path => exact interpretation.meaning_resolveName path
      | wildcard | literal => rfl
      | unknown _ _ arguments =>
          rw [interpretation.meaning_generic, interpretation.meaning_generic,
            interpretation.map_argumentMeaning_eq arguments ih]
      | known resolved guarded arguments _ applied =>
          rw [interpretation.meaning_known_generic _ _ _ resolved]
          exact interpretation.meaning_applied guarded arguments ih applied
      | container _ arguments =>
          rw [interpretation.meaning_container, interpretation.meaning_container,
            interpretation.map_argumentMeaning_eq arguments ih]
      | tuple _ arguments =>
          rw [interpretation.meaning_tuple, interpretation.meaning_tuple,
            interpretation.map_argumentMeaning_eq arguments ih]
      | union guarded arguments => exact interpretation.meaning_union_eq guarded arguments ih
      | @optional inner normal _ argument =>
          have innerSame := ih inner (List.mem_singleton_self inner) argument
          rw [interpretation.meaning_unionOf_null_cons, interpretation.meaning_optional,
            List.map_singleton, innerSame]
          simp [join]

/-! ## The literal values that a type admits

An interpretation in the sets of literal values: a union admits what any of its
members admits, the wildcard everything, and a container or a tuple nothing. -/

/-- What a known identifier admits with arguments that admit the given values. -/
def formAdmits (form : Form) (args : List (Option (Set LiteralValue))) : Set LiteralValue :=
  match form with
  | .wildcard => ⊤
  | .union | .literal => join (args.map fun admitted => admitted.getD ⊥)
  | .optional => join ({.null} :: args.map fun admitted => admitted.getD ⊥)
  | .plain | .container _ | .tuple => ⊥

mutual

/-- The literal values that a type admits. -/
def admits : TypeExpr → Set LiteralValue
  | .name path =>
      match AliasTable.standard.resolve? path with
      | none => ⊥
      | some entry => if entry.form = .wildcard then ⊤ else ⊥
  | .wildcard => ⊤
  | .generic base args =>
      match AliasTable.standard.resolve? base with
      | none => ⊥
      | some entry => formAdmits entry.form (admitsAll args)
  | .container _ _ | .tuple _ | .ellipsis => ⊥
  | .union members => formAdmits .union (admitsAll members)
  | .optional inner => {.null} ⊔ admits inner
  | .literal values => join (values.map fun value => {value})

/-- The literal values that each argument of a list admits. -/
def admitsAll : List TypeExpr → List (Option (Set LiteralValue))
  | [] => []
  | first :: rest =>
      (if first.isEllipsis then none else some (admits first)) :: admitsAll rest

end

theorem admitsAll_eq_map (nodes : List TypeExpr) :
    admitsAll nodes = nodes.map (argumentMeaning admits) := by
  induction nodes with
  | nil => rfl
  | cons first rest ih => rw [admitsAll, ih]; rfl

theorem map_getD_admitsAll (nodes : List TypeExpr) :
    (admitsAll nodes).map (fun admitted => admitted.getD ⊥) = nodes.map admits := by
  rw [admitsAll_eq_map, List.map_map]
  apply List.map_congr_left
  intro node _
  cases node <;> rfl

theorem admits_union (members : List TypeExpr) :
    admits (.union members) = join (members.map admits) := by
  rw [← map_getD_admitsAll]
  rfl

theorem admits_null : admits null = {.null} := by
  simp [null, admits, join]

/-- A known identifier admits what the node of its entry admits. -/
theorem admits_known_generic {base : String} {entry : Entry} (args : List TypeExpr)
    (resolved : AliasTable.standard.resolve? base = some entry) :
    admits (.generic base args) = admits (entryNode entry args) := by
  have canonical := AliasTable.resolve?_canonical resolved
  simp only [admits, resolved, entryNode]
  cases form : entry.form with
  | plain => simp only [admits, canonical, form]
  | wildcard | container | tuple => rfl
  | union | literal => simp only [admits_union, formAdmits, map_getD_admitsAll]
  | optional =>
      simp only [admits_union, formAdmits, map_getD_admitsAll, List.map_cons, admits_null]

/-- Types mean the literal values that they admit. -/
def admittedValues : Interpretation AliasTable.standard (Set LiteralValue) where
  meaning := admits
  value := fun value => {value}
  container := fun _ _ => ⊥
  tuple := fun _ => ⊥
  generic := fun base args =>
    match AliasTable.standard.resolve? base with
    | none => ⊥
    | some entry => formAdmits entry.form args
  meaning_union := admits_union
  meaning_optional := fun _ => by rw [admits_null, admits]
  meaning_literal := fun _ => rfl
  meaning_container := fun _ _ => rfl
  meaning_tuple := fun _ => rfl
  meaning_generic := fun base args => by simp only [admits, admitsAll_eq_map]
  meaning_known_name := fun path entry resolved => by
    have canonical := AliasTable.resolve?_canonical resolved
    by_cases form : entry.form = .wildcard
    · simp only [admits, resolved, form, if_true]
    · simp only [admits, resolved, canonical, form, if_false]
  meaning_known_generic := fun _ _ args resolved => admits_known_generic args resolved

/-- A union of repeated literals, an optional and a tuple of aliases keeps the
values that it admits. -/
theorem normalize_preserves_admitted_values :
    (TypeExpr.union [.generic "lit" [.literal [.int 2], .literal [.int 1, .int 2]],
        .optional (.generic "Union" [.name "int", .literal [.int 2]]),
        .generic "Tuple" [.name "Any", .ellipsis]]).normalize AliasTable.standard =
      .ok (.union [null, .name "int", .tuple [.wildcard, .ellipsis],
        .literal [.int 1, .int 2]]) ∧
    admittedValues.meaning (.union [null, .name "int", .tuple [.wildcard, .ellipsis],
        .literal [.int 1, .int 2]]) =
      admittedValues.meaning (.union [.generic "lit" [.literal [.int 2], .literal [.int 1, .int 2]],
        .optional (.generic "Union" [.name "int", .literal [.int 2]]),
        .generic "Tuple" [.name "Any", .ellipsis]]) :=
  ⟨rfl, normalize_preserves_meaning admittedValues rfl⟩

end TypeSpelling.TypeExpr
