import TypeSpelling.Canonical.Union

/-!
# How unions are built

The steps of `unionOf` one by one: which members the flattening gives, which
literals are merged and what is left of the others, and which of its two shapes
the result has.
-/

namespace TypeSpelling.TypeExpr

/-! ## Flattening -/

theorem mem_flatMembersOf {member : TypeExpr} {nodes : List TypeExpr} :
    member ∈ flatMembersOf nodes ↔ ∃ node ∈ nodes, member ∈ node.flatMembers := by
  induction nodes with
  | nil => simp [flatMembersOf]
  | cons first rest ih => simp [flatMembersOf, ih]

/-- Anything but a union contributes itself alone. -/
theorem flatMembers_eq_singleton {node : TypeExpr} (notUnion : node.isUnion = false) :
    node.flatMembers = [node] := by
  cases node with
  | union members => cases notUnion
  | _ => rfl

theorem flatMembersOf_eq_self {nodes : List TypeExpr}
    (notUnion : ∀ node ∈ nodes, node.isUnion = false) : flatMembersOf nodes = nodes := by
  induction nodes with
  | nil => rfl
  | cons first rest ih =>
      rw [flatMembersOf, flatMembers_eq_singleton (notUnion first (List.mem_cons_self ..)),
        ih fun node mem => notUnion node (List.mem_cons_of_mem _ mem)]
      rfl

/-- No member that is contributed to a union is a union. -/
theorem isUnion_eq_false_of_mem_flatMembers (node : TypeExpr) :
    ∀ member ∈ node.flatMembers, member.isUnion = false := by
  induction node using inductionOnChildren with
  | step node ih =>
      cases node with
      | union members =>
          intro member mem
          obtain ⟨inner, innerMem, memberMem⟩ := mem_flatMembersOf.mp mem
          exact ih inner innerMem member memberMem
      | _ =>
          intro member mem
          cases List.mem_singleton.mp mem
          rfl

theorem isUnion_eq_false_of_mem_flatMembersOf {nodes : List TypeExpr} :
    ∀ member ∈ flatMembersOf nodes, member.isUnion = false := by
  intro member mem
  obtain ⟨node, -, memberMem⟩ := mem_flatMembersOf.mp mem
  exact isUnion_eq_false_of_mem_flatMembers node member memberMem

/-! ## Merging -/

theorem mergeable?_eq_some_iff {node : TypeExpr} {values : List LiteralValue} :
    mergeable? node = some values ↔ node = .literal values ∧ values ≠ [.null] := by
  cases node with
  | literal own =>
      simp only [mergeable?, literal.injEq]
      by_cases isNull : own = [.null]
      · rw [if_pos isNull]
        constructor
        · intro none
          cases none
        · rintro ⟨rfl, notNull⟩
          exact absurd isNull notNull
      · rw [if_neg isNull, Option.some.injEq]
        constructor
        · rintro rfl
          exact ⟨rfl, isNull⟩
        · exact And.left
  | _ => simp [mergeable?]

theorem mem_literals_iff {members : List TypeExpr} {values : List LiteralValue} :
    values ∈ members.filterMap mergeable? ↔ .literal values ∈ members ∧ values ≠ [.null] := by
  simp only [List.mem_filterMap, mergeable?_eq_some_iff]
  constructor
  · rintro ⟨node, mem, rfl, notNull⟩
    exact ⟨mem, notNull⟩
  · rintro ⟨mem, notNull⟩
    exact ⟨_, mem, rfl, notNull⟩

/-- The literal that stands for all literals that are merged. -/
def mergedLiteral (members : List TypeExpr) : TypeExpr :=
  .literal (LiteralValue.sort (members.filterMap mergeable?).flatten.eraseDups)

theorem mergeLiterals_eq_self {members : List TypeExpr}
    (few : (members.filterMap mergeable?).length < 2) : mergeLiterals members = members :=
  if_pos few

theorem mergeLiterals_eq_cons {members : List TypeExpr}
    (several : 2 ≤ (members.filterMap mergeable?).length) :
    mergeLiterals members =
      mergedLiteral members :: members.filter fun member => (mergeable? member).isNone :=
  if_neg (Nat.not_lt.mpr several)

theorem mem_unmerged_iff {member : TypeExpr} {members : List TypeExpr} :
    member ∈ members.filter (fun member => (mergeable? member).isNone) ↔
      member ∈ members ∧ mergeable? member = none := by
  rw [List.mem_filter, Option.isNone_iff_eq_none]

theorem eraseDups_ne_nil {α : Type} [BEq α] [LawfulBEq α] {items : List α} (some : items ≠ []) :
    items.eraseDups ≠ [] := by
  obtain ⟨first, rest, rfl⟩ := List.exists_cons_of_ne_nil some
  rw [List.eraseDups_cons]
  exact List.cons_ne_nil _ _

/-- Literals that list values merge into one that does. -/
theorem mergedLiteral_ne_literal_nil {members : List TypeExpr}
    (lists : ∀ values, .literal values ∈ members → values ≠ [])
    (several : 2 ≤ (members.filterMap mergeable?).length) :
    mergedLiteral members ≠ .literal [] := by
  obtain ⟨first, rest, split⟩ :=
    List.exists_cons_of_length_pos (Nat.lt_of_lt_of_le Nat.two_pos several)
  have firstMem : first ∈ members.filterMap mergeable? := split ▸ List.mem_cons_self ..
  have some : (members.filterMap mergeable?).flatten ≠ [] := by
    rw [split]
    exact List.append_ne_nil_of_left_ne_nil (lists first (mem_literals_iff.mp firstMem).1) _
  intro empty
  have sorted :=
    Sorting.length_sort LiteralValue.le (members.filterMap mergeable?).flatten.eraseDups
  rw [show Sorting.sort _ _ = [] from literal.inj empty] at sorted
  exact eraseDups_ne_nil some (List.length_eq_zero_iff.mp sorted.symm)

/-! ## The union -/

/-- The members that a union of the given ones has, before they are ordered. -/
def mergedMembers (members : List TypeExpr) : List TypeExpr :=
  mergeLiterals (flatMembersOf members).eraseDups

/-- A union is a single member, or all of them in order where they are not a
single one. -/
theorem unionOf_cases (members : List TypeExpr) :
    mergedMembers members = [unionOf members] ∨
      ((mergedMembers members).length ≠ 1 ∧
        unionOf members = .union (Sorting.sort precedes (mergedMembers members))) := by
  unfold unionOf mergedMembers
  split
  · rename_i single only
    exact .inl only
  · rename_i several notSingle
    refine .inr ⟨fun single => ?_, rfl⟩
    obtain ⟨member, only⟩ := List.length_eq_one_iff.mp single
    exact notSingle member only

/-- A member of a union was contributed to it or is a literal. -/
theorem mem_mergedMembers {member : TypeExpr} {members : List TypeExpr}
    (mem : member ∈ mergedMembers members) :
    member ∈ flatMembersOf members ∨ ∃ values, member = .literal values := by
  unfold mergedMembers at mem
  by_cases few : ((flatMembersOf members).eraseDups.filterMap mergeable?).length < 2
  · rw [mergeLiterals_eq_self few, List.mem_eraseDups] at mem
    exact .inl mem
  · rw [mergeLiterals_eq_cons (Nat.not_lt.mp few), List.mem_cons, mem_unmerged_iff,
      List.mem_eraseDups] at mem
    rcases mem with rfl | ⟨mem, -⟩
    · exact .inr ⟨_, rfl⟩
    · exact .inl mem

theorem isUnion_eq_false_of_mem_mergedMembers {members : List TypeExpr} :
    ∀ member ∈ mergedMembers members, member.isUnion = false := by
  intro member mem
  rcases mem_mergedMembers mem with contributed | ⟨values, rfl⟩
  · exact isUnion_eq_false_of_mem_flatMembersOf member contributed
  · rfl

/-- Parts that contribute members leave some. -/
theorem mergedMembers_ne_nil {parts : List TypeExpr} (some : parts ≠ [])
    (contributes : ∀ part ∈ parts, part.flatMembers ≠ []) : mergedMembers parts ≠ [] := by
  unfold mergedMembers
  by_cases few : ((flatMembersOf parts).eraseDups.filterMap mergeable?).length < 2
  · rw [mergeLiterals_eq_self few]
    obtain ⟨first, rest, rfl⟩ := List.exists_cons_of_ne_nil some
    exact eraseDups_ne_nil (List.append_ne_nil_of_left_ne_nil
      (contributes first (List.mem_cons_self ..)) _)
  · rw [mergeLiterals_eq_cons (Nat.not_lt.mp few)]
    exact List.cons_ne_nil _ _

/-- A union contributes to another one what it was merged from. -/
theorem flatMembers_unionOf_perm (members : List TypeExpr) :
    (unionOf members).flatMembers.Perm (mergedMembers members) := by
  have notUnion : ∀ member ∈ mergedMembers members, member.isUnion = false :=
    isUnion_eq_false_of_mem_mergedMembers
  rcases unionOf_cases members with single | ⟨-, several⟩
  · rw [single, List.forall_mem_singleton] at notUnion
    rw [single, flatMembers_eq_singleton notUnion]
  · rw [several, flatMembers, flatMembersOf_eq_self]
    · exact Sorting.sort_perm precedes _
    · intro member mem
      exact notUnion member (Sorting.mem_sort.mp mem)

end TypeSpelling.TypeExpr
