import TypeSpelling.Proofs.Writable
import TypeSpelling.Rendering

/-!
# Canonical shapes

Trees that are spelled out are searched for a node of a shape that no canonical
tree has.  There is none in a canonical tree that can be written, and none in the
canonical form of a text under any table whose containers take as many arguments
as they have: such a table may give its entries names that cannot be written and
any numbers of arguments otherwise.
-/

namespace TypeSpelling.TypeExpr

variable {table : AliasTable}

/-! ## Single nodes -/

theorem firstOffenderOf?_eq_none_iff {nodes : List TypeExpr} :
    firstOffenderOf? nodes = none ↔ ∀ node ∈ nodes, node.firstOffender? = none := by
  induction nodes with
  | nil => simp [firstOffenderOf?]
  | cons first rest ih => rw [firstOffenderOf?, Option.or_eq_none_iff, ih, List.forall_mem_cons]

/-- A tuple of any length passes, and a union of one member does not. -/
example : firstOffenderOf? [.name "a", .tuple [.wildcard, .ellipsis], .union [null]] =
    some (.union [null]) := by
  cbv

theorem firstOffenderOfRest?_eq_none {elements : List TypeExpr}
    (guarded : .ellipsis ∉ dropLastEllipsis elements)
    (accepted : ∀ element ∈ elements, element ≠ .ellipsis → element.firstOffender? = none) :
    firstOffenderOfRest? elements = none := by
  induction elements with
  | nil => rfl
  | cons first rest ih =>
      rw [List.forall_mem_cons] at accepted
      cases rest with
      | nil =>
          cases isEllipsis : first.isEllipsis with
          | true => simp [firstOffenderOfRest?, isEllipsis]
          | false =>
              simp [firstOffenderOfRest?, isEllipsis,
                accepted.1 (isEllipsis_eq_false_iff.mp isEllipsis)]
      | cons second others =>
          rw [dropLastEllipsis_cons_cons, List.mem_cons, not_or] at guarded
          rw [firstOffenderOfRest?, ih guarded.2 accepted.2, accepted.1 (Ne.symm guarded.1)]
          simp

theorem firstOffender?_tuple_eq_none {elements : List TypeExpr} (some : elements ≠ [])
    (guarded : .ellipsis ∉ fixedElements elements)
    (accepted : ∀ element ∈ elements, element ≠ .ellipsis → element.firstOffender? = none) :
    (tuple elements).firstOffender? = none := by
  obtain ⟨first, rest, rfl⟩ := List.exists_cons_of_ne_nil some
  rw [fixedElements, List.mem_cons, not_or] at guarded
  rw [List.forall_mem_cons] at accepted
  rw [firstOffender?, accepted.1 (Ne.symm guarded.1), Option.none_or,
    firstOffenderOfRest?_eq_none guarded.2 accepted.2]

theorem firstOffender?_union_eq_none_iff {members : List TypeExpr} :
    (union members).firstOffender? = none ↔
      2 ≤ members.length ∧ (∀ member ∈ members, member.isUnion = false) ∧
        ∀ member ∈ members, member.firstOffender? = none := by
  rw [firstOffender?]
  split
  · rename_i refused
    rw [Bool.or_eq_true, decide_eq_true_eq, List.any_eq_true] at refused
    refine iff_of_false (by simp) fun ⟨several, flat, _⟩ => ?_
    rcases refused with few | ⟨member, mem, isUnion⟩
    · omega
    · rw [flat member mem] at isUnion
      cases isUnion
  · rename_i accepted
    rw [Bool.or_eq_true, decide_eq_true_eq, List.any_eq_true, not_or, Nat.not_lt] at accepted
    have flat : ∀ member ∈ members, member.isUnion = false := fun member mem =>
      Bool.eq_false_iff.mpr fun isUnion => accepted.2 ⟨member, mem, isUnion⟩
    rw [firstOffenderOf?_eq_none_iff, and_iff_right accepted.1, and_iff_right flat]

/-! ## Trees that can be written -/

/-- A canonical tree that can be written has canonical shapes only. -/
theorem NormalForm.firstOffender?_eq_none {tree : TypeExpr} (normal : NormalForm table tree)
    (writable : Writable tree) : tree.firstOffender? = none := by
  induction normal with
  | name => rfl
  | wildcard => rfl
  | unknown _ _ _ ih | plain _ _ _ _ _ ih =>
      cases writable with
      | generic name some all =>
          exact firstOffenderOf?_eq_none_iff.mpr fun arg mem => ih arg mem (all arg mem)
  | container exact _ _ ih =>
      cases writable with
      | container some all =>
          rw [firstOffender?, if_pos exact]
          exact firstOffenderOf?_eq_none_iff.mpr fun arg mem => ih arg mem (all arg mem)
  | tuple guarded _ ih =>
      cases writable with
      | tuple some all =>
          exact firstOffender?_tuple_eq_none some guarded fun element mem notEllipsis =>
            ih element mem notEllipsis (all element mem)
  | @union members canonical _ ih =>
      cases writable with
      | union some all =>
          have positive := List.length_pos_iff.mpr some
          have notSingle := canonical.several
          exact firstOffender?_union_eq_none_iff.mpr
            ⟨by omega, canonical.flat, fun member mem => ih member mem (all member mem)⟩
  | literal values =>
      cases writable with
      | literal some all => simp [firstOffender?, some]

theorem NormalForm.checkCanonical {tree : TypeExpr} (normal : NormalForm table tree)
    (writable : Writable tree) : tree.checkCanonical = .ok () := by
  rw [TypeExpr.checkCanonical, normal.firstOffender?_eq_none writable]

/-! ## Unions -/

theorem firstOffender?_literal_eq_none_iff {values : List LiteralValue} :
    (literal values).firstOffender? = none ↔ values ≠ [] := by
  cases values <;> simp [firstOffender?]

/-- A tree of canonical shapes contributes some members to a union, all of
canonical shapes. -/
theorem flatMembers_of_firstOffender? {tree : TypeExpr} (accepted : tree.firstOffender? = none) :
    tree.flatMembers ≠ [] ∧ ∀ member ∈ tree.flatMembers, member.firstOffender? = none := by
  cases isUnion : tree.isUnion with
  | false =>
      rw [flatMembers_eq_singleton isUnion, List.forall_mem_singleton]
      exact ⟨List.cons_ne_nil _ _, accepted⟩
  | true =>
      cases tree with
      | union members =>
          obtain ⟨several, flat, all⟩ := firstOffender?_union_eq_none_iff.mp accepted
          rw [flatMembers, flatMembersOf_eq_self flat]
          exact ⟨List.length_pos_iff.mp (by omega), all⟩
      | _ => cases isUnion

theorem firstOffender?_of_mem_mergedMembers {parts : List TypeExpr}
    (accepted : ∀ part ∈ parts, part.firstOffender? = none) :
    ∀ member ∈ mergedMembers parts, member.firstOffender? = none := by
  have flat : ∀ member ∈ (flatMembersOf parts).eraseDups, member.firstOffender? = none := by
    intro member mem
    obtain ⟨part, partMem, inside⟩ := mem_flatMembersOf.mp (List.mem_eraseDups.mp mem)
    exact (flatMembers_of_firstOffender? (accepted part partMem)).2 member inside
  unfold mergedMembers
  by_cases few : ((flatMembersOf parts).eraseDups.filterMap mergeable?).length < 2
  · rwa [mergeLiterals_eq_self few]
  · have several := Nat.not_lt.mp few
    rw [mergeLiterals_eq_cons several]
    refine List.forall_mem_cons.mpr ⟨?_, fun member mem => flat member (mem_unmerged_iff.mp mem).1⟩
    have lists : ∀ values, .literal values ∈ (flatMembersOf parts).eraseDups → values ≠ [] :=
      fun values mem => firstOffender?_literal_eq_none_iff.mp (flat _ mem)
    exact firstOffender?_literal_eq_none_iff.mpr fun empty =>
      mergedLiteral_ne_literal_nil lists several (congrArg TypeExpr.literal empty)

/-- The union of some parts of canonical shapes has a canonical shape. -/
theorem firstOffender?_unionOf {parts : List TypeExpr} (some : parts ≠ [])
    (accepted : ∀ part ∈ parts, part.firstOffender? = none) :
    (unionOf parts).firstOffender? = none := by
  have members := firstOffender?_of_mem_mergedMembers accepted
  have contributes := fun part mem => (flatMembers_of_firstOffender? (accepted part mem)).1
  rcases unionOf_cases parts with single | ⟨notSingle, several⟩
  · exact members _ (single ▸ List.mem_singleton_self _)
  · have positive := List.length_pos_iff.mpr (mergedMembers_ne_nil some contributes)
    rw [several, firstOffender?_union_eq_none_iff, Sorting.length_sort]
    simp only [Sorting.mem_sort]
    exact ⟨by omega, isUnion_eq_false_of_mem_mergedMembers, members⟩

/-! ## Canonical forms under any table -/

/-- An identifier that stands for a container takes as many arguments as the
container has, if it takes any. -/
def ContainersExact (table : AliasTable) : Prop :=
  ∀ {spelling : String} {entry : Entry} {kind : Container},
    table.resolve? spelling = some entry → entry.form = .container kind →
      ∀ {count : Nat}, 1 ≤ count → entry.arity.accepts count = true → count = kind.arity

/-- Every form makes a canonical shape of canonical arguments. -/
theorem firstOffender?_of_applied {entry : Entry} {args : List TypeExpr} {tree : TypeExpr}
    (exact : ∀ kind, entry.form = .container kind → args.length = kind.arity) (some : args ≠ [])
    (guarded : .ellipsis ∉ guardedArgs entry args)
    (accepted : ∀ arg ∈ args, arg ≠ .ellipsis → arg.firstOffender? = none)
    (applied : Applied entry args tree) : tree.firstOffender? = none := by
  have types : entry.form ≠ .tuple → ∀ arg ∈ args, arg.firstOffender? = none := by
    intro notTuple arg mem
    rw [guardedArgs_eq_self notTuple] at guarded
    refine accepted arg mem ?_
    rintro rfl
    exact guarded mem
  cases applied with
  | plain form => exact firstOffenderOf?_eq_none_iff.mpr (types (by simp [form]))
  | wildcard => rfl
  | container form =>
      rw [firstOffender?, if_pos (exact _ form)]
      exact firstOffenderOf?_eq_none_iff.mpr (types (by simp [form]))
  | tuple form =>
      rw [guardedArgs, if_pos form] at guarded
      exact firstOffender?_tuple_eq_none some guarded accepted
  | union form => exact firstOffender?_unionOf some (types (by simp [form]))
  | optional form =>
      exact firstOffender?_unionOf (List.cons_ne_nil _ _)
        (List.forall_mem_cons.mpr ⟨rfl, types (by simp [form])⟩)
  | @literal lists form literals =>
      subst literals
      have values := types (by simp [form])
      obtain ⟨first, rest, rfl⟩ := List.exists_cons_of_ne_nil (mt List.map_eq_nil_iff.mpr some)
      rw [List.map_cons, List.forall_mem_cons] at values
      exact firstOffender?_literal_eq_none_iff.mpr (List.append_ne_nil_of_left_ne_nil
        (firstOffender?_literal_eq_none_iff.mp values.1) _)

/-- The canonical form of a tree that can be written has canonical shapes only,
whatever names and forms the table has. -/
theorem firstOffender?_of_normalize (exact : ContainersExact table) (raw : TypeExpr) :
    ∀ tree, Writable raw → raw.normalize table = .ok tree → tree.firstOffender? = none := by
  induction raw using inductionOnChildren with
  | step raw ih =>
      intro tree writable success
      have accepted : ∀ {normals : List TypeExpr},
          List.Forall₂ (ArgumentNormal table) raw.children normals →
            ∀ normal ∈ normals, normal ≠ .ellipsis → normal.firstOffender? = none := by
        intro normals arguments normal mem notEllipsis
        obtain ⟨child, childMem, ⟨-, rfl⟩ | ⟨-, success⟩⟩ := exists_argument_of_mem arguments mem
        · exact absurd rfl notEllipsis
        · exact ih child childMem normal (writable.child child childMem) success
      have types : ∀ {normals : List TypeExpr}, .ellipsis ∉ raw.children →
          List.Forall₂ (ArgumentNormal table) raw.children normals →
            ∀ normal ∈ normals, normal.firstOffender? = none := by
        intro normals guarded arguments normal mem
        refine accepted arguments normal mem ?_
        rintro rfl
        rw [ellipsis_mem_congr (map_isEllipsis_of_arguments arguments)] at guarded
        exact guarded mem
      cases normalize_eq_ok_iff.mp success with
      | name path =>
          unfold resolveName
          split
          · rfl
          · split <;> rfl
      | wildcard => rfl
      | unknown resolved guarded arguments =>
          exact firstOffenderOf?_eq_none_iff.mpr (types guarded arguments)
      | @known base args normals entry _ resolved guarded arguments arityAccepts applied =>
          cases writable with
          | generic name some all =>
              have someNormals := arguments_ne_nil arguments some
              rw [ellipsis_mem_guardedArgs_congr entry (map_isEllipsis_of_arguments arguments)]
                at guarded
              refine firstOffender?_of_applied (fun kind form => ?_) someNormals guarded
                (accepted arguments) applied
              exact exact resolved form (List.length_pos_iff.mpr someNormals) arityAccepts
      | container guarded arguments lengths =>
          rw [firstOffender?, if_pos lengths]
          exact firstOffenderOf?_eq_none_iff.mpr (types guarded arguments)
      | tuple guarded arguments =>
          cases writable with
          | tuple some all =>
              rw [ellipsis_mem_fixedElements_congr (map_isEllipsis_of_arguments arguments)]
                at guarded
              exact firstOffender?_tuple_eq_none (arguments_ne_nil arguments some) guarded
                (accepted arguments)
      | union guarded arguments =>
          cases writable with
          | union some all =>
              exact firstOffender?_unionOf (arguments_ne_nil arguments some)
                (types guarded arguments)
      | optional guarded argument =>
          have inner := types (by simpa [children] using guarded.symm)
            (.cons (.inr ⟨guarded, argument⟩) .nil)
          exact firstOffender?_unionOf (List.cons_ne_nil _ _)
            (List.forall_mem_cons.mpr ⟨rfl, inner⟩)
      | literal values =>
          cases writable with
          | literal some all => exact firstOffender?_literal_eq_none_iff.mpr some

end TypeSpelling.TypeExpr
