import TypeSpelling.Proofs.Levels
import TypeSpelling.Proofs.NormalForm
import TypeSpelling.Proofs.Parsing

/-!
# The depth of trees

The limit on the nesting of a text bounds the depth of its tree.  A level of the
text gives three nodes at most, one for a bracket or a keyword, one for a
question mark and one for a union, and a few more stand outside all levels.
Normalization makes no tree deeper, under any table, so whatever walks through a
tree of the text or through a canonical form goes no deeper than that.
-/

namespace TypeSpelling

open TypeSpelling.Source

/-! ## Depths of lists -/

namespace TypeExpr

theorem depth_pos (tree : TypeExpr) : 1 ≤ tree.depth := by
  rw [depth_eq_depthAll_children]
  exact Nat.le_add_left _ _

theorem depthAll_le_iff {nodes : List TypeExpr} {bound : Nat} :
    depthAll nodes ≤ bound ↔ ∀ node ∈ nodes, node.depth ≤ bound := by
  induction nodes with
  | nil => simp [depthAll]
  | cons first rest ih => rw [depthAll, Nat.max_le, ih, List.forall_mem_cons]

theorem depth_le_of_mem_preorder {tree node : TypeExpr} (mem : node ∈ tree.preorder) :
    node.depth ≤ tree.depth := by
  induction tree using inductionOnChildren with
  | step tree ih =>
      rcases eq_or_exists_child_of_mem_preorder mem with rfl | ⟨child, childMem, inside⟩
      · exact Nat.le_refl _
      · have below := ih child childMem inside
        have inChildren := depth_le_depthAll childMem
        rw [depth_eq_depthAll_children tree]
        omega

end TypeExpr

/-! ## Trees of texts -/

namespace Source

open TypeExpr

theorem depth_wrap (kinds : List Container) (operand : TypeExpr) :
    (wrap kinds operand).depth = operand.depth + kinds.length := by
  induction kinds with
  | nil => rfl
  | cons kind others ih =>
      change (TypeExpr.container kind [wrap others operand]).depth = _
      rw [TypeExpr.depth, depthAll, depthAll, ih, Nat.max_zero, List.length_cons, Nat.add_assoc]

/-- A keyword that touches an ellipsis is the only one that opens no level. -/
theorem Prefixes.length_le_levels (prefixes : Prefixes) (ellipsis : Bool) :
    prefixes.length ≤ prefixes.levels ellipsis + ellipsis.toNat := by
  fun_induction Prefixes.levels ellipsis prefixes with
  | case1 => exact Nat.zero_le _
  | case2 _ behind touching =>
      rw [Bool.and_eq_true] at touching
      rw [touching.1]
      exact Nat.le_refl 1
  | case3 _ behind => exact Nat.le_add_right 1 _
  | case4 _ second others ih =>
      rw [List.length_cons]
      omega

theorem Token.depth_combine {own : Token} {tree : TypeExpr}
    (mem : tree ∈ combine own.rule own.text [] []) : tree.depth = 1 := by
  obtain ⟨rule, text, shape⟩ := own
  cases shape <;> rw [List.mem_singleton.mp mem] <;> rfl

/-- The nodes that a phrase of a category has at most outside all of its levels. -/
def Category.unlevelled : Category → Nat
  | .atom _ | .primary _ => 2
  | .operand | .item .bar | .items .bar => 3
  | .expression | .item _ | .items _ => 4

namespace Phrase

theorem depth_joined {parts : List TypeExpr} {bound : Nat}
    (all : ∀ part ∈ parts, part.depth ≤ bound) : ∀ tree ∈ joined parts, tree.depth ≤ bound + 1 := by
  unfold joined
  split
  · exact fun tree mem => Nat.le_succ_of_le (all tree mem)
  · refine List.forall_mem_singleton.mpr ?_
    rw [TypeExpr.depth]
    exact Nat.succ_le_succ (depthAll_le_iff.mpr all)

/-- An ellipsis that is no fault stands for the marker. -/
theorem depth_of_beginsEllipsis {word : Bool} (primary : Phrase (.primary word))
    (faultless : primary.Faultless) (ellipsis : primary.beginsEllipsis = true) :
    ∀ tree ∈ primary.trees, tree.depth = 1 := by
  cases primary with
  | bare atom behind =>
      cases atom with
      | token own => exact fun tree => Token.depth_combine
      | _ => cases ellipsis
  | subscripted atom before inside first others behind =>
      cases atom with
      | token own =>
          have isName := of_decide_eq_true faultless.1
          have isEllipsis := of_decide_eq_true ellipsis
          rw [isName] at isEllipsis
          cases isEllipsis
      | _ => cases ellipsis

theorem depth_append {left right : List TypeExpr} {leftLevels rightLevels outside : Nat}
    (leftBound : ∀ tree ∈ left, tree.depth ≤ 3 * leftLevels + outside)
    (rightBound : ∀ tree ∈ right, tree.depth ≤ 3 * rightLevels + outside) :
    ∀ tree ∈ left ++ right, tree.depth ≤ 3 * max leftLevels rightLevels + outside := by
  refine List.forall_mem_append.mpr ⟨fun tree mem => ?_, fun tree mem => ?_⟩
  · have bound := leftBound tree mem
    omega
  · have bound := rightBound tree mem
    omega

/-- A bracket is a node around expressions that have one level less. -/
theorem depth_bracketed {tree : TypeExpr} {levels : Nat}
    (inside : ∀ child ∈ tree.children, child.depth ≤ 3 * levels + 4) :
    tree.depth ≤ 3 * (levels + 1) + 2 := by
  have children := depthAll_le_iff.mpr inside
  rw [depth_eq_depthAll_children]
  omega

/-- A tree of a phrase has three nodes for each level at most, and a few more. -/
theorem depth_trees {category : Category} (phrase : Phrase category) :
    phrase.Faultless → ∀ tree ∈ phrase.trees,
      tree.depth ≤ 3 * phrase.levels + category.unlevelled := by
  induction phrase with
  | expression first others firstIh othersIh =>
      rintro ⟨firstFaultless, othersFaultless⟩
      exact depth_joined (depth_append (firstIh firstFaultless) (othersIh othersFaultless))
  | operand prefixes apart primary mark ih =>
      intro faultless tree mem
      have wrapped : ∀ inner ∈ primary.trees, inner.depth + prefixes.length + 1 ≤
          3 * (operand prefixes apart primary mark).levels + 3 := by
        intro inner innerMem
        have bound := ih faultless inner innerMem
        have counted := prefixes.length_le_levels primary.beginsEllipsis
        simp only [levels, Category.unlevelled] at bound ⊢
        cases ellipsis : primary.beginsEllipsis with
        | false =>
            rw [ellipsis, Bool.toNat_false] at counted
            omega
        | true =>
            have single := primary.depth_of_beginsEllipsis faultless ellipsis inner innerMem
            rw [ellipsis, Bool.toNat_true] at counted
            omega
      cases mark with
      | none =>
          obtain ⟨inner, innerMem, rfl⟩ := List.mem_map.mp mem
          rw [depth_wrap, List.length_map]
          exact Nat.le_of_succ_le (wrapped inner innerMem)
      | some behind =>
          obtain ⟨_, wrappedMem, rfl⟩ := List.mem_map.mp mem
          obtain ⟨inner, innerMem, rfl⟩ := List.mem_map.mp wrappedMem
          rw [depth, depth_wrap, List.length_map]
          exact wrapped inner innerMem
  | bare atom behind ih => exact ih
  | subscripted atom before inside first others behind atomIh firstIh othersIh =>
      rintro ⟨isName, -, firstFaultless, othersFaultless⟩
      obtain ⟨base, name⟩ := atom.exists_name_of_isName isName
      rw [trees, name, List.singleton_append]
      refine List.forall_mem_singleton.mpr ?_
      have args := depth_append (firstIh firstFaultless) (othersIh othersFaultless)
      have bound : (TypeExpr.generic base (first.trees ++ others.trees)).depth ≤ _ :=
        depth_bracketed args
      simp only [levels, Category.unlevelled]
      omega
  | token own =>
      intro _ tree mem
      rw [Token.depth_combine mem]
      exact Nat.le_add_left 1 _
  | parens inside first others closing firstIh othersIh =>
      rintro ⟨firstFaultless, othersFaultless⟩
      have parts := depth_append (firstIh firstFaultless) (othersIh othersFaultless)
      rw [trees]
      split
      · intro tree mem
        have bound := parts tree (List.mem_append_left _ mem)
        simp only [levels, Category.unlevelled] at bound ⊢
        omega
      · exact List.forall_mem_singleton.mpr (depth_bracketed parts)
  | mapping inside key between value others keyIh valueIh othersIh =>
      rintro ⟨keyFaultless, valueFaultless, othersFaultless⟩
      exact List.forall_mem_singleton.mpr (depth_bracketed (depth_append (keyIh keyFaultless)
        (depth_append (valueIh valueFaultless) (othersIh othersFaultless))))
  | set inside first others firstIh othersIh =>
      rintro ⟨firstFaultless, othersFaultless⟩
      exact List.forall_mem_singleton.mpr
        (depth_bracketed (depth_append (firstIh firstFaultless) (othersIh othersFaultless)))
  | brackets inside first others firstIh othersIh =>
      rintro ⟨firstFaultless, othersFaultless⟩
      exact List.forall_mem_singleton.mpr
        (depth_bracketed (depth_append (firstIh firstFaultless) (othersIh othersFaultless)))
  | bar behind next ih => exact ih
  | comma behind next ih => exact ih
  | entry behind key between value keyIh valueIh =>
      rintro ⟨keyFaultless, valueFaultless⟩
      exact depth_append (keyIh keyFaultless) (valueIh valueFaultless)
  | nil => exact fun _ => List.forall_mem_nil _
  | @cons repetition first others firstIh othersIh =>
      rintro ⟨firstFaultless, othersFaultless⟩
      cases repetition <;> exact depth_append (firstIh firstFaultless) (othersIh othersFaultless)

end Phrase

end Source

/-! ## Canonical forms -/

namespace TypeExpr

variable {table : AliasTable}

theorem depth_le_of_mem_flatMembers {tree member : TypeExpr} (mem : member ∈ tree.flatMembers) :
    member.depth ≤ tree.depth := by
  induction tree using inductionOnChildren with
  | step tree ih =>
      cases isUnion : tree.isUnion with
      | false =>
          rw [flatMembers_eq_singleton isUnion, List.mem_singleton] at mem
          exact Nat.le_of_eq (congrArg depth mem)
      | true =>
          cases tree with
          | union members =>
              obtain ⟨part, partMem, inside⟩ := mem_flatMembersOf.mp mem
              have below := ih part partMem inside
              have inMembers := depth_le_depthAll partMem
              rw [depth]
              omega
          | _ => cases isUnion

/-- A member of a union is no deeper than what the union is built of. -/
theorem depth_le_of_mem_mergedMembers {parts : List TypeExpr} {member : TypeExpr}
    (mem : member ∈ mergedMembers parts) : member.depth ≤ max 1 (depthAll parts) := by
  rcases mem_mergedMembers mem with contributed | ⟨values, rfl⟩
  · obtain ⟨part, partMem, inside⟩ := mem_flatMembersOf.mp contributed
    have below := depth_le_of_mem_flatMembers inside
    have inParts := depth_le_depthAll partMem
    omega
  · exact Nat.le_max_left _ _

/-- A union is one node deeper than its parts at most. -/
theorem depth_unionOf_le {parts : List TypeExpr} (some : parts ≠ []) :
    (unionOf parts).depth ≤ depthAll parts + 1 := by
  have positive : 1 ≤ depthAll parts := by
    obtain ⟨first, rest, rfl⟩ := List.exists_cons_of_ne_nil some
    exact Nat.le_trans first.depth_pos (Nat.le_max_left _ _)
  rcases unionOf_cases parts with single | ⟨-, several⟩
  · have bound := depth_le_of_mem_mergedMembers (single ▸ List.mem_singleton_self (unionOf parts))
    omega
  · rw [several, depth]
    refine Nat.succ_le_succ (depthAll_le_iff.mpr fun member mem => ?_)
    have bound := depth_le_of_mem_mergedMembers (Sorting.mem_sort.mp mem)
    omega

theorem depth_unionOf_null_cons_le (parts : List TypeExpr) :
    (unionOf (null :: parts)).depth ≤ depthAll parts + 1 := by
  cases parts with
  | nil => exact Nat.le_refl _
  | cons first rest =>
      have bound := depth_unionOf_le (List.cons_ne_nil null (first :: rest))
      have positive : null.depth ≤ depthAll (first :: rest) :=
        Nat.le_trans first.depth_pos (Nat.le_max_left _ _)
      rwa [depthAll, Nat.max_eq_right positive] at bound

theorem depthAll_le_of_arguments {raws normals : List TypeExpr}
    (keeps : ∀ raw ∈ raws, ∀ tree, raw.normalize table = .ok tree → tree.depth ≤ raw.depth)
    (arguments : List.Forall₂ (ArgumentNormal table) raws normals) :
    depthAll normals ≤ depthAll raws := by
  refine depthAll_le_iff.mpr fun normal mem => ?_
  obtain ⟨raw, rawMem, ⟨rfl, rfl⟩ | ⟨-, success⟩⟩ := exists_argument_of_mem arguments mem
  · exact depth_le_depthAll rawMem
  · exact Nat.le_trans (keeps raw rawMem _ success) (depth_le_depthAll rawMem)

/-- Normalization makes no tree deeper. -/
theorem depth_le_of_normalize (raw : TypeExpr) :
    ∀ tree, raw.normalize table = .ok tree → tree.depth ≤ raw.depth := by
  induction raw using inductionOnChildren with
  | step raw ih =>
      intro tree success
      have leaf : 1 ≤ raw.depth := raw.depth_pos
      have node : ∀ {normals : List TypeExpr},
          List.Forall₂ (ArgumentNormal table) raw.children normals →
            depthAll normals + 1 ≤ raw.depth := by
        intro normals arguments
        rw [depth_eq_depthAll_children raw]
        exact Nat.succ_le_succ (depthAll_le_of_arguments ih arguments)
      have union : ∀ {normals : List TypeExpr},
          List.Forall₂ (ArgumentNormal table) raw.children normals →
            (unionOf normals).depth ≤ raw.depth := by
        intro normals arguments
        by_cases none : normals = []
        · rw [none]
          exact leaf
        · exact Nat.le_trans (depth_unionOf_le none) (node arguments)
      cases normalize_eq_ok_iff.mp success with
      | name path =>
          unfold resolveName
          split
          · exact leaf
          · split <;> exact leaf
      | wildcard => exact leaf
      | unknown resolved guarded arguments => exact node arguments
      | known resolved guarded arguments accepted applied =>
          cases applied with
          | plain | container | tuple => exact node arguments
          | wildcard | literal => exact leaf
          | union => exact union arguments
          | optional => exact Nat.le_trans (depth_unionOf_null_cons_le _) (node arguments)
      | container guarded arguments exact => exact node arguments
      | tuple guarded arguments => exact node arguments
      | union guarded arguments => exact union arguments
      | @optional inner normal guarded argument =>
          have arguments : List.Forall₂ (ArgumentNormal table) [inner] [normal] :=
            .cons (.inr ⟨guarded, argument⟩) .nil
          exact Nat.le_trans (depth_unionOf_null_cons_le _) (node arguments)
      | literal values => exact leaf

end TypeExpr

/-! ## The bound -/

open TypeExpr

/-- The limit on the nesting of a text bounds the depth of its tree. -/
theorem depth_le_of_parseWithin {source : String} {limit : Nat} {raw : TypeExpr}
    (parsed : parseWithin limit source = .ok raw) : raw.depth ≤ 3 * limit + 4 := by
  obtain ⟨fits, before, phrase, whole, faultless, trees⟩ := parseChars_eq_ok_iff.mp parsed
  rw [whole, depthError?_eq_none_iff_levels] at fits
  have bound := phrase.depth_trees faultless raw (trees ▸ List.mem_singleton_self raw)
  simp only [Category.unlevelled] at bound
  omega

/-- The limit bounds the depth of every tree that is walked through: of the tree of
the text, of all nodes in it, and of the canonical forms of these and all nodes in
them.  Under any table, no canonical form is deeper than its tree. -/
theorem depth_le_of_limit :
    (∀ (source : String) (limit : Nat) (raw : TypeExpr), parseWithin limit source = .ok raw →
      raw.depth ≤ 3 * limit + 4) ∧
    (∀ (table : AliasTable) (raw tree : TypeExpr), raw.normalize table = .ok tree →
      tree.depth ≤ raw.depth) ∧
    ∀ (source : String) (limit : Nat) (raw : TypeExpr), parseWithin limit source = .ok raw →
      ∀ node ∈ raw.preorder, node.depth ≤ 3 * limit + 4 ∧
        ∀ (table : AliasTable) (tree : TypeExpr), node.normalize table = .ok tree →
          ∀ inner ∈ tree.preorder, inner.depth ≤ 3 * limit + 4 := by
  refine ⟨fun source limit raw => depth_le_of_parseWithin,
    fun table raw tree => depth_le_of_normalize raw tree, ?_⟩
  intro source limit raw parsed node mem
  have nodeBound := Nat.le_trans (depth_le_of_mem_preorder mem) (depth_le_of_parseWithin parsed)
  refine ⟨nodeBound, fun table tree normalized inner innerMem => ?_⟩
  have inTree := depth_le_of_mem_preorder innerMem
  have kept := depth_le_of_normalize node tree normalized
  omega

/-- The optional of a keyword in a union, with one level. -/
theorem depth_le_of_limit_of_keyword :
    let raw := TypeExpr.union [.optional (.container .iterable [.name "a"]), .name "b"]
    let tree := TypeExpr.union [null, .name "b", .container .iterable [.name "a"]]
    parseWithin 1 "iter a?|b" = .ok raw ∧ raw.normalize AliasTable.standard = .ok tree ∧
      raw.depth ≤ 7 ∧ tree.depth ≤ raw.depth ∧ ∀ inner ∈ tree.preorder, inner.depth ≤ 7 := by
  intro raw tree
  have parsed : parseWithin 1 "iter a?|b" = .ok raw := by decide +kernel
  have normalized : raw.normalize AliasTable.standard = .ok tree := rfl
  have nodes := depth_le_of_limit.2.2 _ _ _ parsed raw (mem_preorder_self raw)
  exact ⟨parsed, normalized, depth_le_of_limit.1 _ _ _ parsed,
    depth_le_of_limit.2.1 _ _ _ normalized, nodes.2 _ _ normalized⟩

/-- The bound is reached: a keyword that touches an ellipsis opens no level. -/
example : parseWithin 0 "iter...?|a" =
    .ok (.union [.optional (.container .iterable [.ellipsis]), .name "a"]) := by
  decide +kernel

end TypeSpelling
