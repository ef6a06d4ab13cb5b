import TypeSpelling.Proofs.Margins
import TypeSpelling.Proofs.Stability
import TypeSpelling.Proofs.UnionLengths

/-!
# How much longer a shorthand may be than its text

A shorthand is not always the shortest text of its type.  It puts a blank behind every
keyword, where a bracket, a brace or a quotation mark needs none.  It puts a question
mark behind a whole union, with parentheses that the question mark of a single member
does without.  And it merges literals under a subscript where bars are shorter.  The
surplus of a tree counts these bytes, and a shorthand is longer than the text that it
was made of by no more.
-/

namespace TypeSpelling

open TypeSpelling.AliasTable
open TypeSpelling.Source

namespace TypeExpr

/-! ## The surplus of a tree -/

def isOptional : TypeExpr → Bool
  | .optional _ => true
  | _ => false

theorem parentheses_isOptional_le (tree : TypeExpr) :
    parentheses tree.isOptional ≤ parentheses tree.isLoose := by
  cases tree <;> simp [isOptional, isLoose, parentheses]

/-- What the shorthand of a union may take beyond its members: parentheses in front of the
question mark of a member, and the subscript of literals that are merged. -/
def unionSurplus (members : List TypeExpr) : Nat :=
  parentheses (members.any isOptional) +
    mergeSurplus (members.filterMap fun member => (member.normalize standard).toOption)

mutual

/-- The bytes by which the shorthand of a tree may be longer than a text of the tree.  The
name of a union that is written as a subscript makes up for some. -/
def surplus : TypeExpr → Nat
  | .name _ | .wildcard | .literal _ | .ellipsis => 0
  | .generic base args =>
      surplusAll args +
        if (standard.resolve? base).any fun entry => entry.form = .union then
          unionSurplus args - base.utf8ByteSize
        else 0
  | .container kind args =>
      surplusAll args +
        if kind.keyword?.isSome then args.countP fun arg => arg.isLoose || !arg.isWordy else 0
  | .tuple elements => surplusAll elements
  | .union members => surplusAll members + unionSurplus members
  | .optional inner => surplus inner

/-- The surplus of trees together. -/
def surplusAll : List TypeExpr → Nat
  | [] => 0
  | first :: rest => surplus first + surplusAll rest

end

/-- The bounds on a canonical tree by the tree that it was made of: on its shorthand, on
its shorthand behind a keyword, and on what its members add to a union. -/
structure Bounded (raw tree : TypeExpr) : Prop where
  whole : tree.shortSize ≤ raw.leastWeight 1 + raw.surplus
  operand : tree.shortSize + parentheses tree.isUnion ≤
    raw.leastWeight 1 + raw.surplus + parentheses raw.isLoose
  members : foldedSize tree.flatMembers ≤
    raw.leastWeight 1 + raw.surplus + 1 + parentheses raw.isOptional
  null : raw.isOptional = true → null ∈ tree.flatMembers

theorem bounded_of_notUnion {raw tree : TypeExpr} (notUnion : tree.isUnion = false)
    (notOptional : raw.isOptional = false)
    (whole : tree.shortSize ≤ raw.leastWeight 1 + raw.surplus) : Bounded raw tree where
  whole := whole
  operand := by
    rw [notUnion]
    exact Nat.le_add_right_of_le whole
  members := by
    rw [flatMembers_eq_singleton notUnion, foldedSize_singleton]
    exact Nat.le_add_right_of_le (Nat.succ_le_succ whole)
  null := by simp [notOptional]

/-! ## Lists -/

section

variable {raws normals : List TypeExpr} (bounded : List.Forall₂ Bounded raws normals)

include bounded

theorem listSize_le_of_bounded :
    listSize normals ≤ totalWeight 1 (fun _ => 1) raws + surplusAll raws := by
  induction bounded with
  | nil => exact Nat.le_refl 0
  | cons own _ ih =>
      have first := own.whole
      rw [listSize_cons, totalWeight, surplusAll]
      omega

theorem null_mem_flatMembersOf_of_bounded (optional : raws.any isOptional = true) :
    null ∈ flatMembersOf normals := by
  induction bounded with
  | nil => cases optional
  | cons own _ ih =>
      rw [List.any_cons, Bool.or_eq_true] at optional
      rw [flatMembersOf, List.mem_append]
      exact optional.imp own.null ih

/-- Members share the parentheses in front of one question mark. -/
theorem foldedSize_le_of_bounded :
    foldedSize (flatMembersOf normals) ≤
      totalWeight 1 (fun _ => 1) raws + surplusAll raws + parentheses (raws.any isOptional) := by
  induction bounded with
  | nil => exact Nat.le_refl 0
  | @cons raw normal raws normals own rest ih =>
      have first := own.members
      have shared := foldedSize_append_le normal.flatMembers (flatMembersOf normals)
      rw [flatMembersOf, totalWeight, surplusAll, List.any_cons]
      by_cases both : raw.isOptional = true ∧ raws.any isOptional = true
      · rw [any_isNull_iff.mpr (own.null both.1),
          any_isNull_iff.mpr (null_mem_flatMembersOf_of_bounded rest both.2)] at shared
        rw [both.1] at first ⊢
        rw [both.2] at ih
        simp only [parentheses, Bool.and_self, Bool.true_or, if_true] at shared first ih ⊢
        omega
      · have one : parentheses raw.isOptional + parentheses (raws.any isOptional) ≤
            parentheses (raw.isOptional || raws.any isOptional) := by
          cases optional : raw.isOptional with
          | false => exact Nat.le_of_eq (Nat.zero_add _)
          | true =>
              have none : raws.any isOptional = false :=
                Bool.eq_false_iff.mpr fun others => both ⟨optional, others⟩
              rw [none]
              exact Nat.le_refl _
        omega

end

/-! ## Unions -/

theorem totalWeight_le_of_margin_le {blank : Nat} {margin other : TypeExpr → Nat}
    (each : ∀ tree, margin tree ≤ other tree) (trees : List TypeExpr) :
    totalWeight blank margin trees ≤ totalWeight blank other trees := by
  induction trees with
  | nil => exact Nat.le_refl 0
  | cons first rest ih =>
      have own := each first
      rw [totalWeight, totalWeight]
      omega

theorem filterMap_normalize_of_arguments {raws normals : List TypeExpr}
    (guarded : .ellipsis ∉ raws)
    (arguments : List.Forall₂ (ArgumentNormal standard) raws normals) :
    raws.filterMap (fun raw => (raw.normalize standard).toOption) = normals := by
  induction arguments with
  | nil => rfl
  | cons argument _ ih =>
      rw [List.mem_cons, not_or] at guarded
      rcases argument with ⟨rfl, -⟩ | ⟨-, success⟩
      · exact absurd rfl guarded.1
      · rw [List.filterMap_cons, success, ih guarded.2]
        rfl

section

variable {raw : TypeExpr} {parts : List TypeExpr} (some : parts ≠ [])
  (forms : ∀ part ∈ parts, NormalForm standard part) (writable : ∀ part ∈ parts, Writable part)

include some forms writable

/-- A union is bounded if its members are, with room for parentheses unless a keyword puts
some around the raw tree already. -/
theorem bounded_unionOf (notOptional : raw.isOptional = false)
    (room : foldedSize (flatMembersOf parts) + mergeSurplus parts + parentheses (!raw.isLoose) ≤
      raw.leastWeight 1 + raw.surplus + 1) : Bounded raw (unionOf parts) := by
  have text := shortSize_unionOf_lt some forms writable
  have members := foldedSize_unionOf_le writable
  refine ⟨by omega, ?_, by omega, by simp [notOptional]⟩
  have around : parentheses (unionOf parts).isUnion ≤
      parentheses raw.isLoose + parentheses (!raw.isLoose) := by
    cases raw.isLoose <;> cases (unionOf parts).isUnion <;> decide
  omega

end

/-! ## Optionals -/

theorem flatMembersOf_nullable (tree : TypeExpr) :
    flatMembersOf [null, tree] = null :: tree.flatMembers := by
  rw [flatMembersOf, flatMembersOf, flatMembersOf, List.append_nil]
  rfl

/-- One canonical tree besides the null literal has no literals to merge. -/
theorem mergeSurplus_nullable {tree : TypeExpr} (normal : NormalForm standard tree) :
    mergeSurplus [null, tree] = 0 := by
  have one : (tree.flatMembers.filterMap mergeable?).length < 2 := by
    cases isUnion : tree.isUnion with
    | false =>
        rw [flatMembers_eq_singleton isUnion]
        exact Nat.lt_succ_of_le (List.length_filterMap_le _ _)
    | true =>
        cases normal with
        | union canonical =>
            rw [flatMembers, flatMembersOf_eq_self canonical.flat]
            exact canonical.oneLiteral
        | _ => cases isUnion
  obtain ⟨own, perm, sublist⟩ := (nodup_eraseDups (null :: tree.flatMembers)).subperm
    fun member mem => List.mem_eraseDups.mp mem
  have fewer : ((null :: tree.flatMembers).eraseDups.filterMap mergeable?).length ≤
      ((null :: tree.flatMembers).filterMap mergeable?).length := by
    rw [← (perm.filterMap _).length_eq]
    exact (sublist.filterMap _).length_le
  have kept : (null :: tree.flatMembers).filterMap mergeable? =
      tree.flatMembers.filterMap mergeable? := rfl
  rw [kept] at fewer
  rw [mergeSurplus, flatMembersOf_nullable, if_neg (by omega)]

theorem foldedSize_cons_null_of_mem {members : List TypeExpr} (mem : null ∈ members) :
    foldedSize (null :: members) = foldedSize members := by
  have some := any_isNull_iff.mpr mem
  rw [foldedSize_eq, foldedSize_eq, List.any_cons, List.any_cons, some]
  rfl

theorem foldedSize_cons_null_of_not_mem {members : List TypeExpr} (some : members ≠ [])
    (absent : null ∉ members) : foldedSize (null :: members) = foldedSize members + 3 := by
  have none := Bool.eq_false_iff.mpr (mt any_isNull_iff.mp absent)
  have others : (members.any fun member => !member.isNull) = true := by
    obtain ⟨first, rest, rfl⟩ := List.exists_cons_of_ne_nil some
    refine any_not_isNull_iff.mpr ⟨first, List.mem_cons_self .., ?_⟩
    rintro rfl
    exact absent (List.mem_cons_self ..)
  rw [foldedSize_eq, foldedSize_eq, List.any_cons, List.any_cons, none, others]
  rfl

/-- A single tree takes a question mark and nothing else. -/
theorem shortSize_unionOf_nullable {tree : TypeExpr} (notUnion : tree.isUnion = false)
    (notNull : tree ≠ null) (tight : tree.isLoose = false) :
    (unionOf [null, tree]).shortSize = tree.shortSize + 1 := by
  have canonical : CanonicalMembers [null, tree] := by
    refine ⟨?_, by simp, ?_, ?_⟩
    · exact List.forall_mem_cons.mpr ⟨rfl, List.forall_mem_singleton.mpr notUnion⟩
    · have later : null.rank < tree.rank := Nat.pos_of_ne_zero (mt rank_eq_zero_iff.mp notNull)
      simp [precedes, later]
    · have kept : [null, tree].filterMap mergeable? = [tree].filterMap mergeable? := rfl
      rw [kept]
      exact Nat.lt_succ_of_le (List.length_filterMap_le _ _)
  rw [canonical.unionOf_eq (by simpa using notNull.symm), shortSize_nullable, tight]
  rfl

section

variable {inner tree : TypeExpr} (bounded : Bounded inner tree)
  (normal : NormalForm standard tree) (writable : Writable tree)

include bounded normal writable

theorem shortSize_unionOf_nullable_le :
    (unionOf [null, tree]).shortSize ≤
      inner.leastWeight 1 + inner.surplus + parentheses inner.isLoose + 1 := by
  have forms : ∀ part ∈ [null, tree], NormalForm standard part :=
    List.forall_mem_cons.mpr ⟨.literal _, List.forall_mem_singleton.mpr normal⟩
  have text := shortSize_unionOf_lt (List.cons_ne_nil _ _) forms
    (List.forall_mem_cons.mpr ⟨writable_null, List.forall_mem_singleton.mpr writable⟩)
  have members := bounded.members
  have operand := bounded.operand
  rw [mergeSurplus_nullable normal, flatMembersOf_nullable, Nat.add_zero] at text
  by_cases mem : null ∈ tree.flatMembers
  · have loose := parentheses_isOptional_le inner
    rw [foldedSize_cons_null_of_mem mem] at text
    omega
  · cases isUnion : tree.isUnion with
    | false =>
        have notNull : tree ≠ null := by
          rintro rfl
          exact mem (List.mem_singleton_self _)
        rw [shortSize_unionOf_nullable isUnion notNull (normal.isLoose_eq.trans isUnion)]
        omega
    | true =>
        -- The parentheses in front of the question mark are those that a keyword needs, too.
        have around : parentheses true = 2 := rfl
        have bars : foldedSize tree.flatMembers ≤ tree.shortSize + 1 := by
          cases normal with
          | union canonical =>
              rw [flatMembers, flatMembersOf_eq_self canonical.flat] at mem ⊢
              cases writable with
              | union some _ =>
                  rw [shortSize_union_of_not_mem some mem]
                  exact Nat.le_of_add_right_le (foldedSize_add_le _)
          | _ => cases isUnion
        rw [foldedSize_cons_null_of_not_mem (flatMembers_ne_nil writable) mem] at text
        rw [isUnion] at operand
        omega

theorem bounded_optional : Bounded (.optional inner) (unionOf [null, tree]) := by
  have text := shortSize_unionOf_nullable_le bounded normal writable
  have folded := foldedSize_unionOf_le
    (List.forall_mem_cons.mpr ⟨writable_null, List.forall_mem_singleton.mpr writable⟩)
  rw [mergeSurplus_nullable normal, flatMembersOf_nullable, Nat.add_zero] at folded
  have own := bounded.members
  have weight : (optional inner).leastWeight 1 =
      inner.leastWeight 1 + parentheses inner.isLoose + 1 := rfl
  have surplus : (optional inner).surplus = inner.surplus := rfl
  have mark : parentheses (optional inner).isOptional = 2 := rfl
  have loose : parentheses (optional inner).isLoose = 2 := rfl
  have inLoose := parentheses_isOptional_le inner
  have around := parentheses_le (unionOf [null, tree]).isUnion
  refine ⟨by omega, by omega, ?_, fun _ => ?_⟩
  · by_cases mem : null ∈ tree.flatMembers
    · rw [foldedSize_cons_null_of_mem mem] at folded
      omega
    · rw [foldedSize_cons_null_of_not_mem (flatMembers_ne_nil writable) mem] at folded
      omega
  · rw [(flatMembers_unionOf_perm _).mem_iff]
    exact null_mem_mergedMembers (flatMembersOf_nullable tree ▸ List.mem_cons_self ..)

end

/-! ## Identifiers -/

theorem utf8ByteSize_pos_of_isName {name : String} (isName : IsName name.toList) :
    0 < name.utf8ByteSize := by
  rw [← Text.utf8Length_toList]
  refine utf8Length_pos fun empty => ?_
  have begins := beginsWord_name isName
  rw [empty] at begins
  cases begins

/-- Another spelling of a name is no shorter than the shortest one. -/
theorem utf8ByteSize_shortestSpelling_canonical_le {spelling : String} {entry : Entry}
    (resolved : standard.resolve? spelling = some entry) :
    (standard.shortestSpelling entry.canonical).utf8ByteSize ≤ spelling.utf8ByteSize := by
  have known : (standard.resolve? spelling).isSome = true := by
    rw [resolved]
    rfl
  exact utf8ByteSize_shortestSpelling_le_of_resolve?
    ((resolve?_canonical resolved).trans resolved.symm) known

theorem shortSize_resolveName {path : String} (isName : IsName path.toList) :
    (resolveName standard path).shortSize ≤ path.utf8ByteSize := by
  unfold resolveName
  cases resolved : standard.resolve? path with
  | none => exact utf8ByteSize_shortestSpelling_le standardEntries path
  | some entry =>
      dsimp only
      split
      · exact utf8ByteSize_pos_of_isName isName
      · exact utf8ByteSize_shortestSpelling_canonical_le resolved

/-- A name that stands for a shape is longer than what the shape has in its place. -/
theorem utf8ByteSize_of_mem_standardEntries :
    ∀ entry ∈ standardEntries, ∀ spelling ∈ entry.spellings,
      (∀ kind ∈ Container.all, entry.form = .container kind →
          (kind.keyword?.getD "").utf8ByteSize + 1 ≤ spelling.utf8ByteSize) ∧
        (entry.form = .optional → "Optional".utf8ByteSize ≤ spelling.utf8ByteSize) ∧
          (entry.form = .literal → "lit".utf8ByteSize ≤ spelling.utf8ByteSize) := by
  decide +kernel

theorem tokenSize_flatten_le (lists : List (List LiteralValue)) :
    tokenSize lists.flatten ≤ listSize (lists.map .literal) := by
  induction lists with
  | nil => exact Nat.le_refl 0
  | cons first rest ih =>
      have own := tokenSize_le first
      rw [List.flatten_cons, tokenSize_append, List.map_cons, listSize_cons]
      omega

/-! ## Nodes -/

theorem bounded_ellipsis : Bounded .ellipsis .ellipsis :=
  bounded_of_notUnion rfl rfl (Nat.le_refl 3)

theorem bounded_of_arguments {raws normals : List TypeExpr}
    (each : ∀ raw ∈ raws, ∀ tree, raw.normalize standard = .ok tree → Bounded raw tree)
    (arguments : List.Forall₂ (ArgumentNormal standard) raws normals) :
    List.Forall₂ Bounded raws normals := by
  induction arguments with
  | nil => exact .nil
  | cons argument _ ih =>
      rw [List.forall_mem_cons] at each
      refine .cons ?_ (ih each.2)
      rcases argument with ⟨rfl, rfl⟩ | ⟨-, success⟩
      · exact bounded_ellipsis
      · exact each.1 _ success

section

variable {args normals : List TypeExpr}
  (arguments : List.Forall₂ (ArgumentNormal standard) args normals)

include arguments

theorem normalForms_of_guarded (guarded : .ellipsis ∉ args) :
    ∀ normal ∈ normals, NormalForm standard normal := by
  intro normal mem
  refine normalForms_of_arguments (fun raw _ => normalForm_of_normalize coherent_standard raw)
    arguments normal mem ?_
  rintro rfl
  exact guarded ((ellipsis_mem_congr (map_isEllipsis_of_arguments arguments)).mpr mem)

theorem unionSurplus_eq (guarded : .ellipsis ∉ args) :
    unionSurplus args = parentheses (args.any isOptional) + mergeSurplus normals := by
  rw [unionSurplus, filterMap_normalize_of_arguments guarded arguments]

variable (bounded : List.Forall₂ Bounded args normals)

include bounded

/-- A container with a keyword has a blank and its operand behind it. -/
theorem bounded_keyword {raw : TypeExpr} {kind : Container} {word : String}
    (keyword? : kind.keyword? = some word) (guarded : .ellipsis ∉ args)
    (exact : normals.length = kind.arity) (notOptional : raw.isOptional = false)
    (room : ∀ arg, args = [arg] → word.utf8ByteSize + 1 +
      (arg.leastWeight 1 + arg.surplus + parentheses arg.isLoose) ≤
        raw.leastWeight 1 + raw.surplus) : Bounded raw (.container kind normals) := by
  obtain ⟨normal, rfl⟩ :=
    List.length_eq_one_iff.mp (exact.trans (Container.arity_eq_one keyword?))
  obtain ⟨arg, rest, own, none, rfl⟩ := List.forall₂_cons_right_iff.mp bounded
  cases List.forall₂_nil_right_iff.mp none
  have form := normalForms_of_guarded arguments guarded normal (List.mem_singleton_self _)
  refine bounded_of_notUnion rfl notOptional ?_
  have operand := own.operand
  have enough := room arg rfl
  rw [shortSize_keyword keyword?, form.isLoose_eq]
  omega

/-- A shape that is written with brackets, braces or a keyword. -/
theorem bounded_container {kind : Container} (guarded : .ellipsis ∉ args)
    (exact : normals.length = kind.arity) :
    Bounded (.container kind args) (.container kind normals) := by
  have list := listSize_le_of_bounded bounded
  cases keyword? : kind.keyword? with
  | none =>
      refine bounded_of_notUnion rfl rfl ?_
      rw [shortSize_bracketed keyword? exact, leastWeight, keyword?, surplus]
      dsimp only
      omega
  | some word =>
      refine bounded_keyword arguments bounded keyword? guarded exact rfl ?_
      rintro arg rfl
      have own : (container kind [arg]).surplus =
          arg.surplus + (if arg.isLoose || !arg.isWordy then 1 else 0) := by
        simp [surplus, surplusAll, keyword?, List.countP_cons]
      rw [leastWeight_keyword 1 keyword?, weightOf_toList, own, operandMargin]
      cases loose : arg.isLoose <;> cases wordy : arg.isWordy <;>
        simp only [parentheses, Bool.not_true, Bool.not_false, Bool.or_true, Bool.or_false,
          Bool.false_eq_true, if_true, if_false] <;> omega

end

theorem bounded_container_of_children {kind : Container} {args : List TypeExpr}
    (each : ∀ arg ∈ args, ∀ tree, arg.normalize standard = .ok tree → Bounded arg tree)
    {tree : TypeExpr} (success : (container kind args).normalize standard = .ok tree) :
    Bounded (.container kind args) tree := by
  obtain ⟨guarded, normals, arguments, exact, rfl⟩ := normalize_container_iff.mp success
  exact bounded_container arguments (bounded_of_arguments each arguments) guarded exact

/-! ## Names with subscripts -/

theorem leastWeight_generic (base : String) (args : List TypeExpr) :
    (generic base args).leastWeight 1 =
      base.utf8ByteSize + 1 + totalWeight 1 (fun _ => 1) args := by
  rw [leastWeight, weightOf_toList]

theorem surplusAll_le_surplus (base : String) (args : List TypeExpr) :
    surplusAll args ≤ (generic base args).surplus :=
  Nat.le_add_right _ _

section

variable {base : String} {args normals : List TypeExpr}
  (bounded : List.Forall₂ Bounded args normals)

include bounded

/-- A shape takes no more than the name in front of its arguments if what stands around
them takes no more than the name and a bracket. -/
theorem bounded_generic {tree : TypeExpr} (notUnion : tree.isUnion = false)
    (room : tree.shortSize ≤ base.utf8ByteSize + 1 + listSize normals) :
    Bounded (.generic base args) tree := by
  have list := listSize_le_of_bounded bounded
  have own := surplusAll_le_surplus base args
  refine bounded_of_notUnion notUnion rfl ?_
  rw [leastWeight_generic]
  omega

variable (arguments : List.Forall₂ (ArgumentNormal standard) args normals)
  (nonempty : normals ≠ []) (writable : ∀ normal ∈ normals, Writable normal)
  {entry : Entry} (resolved : standard.resolve? base = some entry)

include arguments nonempty writable resolved

theorem bounded_unionForm (form : entry.form = .union) (guarded : .ellipsis ∉ args) :
    Bounded (.generic base args) (unionOf normals) := by
  have members := foldedSize_le_of_bounded bounded
  have shared := unionSurplus_eq arguments guarded
  have own : (generic base args).surplus =
      surplusAll args + (unionSurplus args - base.utf8ByteSize) := by
    simp [surplus, resolved, form]
  have tight : parentheses (!(generic base args).isLoose) = 2 := rfl
  refine bounded_unionOf nonempty (normalForms_of_guarded arguments guarded) writable rfl ?_
  rw [leastWeight_generic]
  omega

theorem bounded_optionalForm (form : entry.form = .optional) (guarded : .ellipsis ∉ args)
    (accepted : entry.arity.accepts normals.length = true) :
    Bounded (.generic base args) (unionOf (null :: normals)) := by
  obtain ⟨declared, spelled⟩ := resolve?_standard_eq_some_iff.mp resolved
  have long := (utf8ByteSize_of_mem_standardEntries entry declared base spelled).2.1 form
  rw [(arity_of_mem_standardEntries entry declared).2 form, Arity.accepts, decide_eq_true_eq]
    at accepted
  obtain ⟨normal, rfl⟩ := List.length_eq_one_iff.mp accepted
  have normalForm := normalForms_of_guarded arguments guarded normal (List.mem_singleton_self _)
  have forms : ∀ part ∈ [null, normal], NormalForm standard part :=
    List.forall_mem_cons.mpr ⟨.literal _, List.forall_mem_singleton.mpr normalForm⟩
  have members := foldedSize_le_of_bounded bounded
  have folded := foldedSize_append_le [null] (flatMembersOf [normal])
  have own := surplusAll_le_surplus base args
  have sizes : foldedSize [null] = 5 ∧ "Optional".utf8ByteSize = 8 := ⟨rfl, by decide⟩
  have around := parentheses_le (args.any isOptional)
  have tight : parentheses (!(generic base args).isLoose) = 2 := rfl
  refine bounded_unionOf (List.cons_ne_nil _ _) forms
    (List.forall_mem_cons.mpr ⟨writable_null, writable⟩) rfl ?_
  rw [mergeSurplus_nullable normalForm, leastWeight_generic]
  change foldedSize ([null] ++ flatMembersOf [normal]) + 0 + _ ≤ _
  omega

/-- A name with a subscript is no shorter than the shape that it stands for, but for the
surplus of its arguments and of a union. -/
theorem bounded_applied {tree : TypeExpr} (guarded : .ellipsis ∉ guardedArgs entry args)
    (accepted : entry.arity.accepts normals.length = true)
    (applied : Applied entry normals tree) : Bounded (.generic base args) tree := by
  obtain ⟨declared, spelled⟩ := resolve?_standard_eq_some_iff.mp resolved
  have long := utf8ByteSize_of_mem_standardEntries entry declared base spelled
  have positive : 0 < base.utf8ByteSize := utf8ByteSize_pos_of_isName (isName_of_resolve? resolved)
  have unguarded : entry.form ≠ .tuple → .ellipsis ∉ args := by
    intro notTuple
    rwa [guardedArgs_eq_self notTuple] at guarded
  cases applied with
  | plain form =>
      refine bounded_generic bounded rfl ?_
      rw [shortSize_generic _ nonempty]
      have shorter := utf8ByteSize_shortestSpelling_canonical_le resolved
      omega
  | wildcard form =>
      have one : wildcard.shortSize = 1 := rfl
      exact bounded_generic bounded rfl (by omega)
  | @container kind form =>
      have exact : normals.length = kind.arity := by
        rwa [coherent_standard.exact resolved form, Arity.accepts, decide_eq_true_eq] at accepted
      cases keyword? : kind.keyword? with
      | none =>
          refine bounded_generic bounded rfl ?_
          rw [shortSize_bracketed keyword? exact]
          omega
      | some word =>
          have longer := long.1 kind (Container.mem_all kind) form
          rw [keyword?, Option.getD_some] at longer
          refine bounded_keyword arguments bounded keyword? (unguarded (by simp [form])) exact rfl
            fun arg only => ?_
          subst only
          have around := parentheses_le arg.isLoose
          have own : arg.surplus ≤ (generic base [arg]).surplus := surplusAll_le_surplus base [arg]
          rw [leastWeight_generic, totalWeight_singleton]
          omega
  | tuple form =>
      refine bounded_generic bounded rfl ?_
      rw [shortSize_tuple nonempty]
      split <;> omega
  | union form =>
      exact bounded_unionForm bounded arguments nonempty writable resolved form
        (unguarded (by simp [form]))
  | optional form =>
      exact bounded_optionalForm bounded arguments nonempty writable resolved form
        (unguarded (by simp [form])) accepted
  | @literal lists form literals =>
      subst literals
      cases writable_of_applied (isName_of_resolve? (resolve?_canonical resolved)) nonempty writable
        (.literal form rfl) with
      | literal someValues _ =>
          have tokens := tokenSize_flatten_le lists
          have text := shortSize_literal someValues
          have longer := long.2.2 form
          have sizes : "lit".utf8ByteSize = 3 ∧ "lit[]".utf8ByteSize = 5 := by decide
          refine bounded_generic bounded rfl ?_
          split at text <;> omega

end

/-! ## Trees -/

/-- The canonical tree of a tree that texts are read as is bounded by it. -/
theorem bounded_of_normalize {raw : TypeExpr} (written : Written raw) :
    ∀ tree, raw.normalize standard = .ok tree → Bounded raw tree := by
  induction written with
  | @name path isName =>
      rintro _ ⟨⟩
      have notUnion : (resolveName standard path).isUnion = false := by
        unfold resolveName
        split
        · rfl
        · split <;> rfl
      refine bounded_of_notUnion notUnion rfl ?_
      rw [leastWeight, weightOf_toList]
      exact shortSize_resolveName isName
  | wildcard =>
      rintro _ ⟨⟩
      exact bounded_of_notUnion rfl rfl (Nat.le_refl 1)
  | ellipsis => rintro _ ⟨⟩
  | @literal value writable =>
      rintro _ ⟨⟩
      refine bounded_of_notUnion rfl rfl ?_
      rw [leastWeight_literal, weightOf_toList]
      exact Nat.le_refl _
  | @generic base args name some all ih =>
      intro tree success
      cases normalize_eq_ok_iff.mp success with
      | unknown resolved guarded arguments =>
          have shorter : (standard.shortestSpelling base).utf8ByteSize ≤ base.utf8ByteSize :=
            utf8ByteSize_shortestSpelling_le standardEntries base
          refine bounded_generic (bounded_of_arguments ih arguments) rfl ?_
          rw [shortSize_generic _ (arguments_ne_nil arguments some)]
          omega
      | known resolved guarded arguments accepted applied =>
          have writable := writable_of_arguments (fun arg mem tree =>
            writable_of_normalize arg tree (all arg mem).writable) arguments
          exact bounded_applied (bounded_of_arguments ih arguments) arguments
            (arguments_ne_nil arguments some) writable resolved guarded accepted applied
  | keyword _ _ ih =>
      exact fun tree => bounded_container_of_children (List.forall_mem_singleton.mpr ih)
  | mapping _ _ _ keysIh valuesIh =>
      refine fun tree => bounded_container_of_children fun arg mem => ?_
      obtain ⟨entry, entryMem, argMem⟩ := List.mem_flatMap.mp mem
      rcases List.mem_pair.mp argMem with rfl | rfl
      · exact keysIh entry entryMem
      · exact valuesIh entry entryMem
  | sequence _ _ ih => exact fun tree => bounded_container_of_children ih
  | set _ _ ih => exact fun tree => bounded_container_of_children ih
  | @tuple elements some _ ih =>
      intro tree success
      obtain ⟨guarded, normals, arguments, rfl⟩ := normalize_tuple_iff.mp success
      have list := listSize_le_of_bounded (bounded_of_arguments ih arguments)
      refine bounded_of_notUnion rfl rfl ?_
      rw [shortSize_tuple (arguments_ne_nil arguments some), leastWeight, surplus,
        arguments.length_eq]
      omega
  | @union members several all ih =>
      intro tree success
      obtain ⟨guarded, normals, arguments, rfl⟩ := normalize_union_iff.mp success
      have some : members ≠ [] := List.ne_nil_of_length_pos (Nat.lt_of_lt_of_le Nat.two_pos several)
      have writable := writable_of_arguments (fun member mem tree =>
        writable_of_normalize member tree (all member mem).writable) arguments
      have bars := @totalWeight_le_of_margin_le 1 (fun _ => 1) memberMargin
        (fun _ => Nat.le_add_left 1 _) members
      have folded := foldedSize_le_of_bounded (bounded_of_arguments ih arguments)
      have shared := unionSurplus_eq arguments guarded
      have tight : parentheses (!(union members).isLoose) = 0 := rfl
      refine bounded_unionOf (arguments_ne_nil arguments some)
        (normalForms_of_guarded arguments guarded) writable rfl ?_
      rw [leastWeight, surplus]
      omega
  | @optional inner inside ih =>
      intro tree success
      obtain ⟨-, argument, own, rfl⟩ := normalize_optional_iff.mp success
      exact bounded_optional (ih argument own)
        (normalForm_of_normalize coherent_standard inner argument own)
        (writable_of_normalize inner argument inside.writable own)

end TypeExpr

/-! ## Texts -/

namespace AliasTable

open TypeSpelling.TypeExpr

/-- The shorthand of a text is longer than the text, trimmed, by no more than the surplus
of the tree that the text is read as. -/
theorem shorten_le_trim_add_surplus {source : String} {raw : TypeExpr} {short : Shortened}
    (parsed : parse source = .ok raw) (shortened : standard.shorten source = .ok short) :
    short.text.utf8ByteSize ≤ (Text.trim source).utf8ByteSize + raw.surplus := by
  obtain ⟨tree, normalized, -⟩ := bind_eq_ok_iff.mp shortened
  cases shortened.symm.trans (shorten_of_normalized normalized)
  obtain ⟨again, parsedAgain, normalizes⟩ := normalized_eq_ok_iff.mp normalized
  cases parsed.symm.trans parsedAgain
  have least := (parseWithin_eq_ok_iff.mp parsed).2.trim.leastWeight_le (Nat.le_refl 1)
  rw [weightOf_toList] at least
  exact Nat.le_trans (bounded_of_normalize (written_of_parseWithin parsed) tree normalizes).whole
    (Nat.add_le_add_right least _)

/-- Behind a keyword a union with a question mark and numbers has every kind of surplus,
and its shorthand is longer by all of it. -/
theorem shorten_le_trim_add_surplus_of_keyword :
    let raw : TypeExpr := .container .iterable
      [.union [.optional (.literal [.int 1]), .literal [.int 2], .name "a"]]
    let short : Shortened := ⟨"iter ((a|lit[1,2])?)", true⟩
    parse " iter(1?|2|a)" = .ok raw ∧ standard.shorten " iter(1?|2|a)" = .ok short ∧
      short.text.utf8ByteSize ≤ (Text.trim " iter(1?|2|a)").utf8ByteSize + raw.surplus ∧
      (Text.trim " iter(1?|2|a)").utf8ByteSize + raw.surplus = short.text.utf8ByteSize := by
  intro raw short
  have parsed : parse " iter(1?|2|a)" = .ok raw := by decide +kernel
  have normalized : standard.normalized " iter(1?|2|a)" =
      .ok (.container .iterable [.union [null, .name "a", .literal [.int 1, .int 2]]]) :=
    normalized_eq_ok_iff.mpr ⟨_, parsed, rfl⟩
  have shortened : standard.shorten " iter(1?|2|a)" = .ok short := by
    have text : shorthandText standard
        (.container .iterable [.union [null, .name "a", .literal [.int 1, .int 2]]]) =
          "iter ((a|lit[1,2])?)" := by
      decide +kernel
    have changed : ("iter ((a|lit[1,2])?)" != Text.trim " iter(1?|2|a)") = true := by
      decide +kernel
    rw [shorten_of_normalized normalized, text, changed]
  exact ⟨parsed, shortened, shorten_le_trim_add_surplus parsed shortened, by decide +kernel⟩

/-- A blank behind a keyword, a subscript around literals and parentheses in front of a
question mark each make a shorthand longer than its text. -/
theorem exists_longer_shorthand :
    (standard.shorten "iter[a]" = .ok ⟨"iter [a]", true⟩ ∧
      standard.shorten "1|2" = .ok ⟨"lit[1,2]", true⟩ ∧
      standard.shorten "a?|b" = .ok ⟨"(a|b)?", true⟩) ∧
    (Text.trim "iter[a]").utf8ByteSize < "iter [a]".utf8ByteSize ∧
      (Text.trim "1|2").utf8ByteSize < "lit[1,2]".utf8ByteSize ∧
      (Text.trim "a?|b").utf8ByteSize < "(a|b)?".utf8ByteSize := by
  have shorten : ∀ {source text : String} {raw tree : TypeExpr}, parse source = .ok raw →
      raw.normalize standard = .ok tree → tree.shorthandText standard = text →
        (text != Text.trim source) = true → standard.shorten source = .ok ⟨text, true⟩ := by
    rintro source _ raw tree parsed normalizes rfl changed
    rw [shorten_of_normalized (normalized_eq_ok_iff.mpr ⟨raw, parsed, normalizes⟩), changed]
  have keyword : parse "iter[a]" =
      .ok (.container .iterable [.container .sequence [.name "a"]]) := by
    decide +kernel
  have literals : parse "1|2" = .ok (.union [.literal [.int 1], .literal [.int 2]]) := by
    decide +kernel
  have optional : parse "a?|b" = .ok (.union [.optional (.name "a"), .name "b"]) := by
    decide +kernel
  refine ⟨⟨?_, ?_, ?_⟩, by decide +kernel⟩
  · exact shorten keyword rfl (by decide +kernel) (by decide +kernel)
  · exact shorten literals rfl (by decide +kernel) (by decide +kernel)
  · exact shorten optional rfl (by decide +kernel) (by decide +kernel)

end AliasTable

end TypeSpelling
