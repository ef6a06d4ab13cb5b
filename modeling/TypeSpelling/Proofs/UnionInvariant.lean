import TypeSpelling.Proofs.Distinction

/-!
# The members of canonical unions

A canonical union has two or more members, none of them a union, in strictly
ascending order and with at most one literal besides the null literal, unless
merging its literals gives a second null literal.  Repeated members are dropped
before literals are merged, so nothing drops that one.
-/

namespace TypeSpelling.TypeExpr

open TypeSpelling.Source

variable {table : AliasTable}

/-! ## The order of members -/

/-- The strict order of union members: by rank, then by canonical text. -/
def Before (left right : TypeExpr) : Prop :=
  left.rank < right.rank ∨ left.rank = right.rank ∧
    Text.textLe left.canonicalText right.canonicalText = true ∧
      left.canonicalText ≠ right.canonicalText

/-- What is promised of the members of a canonical union. -/
structure UnionInvariant (members : List TypeExpr) : Prop where
  several : 2 ≤ members.length
  flat : ∀ member ∈ members, member.isUnion = false
  distinct : members.Nodup
  ascending : members.Pairwise Before
  oneLiteral : (members.filterMap mergeable?).length ≤ 1

theorem before_iff {left right : TypeExpr}
    (leftNormal : NormalForm AliasTable.standard left) (leftWritable : Writable left)
    (rightNormal : NormalForm AliasTable.standard right) (rightWritable : Writable right) :
    Before left right ↔ precedes left right = true ∧ left ≠ right := by
  simp only [Before, precedes, Bool.or_eq_true, Bool.and_eq_true, decide_eq_true_eq]
  constructor
  · rintro (less | ⟨same, before, different⟩)
    · refine ⟨.inl less, ?_⟩
      rintro rfl
      exact Nat.lt_irrefl _ less
    · refine ⟨.inr ⟨same, before⟩, ?_⟩
      rintro rfl
      exact different rfl
  · rintro ⟨less | ⟨same, before⟩, different⟩
    · exact .inl less
    · refine .inr ⟨same, before, fun sameText => different ?_⟩
      exact eq_of_canonicalText_eq leftNormal leftWritable rightNormal rightWritable sameText

/-- Canonical members are in strictly ascending order exactly if none is
repeated. -/
theorem pairwise_before_iff {members : List TypeExpr}
    (normal : ∀ member ∈ members, NormalForm AliasTable.standard member)
    (writable : ∀ member ∈ members, Writable member)
    (ordered : members.Pairwise (precedes · · = true)) :
    members.Pairwise Before ↔ members.Nodup := by
  have step : ∀ left ∈ members, ∀ right ∈ members,
      Before left right ↔ precedes left right = true ∧ left ≠ right :=
    fun left leftMem right rightMem => before_iff (normal left leftMem) (writable left leftMem)
      (normal right rightMem) (writable right rightMem)
  constructor
  · intro ascending
    exact ascending.imp_of_mem fun leftMem rightMem before =>
      ((step _ leftMem _ rightMem).mp before).2
  · intro distinct
    exact (ordered.and distinct).imp_of_mem fun leftMem rightMem both =>
      (step _ leftMem _ rightMem).mpr both

/-! ## A second null literal -/

/-- The literals that a list of trees contributes to a union are merged, and into
a null literal beside the one that is there. -/
structure RepeatsNull (parts : List TypeExpr) : Prop where
  null : null ∈ flatMembersOf parts
  several : 2 ≤ ((flatMembersOf parts).eraseDups.filterMap mergeable?).length
  nothingElse : ∀ values, .literal values ∈ flatMembersOf parts → ∀ value ∈ values, value = .null

theorem eraseDups_eq_singleton_iff {α : Type} [BEq α] [LawfulBEq α] {items : List α} {only : α} :
    items.eraseDups = [only] ↔ items ≠ [] ∧ ∀ item ∈ items, item = only := by
  constructor
  · intro single
    refine ⟨?_, fun item mem => ?_⟩
    · rintro rfl
      cases single
    · rw [← List.mem_eraseDups, single] at mem
      exact List.mem_singleton.mp mem
  · rintro ⟨some, all⟩
    obtain ⟨first, rest, rfl⟩ := List.exists_cons_of_ne_nil some
    obtain ⟨rfl, allRest⟩ := List.forall_mem_cons.mp all
    have nothing : (rest.filter fun other => !other == first) = [] :=
      List.filter_eq_nil_iff.mpr fun other mem => by simp [allRest other mem]
    rw [List.eraseDups_cons, nothing, List.eraseDups_nil]

theorem nodup_eraseDups {α : Type} [BEq α] [LawfulBEq α] (items : List α) :
    items.eraseDups.Nodup := by
  induction length : items.length using Nat.strongRecOn generalizing items with
  | ind length ih =>
      cases items with
      | nil => exact List.nodup_nil
      | cons first rest =>
          rw [List.eraseDups_cons, List.nodup_cons]
          have shorter := List.length_filter_le (fun other => !other == first) rest
          rw [List.length_cons] at length
          refine ⟨fun mem => ?_, ih _ (by omega) _ rfl⟩
          simpa using (List.mem_filter.mp (List.mem_eraseDups.mp mem)).2

theorem sort_eq_singleton_iff {values : List LiteralValue} {only : LiteralValue} :
    LiteralValue.sort values = [only] ↔ values = [only] := by
  constructor
  · intro sorted
    have perm := Sorting.sort_perm LiteralValue.le values
    rw [show Sorting.sort LiteralValue.le values = [only] from sorted] at perm
    exact List.perm_singleton.mp perm.symm
  · rintro rfl
    rfl

/-- Literals merge into the null literal if they list nothing else. -/
theorem mergedLiteral_eq_null_iff {members : List TypeExpr}
    (writable : ∀ member ∈ members, Writable member)
    (several : 2 ≤ (members.filterMap mergeable?).length) :
    mergedLiteral members = null ↔
      ∀ values, .literal values ∈ members → ∀ value ∈ values, value = .null := by
  have some : (members.filterMap mergeable?).flatten ≠ [] := by
    intro empty
    cases writable_mergedLiteral writable several with
    | literal someValues =>
        rw [empty] at someValues
        exact someValues rfl
  rw [mergedLiteral, null, literal.injEq, sort_eq_singleton_iff, eraseDups_eq_singleton_iff]
  simp only [some, ne_eq, not_false_eq_true, true_and, List.mem_flatten, mem_literals_iff]
  constructor
  · intro all values mem value valueMem
    by_cases isNull : values = [.null]
    · rw [isNull] at valueMem
      exact List.mem_singleton.mp valueMem
    · exact all value ⟨values, ⟨mem, isNull⟩, valueMem⟩
  · rintro all value ⟨values, ⟨mem, -⟩, valueMem⟩
    exact all values mem value valueMem

theorem mergeable?_literal_eq_none_iff {values : List LiteralValue} :
    mergeable? (.literal values) = none ↔ literal values = null := by
  simp [mergeable?, null]

/-- Merging repeats a member exactly if it gives a second null literal. -/
theorem nodup_mergedMembers_iff {parts : List TypeExpr}
    (writable : ∀ part ∈ parts, Writable part) :
    (mergedMembers parts).Nodup ↔ ¬ RepeatsNull parts := by
  have flat : ∀ member ∈ (flatMembersOf parts).eraseDups, Writable member := fun member mem =>
    writable_of_mem_flatMembersOf writable member (List.mem_eraseDups.mp mem)
  have distinct := nodup_eraseDups (flatMembersOf parts)
  unfold mergedMembers
  by_cases few : ((flatMembersOf parts).eraseDups.filterMap mergeable?).length < 2
  · rw [mergeLiterals_eq_self few]
    exact iff_of_true distinct fun repeats => absurd repeats.several (Nat.not_le.mpr few)
  · have several := Nat.not_lt.mp few
    have isNull := mergedLiteral_eq_null_iff flat several
    simp only [List.mem_eraseDups] at isNull
    have unmerged : ((flatMembersOf parts).eraseDups.filter fun member =>
        (mergeable? member).isNone).Nodup := List.Pairwise.filter _ distinct
    rw [mergeLiterals_eq_cons several, List.nodup_cons, mem_unmerged_iff, List.mem_eraseDups,
      and_iff_left unmerged, not_iff_not]
    constructor
    · rintro ⟨mem, kept⟩
      have same := mergeable?_literal_eq_none_iff.mp kept
      change mergedLiteral (flatMembersOf parts).eraseDups = null at same
      exact ⟨same ▸ mem, several, isNull.mp same⟩
    · intro repeats
      rw [isNull.mpr repeats.nothingElse]
      exact ⟨repeats.null, rfl⟩

theorem two_le_count_null {parts : List TypeExpr} (writable : ∀ part ∈ parts, Writable part)
    (repeats : RepeatsNull parts) : 2 ≤ (mergedMembers parts).count null := by
  have flat : ∀ member ∈ (flatMembersOf parts).eraseDups, Writable member := fun member mem =>
    writable_of_mem_flatMembersOf writable member (List.mem_eraseDups.mp mem)
  have isNull := mergedLiteral_eq_null_iff flat repeats.several
  simp only [List.mem_eraseDups] at isNull
  rw [mergedMembers, mergeLiterals_eq_cons repeats.several, isNull.mpr repeats.nothingElse,
    List.count_cons_self]
  have kept := mem_unmerged_iff.mpr ⟨List.mem_eraseDups.mpr repeats.null, rfl⟩
  exact Nat.succ_le_succ (List.count_pos_iff.mpr kept)

/-! ## Where unions come from -/

/-- A node builds a union of canonical parts. -/
inductive BuildsUnion (table : AliasTable) : TypeExpr → List TypeExpr → Prop where
  | union {members parts : List TypeExpr}
      (arguments : List.Forall₂ (ArgumentNormal table) members parts) :
      BuildsUnion table (.union members) parts
  | optional {inner part : TypeExpr} (argument : inner.normalize table = .ok part) :
      BuildsUnion table (.optional inner) [null, part]
  | unionForm {base : String} {args parts : List TypeExpr} {entry : Entry}
      (resolved : table.resolve? base = some entry) (form : entry.form = .union)
      (arguments : List.Forall₂ (ArgumentNormal table) args parts) :
      BuildsUnion table (.generic base args) parts
  | optionalForm {base : String} {args parts : List TypeExpr} {entry : Entry}
      (resolved : table.resolve? base = some entry) (form : entry.form = .optional)
      (arguments : List.Forall₂ (ArgumentNormal table) args parts) :
      BuildsUnion table (.generic base args) (null :: parts)

theorem mem_preorder_of_mem_flatMembers (tree : TypeExpr) :
    ∀ member ∈ tree.flatMembers, member ∈ tree.preorder := by
  induction tree using inductionOnChildren with
  | step tree ih =>
      intro member mem
      cases isUnion : tree.isUnion with
      | false =>
          rw [flatMembers_eq_singleton isUnion, List.mem_singleton] at mem
          rw [mem]
          exact mem_preorder_self tree
      | true =>
          cases tree with
          | union members =>
              obtain ⟨part, partMem, inside⟩ := mem_flatMembersOf.mp mem
              exact mem_preorder_of_child partMem (ih part partMem member inside)
          | _ => cases isUnion

/-- A union inside a member was inside a part that contributes the member. -/
theorem exists_part_of_mem_mergedMembers {parts members : List TypeExpr} {member : TypeExpr}
    (mem : member ∈ mergedMembers parts) (inside : .union members ∈ member.preorder) :
    ∃ part ∈ parts, .union members ∈ part.preorder := by
  rcases mem_mergedMembers mem with contributed | ⟨values, rfl⟩
  · obtain ⟨part, partMem, flat⟩ := mem_flatMembersOf.mp contributed
    exact ⟨part, partMem,
      mem_preorder_trans part (mem_preorder_of_mem_flatMembers part member flat) inside⟩
  · simp [preorder] at inside

/-- A union inside the union of some parts is that union or inside a part. -/
theorem unionOf_eq_or_exists_part {parts members : List TypeExpr}
    (inside : .union members ∈ (unionOf parts).preorder) :
    unionOf parts = .union members ∨ ∃ part ∈ parts, .union members ∈ part.preorder := by
  rcases unionOf_cases parts with single | ⟨-, several⟩
  · exact .inr (exists_part_of_mem_mergedMembers (single ▸ List.mem_singleton_self _) inside)
  · rcases eq_or_exists_child_of_mem_preorder inside with same | ⟨member, mem, below⟩
    · exact .inl same.symm
    · rw [several] at mem
      exact .inr (exists_part_of_mem_mergedMembers (Sorting.mem_sort.mp mem) below)

/-- Every union of a canonical form is built by a node of the raw tree. -/
theorem exists_builder (raw : TypeExpr) : ∀ tree, raw.normalize table = .ok tree →
    ∀ members, .union members ∈ tree.preorder →
      ∃ builder ∈ raw.preorder, ∃ parts, BuildsUnion table builder parts ∧
        unionOf parts = .union members := by
  induction raw using inductionOnChildren with
  | step raw ih =>
      intro tree success members inside
      have below : ∀ {normals : List TypeExpr},
          List.Forall₂ (ArgumentNormal table) raw.children normals →
          (∃ normal ∈ normals, .union members ∈ normal.preorder) →
            ∃ builder ∈ raw.preorder, ∃ parts, BuildsUnion table builder parts ∧
              unionOf parts = .union members := by
        rintro normals arguments ⟨normal, mem, inside⟩
        obtain ⟨child, childMem, ⟨-, rfl⟩ | ⟨-, success⟩⟩ := exists_argument_of_mem arguments mem
        · simp [preorder] at inside
        · obtain ⟨builder, builderMem, parts, builds⟩ :=
            ih child childMem normal success members inside
          exact ⟨builder, mem_preorder_of_child childMem builderMem, parts, builds⟩
      have here : ∀ {parts : List TypeExpr}, BuildsUnion table raw parts →
          unionOf parts = .union members →
            ∃ builder ∈ raw.preorder, ∃ parts, BuildsUnion table builder parts ∧
              unionOf parts = .union members :=
        fun builds whole => ⟨raw, mem_preorder_self raw, _, builds, whole⟩
      have shaped : ∀ {tree : TypeExpr}, .union members ∈ tree.preorder → tree.isUnion = false →
          List.Forall₂ (ArgumentNormal table) raw.children tree.children →
            ∃ builder ∈ raw.preorder, ∃ parts, BuildsUnion table builder parts ∧
              unionOf parts = .union members := by
        intro tree inside notUnion arguments
        rcases eq_or_exists_child_of_mem_preorder inside with rfl | inChild
        · cases notUnion
        · exact below arguments inChild
      -- The null literal of an optional has no union in it.
      have inPart : ∀ {normals : List TypeExpr},
          (∃ part ∈ null :: normals, .union members ∈ part.preorder) →
            ∃ normal ∈ normals, .union members ∈ normal.preorder := by
        rintro normals ⟨part, mem, inside⟩
        rcases List.mem_cons.mp mem with rfl | mem
        · simp [null, preorder] at inside
        · exact ⟨part, mem, inside⟩
      cases normalize_eq_ok_iff.mp success with
      | name path =>
          unfold resolveName at inside
          split at inside
          · simp [preorder] at inside
          · split at inside <;> simp [preorder] at inside
      | wildcard => simp [preorder] at inside
      | unknown resolved guarded arguments => exact shaped inside rfl arguments
      | known resolved guarded arguments accepted applied =>
          cases applied with
          | plain | container | tuple => exact shaped inside rfl arguments
          | wildcard | literal => simp [preorder] at inside
          | union form =>
              rcases unionOf_eq_or_exists_part inside with whole | part
              · exact here (.unionForm resolved form arguments) whole
              · exact below arguments part
          | optional form =>
              rcases unionOf_eq_or_exists_part inside with whole | part
              · exact here (.optionalForm resolved form arguments) whole
              · exact below arguments (inPart part)
      | container guarded arguments exact => exact shaped inside rfl arguments
      | tuple guarded arguments => exact shaped inside rfl arguments
      | union guarded arguments =>
          rcases unionOf_eq_or_exists_part inside with whole | part
          · exact here (.union arguments) whole
          · exact below arguments part
      | optional guarded argument =>
          rcases unionOf_eq_or_exists_part inside with whole | part
          · exact here (.optional argument) whole
          · exact below (.cons (.inr ⟨guarded, argument⟩) .nil) (inPart part)
      | literal values => simp [preorder] at inside

theorem writable_of_buildsUnion {builder : TypeExpr} {parts : List TypeExpr}
    (builds : BuildsUnion AliasTable.standard builder parts) (writable : Writable builder) :
    ∀ part ∈ parts, Writable part := by
  have keeps : ∀ child ∈ builder.children, ∀ tree,
      child.normalize AliasTable.standard = .ok tree → Writable tree :=
    fun child mem tree => writable_of_normalize child tree (writable.child child mem)
  cases builds with
  | union arguments => exact writable_of_arguments keeps arguments
  | optional argument =>
      exact List.forall_mem_cons.mpr ⟨writable_null,
        List.forall_mem_singleton.mpr (keeps _ (List.mem_singleton_self _) _ argument)⟩
  | unionForm _ _ arguments => exact writable_of_arguments keeps arguments
  | optionalForm _ _ arguments =>
      exact List.forall_mem_cons.mpr ⟨writable_null, writable_of_arguments keeps arguments⟩

/-! ## The invariant -/

/-- Every union of the canonical tree of a text has two or more members, none of
them a union, in order and with one literal besides the null literal at most.  A
node of the raw tree builds it of canonical parts, and it keeps the whole
invariant exactly if the literals of the parts do not merge into a second null
literal, that is if the null literal is a member once at most. -/
theorem unionInvariant_iff {source : String} {limit : Nat} {raw tree : TypeExpr}
    (parsed : parseWithin limit source = .ok raw)
    (normalized : raw.normalize AliasTable.standard = .ok tree) {members : List TypeExpr}
    (node : .union members ∈ tree.preorder) :
    (2 ≤ members.length ∧ (∀ member ∈ members, member.isUnion = false) ∧
        members.Pairwise (precedes · · = true) ∧ (members.filterMap mergeable?).length ≤ 1) ∧
      (UnionInvariant members ↔ members.count null ≤ 1) ∧
      ∃ builder ∈ raw.preorder, ∃ parts, BuildsUnion AliasTable.standard builder parts ∧
        unionOf parts = .union members ∧ (UnionInvariant members ↔ ¬ RepeatsNull parts) := by
  have rawWritable := writable_of_parseWithin parsed
  obtain ⟨builder, builderMem, parts, builds, whole⟩ :=
    exists_builder raw tree normalized members node
  have partsWritable :=
    writable_of_buildsUnion builds (rawWritable.of_mem_preorder builder builderMem)
  have normal := (normalForm_of_normalize coherent_standard raw tree normalized).of_mem_preorder
    _ node (by simp)
  have writable := (writable_of_normalize raw tree rawWritable normalized).of_mem_preorder _ node
  have perm : members.Perm (mergedMembers parts) := by
    have flat := flatMembers_unionOf_perm parts
    cases normal with
    | union canonical forms =>
        rwa [whole, flatMembers, flatMembersOf_eq_self canonical.flat] at flat
  have once : members.Nodup ↔ ¬ RepeatsNull parts := by
    rw [perm.nodup_iff, nodup_mergedMembers_iff partsWritable]
  have count : members.Nodup ↔ members.count null ≤ 1 := by
    refine ⟨fun distinct => List.nodup_iff_count.mp distinct null, fun atMostOne => ?_⟩
    apply once.mpr
    intro repeats
    have twice := two_le_count_null partsWritable repeats
    rw [← perm.count_eq] at twice
    omega
  cases normal with
  | union canonical forms =>
      cases writable with
      | union some all =>
          have positive := List.length_pos_iff.mpr some
          have notSingle := canonical.several
          have several : 2 ≤ members.length := by omega
          have oneLiteral := Nat.lt_succ_iff.mp canonical.oneLiteral
          have invariant : UnionInvariant members ↔ members.Nodup := by
            refine ⟨UnionInvariant.distinct, fun distinct => ?_⟩
            exact ⟨several, canonical.flat, distinct,
              (pairwise_before_iff forms all canonical.ordered).mpr distinct, oneLiteral⟩
          exact ⟨⟨several, canonical.flat, canonical.ordered, oneLiteral⟩, invariant.trans count,
            builder, builderMem, parts, builds, whole, invariant.trans once⟩

/-- The union of a name, the null literal and two numbers keeps the invariant. -/
theorem unionInvariant_iff_of_numbers :
    parseWithin 1 "int|lit[2,1]|null|3" =
        .ok (.union [.name "int", .generic "lit" [.literal [.int 2], .literal [.int 1]], null,
          .literal [.int 3]]) ∧
      (TypeExpr.union [.name "int", .generic "lit" [.literal [.int 2], .literal [.int 1]], null,
          .literal [.int 3]]).normalize AliasTable.standard =
        .ok (.union [null, .name "int", .literal [.int 1, .int 2, .int 3]]) ∧
      UnionInvariant [null, .name "int", .literal [.int 1, .int 2, .int 3]] := by
  have parsed : parseWithin 1 "int|lit[2,1]|null|3" =
      .ok (.union [.name "int", .generic "lit" [.literal [.int 2], .literal [.int 1]], null,
        .literal [.int 3]]) := by
    decide +kernel
  exact ⟨parsed, rfl, (unionInvariant_iff parsed rfl (mem_preorder_self _)).2.1.mpr (by decide)⟩

/-- Two literals of repeated nulls beside the null literal break the invariant:
they are merged into a null literal after repeated members have been dropped. -/
theorem exists_union_without_invariant :
    ∃ (source : String) (limit : Nat) (raw tree : TypeExpr) (members : List TypeExpr),
      parseWithin limit source = .ok raw ∧ raw.normalize AliasTable.standard = .ok tree ∧
        .union members ∈ tree.preorder ∧ ¬ UnionInvariant members := by
  refine ⟨"null|lit[null,null]|lit[null,null,null]", 1,
    .union [null, .generic "lit" [null, null], .generic "lit" [null, null, null]],
    .union [null, null], [null, null], by decide +kernel, rfl, mem_preorder_self _, ?_⟩
  intro invariant
  exact absurd invariant.distinct (by decide)

end TypeSpelling.TypeExpr
