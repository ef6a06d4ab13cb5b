import Mathlib.Data.List.Nodup
import Mathlib.Data.List.Perm.Subperm
import TypeSpelling.Proofs.Reordering

/-!
# Unions in unions

Members of a union that are put together in a union of their own are merged
twice, among themselves and again with the others.  The canonical form is the
same as without the group, unless the literals of the group list nothing but null
and are merged: the null literal that stands for them is not merged with the other
literals any more.
-/

namespace TypeSpelling.TypeExpr

open TypeSpelling.Source
open AliasTable (standard)

/-! ## What merging depends on -/

theorem nodup_literals {members : List TypeExpr} (distinct : members.Nodup) :
    (members.filterMap mergeable?).Nodup := by
  refine distinct.filterMap fun first second values found otherFound => ?_
  rw [Option.mem_def, mergeable?_eq_some_iff] at found otherFound
  exact found.1.trans otherFound.1.symm

/-- Among more members as many literals are merged. -/
theorem length_literals_le {members others : List TypeExpr} (subset : members ⊆ others) :
    (members.eraseDups.filterMap mergeable?).length ≤
      (others.eraseDups.filterMap mergeable?).length := by
  refine ((nodup_literals (nodup_eraseDups members)).subperm fun values listed => ?_).length_le
  rw [mem_literals_iff, List.mem_eraseDups] at listed ⊢
  exact listed.imp_left fun mem => subset mem

/-- Merged literals list what the members list. -/
theorem mem_mergedLiteral {members : List TypeExpr} {values : List LiteralValue}
    (merged : mergedLiteral members = .literal values) (value : LiteralValue) :
    value ∈ values ↔ Lists members value := by
  cases merged
  rw [LiteralValue.sort, Sorting.mem_sort, List.mem_eraseDups, mem_flatten_literals_iff]

theorem lists_eraseDups (members : List TypeExpr) {value : LiteralValue} :
    Lists members.eraseDups value ↔ Lists members value := by
  simp only [Lists, List.mem_eraseDups]

/-- A single literal to merge stands for itself. -/
theorem perm_cons_unmerged {members : List TypeExpr} {values : List LiteralValue}
    (distinct : members.Nodup) (single : members.filterMap mergeable? = [values]) :
    members.Perm
      (.literal values :: members.filter fun member => (mergeable? member).isNone) := by
  obtain ⟨mem, notNull⟩ := mem_literals_iff.mp (single ▸ List.mem_singleton_self values)
  have apart : .literal values ∉ members.filter fun member => (mergeable? member).isNone := by
    rw [mem_unmerged_iff, mergeable?_eq_some_iff.mpr ⟨rfl, notNull⟩]
    rintro ⟨-, ⟨⟩⟩
  rw [List.perm_ext_iff_of_nodup distinct
    (List.nodup_cons.mpr ⟨apart, List.Pairwise.filter _ distinct⟩)]
  intro member
  rw [List.mem_cons, mem_unmerged_iff]
  constructor
  · intro inside
    cases found : mergeable? member with
    | none => exact .inr ⟨inside, rfl⟩
    | some other =>
        obtain ⟨rfl, otherNotNull⟩ := mergeable?_eq_some_iff.mp found
        have listed := mem_literals_iff.mpr ⟨inside, otherNotNull⟩
        rw [single, List.mem_singleton] at listed
        exact .inl (congrArg _ listed)
  · rintro (rfl | ⟨inside, -⟩)
    · exact mem
    · exact inside

/-- A merged literal among the members is merged with itself where it is the only
literal to merge. -/
theorem mergeLiterals_perm_cons {members group : List TypeExpr} (distinct : members.Nodup)
    (mem : mergedLiteral group ∈ members) (notNull : mergedLiteral group ≠ null) :
    (mergeLiterals members).Perm
      (mergedLiteral members :: members.filter fun member => (mergeable? member).isNone) := by
  by_cases few : (members.filterMap mergeable?).length < 2
  · obtain ⟨values, merged⟩ : ∃ values, mergedLiteral group = .literal values := ⟨_, rfl⟩
    rw [merged] at mem notNull
    have listed : values ∈ members.filterMap mergeable? :=
      mem_literals_iff.mpr ⟨mem, mt (congrArg literal) notNull⟩
    have positive := List.length_pos_of_mem listed
    obtain ⟨only, single⟩ := List.length_eq_one_iff.mp
      (Nat.le_antisymm (Nat.le_of_lt_succ few) positive)
    rw [single, List.mem_singleton] at listed
    subst listed
    have sameLiteral : mergedLiteral members = .literal values := by
      rw [← merged]
      refine mergedLiteral_congr fun value => ?_
      rw [← mem_mergedLiteral merged, ← mem_flatten_literals_iff, single]
      simp
    rw [mergeLiterals_eq_self few, sameLiteral]
    exact perm_cons_unmerged distinct single
  · rw [mergeLiterals_eq_cons (Nat.not_lt.mp few)]

/-! ## A group of members -/

/-- The literals that a list of trees contributes to a union are merged, and list
nothing but null. -/
structure MergesToNull (parts : List TypeExpr) : Prop where
  several : 2 ≤ ((flatMembersOf parts).eraseDups.filterMap mergeable?).length
  nothingElse : ∀ values, .literal values ∈ flatMembersOf parts → ∀ value ∈ values, value = .null

theorem mergesToNull_iff {parts : List TypeExpr} (writable : ∀ part ∈ parts, Writable part) :
    MergesToNull parts ↔
      2 ≤ ((flatMembersOf parts).eraseDups.filterMap mergeable?).length ∧
        mergedLiteral (flatMembersOf parts).eraseDups = null := by
  have flat : ∀ member ∈ (flatMembersOf parts).eraseDups, Writable member := fun member mem =>
    writable_of_mem_flatMembersOf writable member (List.mem_eraseDups.mp mem)
  constructor
  · rintro ⟨several, nothingElse⟩
    refine ⟨several, (mergedLiteral_eq_null_iff flat several).mpr ?_⟩
    simpa only [List.mem_eraseDups] using nothingElse
  · rintro ⟨several, isNull⟩
    have nothingElse := (mergedLiteral_eq_null_iff flat several).mp isNull
    simp only [List.mem_eraseDups] at nothingElse
    exact ⟨several, nothingElse⟩

section Group

variable {before group after : List TypeExpr}

theorem mem_flatMembersOf_append {member : TypeExpr} {parts others : List TypeExpr} :
    member ∈ flatMembersOf (parts ++ others) ↔
      member ∈ flatMembersOf parts ∨ member ∈ flatMembersOf others := by
  simp only [mem_flatMembersOf, List.mem_append, or_and_right, exists_or]

theorem lists_flatMembersOf_append {value : LiteralValue} {parts others : List TypeExpr} :
    Lists (flatMembersOf (parts ++ others)) value ↔
      Lists (flatMembersOf parts) value ∨ Lists (flatMembersOf others) value := by
  simp only [Lists, mem_flatMembersOf_append, or_and_right, exists_or]

/-- A group contributes what is left of it after merging. -/
theorem mem_flatMembersOf_group {member : TypeExpr} :
    member ∈ flatMembersOf (before ++ unionOf group :: after) ↔
      member ∈ flatMembersOf before ∨ member ∈ mergedMembers group ∨
        member ∈ flatMembersOf after := by
  rw [mem_flatMembersOf_append, flatMembersOf, List.mem_append,
    (flatMembers_unionOf_perm group).mem_iff]

theorem lists_flatMembersOf_group {value : LiteralValue} :
    Lists (flatMembersOf (before ++ unionOf group :: after)) value ↔
      Lists (flatMembersOf before) value ∨ Lists (mergedMembers group) value ∨
        Lists (flatMembersOf after) value := by
  simp only [Lists, mem_flatMembersOf_group, or_and_right, exists_or]

section Merged

variable (several : 2 ≤ ((flatMembersOf group).eraseDups.filterMap mergeable?).length)
  (notNull : mergedLiteral (flatMembersOf group).eraseDups ≠ null)

include several notNull

/-- Merging keeps the values. -/
theorem lists_mergedMembers_iff (value : LiteralValue) :
    Lists (mergedMembers group) value ↔ Lists (flatMembersOf group) value := by
  obtain ⟨values, merged⟩ :
    ∃ values, mergedLiteral (flatMembersOf group).eraseDups = .literal values := ⟨_, rfl⟩
  rw [← lists_eraseDups (flatMembersOf group), ← mem_mergedLiteral merged, mergedMembers,
    mergeLiterals_eq_cons several, merged]
  constructor
  · rintro ⟨others, mem, othersNotNull, inside⟩
    rcases List.mem_cons.mp mem with same | kept
    · cases same
      exact inside
    · rw [mem_unmerged_iff, mergeable?_eq_some_iff.mpr ⟨rfl, othersNotNull⟩] at kept
      cases kept.2
  · intro inside
    exact ⟨values, List.mem_cons_self .., mt (congrArg literal) (merged ▸ notNull), inside⟩

/-- Merging keeps what is not merged. -/
theorem mem_mergedMembers_iff {member : TypeExpr} (unmerged : mergeable? member = none) :
    member ∈ mergedMembers group ↔ member ∈ flatMembersOf group := by
  rw [mergedMembers, mergeLiterals_eq_cons several, List.mem_cons, mem_unmerged_iff,
    List.mem_eraseDups, and_iff_left unmerged, or_iff_right_iff_imp]
  rintro rfl
  exact absurd (mergeable?_literal_eq_none_iff.mp unmerged) notNull

end Merged

/-- Merging a group first makes no difference, unless its literals merge into the
null literal. -/
theorem mergedMembers_group_perm
    (keeps : 2 ≤ ((flatMembersOf group).eraseDups.filterMap mergeable?).length →
      mergedLiteral (flatMembersOf group).eraseDups ≠ null) :
    (mergedMembers (before ++ unionOf group :: after)).Perm
      (mergedMembers (before ++ group ++ after)) := by
  by_cases few : ((flatMembersOf group).eraseDups.filterMap mergeable?).length < 2
  · refine mergedMembers_perm fun member => ?_
    rw [mem_flatMembersOf_group, mem_flatMembersOf_append, mem_flatMembersOf_append, or_assoc,
      mergedMembers, mergeLiterals_eq_self few, List.mem_eraseDups]
  · have several := Nat.not_lt.mp few
    have notNull := keeps several
    have allSeveral : 2 ≤ ((flatMembersOf (before ++ group ++ after)).eraseDups.filterMap
        mergeable?).length := by
      refine Nat.le_trans several (length_literals_le fun member mem => ?_)
      rw [mem_flatMembersOf_append, mem_flatMembersOf_append]
      exact .inl (.inr mem)
    have groupMem : mergedLiteral (flatMembersOf group).eraseDups ∈
        (flatMembersOf (before ++ unionOf group :: after)).eraseDups := by
      rw [List.mem_eraseDups, mem_flatMembersOf_group, mergedMembers, mergeLiterals_eq_cons several]
      exact .inr (.inl (List.mem_cons_self ..))
    have sameLiteral : mergedLiteral (flatMembersOf (before ++ unionOf group :: after)).eraseDups =
        mergedLiteral (flatMembersOf (before ++ group ++ after)).eraseDups := by
      refine mergedLiteral_congr fun value => ?_
      rw [lists_eraseDups, lists_eraseDups, lists_flatMembersOf_group,
        lists_mergedMembers_iff several notNull value, lists_flatMembersOf_append,
        lists_flatMembersOf_append, or_assoc]
    refine (mergeLiterals_perm_cons (nodup_eraseDups _) groupMem notNull).trans ?_
    rw [mergedMembers, mergeLiterals_eq_cons allSeveral, sameLiteral]
    refine .cons _ ?_
    rw [List.perm_ext_iff_of_nodup (List.Pairwise.filter _ (nodup_eraseDups _))
      (List.Pairwise.filter _ (nodup_eraseDups _))]
    intro member
    rw [mem_unmerged_iff, mem_unmerged_iff, List.mem_eraseDups, List.mem_eraseDups]
    refine and_congr_left fun unmerged => ?_
    rw [mem_flatMembersOf_group, mem_flatMembersOf_append, mem_flatMembersOf_append, or_assoc,
      mem_mergedMembers_iff several notNull unmerged]

/-- A group of canonical parts can be made of a union without changing it, unless
its literals merge into the null literal. -/
theorem unionOf_group
    (normal : ∀ part ∈ before ++ group ++ after, NormalForm standard part)
    (writable : ∀ part ∈ before ++ group ++ after, Writable part)
    (keeps : ¬ MergesToNull group) :
    unionOf (before ++ unionOf group :: after) = unionOf (before ++ group ++ after) := by
  have groupWritable : ∀ part ∈ group, Writable part :=
    fun part mem => writable part (by simp [mem])
  exact (unionOf_eq_of_mergedMembers_perm normal writable (mergedMembers_group_perm
    fun several isNull => keeps ((mergesToNull_iff groupWritable).mpr ⟨several, isNull⟩)).symm).symm

/-- Nothing is left to merge beside the null literal that a group merges to. -/
theorem few_literals_null_group (writable : ∀ part ∈ group, Writable part)
    (mergesToNull : MergesToNull group) :
    ((flatMembersOf ([null] ++ unionOf group :: [])).eraseDups.filterMap mergeable?).length < 2 := by
  obtain ⟨several, isNull⟩ := (mergesToNull_iff writable).mp mergesToNull
  suffices nothing :
      (flatMembersOf ([null] ++ unionOf group :: [])).eraseDups.filterMap mergeable? = [] by
    rw [nothing]
    exact Nat.two_pos
  refine List.eq_nil_iff_forall_not_mem.mpr fun values listed => ?_
  obtain ⟨mem, notNull⟩ := mem_literals_iff.mp listed
  rw [List.mem_eraseDups, mem_flatMembersOf_group, mergedMembers, mergeLiterals_eq_cons several,
    isNull, List.mem_cons, mem_unmerged_iff] at mem
  rcases mem with same | (same | ⟨-, kept⟩) | nothing
  · exact notNull (literal.inj (List.mem_singleton.mp same))
  · exact notNull (literal.inj same)
  · rw [mergeable?_eq_some_iff.mpr ⟨rfl, notNull⟩] at kept
    cases kept
  · cases nothing

/-- Such a group beside the null literal leaves one null literal, and its members
without the group leave two. -/
theorem unionOf_null_group_ne (writable : ∀ part ∈ group, Writable part)
    (mergesToNull : MergesToNull group) :
    unionOf ([null] ++ unionOf group :: []) ≠ unionOf ([null] ++ group ++ []) := by
  intro same
  have perm := (flatMembers_unionOf_perm ([null] ++ group ++ [])).symm.trans
    (same ▸ flatMembers_unionOf_perm ([null] ++ unionOf group :: []))
  have distinct : (mergedMembers ([null] ++ unionOf group :: [])).Nodup := by
    rw [mergedMembers, mergeLiterals_eq_self (few_literals_null_group writable mergesToNull)]
    exact nodup_eraseDups _
  have repeats : RepeatsNull ([null] ++ group ++ []) := by
    rw [List.append_nil, List.singleton_append]
    refine ⟨List.mem_cons_self .., ?_, fun values mem => ?_⟩
    · exact Nat.le_trans mergesToNull.several (length_literals_le (List.subset_cons_self _ _))
    · rcases List.mem_cons.mp mem with isNull | mem
      · cases isNull
        exact List.forall_mem_singleton.mpr rfl
      · exact mergesToNull.nothingElse values mem
  refine (nodup_mergedMembers_iff ?_).mp (perm.nodup_iff.mpr distinct) repeats
  rw [List.append_nil, List.singleton_append]
  exact List.forall_mem_cons.mpr ⟨writable_null, writable⟩

end Group

/-! ## Grouped texts -/

variable {table : AliasTable} {before group after : List TypeExpr}

theorem exists_append_of_forall₂ {α β : Type} {related : α → β → Prop} {first second : List α}
    {items : List β} (all : List.Forall₂ related (first ++ second) items) :
    ∃ firstItems secondItems, items = firstItems ++ secondItems ∧
      List.Forall₂ related first firstItems ∧ List.Forall₂ related second secondItems := by
  have taken := List.forall₂_take first.length all
  have dropped := List.forall₂_drop first.length all
  rw [List.take_left] at taken
  rw [List.drop_left] at dropped
  exact ⟨_, _, (List.take_append_drop first.length items).symm, taken, dropped⟩

/-- A group is normalized before the union that it is a member of. -/
theorem normalize_grouped {beforeParts groupParts afterParts : List TypeExpr}
    (guarded : .ellipsis ∉ before ++ group ++ after)
    (beforeArguments : List.Forall₂ (ArgumentNormal table) before beforeParts)
    (groupArguments : List.Forall₂ (ArgumentNormal table) group groupParts)
    (afterArguments : List.Forall₂ (ArgumentNormal table) after afterParts) :
    (union (before ++ union group :: after)).normalize table =
      .ok (unionOf (beforeParts ++ unionOf groupParts :: afterParts)) := by
  simp only [List.mem_append, not_or] at guarded
  obtain ⟨⟨beforeGuarded, groupGuarded⟩, afterGuarded⟩ := guarded
  have inner : (union group).normalize table = .ok (unionOf groupParts) :=
    normalize_union_iff.mpr ⟨groupGuarded, _, groupArguments, rfl⟩
  have argument : ArgumentNormal table (union group) (unionOf groupParts) :=
    .inr ⟨TypeExpr.noConfusion, inner⟩
  refine normalize_union_iff.mpr
    ⟨?_, _, List.rel_append beforeArguments (.cons argument afterArguments), rfl⟩
  simp [beforeGuarded, afterGuarded]

/-- A group whose literals do not merge into the null literal changes nothing. -/
theorem normalize_grouped_of_keeps {tree : TypeExpr}
    (writable : ∀ member ∈ before ++ group ++ after, Writable member)
    (keeps : ∀ parts, List.Forall₂ (ArgumentNormal standard) group parts → ¬ MergesToNull parts)
    (plain : (union (before ++ group ++ after)).normalize standard = .ok tree) :
    (union (before ++ union group :: after)).normalize standard = .ok tree := by
  obtain ⟨guarded, parts, arguments, rfl⟩ := normalize_union_iff.mp plain
  obtain ⟨normal, partsWritable⟩ := canonical_of_arguments writable guarded arguments
  obtain ⟨front, afterParts, rfl, frontArguments, afterArguments⟩ :=
    exists_append_of_forall₂ arguments
  obtain ⟨beforeParts, groupParts, rfl, beforeArguments, groupArguments⟩ :=
    exists_append_of_forall₂ frontArguments
  rw [normalize_grouped guarded beforeArguments groupArguments afterArguments,
    unionOf_group normal partsWritable (keeps groupParts groupArguments)]

/-- A group whose literals do changes the canonical form beside the null literal. -/
theorem normalize_null_group_ne {parts : List TypeExpr}
    (writable : ∀ member ∈ group, Writable member) (guarded : .ellipsis ∉ group)
    (arguments : List.Forall₂ (ArgumentNormal standard) group parts)
    (mergesToNull : MergesToNull parts) :
    ∃ tree, (union ([null] ++ group ++ [])).normalize standard = .ok tree ∧
      (union ([null] ++ union group :: [])).normalize standard ≠ .ok tree := by
  have nullArgument : List.Forall₂ (ArgumentNormal standard) [null] [null] :=
    .cons (.inr ⟨TypeExpr.noConfusion, rfl⟩) .nil
  have allGuarded : .ellipsis ∉ [null] ++ group ++ [] := by
    simpa [null] using guarded
  have plain := normalize_union_iff.mpr ⟨allGuarded, _,
    List.rel_append (List.rel_append nullArgument arguments) .nil, rfl⟩
  refine ⟨_, plain, fun grouped => ?_⟩
  rw [normalize_grouped allGuarded nullArgument arguments .nil] at grouped
  exact unionOf_null_group_ne (canonical_of_arguments writable guarded arguments).2 mergesToNull
    (Except.ok.inj grouped)

/-- Putting members of a union together in a union of their own never changes a
canonical form, whatever the other members are, exactly if the literals of the
group do not merge into the null literal. -/
theorem normalize_grouped_iff
    (parsed : ∀ member ∈ group, ∃ source, parse source = .ok member) :
    (∀ before after tree,
        (∀ member ∈ before ++ after, ∃ source, parse source = .ok member) →
          (union (before ++ group ++ after)).normalize standard = .ok tree →
            (union (before ++ union group :: after)).normalize standard = .ok tree) ↔
      ¬ ∃ parts, .ellipsis ∉ group ∧
        List.Forall₂ (ArgumentNormal standard) group parts ∧ MergesToNull parts := by
  have writable : ∀ {members : List TypeExpr},
      (∀ member ∈ members, ∃ source, parse source = .ok member) →
        ∀ member ∈ members, Writable member := by
    intro members all member mem
    obtain ⟨source, success⟩ := all member mem
    exact writable_of_parseWithin success
  constructor
  · rintro harmless ⟨parts, guarded, arguments, mergesToNull⟩
    obtain ⟨tree, plain, changed⟩ :=
      normalize_null_group_ne (writable parsed) guarded arguments mergesToNull
    have nullParsed : parse "null" = .ok null := by decide +kernel
    exact changed (harmless [null] [] tree
      (List.forall_mem_singleton.mpr ⟨"null", nullParsed⟩) plain)
  · intro keeps before after tree othersParsed plain
    have guarded := (normalize_union_iff.mp plain).1
    rw [List.forall_mem_append] at othersParsed
    have allParsed : ∀ member ∈ before ++ group ++ after,
        ∃ source, parse source = .ok member := by
      rw [List.forall_mem_append, List.forall_mem_append]
      exact ⟨⟨othersParsed.1, parsed⟩, othersParsed.2⟩
    refine normalize_grouped_of_keeps (writable allParsed) (fun parts arguments mergesToNull =>
      keeps ⟨parts, fun mem => guarded ?_, arguments, mergesToNull⟩) plain
    exact List.mem_append_left _ (List.mem_append_right _ mem)

/-- Literals that list numbers may be grouped although they list null too. -/
theorem normalize_grouped_iff_of_numbers :
    let group := [TypeExpr.literal [.int 2], .generic "lit" [null, .literal [.int 1]]]
    let others := [TypeExpr.literal [.int 3], null]
    let tree := TypeExpr.union [null, .literal [.int 1, .int 2, .int 3, .null]]
    (∀ member ∈ group, ∃ source, parse source = .ok member) ∧
      (∀ member ∈ others ++ [], ∃ source, parse source = .ok member) ∧
        (union (others ++ group ++ [])).normalize standard = .ok tree ∧
          (union (others ++ union group :: [])).normalize standard = .ok tree := by
  intro group others tree
  have parsed : ∀ member ∈ group, ∃ source, parse source = .ok member :=
    List.forall_mem_cons.mpr ⟨⟨"2", by decide +kernel⟩,
      List.forall_mem_singleton.mpr ⟨"lit[null,1]", by decide +kernel⟩⟩
  have othersParsed : ∀ member ∈ others ++ [], ∃ source, parse source = .ok member :=
    List.forall_mem_cons.mpr ⟨⟨"3", by decide +kernel⟩,
      List.forall_mem_singleton.mpr ⟨"null", by decide +kernel⟩⟩
  have plain : (union (others ++ group ++ [])).normalize standard = .ok tree := rfl
  refine ⟨parsed, othersParsed, plain, (normalize_grouped_iff parsed).mpr ?_ others [] tree
    othersParsed plain⟩
  rintro ⟨parts, -, arguments, mergesToNull⟩
  have computed : normalizeAll standard group =
    .ok [.literal [.int 2], .literal [.null, .int 1]] := rfl
  rw [← normalizeAll_eq_ok_iff, computed] at arguments
  cases arguments
  have isNull := mergesToNull.nothingElse [.int 2] (List.mem_cons_self ..) (.int 2)
    (List.mem_cons_self ..)
  cases isNull

/-- Literals of repeated nulls in a group are not merged with a number beside the
group. -/
theorem exists_group_with_other_normal_form :
    ∃ before group after tree,
      (∀ member ∈ before ++ group ++ after, ∃ source, parse source = .ok member) ∧
        group ≠ [] ∧ (union (before ++ group ++ after)).normalize standard = .ok tree ∧
          (union (before ++ union group :: after)).normalize standard ≠ .ok tree := by
  refine ⟨[.literal [.int 1]], [.generic "lit" [null, null], .generic "lit" [null, null, null]], [],
    .literal [.int 1, .null], ?_, List.cons_ne_nil _ _, rfl, ?_⟩
  · exact List.forall_mem_cons.mpr ⟨⟨"1", by decide +kernel⟩, List.forall_mem_cons.mpr
      ⟨⟨"lit[null,null]", by decide +kernel⟩,
        List.forall_mem_singleton.mpr ⟨"lit[null,null,null]", by decide +kernel⟩⟩⟩
  · intro same
    have computed : (union ([.literal [.int 1]] ++ union [.generic "lit" [null, null],
        .generic "lit" [null, null, null]] :: [])).normalize standard =
          .ok (.union [null, .literal [.int 1]]) := rfl
    rw [computed] at same
    cases same

end TypeSpelling.TypeExpr
