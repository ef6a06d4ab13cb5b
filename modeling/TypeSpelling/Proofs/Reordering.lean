import Mathlib.Data.List.Perm.Basic
import Mathlib.Logic.Relation
import TypeSpelling.Proofs.UnionInvariant

/-!
# The order of union members

The members of a union can be written in any order, at any depth.  What a union
is built of is determined up to its order by the members: repeated members are
dropped and literals are merged whatever stands first.  The canonical order then
leaves one way to arrange it, since no two canonical trees have the same
canonical spelling.
-/

namespace TypeSpelling

open TypeSpelling.Source

namespace Sorting

/-- Lists with the same items are the same in order, under an order that no two
of the items share a place of. -/
theorem sort_eq_of_perm {α : Type} {le : α → α → Bool}
    (total : ∀ left right, le left right = false → le right left = true)
    (trans : ∀ left middle right, le left middle = true → le middle right = true →
      le left right = true) {items others : List α}
    (antisymm : ∀ left ∈ items, ∀ right ∈ items, le left right = true → le right left = true →
      left = right)
    (perm : items.Perm others) : sort le items = sort le others := by
  have sorted := ((sort_perm le items).trans perm).trans (sort_perm le others).symm
  refine List.Perm.eq_of_pairwise (fun left right leftMem rightMem => ?_)
    (pairwise_sort total trans items) (pairwise_sort total trans others) sorted
  exact antisymm left (mem_sort.mp leftMem) right (perm.mem_iff.mpr (mem_sort.mp rightMem))

end Sorting

namespace TypeExpr

variable {table : AliasTable}

/-! ## Building a union -/

/-- Without repetitions only what the items are is left. -/
theorem eraseDups_perm {α : Type} [BEq α] [LawfulBEq α] {items others : List α}
    (same : ∀ item, item ∈ items ↔ item ∈ others) : items.eraseDups.Perm others.eraseDups := by
  rw [List.perm_ext_iff_of_nodup (nodup_eraseDups items) (nodup_eraseDups others)]
  intro item
  rw [List.mem_eraseDups, List.mem_eraseDups, same]

/-- A literal among the members, but not the null literal, lists the value. -/
def Lists (members : List TypeExpr) (value : LiteralValue) : Prop :=
  ∃ values, .literal values ∈ members ∧ values ≠ [.null] ∧ value ∈ values

theorem mem_flatten_literals_iff {members : List TypeExpr} {value : LiteralValue} :
    value ∈ (members.filterMap mergeable?).flatten ↔ Lists members value := by
  simp only [Lists, List.mem_flatten, mem_literals_iff, and_assoc]

/-- The values of merged literals are put in an order of their own. -/
theorem mergedLiteral_congr {members others : List TypeExpr}
    (same : ∀ value, Lists members value ↔ Lists others value) :
    mergedLiteral members = mergedLiteral others := by
  simp only [← mem_flatten_literals_iff] at same
  exact congrArg TypeExpr.literal (Sorting.sort_eq_of_perm LiteralValue.le_total
    LiteralValue.le_trans (fun left _ right _ => LiteralValue.le_antisymm left right)
    (eraseDups_perm same))

theorem mergeLiterals_perm {members others : List TypeExpr} (perm : members.Perm others) :
    (mergeLiterals members).Perm (mergeLiterals others) := by
  have sameLength := (perm.filterMap mergeable?).length_eq
  by_cases few : (members.filterMap mergeable?).length < 2
  · rwa [mergeLiterals_eq_self few, mergeLiterals_eq_self (sameLength ▸ few)]
  · have several := Nat.not_lt.mp few
    have sameLiteral : mergedLiteral members = mergedLiteral others :=
      mergedLiteral_congr fun value => by simp only [Lists, perm.mem_iff]
    rw [mergeLiterals_eq_cons several, mergeLiterals_eq_cons (sameLength ▸ several), sameLiteral]
    exact (perm.filter _).cons _

/-- What is merged is determined by what is contributed. -/
theorem mergedMembers_perm {parts others : List TypeExpr}
    (same : ∀ member, member ∈ flatMembersOf parts ↔ member ∈ flatMembersOf others) :
    (mergedMembers parts).Perm (mergedMembers others) :=
  mergeLiterals_perm (eraseDups_perm same)

/-- Canonical trees that stand before each other are the same. -/
theorem precedes_antisymm {left right : TypeExpr}
    (leftNormal : NormalForm AliasTable.standard left) (leftWritable : Writable left)
    (rightNormal : NormalForm AliasTable.standard right) (rightWritable : Writable right)
    (before : precedes left right = true) (after : precedes right left = true) : left = right := by
  simp only [precedes, Bool.or_eq_true, Bool.and_eq_true, decide_eq_true_eq] at before after
  rcases before with less | ⟨same, before⟩
  · omega
  · rcases after with more | ⟨-, after⟩
    · omega
    · exact eq_of_canonicalText_eq leftNormal leftWritable rightNormal rightWritable
        (Text.textLe_antisymm _ _ before after)

/-- A union of canonical parts is determined by what is left of the parts after
merging, in whatever order it stands. -/
theorem unionOf_eq_of_mergedMembers_perm {parts others : List TypeExpr}
    (normal : ∀ part ∈ parts, NormalForm AliasTable.standard part)
    (writable : ∀ part ∈ parts, Writable part)
    (merged : (mergedMembers parts).Perm (mergedMembers others)) :
    unionOf parts = unionOf others := by
  rcases unionOf_cases parts with single | ⟨notSingle, several⟩
  · rw [single] at merged
    have otherSingle := List.perm_singleton.mp merged.symm
    rcases unionOf_cases others with same | ⟨notSingle, -⟩
    · exact (List.singleton_inj.mp (same.symm.trans otherSingle)).symm
    · exact absurd (congrArg List.length otherSingle) notSingle
  · rcases unionOf_cases others with single | ⟨-, otherSeveral⟩
    · rw [single] at merged
      exact absurd merged.length_eq notSingle
    · rw [several, otherSeveral]
      congr 1
      apply Sorting.sort_eq_of_perm precedes_total precedes_trans ?_ merged
      intro left leftMem right rightMem
      exact precedes_antisymm (normalForm_of_mem_mergedMembers normal left leftMem)
        (writable_of_mem_mergedMembers writable left leftMem)
        (normalForm_of_mem_mergedMembers normal right rightMem)
        (writable_of_mem_mergedMembers writable right rightMem)

/-- The canonical arguments of a union are canonical and can be written. -/
theorem canonical_of_arguments {args normals : List TypeExpr}
    (writable : ∀ arg ∈ args, Writable arg) (guarded : .ellipsis ∉ args)
    (arguments : List.Forall₂ (ArgumentNormal AliasTable.standard) args normals) :
    (∀ normal ∈ normals, NormalForm AliasTable.standard normal) ∧
      ∀ normal ∈ normals, Writable normal := by
  have absent : .ellipsis ∉ normals := by
    rwa [← ellipsis_mem_congr (map_isEllipsis_of_arguments arguments)]
  refine ⟨fun normal mem => ?_, writable_of_arguments
    (fun raw mem tree => writable_of_normalize raw tree (writable raw mem)) arguments⟩
  apply normalForms_of_arguments (fun raw _ => normalForm_of_normalize coherent_standard raw)
    arguments normal mem
  rintro rfl
  exact absent mem

/-- The canonical arguments of a union in another order make the same union. -/
theorem exists_arguments_of_perm {args others normals : List TypeExpr}
    (writable : ∀ arg ∈ args, Writable arg) (guarded : .ellipsis ∉ args)
    (arguments : List.Forall₂ (ArgumentNormal AliasTable.standard) args normals)
    (perm : args.Perm others) :
    ∃ otherNormals, List.Forall₂ (ArgumentNormal AliasTable.standard) others otherNormals ∧
      otherNormals.length = normals.length ∧ unionOf otherNormals = unionOf normals := by
  obtain ⟨otherNormals, otherArguments, otherPerm⟩ := List.perm_comp_forall₂ perm.symm arguments
  obtain ⟨normal, normalWritable⟩ := canonical_of_arguments writable guarded arguments
  refine ⟨otherNormals, otherArguments, otherPerm.length_eq, ?_⟩
  refine (unionOf_eq_of_mergedMembers_perm normal normalWritable (mergedMembers_perm ?_)).symm
  intro member
  simp only [mem_flatMembersOf, otherPerm.mem_iff]

/-! ## Arguments that stand in for others -/

/-- A list of arguments has its ellipses where another list has them, and the
canonical arguments of that list are its own. -/
structure StandsIn (table : AliasTable) (args others : List TypeExpr) : Prop where
  ellipses : args.map isEllipsis = others.map isEllipsis
  arguments : ∀ {normals}, List.Forall₂ (ArgumentNormal table) args normals →
    List.Forall₂ (ArgumentNormal table) others normals

namespace StandsIn

variable {args others : List TypeExpr} {tree : TypeExpr}

theorem guarded (standsIn : StandsIn table args others) (absent : .ellipsis ∉ args) :
    .ellipsis ∉ others := by
  rwa [← ellipsis_mem_congr standsIn.ellipses]

theorem guarded_fixedElements (standsIn : StandsIn table args others)
    (absent : .ellipsis ∉ fixedElements args) : .ellipsis ∉ fixedElements others := by
  rwa [← ellipsis_mem_fixedElements_congr standsIn.ellipses]

theorem guarded_guardedArgs (standsIn : StandsIn table args others) {entry : Entry}
    (absent : .ellipsis ∉ guardedArgs entry args) : .ellipsis ∉ guardedArgs entry others := by
  rwa [← ellipsis_mem_guardedArgs_congr entry standsIn.ellipses]

theorem generic (standsIn : StandsIn table args others) {base : String}
    (normalizes : Normalizes table (.generic base args) tree) :
    Normalizes table (.generic base others) tree := by
  cases normalizes with
  | unknown resolved guarded arguments =>
      exact .unknown resolved (standsIn.guarded guarded) (standsIn.arguments arguments)
  | known resolved guarded arguments accepted applied =>
      exact .known resolved (standsIn.guarded_guardedArgs guarded) (standsIn.arguments arguments)
        accepted applied

theorem container (standsIn : StandsIn table args others) {kind : Container}
    (normalizes : Normalizes table (.container kind args) tree) :
    Normalizes table (.container kind others) tree := by
  cases normalizes with
  | container guarded arguments exact =>
      exact .container (standsIn.guarded guarded) (standsIn.arguments arguments) exact

theorem tuple (standsIn : StandsIn table args others)
    (normalizes : Normalizes table (.tuple args) tree) :
    Normalizes table (.tuple others) tree := by
  cases normalizes with
  | tuple guarded arguments =>
      exact .tuple (standsIn.guarded_fixedElements guarded) (standsIn.arguments arguments)

theorem union (standsIn : StandsIn table args others)
    (normalizes : Normalizes table (.union args) tree) :
    Normalizes table (.union others) tree := by
  cases normalizes with
  | union guarded arguments =>
      exact .union (standsIn.guarded guarded) (standsIn.arguments arguments)

/-- One argument may be exchanged for another with the same canonical form. -/
theorem exchange {arg other : TypeExpr} (notEllipsis : arg ≠ .ellipsis)
    (otherNotEllipsis : other ≠ .ellipsis)
    (same : ∀ tree, arg.normalize table = .ok tree → other.normalize table = .ok tree)
    (before after : List TypeExpr) :
    StandsIn table (before ++ arg :: after) (before ++ other :: after) where
  ellipses := by
    rw [← isEllipsis_eq_false_iff] at notEllipsis otherNotEllipsis
    simp [notEllipsis, otherNotEllipsis]
  arguments := by
    intro normals arguments
    induction before generalizing normals with
    | nil =>
        obtain ⟨normal, rest, ⟨rfl, -⟩ | ⟨-, success⟩, restArguments, rfl⟩ :=
          List.forall₂_cons_left_iff.mp arguments
        · exact absurd rfl notEllipsis
        · exact .cons (.inr ⟨otherNotEllipsis, same normal success⟩) restArguments
    | cons first others ih =>
        obtain ⟨normal, rest, argument, restArguments, rfl⟩ :=
          List.forall₂_cons_left_iff.mp arguments
        exact .cons argument (ih restArguments)

end StandsIn

/-! ## Reordered trees -/

/-- One tree is another with the members of one of its unions, or the arguments
of one identifier that stands for unions, in another order. -/
inductive Reorders (table : AliasTable) : TypeExpr → TypeExpr → Prop where
  | union {members others : List TypeExpr} (perm : members.Perm others) :
      Reorders table (.union members) (.union others)
  | unionForm {base : String} {entry : Entry} {args others : List TypeExpr}
      (resolved : table.resolve? base = some entry) (form : entry.form = .union)
      (perm : args.Perm others) : Reorders table (.generic base args) (.generic base others)
  | inGeneric (base : String) (before after : List TypeExpr) {arg other : TypeExpr}
      (inside : Reorders table arg other) :
      Reorders table (.generic base (before ++ arg :: after))
        (.generic base (before ++ other :: after))
  | inContainer (kind : Container) (before after : List TypeExpr) {arg other : TypeExpr}
      (inside : Reorders table arg other) :
      Reorders table (.container kind (before ++ arg :: after))
        (.container kind (before ++ other :: after))
  | inTuple (before after : List TypeExpr) {element other : TypeExpr}
      (inside : Reorders table element other) :
      Reorders table (.tuple (before ++ element :: after)) (.tuple (before ++ other :: after))
  | inUnion (before after : List TypeExpr) {member other : TypeExpr}
      (inside : Reorders table member other) :
      Reorders table (.union (before ++ member :: after)) (.union (before ++ other :: after))
  | inOptional {inner other : TypeExpr} (inside : Reorders table inner other) :
      Reorders table (.optional inner) (.optional other)

namespace Reorders

variable {tree other : TypeExpr}

theorem symm (reorders : Reorders table tree other) : Reorders table other tree := by
  induction reorders with
  | union perm => exact .union perm.symm
  | unionForm resolved form perm => exact .unionForm resolved form perm.symm
  | inGeneric base before after _ ih => exact .inGeneric base before after ih
  | inContainer kind before after _ ih => exact .inContainer kind before after ih
  | inTuple before after _ ih => exact .inTuple before after ih
  | inUnion before after _ ih => exact .inUnion before after ih
  | inOptional _ ih => exact .inOptional ih

theorem ne_ellipsis (reorders : Reorders table tree other) : tree ≠ .ellipsis := by
  rintro rfl
  cases reorders

/-- A reordered argument may stand in for the argument. -/
theorem standsIn (reorders : Reorders table tree other)
    (same : ∀ normal, tree.normalize table = .ok normal → other.normalize table = .ok normal)
    (before after : List TypeExpr) :
    StandsIn table (before ++ tree :: after) (before ++ other :: after) :=
  .exchange reorders.ne_ellipsis reorders.symm.ne_ellipsis same before after

/-- Reordering keeps trees that can be written. -/
theorem writable (reorders : Reorders table tree other) : Writable tree → Writable other := by
  have exchanged : ∀ {before after : List TypeExpr} {arg other : TypeExpr},
      (Writable arg → Writable other) → (∀ inner ∈ before ++ arg :: after, Writable inner) →
        ∀ inner ∈ before ++ other :: after, Writable inner := by
    intro before after arg other keeps all
    rw [List.forall_mem_append, List.forall_mem_cons] at all ⊢
    exact ⟨all.1, keeps all.2.1, all.2.2⟩
  induction reorders with
  | union perm =>
      intro writable
      cases writable with
      | union some all =>
          exact .union (mt (fun empty => (empty ▸ perm).eq_nil) some)
            fun member mem => all member (perm.mem_iff.mpr mem)
  | unionForm _ _ perm =>
      intro writable
      cases writable with
      | generic name some all =>
          exact .generic name (mt (fun empty => (empty ▸ perm).eq_nil) some)
            fun arg mem => all arg (perm.mem_iff.mpr mem)
  | inGeneric _ _ _ _ ih =>
      intro writable
      cases writable with
      | generic name _ all => exact .generic name (by simp) (exchanged ih all)
  | inContainer _ _ _ _ ih =>
      intro writable
      cases writable with
      | container _ all => exact .container (by simp) (exchanged ih all)
  | inTuple _ _ _ ih =>
      intro writable
      cases writable with
      | tuple _ all => exact .tuple (by simp) (exchanged ih all)
  | inUnion _ _ _ ih =>
      intro writable
      cases writable with
      | union _ all => exact .union (by simp) (exchanged ih all)
  | inOptional _ ih =>
      intro writable
      cases writable with
      | optional inside => exact .optional (ih inside)

/-- Reordering takes no canonical form away. -/
theorem normalize_eq_ok (reorders : Reorders AliasTable.standard tree other) :
    Writable tree → ∀ normal, tree.normalize AliasTable.standard = .ok normal →
      other.normalize AliasTable.standard = .ok normal := by
  induction reorders with
  | @union members others perm =>
      intro writable normal success
      cases normalize_eq_ok_iff.mp success with
      | union guarded arguments =>
          obtain ⟨otherNormals, otherArguments, -, same⟩ :=
            exists_arguments_of_perm writable.child guarded arguments perm
          rw [← same, normalize_eq_ok_iff]
          exact .union (mt perm.mem_iff.mpr guarded) otherArguments
  | @unionForm base entry args others resolved form perm =>
      intro writable normal success
      have notTuple : entry.form ≠ .tuple := by simp [form]
      cases normalize_eq_ok_iff.mp success with
      | unknown missing => simp [resolved] at missing
      | known found guarded arguments accepted applied =>
          rw [resolved] at found
          cases found
          rw [guardedArgs_eq_self notTuple] at guarded
          obtain ⟨otherNormals, otherArguments, sameLength, same⟩ :=
            exists_arguments_of_perm writable.child guarded arguments perm
          cases applied with
          | union =>
              rw [← same, normalize_eq_ok_iff]
              refine .known resolved ?_ otherArguments (sameLength ▸ accepted) (.union form)
              rw [guardedArgs_eq_self notTuple]
              exact mt perm.mem_iff.mpr guarded
          | plain other | wildcard other | container other | tuple other | optional other
          | literal other =>
              rw [form] at other
              cases other
  | inGeneric base before after inside ih =>
      intro writable normal success
      have standsIn := inside.standsIn (ih (writable.child _ (by simp [children]))) before after
      exact normalize_eq_ok_iff.mpr (standsIn.generic (normalize_eq_ok_iff.mp success))
  | inContainer kind before after inside ih =>
      intro writable normal success
      have standsIn := inside.standsIn (ih (writable.child _ (by simp [children]))) before after
      exact normalize_eq_ok_iff.mpr (standsIn.container (normalize_eq_ok_iff.mp success))
  | inTuple before after inside ih =>
      intro writable normal success
      have standsIn := inside.standsIn (ih (writable.child _ (by simp [children]))) before after
      exact normalize_eq_ok_iff.mpr (standsIn.tuple (normalize_eq_ok_iff.mp success))
  | inUnion before after inside ih =>
      intro writable normal success
      have standsIn := inside.standsIn (ih (writable.child _ (by simp [children]))) before after
      exact normalize_eq_ok_iff.mpr (standsIn.union (normalize_eq_ok_iff.mp success))
  | inOptional inside ih =>
      intro writable normal success
      cases normalize_eq_ok_iff.mp success with
      | optional guarded argument =>
          have same := ih (writable.child _ (List.mem_singleton_self _)) _ argument
          exact normalize_eq_ok_iff.mpr (.optional inside.symm.ne_ellipsis same)

end Reorders

/-- The members of the unions of a text, and the arguments of its identifiers
that stand for unions, can be written in any order: a canonical form in one order
is the canonical form in every other. -/
theorem normalize_reordered_iff {source : String} {limit : Nat} {raw other tree : TypeExpr}
    (parsed : parseWithin limit source = .ok raw)
    (reordered : Relation.ReflTransGen (Reorders AliasTable.standard) raw other) :
    raw.normalize AliasTable.standard = .ok tree ↔
      other.normalize AliasTable.standard = .ok tree := by
  suffices same : Writable other ∧ (raw.normalize AliasTable.standard = .ok tree ↔
      other.normalize AliasTable.standard = .ok tree) from same.2
  induction reordered with
  | refl => exact ⟨writable_of_parseWithin parsed, Iff.rfl⟩
  | tail _ reorders ih =>
      obtain ⟨writable, same⟩ := ih
      have otherWritable := reorders.writable writable
      refine ⟨otherWritable, same.trans ⟨reorders.normalize_eq_ok writable tree, ?_⟩⟩
      exact reorders.symm.normalize_eq_ok otherWritable tree

/-- The arguments of a union form and the members of a union in it change
places. -/
theorem normalize_reordered_iff_of_union_form :
    let raw := TypeExpr.generic "typing.Union"
      [.literal [.int 2], .union [.name "b", .wildcard, .literal [.int 1]]]
    let other := TypeExpr.generic "typing.Union"
      [.union [.wildcard, .literal [.int 1], .name "b"], .literal [.int 2]]
    let tree := TypeExpr.union [.name "b", .wildcard, .literal [.int 1, .int 2]]
    parseWithin 1 "typing.Union[2, b|_|1]" = .ok raw ∧
      Relation.ReflTransGen (Reorders AliasTable.standard) raw other ∧
        raw.normalize AliasTable.standard = .ok tree ∧
          other.normalize AliasTable.standard = .ok tree := by
  intro raw other tree
  have parsed : parseWithin 1 "typing.Union[2, b|_|1]" = .ok raw := by decide +kernel
  have inside : Reorders AliasTable.standard raw (.generic "typing.Union"
      [.literal [.int 2], .union [.wildcard, .literal [.int 1], .name "b"]]) :=
    .inGeneric _ [_] [] (.union (by decide))
  obtain ⟨entry, resolved, form, -⟩ := AliasTable.declares_union
  have around : Relation.ReflTransGen (Reorders AliasTable.standard) raw other :=
    .tail (.single inside) (.unionForm resolved form (.swap _ _ _))
  have normalized : raw.normalize AliasTable.standard = .ok tree := rfl
  exact ⟨parsed, around, normalized, (normalize_reordered_iff parsed around).mp normalized⟩

end TypeExpr

end TypeSpelling
