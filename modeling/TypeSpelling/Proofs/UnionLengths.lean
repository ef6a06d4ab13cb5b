import Mathlib.Algebra.BigOperators.Group.List.Basic
import Mathlib.Algebra.Order.BigOperators.Group.List
import Mathlib.Data.List.Perm.Subperm
import TypeSpelling.Proofs.Lengths
import TypeSpelling.Proofs.UnionInvariant
import TypeSpelling.Proofs.Weights

/-!
# How long unions are

The shorthand of a union takes a bar beside each member but one, and a question mark
and parentheses for the null literal.  Merging its literals costs the five bytes of a
subscript that was not there, and dropping what is repeated costs nothing.  So the
members that the parts of a union bring along bound its length.
-/

namespace TypeSpelling

open TypeSpelling.AliasTable
open TypeSpelling.Source

/-! ## Sums -/

theorem sum_map_le_of_nodup {α : Type} (size : α → Nat) {few many : List α}
    (distinct : few.Nodup) (among : few ⊆ many) : (few.map size).sum ≤ (many.map size).sum := by
  obtain ⟨own, perm, sublist⟩ := distinct.subperm among
  rw [← (perm.map size).sum_eq]
  exact (sublist.map size).sum_le_sum fun _ _ => Nat.zero_le _

theorem utf8ByteSize_intercalate_add (separator : String) {texts : List String}
    (some : texts ≠ []) :
    (separator.intercalate texts).utf8ByteSize + separator.utf8ByteSize =
      (texts.map fun text => text.utf8ByteSize + separator.utf8ByteSize).sum := by
  have whole := weightOf_intercalate 1 separator some
  simpa only [weightOf_toList] using whole

namespace TypeExpr

/-! ## Lengths of shorthands -/

/-- The bytes of the shorthand of a tree under the standard table. -/
def shortSize (tree : TypeExpr) : Nat :=
  (tree.shorthandText standard).utf8ByteSize

/-- The bytes of the shorthands of trees in a list, each with a mark beside it. -/
def listSize (trees : List TypeExpr) : Nat :=
  (trees.map fun tree => tree.shortSize + 1).sum

@[simp]
theorem listSize_nil : listSize [] = 0 := rfl

@[simp]
theorem listSize_cons (first : TypeExpr) (rest : List TypeExpr) :
    listSize (first :: rest) = first.shortSize + 1 + listSize rest := by
  rw [listSize, List.map_cons, List.sum_cons, listSize]

@[simp]
theorem listSize_append (left right : List TypeExpr) :
    listSize (left ++ right) = listSize left + listSize right := by
  simp only [listSize, List.map_append, List.sum_append]

theorem listSize_perm {left right : List TypeExpr} (perm : left.Perm right) :
    listSize left = listSize right :=
  (perm.map _).sum_eq

theorem listSize_filter_add (keeps : TypeExpr → Bool) (trees : List TypeExpr) :
    listSize (trees.filter keeps) + listSize (trees.filter fun tree => !keeps tree) =
      listSize trees := by
  induction trees with
  | nil => rfl
  | cons first rest ih =>
      cases kept : keeps first <;> simp [kept] <;> omega

theorem listSize_le_of_nodup {few many : List TypeExpr} (distinct : few.Nodup)
    (among : few ⊆ many) : listSize few ≤ listSize many :=
  sum_map_le_of_nodup _ distinct among

@[simp]
theorem shortSize_null : null.shortSize = 4 := rfl

/-- Shorthands with a mark of one byte between them. -/
theorem utf8ByteSize_intercalate_shorthandTexts {mark : String} (single : mark.utf8ByteSize = 1)
    {trees : List TypeExpr} (some : trees ≠ []) :
    (mark.intercalate (shorthandTexts standard trees)).utf8ByteSize + 1 = listSize trees := by
  have whole := utf8ByteSize_intercalate_add mark
    (mt List.map_eq_nil_iff.mp some : trees.map (shorthandText standard) ≠ [])
  rw [single, List.map_map] at whole
  rw [shorthandTexts_eq_map]
  exact whole

theorem utf8ByteSize_operandText (node : TypeExpr) (text : String) :
    (operandText node text).utf8ByteSize = text.utf8ByteSize + parentheses node.isLoose := by
  have brackets : ("(" ++ text ++ ")").utf8ByteSize = text.utf8ByteSize + 2 := by
    simp only [String.utf8ByteSize_append, utf8ByteSize_marks]
    omega
  cases node <;> simp [operandText, isLoose, parentheses, brackets]

theorem shortSize_generic (base : String) {args : List TypeExpr} (some : args ≠ []) :
    (generic base args).shortSize =
      (standard.shortestSpelling base).utf8ByteSize + 1 + listSize args := by
  have list := utf8ByteSize_intercalate_shorthandTexts (by decide : ",".utf8ByteSize = 1) some
  simp only [shortSize, shorthandText, String.utf8ByteSize_append, utf8ByteSize_marks]
  omega

theorem shortSize_tuple {elements : List TypeExpr} (some : elements ≠ []) :
    (tuple elements).shortSize = listSize elements + (if elements.length = 1 then 2 else 1) := by
  have list := utf8ByteSize_intercalate_shorthandTexts (by decide : ",".utf8ByteSize = 1) some
  simp only [shortSize, shorthandText, String.utf8ByteSize_append, utf8ByteSize_marks]
  split
  · simp only [utf8ByteSize_marks]
    omega
  · simp only [String.utf8ByteSize_empty]
    omega

theorem shortSize_keyword {kind : Container} {word : String} (keyword? : kind.keyword? = some word)
    (inner : TypeExpr) :
    (container kind [inner]).shortSize =
      word.utf8ByteSize + 1 + (inner.shortSize + parentheses inner.isLoose) := by
  have text : (container kind [inner]).shorthandText standard =
      word ++ " " ++ operandText inner (inner.shorthandText standard) := by
    cases kind <;> cases keyword? <;> rfl
  rw [shortSize, text, String.utf8ByteSize_append, String.utf8ByteSize_append,
    utf8ByteSize_operandText]
  rfl

theorem shortSize_bracketed {kind : Container} (keyword? : kind.keyword? = none)
    {args : List TypeExpr} (exact : args.length = kind.arity) :
    (container kind args).shortSize = 1 + listSize args := by
  cases kind with
  | mapping =>
      obtain ⟨key, value, rfl⟩ := List.length_eq_two.mp exact
      have text : (container .mapping [key, value]).shorthandText standard =
          "\x7b" ++ key.shorthandText standard ++ ":" ++ value.shorthandText standard ++ "\x7d" :=
        rfl
      simp only [shortSize, text, String.utf8ByteSize_append, utf8ByteSize_marks, listSize_cons,
        listSize_nil]
      omega
  | sequence =>
      obtain ⟨arg, rfl⟩ := List.length_eq_one_iff.mp exact
      have text : (container .sequence [arg]).shorthandText standard =
          "[" ++ arg.shorthandText standard ++ "]" := by
        simp [shorthandText, shorthandTexts, containerText, Container.keyword?]
      simp only [shortSize, text, String.utf8ByteSize_append, utf8ByteSize_marks, listSize_cons,
        listSize_nil]
      omega
  | set =>
      obtain ⟨arg, rfl⟩ := List.length_eq_one_iff.mp exact
      have text : (container .set [arg]).shorthandText standard =
          "\x7b" ++ arg.shorthandText standard ++ "\x7d" := by
        simp [shorthandText, shorthandTexts, containerText, Container.keyword?]
      simp only [shortSize, text, String.utf8ByteSize_append, utf8ByteSize_marks, listSize_cons,
        listSize_nil]
      omega
  | _ => cases keyword?

/-! ## Lengths of literals -/

/-- The bytes of the tokens of values in a list, each with a mark beside it. -/
def tokenSize (values : List LiteralValue) : Nat :=
  (values.map fun value => value.shorthandToken.utf8ByteSize + 1).sum

theorem tokenSize_append (left right : List LiteralValue) :
    tokenSize (left ++ right) = tokenSize left + tokenSize right := by
  simp only [tokenSize, List.map_append, List.sum_append]

/-- A literal of several values has a subscript. -/
theorem shortSize_literal {values : List LiteralValue} (some : values ≠ []) :
    (literal values).shortSize + 1 =
      tokenSize values + (if values.length = 1 then 0 else "lit[]".utf8ByteSize) := by
  match values with
  | [] => exact absurd rfl some
  | [value] => rfl
  | first :: second :: rest =>
      have list := utf8ByteSize_intercalate_add "," (List.cons_ne_nil first.shorthandToken
        ((second :: rest).map LiteralValue.shorthandToken))
      have name : (standard.shortestSpelling "typing.Literal").utf8ByteSize = 3 := by
        decide +kernel
      have subscript : "lit[]".utf8ByteSize = 5 := by decide
      rw [utf8ByteSize_marks.2.2.2.2.2.2.2.2.1, ← List.map_cons, List.map_map] at list
      simp only [shortSize, shorthandText, String.utf8ByteSize_append, utf8ByteSize_marks, name,
        subscript, List.length_cons, tokenSize, Function.comp_def] at list ⊢
      rw [if_neg (by omega)]
      omega

theorem tokenSize_le (values : List LiteralValue) :
    tokenSize values ≤ (literal values).shortSize + 1 := by
  by_cases none : values = []
  · rw [none]
    exact Nat.zero_le _
  · rw [shortSize_literal none]
    exact Nat.le_add_right _ _

/-- Literals that list values are together no shorter than the values, and what is not
merged is left as it is. -/
theorem tokenSize_flatten_add_le (members : List TypeExpr) :
    tokenSize (members.filterMap mergeable?).flatten +
        listSize (members.filter fun member => (mergeable? member).isNone) ≤
      listSize members := by
  induction members with
  | nil => exact Nat.le_refl 0
  | cons first rest ih =>
      cases merged : mergeable? first with
      | none =>
          simp only [List.filterMap_cons, merged, List.filter_cons, Option.isNone_none, if_true,
            listSize_cons]
          omega
      | some values =>
          obtain ⟨rfl, -⟩ := mergeable?_eq_some_iff.mp merged
          have own := tokenSize_le values
          simp only [List.filterMap_cons, merged, List.filter_cons, Option.isNone_some,
            Bool.false_eq_true, if_false, List.flatten_cons, tokenSize_append, listSize_cons]
          omega

/-- What merging the literals of some parts takes: a subscript for all values together. -/
def mergeSurplus (parts : List TypeExpr) : Nat :=
  if 2 ≤ ((flatMembersOf parts).eraseDups.filterMap mergeable?).length then
    "lit[]".utf8ByteSize
  else 0

theorem listSize_mergeLiterals_le {members : List TypeExpr}
    (lists : ∀ values, .literal values ∈ members → values ≠ []) :
    listSize (mergeLiterals members) ≤ listSize members +
      if 2 ≤ (members.filterMap mergeable?).length then "lit[]".utf8ByteSize else 0 := by
  split
  · rename_i several
    rw [mergeLiterals_eq_cons several, listSize_cons]
    have parted := tokenSize_flatten_add_le members
    have some := mergedLiteral_ne_literal_nil lists several
    -- The merged literal lists each value once, in another order.
    have fewer : tokenSize (members.filterMap mergeable?).flatten.eraseDups ≤
        tokenSize (members.filterMap mergeable?).flatten :=
      sum_map_le_of_nodup _ (nodup_eraseDups _) fun value mem => List.mem_eraseDups.mp mem
    have sorted :
        tokenSize (LiteralValue.sort (members.filterMap mergeable?).flatten.eraseDups) =
          tokenSize (members.filterMap mergeable?).flatten.eraseDups :=
      ((Sorting.sort_perm _ _).map _).sum_eq
    have own := shortSize_literal fun empty => some (congrArg literal empty)
    rw [sorted] at own
    rw [mergedLiteral, own]
    split <;> omega
  · rename_i few
    rw [mergeLiterals_eq_self (Nat.not_le.mp few)]
    exact Nat.le_refl _

/-! ## The null literal among members -/

/-- The bytes that members add to a union, each with a bar beside it.  Beside other
members the null literal is a question mark behind parentheses. -/
def foldedSize (members : List TypeExpr) : Nat :=
  listSize (members.filter fun member => !member.isNull) +
    if members.any isNull then
      if members.any fun member => !member.isNull then "()?".utf8ByteSize else null.shortSize + 1
    else 0

theorem foldedSize_eq (members : List TypeExpr) :
    foldedSize members = listSize (members.filter fun member => !member.isNull) +
      if members.any isNull then if members.any fun member => !member.isNull then 3 else 5 else 0 :=
  rfl

theorem any_isNull_iff {members : List TypeExpr} :
    members.any isNull = true ↔ null ∈ members := by
  simp [isNull_eq_true_iff]

theorem any_not_isNull_iff {members : List TypeExpr} :
    (members.any fun member => !member.isNull) = true ↔ ∃ member ∈ members, member ≠ null := by
  simp [← isNull_eq_true_iff]

theorem foldedSize_perm {left right : List TypeExpr} (perm : left.Perm right) :
    foldedSize left = foldedSize right := by
  rw [foldedSize, listSize_perm (perm.filter _), perm.any_eq, perm.any_eq, foldedSize]

theorem foldedSize_singleton (member : TypeExpr) : foldedSize [member] = member.shortSize + 1 := by
  cases isNull : member.isNull with
  | false => simp [foldedSize, isNull]
  | true =>
      rw [(isNull_eq_true_iff member).mp isNull]
      rfl

/-- Members of two lists that hold the null literal share one question mark. -/
theorem foldedSize_append_le (left right : List TypeExpr) :
    foldedSize (left ++ right) + parentheses (left.any isNull && right.any isNull) ≤
      foldedSize left + foldedSize right := by
  simp only [foldedSize_eq, List.filter_append, listSize_append, List.any_append, parentheses]
  cases left.any isNull <;> cases right.any isNull <;>
    cases left.any fun member => !member.isNull <;>
      cases right.any fun member => !member.isNull <;>
        simp only [Bool.or_true, Bool.or_false, Bool.and_true, Bool.and_false, if_true,
          Bool.false_eq_true, if_false] <;> omega

theorem listSize_filter_isNull (members : List TypeExpr) :
    listSize (members.filter isNull) = 5 * members.countP isNull := by
  induction members with
  | nil => rfl
  | cons first rest ih =>
      cases isNull : first.isNull with
      | false => rw [List.filter_cons_of_neg (by simp [isNull]), ih,
          List.countP_cons_of_neg (by simp [isNull])]
      | true =>
          rw [List.filter_cons_of_pos isNull, List.countP_cons_of_pos isNull, listSize_cons, ih,
            (isNull_eq_true_iff first).mp isNull, shortSize_null]
          omega

/-- The null literal of two members or more is a question mark or repeated. -/
theorem foldedSize_add_le (members : List TypeExpr) :
    foldedSize members + parentheses (members.any isNull && decide (2 ≤ members.length)) ≤
      listSize members := by
  have parted := listSize_filter_add isNull members
  have nulls := listSize_filter_isNull members
  rw [foldedSize_eq]
  cases some : members.any isNull with
  | false =>
      simp only [Bool.false_eq_true, if_false, Bool.false_and, parentheses]
      omega
  | true =>
      have one : 0 < members.countP isNull := List.countP_pos_iff.mpr (List.any_eq_true.mp some)
      cases others : members.any fun member => !member.isNull with
      | true =>
          simp only [if_true, Bool.true_and, parentheses]
          split <;> omega
      | false =>
          have only : ∀ member ∈ members, member.isNull = true := by simpa using others
          rw [List.countP_eq_length.mpr only] at one nulls
          simp only [if_true, Bool.false_eq_true, if_false, Bool.true_and, parentheses,
            decide_eq_true_eq]
          split <;> omega

/-- Of members that are repeated only the first is kept. -/
theorem listSize_eraseDups_le (members : List TypeExpr) :
    listSize members.eraseDups ≤ foldedSize members +
      parentheses (members.any isNull && members.any fun member => !member.isNull) := by
  have parted := listSize_filter_add isNull members.eraseDups
  have distinct := nodup_eraseDups members
  have among : members.eraseDups ⊆ members := fun member mem => List.mem_eraseDups.mp mem
  have others := listSize_le_of_nodup (distinct.filter fun member => !member.isNull)
    (List.filter_subset _ among)
  rw [foldedSize_eq]
  cases some : members.any isNull with
  | false =>
      have none : members.eraseDups.filter isNull = [] :=
        List.filter_eq_nil_iff.mpr fun member mem => by
          simpa using List.any_eq_false.mp some member (among mem)
      rw [none, listSize_nil] at parted
      simp only [Bool.false_eq_true, if_false, Bool.false_and, parentheses]
      omega
  | true =>
      have once : listSize (members.eraseDups.filter isNull) ≤ listSize [null] :=
        listSize_le_of_nodup (distinct.filter _) fun member mem =>
          List.mem_singleton.mpr ((isNull_eq_true_iff member).mp (List.mem_filter.mp mem).2)
      simp only [listSize_cons, listSize_nil, shortSize_null] at once
      simp only [if_true, Bool.true_and, parentheses]
      split <;> omega

/-! ## Unions -/

theorem NormalForm.isLoose_eq {table : AliasTable} {tree : TypeExpr}
    (normal : NormalForm table tree) : tree.isLoose = tree.isUnion := by
  cases normal <;> rfl

theorem rank_eq_zero_iff {tree : TypeExpr} : tree.rank = 0 ↔ tree = null := by
  cases tree <;> simp [rank, null]

/-- The null literal comes first. -/
theorem CanonicalMembers.head_of_null {first : TypeExpr} {rest : List TypeExpr}
    (canonical : CanonicalMembers (first :: rest)) (mem : null ∈ first :: rest) : first = null := by
  rcases List.mem_cons.mp mem with same | mem
  · exact same.symm
  · have before := (List.pairwise_cons.mp canonical.ordered).1 _ mem
    have last : null.rank = 0 := rfl
    simp only [precedes, Bool.or_eq_true, Bool.and_eq_true, decide_eq_true_eq, last] at before
    exact rank_eq_zero_iff.mp (by omega)

theorem shortSize_union_of_not_mem {members : List TypeExpr} (some : members ≠ [])
    (absent : null ∉ members) : (union members).shortSize + 1 = listSize members := by
  obtain ⟨first, rest, rfl⟩ := List.exists_cons_of_ne_nil some
  have notNull : first.isNull = false := by
    rw [Bool.eq_false_iff]
    intro isNull
    exact absent ((isNull_eq_true_iff first).mp isNull ▸ List.mem_cons_self ..)
  have text : (union (first :: rest)).shorthandText standard =
      "|".intercalate (shorthandTexts standard (first :: rest)) := by
    simp [shorthandText, shorthandTexts, unionText, notNull]
  rw [shortSize, text, utf8ByteSize_intercalate_shorthandTexts (by decide) some]

theorem shortSize_nullable (single : TypeExpr) :
    (union [null, single]).shortSize = single.shortSize + parentheses single.isLoose + 1 := by
  have text : (union [null, single]).shorthandText standard =
      operandText single (single.shorthandText standard) ++ "?" := by
    simp [shorthandText, shorthandTexts, unionText, isNull, null]
  rw [shortSize, text, String.utf8ByteSize_append, utf8ByteSize_operandText]
  rfl

theorem shortSize_union_of_null {others : List TypeExpr} (several : 2 ≤ others.length) :
    (union (null :: others)).shortSize = listSize others + 2 := by
  match others with
  | first :: second :: rest =>
      have list := utf8ByteSize_intercalate_shorthandTexts (by decide : "|".utf8ByteSize = 1)
        (List.cons_ne_nil first (second :: rest))
      have text : (union (null :: first :: second :: rest)).shorthandText standard =
          "(" ++ "|".intercalate (shorthandTexts standard (first :: second :: rest)) ++ ")?" := by
        simp [shorthandText, shorthandTexts, unionText, isNull, null]
      have close : ")?".utf8ByteSize = 2 := by decide
      rw [shortSize, text]
      simp only [String.utf8ByteSize_append, utf8ByteSize_marks, close]
      omega

/-- A union takes no more than its members with a bar each, and two bytes less if the null
literal is one of them. -/
theorem shortSize_union_add_le {members : List TypeExpr} (canonical : CanonicalMembers members)
    (some : members ≠ []) (tight : ∀ member ∈ members, member.isLoose = false) :
    (union members).shortSize + 1 + parentheses (members.any isNull) ≤ listSize members := by
  by_cases mem : null ∈ members
  · obtain ⟨first, others, rfl⟩ := List.exists_cons_of_ne_nil some
    cases canonical.head_of_null mem
    rw [any_isNull_iff.mpr mem, listSize_cons, shortSize_null]
    match others with
    | [] => exact absurd rfl canonical.several
    | [single] =>
        rw [shortSize_nullable, tight single (by simp), listSize_cons]
        simp only [parentheses, Bool.false_eq_true, if_false, if_true]
        omega
    | first :: second :: rest =>
        rw [shortSize_union_of_null (by simp)]
        simp only [parentheses, if_true]
        omega
  · rw [Bool.eq_false_iff.mpr (mt any_isNull_iff.mp mem), shortSize_union_of_not_mem some mem]
    exact Nat.le_refl _

/-- Merging keeps the null literal. -/
theorem null_mem_mergedMembers {parts : List TypeExpr} (mem : null ∈ flatMembersOf parts) :
    null ∈ mergedMembers parts := by
  have kept := List.mem_eraseDups.mpr mem
  unfold mergedMembers
  by_cases few : ((flatMembersOf parts).eraseDups.filterMap mergeable?).length < 2
  · rwa [mergeLiterals_eq_self few]
  · rw [mergeLiterals_eq_cons (Nat.not_lt.mp few)]
    exact List.mem_cons_of_mem _ (mem_unmerged_iff.mpr ⟨kept, rfl⟩)

/-- Where the null literal stands beside another member it does so after merging. -/
theorem two_le_length_mergedMembers {parts : List TypeExpr} {other : TypeExpr}
    (mem : null ∈ flatMembersOf parts) (otherMem : other ∈ flatMembersOf parts)
    (different : other ≠ null) : 2 ≤ (mergedMembers parts).length := by
  have kept := List.mem_eraseDups.mpr mem
  unfold mergedMembers
  by_cases few : ((flatMembersOf parts).eraseDups.filterMap mergeable?).length < 2
  · rw [mergeLiterals_eq_self few]
    by_contra short
    have positive := List.length_pos_of_mem kept
    obtain ⟨single, only⟩ := List.length_eq_one_iff.mp
      (by omega : (flatMembersOf parts).eraseDups.length = 1)
    have otherKept := List.mem_eraseDups.mpr otherMem
    rw [only, List.mem_singleton] at kept otherKept
    exact different (otherKept.trans kept.symm)
  · rw [mergeLiterals_eq_cons (Nat.not_lt.mp few), List.length_cons]
    exact Nat.succ_le_succ (List.length_pos_of_mem (mem_unmerged_iff.mpr ⟨kept, rfl⟩))

section

variable {parts : List TypeExpr} (some : parts ≠ [])
  (forms : ∀ part ∈ parts, NormalForm standard part) (writable : ∀ part ∈ parts, Writable part)

include writable

theorem listSize_mergedMembers_le_foldedSize :
    listSize (mergedMembers parts) ≤ foldedSize (flatMembersOf parts) +
      parentheses ((mergedMembers parts).any isNull && decide (2 ≤ (mergedMembers parts).length)) +
        mergeSurplus parts := by
  have lists : ∀ values, .literal values ∈ flatMembersOf parts → values ≠ [] := by
    intro values mem
    cases writable_of_mem_flatMembersOf writable _ mem with
    | literal someValues => exact someValues
  have merged : listSize (mergedMembers parts) ≤
      listSize (flatMembersOf parts).eraseDups + mergeSurplus parts :=
    listSize_mergeLiterals_le fun values mem => lists values (List.mem_eraseDups.mp mem)
  have distinct := listSize_eraseDups_le (flatMembersOf parts)
  cases both : (flatMembersOf parts).any isNull &&
      (flatMembersOf parts).any fun member => !member.isNull with
  | false =>
      rw [both] at distinct
      simp only [parentheses, Bool.false_eq_true, if_false] at distinct
      omega
  | true =>
      obtain ⟨null, others⟩ := (Bool.and_eq_true _ _).mp both
      have mem := any_isNull_iff.mp null
      obtain ⟨other, otherMem, different⟩ := any_not_isNull_iff.mp others
      rw [any_isNull_iff.mpr (null_mem_mergedMembers mem),
        decide_eq_true (two_le_length_mergedMembers mem otherMem different), Bool.true_and]
      rw [both] at distinct
      omega

/-- What a union adds to another one is no more than what its parts add, and what
merging takes. -/
theorem foldedSize_unionOf_le :
    foldedSize (unionOf parts).flatMembers ≤
      foldedSize (flatMembersOf parts) + mergeSurplus parts := by
  have list := listSize_mergedMembers_le_foldedSize writable
  have folded := foldedSize_add_le (mergedMembers parts)
  rw [foldedSize_perm (flatMembers_unionOf_perm parts)]
  omega

include some forms

/-- Neither is the union itself longer than that, the last bar left out. -/
theorem shortSize_unionOf_lt :
    (unionOf parts).shortSize + 1 ≤ foldedSize (flatMembersOf parts) + mergeSurplus parts := by
  have list := listSize_mergedMembers_le_foldedSize writable
  rcases unionOf_canonical parts with single | ⟨own, same, perm, canonical⟩
  · rw [single] at list
    simp only [listSize_cons, listSize_nil, List.length_singleton] at list
    simpa [parentheses] using list
  · have someMembers := mergedMembers_ne_nil some fun part mem =>
      flatMembers_ne_nil (writable part mem)
    have someOwn : own ≠ [] := by
      rintro rfl
      exact someMembers (List.nil_perm.mp perm)
    have tight : ∀ member ∈ own, member.isLoose = false := by
      intro member mem
      rw [(normalForm_of_mem_mergedMembers forms member (perm.mem_iff.mp mem)).isLoose_eq]
      exact canonical.flat member mem
    have whole := shortSize_union_add_le canonical someOwn tight
    have fewer : parentheses ((mergedMembers parts).any isNull &&
        decide (2 ≤ (mergedMembers parts).length)) ≤ parentheses (own.any isNull) := by
      rw [perm.any_eq]
      cases (mergedMembers parts).any isNull
      · exact Nat.le_refl _
      · simp only [parentheses]
        split <;> simp
    rw [same, ← listSize_perm perm] at *
    omega

end

end TypeExpr

end TypeSpelling
