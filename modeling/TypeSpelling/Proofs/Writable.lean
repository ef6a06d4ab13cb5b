import TypeSpelling.Proofs.NormalForm
import TypeSpelling.Proofs.Parsing

/-!
# Trees that can be written

A tree can be written if its names are names of the grammar, its literal values
are values of tokens, and every node that has a list of arguments has at least
one.  The tree of a text can be written, and normalization under the standard
table keeps it so, since every spelling of the table is a name.
-/

namespace TypeSpelling

open TypeSpelling.Source

/-- A value that is the value of a token. -/
def LiteralValue.Writable : LiteralValue → Prop
  | .str token => IsQuoted token.toList
  | .bytes token => ∃ quoted, token.toList = 'b' :: quoted ∧ IsQuoted quoted
  | .int value => fitsInt64 value = true
  | .bool _ | .null => True

namespace TypeExpr

/-- A tree that can be written. -/
inductive Writable : TypeExpr → Prop where
  | name {path : String} (name : IsName path.toList) : Writable (.name path)
  | wildcard : Writable .wildcard
  | generic {base : String} {args : List TypeExpr} (name : IsName base.toList)
      (some : args ≠ []) (all : ∀ arg ∈ args, Writable arg) : Writable (.generic base args)
  | container {kind : Container} {args : List TypeExpr} (some : args ≠ [])
      (all : ∀ arg ∈ args, Writable arg) : Writable (.container kind args)
  | tuple {elements : List TypeExpr} (some : elements ≠ [])
      (all : ∀ element ∈ elements, Writable element) : Writable (.tuple elements)
  | union {members : List TypeExpr} (some : members ≠ [])
      (all : ∀ member ∈ members, Writable member) : Writable (.union members)
  | optional {inner : TypeExpr} (inside : Writable inner) : Writable (.optional inner)
  | literal {values : List LiteralValue} (some : values ≠ [])
      (all : ∀ value ∈ values, value.Writable) : Writable (.literal values)
  | ellipsis : Writable .ellipsis

/-- A tree that some text is read as: it can be written, a union has several members, a
keyword one operand and a literal one value, and a mapping has a value for each key. -/
inductive Written : TypeExpr → Prop where
  | name {path : String} (name : IsName path.toList) : Written (.name path)
  | wildcard : Written .wildcard
  | generic {base : String} {args : List TypeExpr} (name : IsName base.toList)
      (some : args ≠ []) (all : ∀ arg ∈ args, Written arg) : Written (.generic base args)
  | keyword {kind : Container} {inner : TypeExpr} (isKeyword : kind.keyword?.isSome = true)
      (inside : Written inner) : Written (.container kind [inner])
  | mapping {entries : List (TypeExpr × TypeExpr)} (some : entries ≠ [])
      (keys : ∀ entry ∈ entries, Written entry.1) (values : ∀ entry ∈ entries, Written entry.2) :
      Written (.container .mapping (entries.flatMap fun entry => [entry.1, entry.2]))
  | sequence {args : List TypeExpr} (some : args ≠ []) (all : ∀ arg ∈ args, Written arg) :
      Written (.container .sequence args)
  | set {args : List TypeExpr} (some : args ≠ []) (all : ∀ arg ∈ args, Written arg) :
      Written (.container .set args)
  | tuple {elements : List TypeExpr} (some : elements ≠ [])
      (all : ∀ element ∈ elements, Written element) : Written (.tuple elements)
  | union {members : List TypeExpr} (several : 2 ≤ members.length)
      (all : ∀ member ∈ members, Written member) : Written (.union members)
  | optional {inner : TypeExpr} (inside : Written inner) : Written (.optional inner)
  | literal {value : LiteralValue} (writable : value.Writable) : Written (.literal [value])
  | ellipsis : Written .ellipsis

theorem Written.writable {tree : TypeExpr} (written : Written tree) : Writable tree := by
  induction written with
  | name name => exact .name name
  | wildcard => exact .wildcard
  | generic name some _ ih => exact .generic name some ih
  | keyword _ _ ih => exact .container (List.cons_ne_nil _ _) (List.forall_mem_singleton.mpr ih)
  | @mapping entries some _ _ keysIh valuesIh =>
      obtain ⟨entry, rest, rfl⟩ := List.exists_cons_of_ne_nil some
      refine .container (List.cons_ne_nil _ _) fun arg mem => ?_
      obtain ⟨own, ownMem, argMem⟩ := List.mem_flatMap.mp mem
      rcases List.mem_pair.mp argMem with rfl | rfl
      · exact keysIh own ownMem
      · exact valuesIh own ownMem
  | sequence some _ ih => exact .container some ih
  | set some _ ih => exact .container some ih
  | tuple some _ ih => exact .tuple some ih
  | union several _ ih =>
      exact .union (List.ne_nil_of_length_pos (Nat.lt_of_lt_of_le Nat.two_pos several)) ih
  | optional _ ih => exact .optional ih
  | literal writable =>
      exact .literal (List.cons_ne_nil _ _) (List.forall_mem_singleton.mpr writable)
  | ellipsis => exact .ellipsis

theorem writable_null : Writable null :=
  .literal (by decide) (List.forall_mem_singleton.mpr trivial)

theorem Writable.child {tree : TypeExpr} (writable : Writable tree) :
    ∀ child ∈ tree.children, Writable child := by
  cases writable with
  | generic _ _ all => exact all
  | container _ all => exact all
  | tuple _ all => exact all
  | union _ all => exact all
  | optional inside => exact List.forall_mem_singleton.mpr inside
  | _ => simp [children]

theorem Writable.of_mem_preorder {tree : TypeExpr} (writable : Writable tree) :
    ∀ node ∈ tree.preorder, Writable node :=
  forall_mem_preorder (fun _ => Writable.child) tree writable

end TypeExpr

/-! ## Trees of texts -/

namespace Source

open TypeExpr (Writable Written)

theorem written_wrap {inner : TypeExpr} (inside : Written inner) (prefixes : Prefixes) :
    Written (wrap (prefixes.map fun (keyword, _) => keyword.container) inner) := by
  induction prefixes with
  | nil => exact inside
  | cons first others ih =>
      have isKeyword : first.1.container.keyword?.isSome = true := by cases first.1 <;> rfl
      exact .keyword isKeyword ih

theorem Token.written_combine {own : Token} {tree : TypeExpr}
    (fits : own.rule = .integer → fitsInt64 (integerValue own.text) = true)
    (mem : tree ∈ combine own.rule own.text [] []) : Written tree := by
  obtain ⟨rule, text, shape⟩ := own
  cases shape with
  | name name =>
      rw [List.mem_singleton.mp mem]
      exact .name (by rwa [String.toList_ofList])
  | wildcard =>
      rw [List.mem_singleton.mp mem]
      exact .wildcard
  | ellipsis =>
      rw [List.mem_singleton.mp mem]
      exact .ellipsis
  | string quoted =>
      rw [List.mem_singleton.mp mem]
      exact .literal (show IsQuoted _ by rwa [String.toList_ofList])
  | bytes quoted =>
      rw [List.mem_singleton.mp mem]
      exact .literal ⟨_, String.toList_ofList, quoted⟩
  | integer integer =>
      rw [List.mem_singleton.mp mem]
      exact .literal (fits rfl)
  | boolean word =>
      rw [List.mem_singleton.mp mem]
      exact .literal trivial
  | null word =>
      rw [List.mem_singleton.mp mem]
      exact .literal trivial

namespace Phrase

theorem joined_ne_nil {parts : List TypeExpr} : joined parts ≠ [] := by
  unfold joined
  split <;> exact List.cons_ne_nil _ _

theorem written_joined {parts : List TypeExpr} (some : parts ≠ [])
    (all : ∀ part ∈ parts, Written part) : ∀ tree ∈ joined parts, Written tree := by
  match parts with
  | [] => exact absurd rfl some
  | [single] => exact all
  | _ :: _ :: _ => exact List.forall_mem_singleton.mpr (.union (by simp) all)

theorem applied_ne_nil {parts : List TypeExpr} (some : parts ≠ []) : applied parts ≠ [] := by
  unfold applied
  split
  · exact List.cons_ne_nil _ _
  · exact some

theorem written_applied {atom args : List TypeExpr} (someAtom : atom ≠ []) (some : args ≠ [])
    (all : ∀ part ∈ atom ++ args, Written part) :
    ∀ tree ∈ applied (atom ++ args), Written tree := by
  obtain ⟨first, others, rfl⟩ := List.exists_cons_of_ne_nil someAtom
  cases first with
  | name base =>
      rw [List.cons_append, List.forall_mem_cons] at all
      obtain ⟨⟨name⟩, allArgs⟩ := all
      exact List.forall_mem_singleton.mpr
        (.generic name (List.append_ne_nil_of_right_ne_nil _ some) allArgs)
  | _ => exact all

/-- Every phrase but a list of items stands for a tree at least. -/
theorem trees_ne_nil {category : Category} (phrase : Phrase category) :
    (∀ repetition, category ≠ .items repetition) → phrase.trees ≠ [] := by
  induction phrase with
  | expression first others => exact fun _ => joined_ne_nil
  | operand prefixes apart primary mark ih =>
      intro _
      have some := ih (by simp)
      cases mark <;> simpa [trees] using some
  | bare atom behind ih => exact fun _ => ih (by simp)
  | subscripted atom before inside first others behind ih =>
      exact fun _ => applied_ne_nil (List.append_ne_nil_of_left_ne_nil (ih (by simp)) _)
  | token own =>
      intro _
      obtain ⟨rule, text, shape⟩ := own
      cases shape <;> exact List.cons_ne_nil _ _
  | parens inside first others closing ih =>
      intro _
      rw [trees]
      split
      · exact ih (by simp)
      · exact List.cons_ne_nil _ _
  | mapping | set | brackets => exact fun _ => List.cons_ne_nil _ _
  | bar behind next ih => exact fun _ => ih (by simp)
  | comma behind next ih => exact fun _ => ih (by simp)
  | entry behind key between value ih =>
      exact fun _ => List.append_ne_nil_of_left_ne_nil (ih (by simp)) _
  | nil => exact fun notItems => absurd rfl (notItems _)
  | cons first others ih => exact fun notItems => absurd rfl (notItems _)

theorem append_trees_ne_nil {category : Category} (phrase : Phrase category)
    (notItems : ∀ repetition, category ≠ .items repetition) (others : List TypeExpr) :
    phrase.trees ++ others ≠ [] :=
  List.append_ne_nil_of_left_ne_nil (phrase.trees_ne_nil notItems) _

theorem isNil_iff_trees_eq_nil {repetition : Repetition} (phrase : Phrase (.items repetition)) :
    phrase.isNil = true ↔ phrase.trees = [] := by
  cases phrase with
  | nil => simp [isNil, trees]
  | cons first others =>
      have some := first.append_trees_ne_nil (by simp) others.trees
      simpa [isNil, trees] using some

/-- Keys and values alternate. -/
theorem exists_entries : ∀ phrase : Phrase (.items .entry),
    ∃ entries : List (TypeExpr × TypeExpr),
      phrase.trees = entries.flatMap fun entry => [entry.1, entry.2]
  | .nil => ⟨[], rfl⟩
  | .cons (.entry _ key _ value) others => by
      obtain ⟨keyTree, keySingle⟩ := key.exists_trees_expression
      obtain ⟨valueTree, valueSingle⟩ := value.exists_trees_expression
      obtain ⟨entries, pairs⟩ := exists_entries others
      exact ⟨(keyTree, valueTree) :: entries, by simp [trees, keySingle, valueSingle, pairs]⟩

/-- The trees of a phrase without a fault are trees of texts. -/
theorem written_trees {category : Category} (phrase : Phrase category) :
    phrase.Faultless → ∀ tree ∈ phrase.trees, Written tree := by
  induction phrase with
  | expression first others firstIh othersIh =>
      rintro ⟨firstFaultless, othersFaultless⟩
      exact written_joined (first.append_trees_ne_nil (by simp) _)
        (List.forall_mem_append.mpr ⟨firstIh firstFaultless, othersIh othersFaultless⟩)
  | operand prefixes apart primary mark ih =>
      intro faultless
      have wrapped := fun tree mem => written_wrap (ih faultless tree mem) prefixes
      cases mark with
      | none => exact List.forall_mem_map.mpr wrapped
      | some behind =>
          exact List.forall_mem_map.mpr
            (List.forall_mem_map.mpr fun tree mem => .optional (wrapped tree mem))
  | bare atom behind ih => exact ih
  | subscripted atom before inside first others behind atomIh firstIh othersIh =>
      rintro ⟨-, atomFaultless, firstFaultless, othersFaultless⟩
      exact written_applied (atom.trees_ne_nil (by simp)) (first.append_trees_ne_nil (by simp) _)
        (List.forall_mem_append.mpr ⟨atomIh atomFaultless,
          List.forall_mem_append.mpr ⟨firstIh firstFaultless, othersIh othersFaultless⟩⟩)
  | token own => exact fun fits tree mem => Token.written_combine fits mem
  | parens inside first others closing firstIh othersIh =>
      rintro ⟨firstFaultless, othersFaultless⟩
      rw [trees]
      split
      · exact firstIh firstFaultless
      · exact List.forall_mem_singleton.mpr (.tuple (first.append_trees_ne_nil (by simp) _)
          (List.forall_mem_append.mpr ⟨firstIh firstFaultless, othersIh othersFaultless⟩))
  | mapping inside key between value others keyIh valueIh othersIh =>
      rintro ⟨keyFaultless, valueFaultless, othersFaultless⟩
      obtain ⟨keyTree, keySingle⟩ := key.exists_trees_expression
      obtain ⟨valueTree, valueSingle⟩ := value.exists_trees_expression
      obtain ⟨entries, pairs⟩ := others.exists_entries
      have keyWritten := keyIh keyFaultless keyTree (by simp [keySingle])
      have valueWritten := valueIh valueFaultless valueTree (by simp [valueSingle])
      have othersWritten := othersIh othersFaultless
      rw [pairs] at othersWritten
      have whole : trees (.mapping inside key between value others) = [.container .mapping
          (((keyTree, valueTree) :: entries).flatMap fun entry => [entry.1, entry.2])] := by
        simp [trees, keySingle, valueSingle, pairs]
      rw [whole]
      refine List.forall_mem_singleton.mpr (.mapping (List.cons_ne_nil _ _)
        (List.forall_mem_cons.mpr ⟨keyWritten, fun entry mem => ?_⟩)
        (List.forall_mem_cons.mpr ⟨valueWritten, fun entry mem => ?_⟩))
      · exact othersWritten entry.1 (List.mem_flatMap.mpr ⟨entry, mem, by simp⟩)
      · exact othersWritten entry.2 (List.mem_flatMap.mpr ⟨entry, mem, by simp⟩)
  | set inside first others firstIh othersIh =>
      rintro ⟨firstFaultless, othersFaultless⟩
      exact List.forall_mem_singleton.mpr (.set (first.append_trees_ne_nil (by simp) _)
        (List.forall_mem_append.mpr ⟨firstIh firstFaultless, othersIh othersFaultless⟩))
  | brackets inside first others firstIh othersIh =>
      rintro ⟨firstFaultless, othersFaultless⟩
      exact List.forall_mem_singleton.mpr (.sequence (first.append_trees_ne_nil (by simp) _)
        (List.forall_mem_append.mpr ⟨firstIh firstFaultless, othersIh othersFaultless⟩))
  | bar behind next ih => exact ih
  | comma behind next ih => exact ih
  | entry behind key between value keyIh valueIh =>
      rintro ⟨keyFaultless, valueFaultless⟩
      exact List.forall_mem_append.mpr ⟨keyIh keyFaultless, valueIh valueFaultless⟩
  | nil => exact fun _ => List.forall_mem_nil _
  | cons first others firstIh othersIh =>
      rintro ⟨firstFaultless, othersFaultless⟩
      exact List.forall_mem_append.mpr ⟨firstIh firstFaultless, othersIh othersFaultless⟩

end Phrase

/-- A tree that is read from a text is one that texts are read as. -/
theorem written_of_parseWithin {limit : Nat} {text : String} {tree : TypeExpr}
    (parsed : parseWithin limit text = .ok tree) : Written tree := by
  obtain ⟨-, before, phrase, -, faultless, trees⟩ := parseChars_eq_ok_iff.mp parsed
  exact phrase.written_trees faultless tree (trees ▸ List.mem_singleton_self tree)

/-- The tree of a text can be written. -/
theorem writable_of_parseWithin {limit : Nat} {text : String} {tree : TypeExpr}
    (parsed : parseWithin limit text = .ok tree) : Writable tree :=
  (written_of_parseWithin parsed).writable

end Source

/-! ## The standard table -/

namespace AliasTable

/-- What a spelling of the standard table looks like: a segment that is no
keyword, or one behind the name of the module. -/
def IsStandardName (chars : List Char) : Prop :=
  (IsSegment chars ∧ ∀ word ∈ "_" :: Rule.keywords, chars ≠ word.toList) ∨
    ("typing.".toList <+: chars ∧ IsSegment (chars.drop 7))

instance : DecidablePred IsStandardName :=
  fun _ => inferInstanceAs (Decidable (_ ∨ _))

theorem IsStandardName.isName {chars : List Char} (standard : IsStandardName chars) :
    IsName chars := by
  rcases standard with ⟨segment, notKeyword⟩ | ⟨⟨rest, rfl⟩, segment⟩
  · exact ⟨chars, [], by simp [dotted], segment, notKeyword, by simp⟩
  · refine ⟨"typing".toList, [rest], by simp [dotted], by decide, by decide, ?_⟩
    exact List.forall_mem_singleton.mpr segment

theorem isStandardName_of_mem :
    ∀ entry ∈ standardEntries, ∀ spelling ∈ entry.spellings, IsStandardName spelling.toList := by
  decide +kernel

/-- Every spelling of the standard table is a name. -/
theorem isName_of_resolve? {spelling : String} {entry : Entry}
    (resolved : standard.resolve? spelling = some entry) :
    IsName spelling.toList := by
  obtain ⟨declared, spelled⟩ := resolve?_standard_eq_some_iff.mp resolved
  exact (isStandardName_of_mem entry declared spelling spelled).isName

end AliasTable

namespace TypeExpr

/-! ## Canonical forms -/

theorem writable_of_mem_flatMembers {tree : TypeExpr} (writable : Writable tree) :
    ∀ member ∈ tree.flatMembers, Writable member := by
  induction writable with
  | union _ _ ih =>
      intro member mem
      obtain ⟨part, partMem, inside⟩ := mem_flatMembersOf.mp mem
      exact ih part partMem member inside
  | name name => exact List.forall_mem_singleton.mpr (.name name)
  | wildcard => exact List.forall_mem_singleton.mpr .wildcard
  | generic name some all => exact List.forall_mem_singleton.mpr (.generic name some all)
  | container some all => exact List.forall_mem_singleton.mpr (.container some all)
  | tuple some all => exact List.forall_mem_singleton.mpr (.tuple some all)
  | optional inside => exact List.forall_mem_singleton.mpr (.optional inside)
  | literal some all => exact List.forall_mem_singleton.mpr (.literal some all)
  | ellipsis => exact List.forall_mem_singleton.mpr .ellipsis

theorem writable_of_mem_flatMembersOf {parts : List TypeExpr}
    (all : ∀ part ∈ parts, Writable part) : ∀ member ∈ flatMembersOf parts, Writable member := by
  intro member mem
  obtain ⟨part, partMem, inside⟩ := mem_flatMembersOf.mp mem
  exact writable_of_mem_flatMembers (all part partMem) member inside

theorem flatMembers_ne_nil {tree : TypeExpr} (writable : Writable tree) :
    tree.flatMembers ≠ [] := by
  induction writable with
  | @union members some all ih =>
      obtain ⟨first, rest, rfl⟩ := List.exists_cons_of_ne_nil some
      exact List.append_ne_nil_of_left_ne_nil (ih first (List.mem_cons_self ..)) _
  | _ => exact List.cons_ne_nil _ _

theorem writable_mergedLiteral {members : List TypeExpr}
    (all : ∀ member ∈ members, Writable member)
    (several : 2 ≤ (members.filterMap mergeable?).length) : Writable (mergedLiteral members) := by
  have lists : ∀ values, .literal values ∈ members →
      values ≠ [] ∧ ∀ value ∈ values, value.Writable := by
    intro values mem
    cases all _ mem with
    | literal some allValues => exact ⟨some, allValues⟩
  refine .literal (fun empty => ?_) fun value mem => ?_
  · exact mergedLiteral_ne_literal_nil (fun values mem => (lists values mem).1) several
      (congrArg TypeExpr.literal empty)
  · obtain ⟨values, valuesMem, valueMem⟩ :=
      List.mem_flatten.mp (List.mem_eraseDups.mp (Sorting.mem_sort.mp mem))
    exact (lists values (mem_literals_iff.mp valuesMem).1).2 value valueMem

theorem writable_of_mem_mergedMembers {parts : List TypeExpr}
    (all : ∀ part ∈ parts, Writable part) : ∀ member ∈ mergedMembers parts, Writable member := by
  have flat : ∀ member ∈ (flatMembersOf parts).eraseDups, Writable member := fun member mem =>
    writable_of_mem_flatMembersOf all member (List.mem_eraseDups.mp mem)
  unfold mergedMembers
  by_cases few : ((flatMembersOf parts).eraseDups.filterMap mergeable?).length < 2
  · rwa [mergeLiterals_eq_self few]
  · rw [mergeLiterals_eq_cons (Nat.not_lt.mp few)]
    refine List.forall_mem_cons.mpr
      ⟨writable_mergedLiteral flat (Nat.not_lt.mp few), fun member mem => ?_⟩
    exact flat member (mem_unmerged_iff.mp mem).1

theorem writable_unionOf {parts : List TypeExpr} (some : parts ≠ [])
    (all : ∀ part ∈ parts, Writable part) : Writable (unionOf parts) := by
  have members := writable_of_mem_mergedMembers all
  rcases unionOf_cases parts with single | ⟨-, several⟩
  · exact members _ (single ▸ List.mem_singleton_self _)
  · rw [several]
    have contributes := fun part mem => flatMembers_ne_nil (all part mem)
    refine .union (fun empty => mergedMembers_ne_nil some contributes ?_) fun member mem =>
      members member (Sorting.mem_sort.mp mem)
    have sorted := Sorting.length_sort precedes (mergedMembers parts)
    rw [empty] at sorted
    exact List.length_eq_zero_iff.mp sorted.symm

/-- The canonical forms of arguments that can be written can be written. -/
theorem writable_of_arguments {table : AliasTable} {raws normals : List TypeExpr}
    (keeps : ∀ raw ∈ raws, ∀ tree, raw.normalize table = .ok tree → Writable tree)
    (arguments : List.Forall₂ (ArgumentNormal table) raws normals) :
    ∀ normal ∈ normals, Writable normal := by
  intro normal mem
  obtain ⟨raw, rawMem, ⟨-, rfl⟩ | ⟨-, success⟩⟩ := exists_argument_of_mem arguments mem
  · exact .ellipsis
  · exact keeps raw rawMem _ success

theorem arguments_ne_nil {table : AliasTable} {raws normals : List TypeExpr}
    (arguments : List.Forall₂ (ArgumentNormal table) raws normals) (some : raws ≠ []) :
    normals ≠ [] := by
  rintro rfl
  exact some (List.forall₂_nil_right_iff.mp arguments)

theorem writable_of_applied {entry : Entry} {args : List TypeExpr} {tree : TypeExpr}
    (name : IsName entry.canonical.toList) (some : args ≠ [])
    (all : ∀ arg ∈ args, Writable arg) (applied : Applied entry args tree) : Writable tree := by
  cases applied with
  | plain => exact .generic name some all
  | wildcard => exact .wildcard
  | container => exact .container some all
  | tuple => exact .tuple some all
  | union => exact writable_unionOf some all
  | optional =>
      exact writable_unionOf (List.cons_ne_nil _ _) (List.forall_mem_cons.mpr ⟨writable_null, all⟩)
  | @literal lists _ literals =>
      subst literals
      have every : ∀ values ∈ lists, values ≠ [] ∧ ∀ value ∈ values, value.Writable := by
        intro values mem
        cases all _ (List.mem_map_of_mem mem) with
        | literal someValues allValues => exact ⟨someValues, allValues⟩
      obtain ⟨first, rest, rfl⟩ := List.exists_cons_of_ne_nil (mt List.map_eq_nil_iff.mpr some)
      refine .literal ?_ fun value mem => ?_
      · exact List.append_ne_nil_of_left_ne_nil (every first (List.mem_cons_self ..)).1 _
      · obtain ⟨values, valuesMem, valueMem⟩ := List.mem_flatten.mp mem
        exact (every values valuesMem).2 value valueMem

/-- Normalization under the standard table keeps trees that can be written. -/
theorem writable_of_normalize (raw : TypeExpr) : ∀ tree, Writable raw →
    raw.normalize AliasTable.standard = .ok tree → Writable tree := by
  induction raw using inductionOnChildren with
  | step raw ih =>
      intro tree writable success
      have children : (∀ child ∈ raw.children, Writable child) →
          ∀ child ∈ raw.children, ∀ tree, child.normalize AliasTable.standard = .ok tree →
            Writable tree :=
        fun all child mem tree => ih child mem tree (all child mem)
      cases normalize_eq_ok_iff.mp success with
      | name path =>
          unfold resolveName
          split
          · exact writable
          · rename_i entry resolved
            split
            · exact .wildcard
            · exact .name (AliasTable.isName_of_resolve? (AliasTable.resolve?_canonical resolved))
      | wildcard => exact .wildcard
      | unknown resolved guarded arguments =>
          cases writable with
          | generic name some all =>
              exact .generic name (arguments_ne_nil arguments some)
                (writable_of_arguments (children all) arguments)
      | known resolved guarded arguments accepted applied =>
          cases writable with
          | generic name some all =>
              exact writable_of_applied
                (AliasTable.isName_of_resolve? (AliasTable.resolve?_canonical resolved))
                (arguments_ne_nil arguments some)
                (writable_of_arguments (children all) arguments) applied
      | container guarded arguments exact =>
          cases writable with
          | container some all =>
              exact .container (arguments_ne_nil arguments some)
                (writable_of_arguments (children all) arguments)
      | tuple guarded arguments =>
          cases writable with
          | tuple some all =>
              exact .tuple (arguments_ne_nil arguments some)
                (writable_of_arguments (children all) arguments)
      | union guarded arguments =>
          cases writable with
          | union some all =>
              exact writable_unionOf (arguments_ne_nil arguments some)
                (writable_of_arguments (children all) arguments)
      | optional guarded argument =>
          cases writable with
          | optional inside =>
              exact writable_unionOf (List.cons_ne_nil _ _) (List.forall_mem_cons.mpr
                ⟨writable_null, List.forall_mem_singleton.mpr
                  (ih _ (List.mem_singleton_self _) _ inside argument)⟩)
      | literal values => exact writable

end TypeExpr

end TypeSpelling
