import TypeSpelling.Proofs.CanonicalSpelling

/-!
# Reading the shorthand

The shorthand spelling of a canonical tree is read as a tree of containers,
optionals and unions under the shortest names, and that tree has the canonical
tree as its canonical form.  A text is read at the level at which the shorthand
puts it: only a union has to be kept together by parentheses.
-/

namespace TypeSpelling.TypeExpr

open TypeSpelling.Source

/-! ## What the shorthand is read as -/

/-- What the shorthand of a union is read as, given what those of its members are
read as.  The null literal is written by a question mark. -/
def abridgedUnion (members raws : List TypeExpr) : TypeExpr :=
  if members.head?.any isNull then
    match raws.tail with
    | [single] => .optional single
    | others => .optional (.union others)
  else .union raws

/-- What the shorthand of a literal is read as. -/
def abridgedLiteral (form : String) (values : List LiteralValue) : TypeExpr :=
  match values with
  | [value] => .literal [value]
  | _ => .generic form (values.map fun value => .literal [value])

mutual

/-- The tree that the shorthand spelling of a tree is read as. -/
def abridged (table : AliasTable) : TypeExpr → TypeExpr
  | .name path => .name (table.shortestSpelling path)
  | .wildcard => .wildcard
  | .generic base args => .generic (table.shortestSpelling base) (abridgedAll table args)
  | .container kind args => .container kind (abridgedAll table args)
  | .tuple elements => .tuple (abridgedAll table elements)
  | .union members => abridgedUnion members (abridgedAll table members)
  | .optional inner => .optional (abridged table inner)
  | .literal values => abridgedLiteral (table.shortestSpelling "typing.Literal") values
  | .ellipsis => .ellipsis

/-- The trees that the shorthand spellings of a list of trees are read as. -/
def abridgedAll (table : AliasTable) : List TypeExpr → List TypeExpr
  | [] => []
  | first :: rest => abridged table first :: abridgedAll table rest

end

theorem abridgedAll_eq_map (table : AliasTable) (nodes : List TypeExpr) :
    abridgedAll table nodes = nodes.map (abridged table) := by
  induction nodes with
  | nil => rfl
  | cons first rest ih => rw [abridgedAll, ih, List.map_cons]

theorem isEllipsis_abridged (table : AliasTable) (tree : TypeExpr) :
    (tree.abridged table).isEllipsis = tree.isEllipsis := by
  cases tree with
  | union members =>
      rw [abridged, abridgedUnion]
      split
      · split <;> rfl
      · rfl
  | literal values =>
      rw [abridged]
      unfold abridgedLiteral
      split <;> rfl
  | _ => rfl

theorem isName_shortestSpelling {path : String} (name : IsName path.toList) :
    IsName (AliasTable.standard.shortestSpelling path).toList := by
  cases resolved : AliasTable.standard.resolve? path with
  | none => rwa [AliasTable.shortestSpelling_eq_self resolved]
  | some entry =>
      rw [← AliasTable.resolve?_shortestSpelling] at resolved
      exact AliasTable.isName_of_resolve? resolved

/-! ## Levels -/

/-- The shorthand of a tree is read as an expression, and behind keywords unless
the tree is a union. -/
structure ReadsAsShorthand (tree : TypeExpr) (text : String) (raw : TypeExpr) : Prop where
  expression : ReadsAsExpression text raw
  prefixed : tree.isUnion = false → ReadsAsPrefixed text raw

theorem readsAsShorthand_of_prefixed {tree raw : TypeExpr} {text : String}
    (reads : ReadsAsPrefixed text raw) : ReadsAsShorthand tree text raw :=
  ⟨reads.operand.expression, fun _ => reads⟩

theorem readsAsShorthand_of_primary {tree raw : TypeExpr} {text : String}
    (reads : ReadsAsPrimary text raw) : ReadsAsShorthand tree text raw :=
  readsAsShorthand_of_prefixed reads.prefixed

theorem readsAsShorthand_of_atom {tree raw : TypeExpr} {text : String}
    (reads : ReadsAsAtom text raw) : ReadsAsShorthand tree text raw :=
  readsAsShorthand_of_primary reads.primary

/-- Parentheses make an operand of every text. -/
theorem ReadsAsShorthand.operandText {tree raw : TypeExpr} {text : String}
    (reads : ReadsAsShorthand tree text raw) : ReadsAsPrefixed (operandText tree text) raw := by
  cases tree with
  | union members => exact (readsAsAtom_parens reads.expression).primary.prefixed
  | optional inner => exact (readsAsAtom_parens reads.expression).primary.prefixed
  | _ => exact reads.prefixed rfl

/-- A keyword in front of the shorthand of its operand. -/
theorem ReadsAsShorthand.keyword {tree raw : TypeExpr} {text : String}
    (reads : ReadsAsShorthand tree text raw) {kind : Container} {word : String}
    (keyword? : kind.keyword? = some word) :
    ReadsAsPrefixed (word ++ " " ++ TypeExpr.operandText tree text) (.container kind [raw]) := by
  obtain ⟨keyword, chars, rfl⟩ := exists_keyword_of_keyword? keyword?
  exact reads.operandText.keyword keyword chars

/-- Arguments behind commas. -/
theorem readsAsArguments_commas {α : Type} {spelling : α → String} {raw : α → TypeExpr}
    {args : List α} (some : args ≠ [])
    (reads : ∀ arg ∈ args, ReadsAsExpression (spelling arg) (raw arg)) :
    ReadsAsArguments (",".intercalate (args.map spelling)).toList (args.map raw) := by
  apply readsAsArguments_intercalate "," .none rfl (mt List.map_eq_nil_iff.mp some)
  rwa [List.forall₂_map_left_iff, List.forall₂_map_right_iff, List.forall₂_same]

/-- The shorthand of a container with as many arguments as it has. -/
theorem readsAsPrefixed_containerText {kind : Container} {args : List TypeExpr}
    {spelling : TypeExpr → String} {raw : TypeExpr → TypeExpr}
    (reads : ∀ arg ∈ args, ReadsAsShorthand arg (spelling arg) (raw arg))
    (exact : args.length = kind.arity) :
    ReadsAsPrefixed (containerText kind args (args.map spelling))
      (.container kind (args.map raw)) := by
  cases kind with
  | mapping =>
      obtain ⟨key, value, rfl⟩ := List.length_eq_two.mp exact
      exact (readsAsAtom_mapping (reads key (by simp)).expression
        (reads value (by simp)).expression).primary.prefixed
  | sequence =>
      refine (readsAsAtom_sequence (readsAsArguments_commas ?_ fun arg mem =>
        (reads arg mem).expression)).primary.prefixed
      exact List.ne_nil_of_length_pos (exact ▸ Container.arity_pos _)
  | set =>
      refine (readsAsAtom_set (readsAsArguments_commas ?_ fun arg mem =>
        (reads arg mem).expression)).primary.prefixed
      exact List.ne_nil_of_length_pos (exact ▸ Container.arity_pos _)
  | _ =>
      obtain ⟨arg, rfl⟩ := List.length_eq_one_iff.mp exact
      exact (reads arg (List.mem_singleton_self _)).keyword rfl

/-- The shorthand of a union, whose null literal is a question mark behind the
other members. -/
theorem readsAsExpression_unionText {members : List TypeExpr}
    {spelling : TypeExpr → String} {raw : TypeExpr → TypeExpr}
    (reads : ∀ member ∈ members, ReadsAsShorthand member (spelling member) (raw member))
    (flat : ∀ member ∈ members, member.isUnion = false) (several : 2 ≤ members.length) :
    ReadsAsExpression (unionText members (members.map spelling))
      (abridgedUnion members (members.map raw)) := by
  have operands : List.Forall₂ ReadsAsOperand (members.map spelling) (members.map raw) := by
    rw [List.forall₂_map_left_iff, List.forall₂_map_right_iff, List.forall₂_same]
    exact fun member mem => ((reads member mem).prefixed (flat member mem)).operand
  obtain ⟨first, rest, rfl⟩ :=
    List.exists_cons_of_length_pos (Nat.lt_of_lt_of_le Nat.two_pos several)
  by_cases isNull : first.isNull = true
  · simp only [unionText, abridgedUnion, List.head?_cons, Option.any_some, if_pos isNull,
      List.map_cons, List.tail_cons]
    rw [List.map_cons, List.map_cons] at operands
    obtain ⟨-, others⟩ := List.forall₂_cons.mp operands
    rcases rest with _ | ⟨single, _ | ⟨second, more⟩⟩
    · simp at several
    · exact (reads single (by simp)).operandText.marked.expression
    · have inside := readsAsExpression_union others (by simp)
      have marked := (readsAsAtom_parens inside).primary.prefixed.marked.expression
      rwa [String.append_assoc, show ")" ++ "?" = ")?" from rfl] at marked
  · have text : unionText (first :: rest) ((first :: rest).map spelling) =
        "|".intercalate ((first :: rest).map spelling) := if_neg isNull
    have tree : abridgedUnion (first :: rest) ((first :: rest).map raw) =
        .union ((first :: rest).map raw) := if_neg isNull
    rw [text, tree]
    exact readsAsExpression_union operands (by simpa using several)

/-- The literal form keeps a list of values together, but a single value needs
none. -/
theorem readsAsShorthand_literal {values : List LiteralValue} (some : values ≠ [])
    (writable : ∀ value ∈ values, value.Writable) :
    ReadsAsShorthand (.literal values) ((literal values).shorthandText AliasTable.standard)
      ((literal values).abridged AliasTable.standard) := by
  have form := isName_of_declares AliasTable.declares_literal.shortestSpelling
  have tokens := fun value mem => readsAsAtom_shorthandToken (writable value mem)
  have several := readsAsPrimary_subscript form (readsAsArguments_commas some fun value mem =>
    (tokens value mem).primary.prefixed.operand.expression)
  match values with
  | [] => exact absurd rfl some
  | [value] => exact readsAsShorthand_of_atom (tokens value (List.mem_singleton_self _))
  | _ :: _ :: _ => exact readsAsShorthand_of_primary several

theorem readsAsShorthand_generic {base : String} {args : List TypeExpr}
    (name : IsName base.toList) (some : args ≠ [])
    (reads : ∀ arg ∈ args, ReadsAsShorthand arg (arg.shorthandText AliasTable.standard)
      (arg.abridged AliasTable.standard)) :
    ReadsAsShorthand (.generic base args) ((generic base args).shorthandText AliasTable.standard)
      ((generic base args).abridged AliasTable.standard) := by
  rw [shorthandText, abridged, shorthandTexts_eq_map, abridgedAll_eq_map]
  exact readsAsShorthand_of_primary (readsAsPrimary_subscript (isName_shortestSpelling name)
    (readsAsArguments_commas some fun arg mem => (reads arg mem).expression))

theorem readsAsShorthand_tuple {elements : List TypeExpr} (some : elements ≠ [])
    (reads : ∀ element ∈ elements, ReadsAsShorthand element
      (element.shorthandText AliasTable.standard) (element.abridged AliasTable.standard)) :
    ReadsAsShorthand (.tuple elements) ((tuple elements).shorthandText AliasTable.standard)
      ((tuple elements).abridged AliasTable.standard) := by
  have arguments := readsAsArguments_commas some fun element mem => (reads element mem).expression
  rw [shorthandText, abridged, shorthandTexts_eq_map, abridgedAll_eq_map]
  have whole := readsAsAtom_tuple arguments (decide (elements.length = 1)) (by simp [Classical.em])
  simp only [decide_eq_true_eq] at whole
  exact readsAsShorthand_of_atom whole

/-- The shorthand spelling of a canonical tree is read as its abridged tree. -/
theorem readsAsShorthand_shorthandText {tree : TypeExpr}
    (normal : NormalForm AliasTable.standard tree) (writable : Writable tree) :
    ReadsAsShorthand tree (tree.shorthandText AliasTable.standard)
      (tree.abridged AliasTable.standard) := by
  induction normal with
  | name canonical =>
      cases writable with
      | name name =>
          exact readsAsShorthand_of_atom (readsAsAtom_name (isName_shortestSpelling name))
  | wildcard => exact readsAsShorthand_of_atom readsAsAtom_wildcard
  | unknown _ _ _ ih =>
      cases writable with
      | generic name some all =>
          exact readsAsShorthand_generic name some fun arg mem => ih arg mem (all arg mem)
  | plain _ _ _ _ _ ih =>
      cases writable with
      | generic name some all =>
          exact readsAsShorthand_generic name some fun arg mem => ih arg mem (all arg mem)
  | container exact _ _ ih =>
      cases writable with
      | container some all =>
          rw [shorthandText, abridged, shorthandTexts_eq_map, abridgedAll_eq_map]
          exact readsAsShorthand_of_prefixed
            (readsAsPrefixed_containerText (fun arg mem => ih arg mem (all arg mem)) exact)
  | tuple _ _ ih =>
      cases writable with
      | tuple some all =>
          apply readsAsShorthand_tuple some
          intro element mem
          by_cases isEllipsis : element = .ellipsis
          · rw [isEllipsis]
            exact readsAsShorthand_of_atom readsAsAtom_ellipsis
          · exact ih element mem isEllipsis (all element mem)
  | union canonical _ ih =>
      cases writable with
      | union some all =>
          have positive := List.length_pos_iff.mpr some
          have notSingle := canonical.several
          rw [shorthandText, abridged, shorthandTexts_eq_map, abridgedAll_eq_map]
          exact ⟨readsAsExpression_unionText (fun member mem => ih member mem (all member mem))
            canonical.flat (by omega), fun notUnion => by cases notUnion⟩
  | literal values =>
      cases writable with
      | literal some all => exact readsAsShorthand_literal some all

/-! ## What it becomes -/

theorem resolveName_shortestSpelling (table : AliasTable) (path : String) :
    resolveName table (table.shortestSpelling path) = resolveName table path := by
  cases resolved : table.resolve? path with
  | none => rw [AliasTable.shortestSpelling_eq_self resolved]
  | some entry =>
      unfold resolveName
      rw [AliasTable.resolve?_shortestSpelling, resolved]

/-- A union and its null literal apart from each other make the same union. -/
theorem unionOf_null_union (members : List TypeExpr) :
    unionOf [null, .union members] = unionOf (null :: members) := by
  have same : flatMembersOf [null, .union members] = flatMembersOf (null :: members) := by
    simp [flatMembersOf, flatMembers]
  rw [unionOf, unionOf, same]

theorem normalize_optional {table : AliasTable} {raw tree : TypeExpr}
    (notEllipsis : raw ≠ .ellipsis) (success : raw.normalize table = .ok tree) :
    (optional raw).normalize table = .ok (unionOf [null, tree]) :=
  normalize_eq_ok_iff.mpr (.optional notEllipsis success)

theorem CanonicalMembers.tail {first second third : TypeExpr} {rest : List TypeExpr}
    (canonical : CanonicalMembers (first :: second :: third :: rest)) :
    CanonicalMembers (second :: third :: rest) where
  flat := fun member mem => canonical.flat member (List.mem_cons_of_mem _ mem)
  several := by simp
  ordered := (List.pairwise_cons.mp canonical.ordered).2
  oneLiteral := by
    have one := canonical.oneLiteral
    rw [List.filterMap_cons] at one
    split at one
    · exact one
    · exact Nat.lt_of_succ_lt one

/-- What the shorthand of a union is read as becomes the union. -/
theorem normalize_abridgedUnion {table : AliasTable} {members : List TypeExpr}
    {raw : TypeExpr → TypeExpr} (keeps : ∀ tree, (raw tree).isEllipsis = tree.isEllipsis)
    (becomes : ∀ member ∈ members, (raw member).normalize table = .ok member)
    (guarded : .ellipsis ∉ members) (canonical : CanonicalMembers members)
    (distinct : members.Nodup) :
    (abridgedUnion members (members.map raw)).normalize table = .ok (.union members) := by
  have union : ∀ {some : List TypeExpr}, (∀ member ∈ some, member ∈ members) →
      (TypeExpr.union (some.map raw)).normalize table = .ok (unionOf some) := by
    intro some inside
    refine normalize_eq_ok_iff.mpr (.union ?_
      (arguments_of_map keeps fun member mem _ => becomes member (inside member mem)))
    rw [ellipsis_mem_map_iff keeps]
    exact fun mem => guarded (inside _ mem)
  have notEllipsis : ∀ member ∈ members, raw member ≠ .ellipsis := by
    intro member mem
    rw [← isEllipsis_eq_false_iff, keeps, isEllipsis_eq_false_iff]
    rintro rfl
    exact guarded mem
  have whole := canonical.unionOf_eq distinct
  cases members with
  | nil => exact whole ▸ union fun _ mem => mem
  | cons first rest =>
      by_cases isNull : first.isNull = true
      · have tree : abridgedUnion (first :: rest) ((first :: rest).map raw) = _ := if_pos isNull
        rw [tree]
        cases (isNull_eq_true_iff first).mp isNull
        match rest with
        | [] => exact absurd rfl canonical.several
        | [single] =>
            have success := normalize_optional (notEllipsis single (by simp))
              (becomes single (by simp))
            rwa [whole] at success
        | second :: third :: others =>
            have inner := union fun _ mem => List.mem_cons_of_mem _ mem
            rw [canonical.tail.unionOf_eq (List.nodup_cons.mp distinct).2] at inner
            have success := normalize_optional (by simp) inner
            rwa [unionOf_null_union, whole] at success
      · have tree : abridgedUnion (first :: rest) ((first :: rest).map raw) =
            .union ((first :: rest).map raw) := if_neg isNull
        rw [tree, ← whole]
        exact union fun _ mem => mem

/-- The tree that the shorthand is read as has the tree as its canonical form. -/
theorem normalize_abridged {tree : TypeExpr} (normal : NormalForm AliasTable.standard tree)
    (writable : Writable tree) (distinct : DistinctMembers tree) :
    (tree.abridged AliasTable.standard).normalize AliasTable.standard = .ok tree := by
  have keeps := isEllipsis_abridged AliasTable.standard
  induction normal with
  | name canonical =>
      rw [abridged, normalize, resolveName_shortestSpelling, canonical]
  | wildcard => rfl
  | unknown resolved guarded _ ih =>
      cases writable with
      | generic name some all =>
          rw [abridged, abridgedAll_eq_map, AliasTable.shortestSpelling_eq_self resolved]
          exact normalize_unknown resolved (mt (ellipsis_mem_map_iff keeps).mp guarded)
            (arguments_of_map keeps fun arg mem _ => ih arg mem (all arg mem) (distinct.child mem))
  | plain resolved form accepted guarded _ ih =>
      cases writable with
      | generic name some all =>
          rw [abridged, abridgedAll_eq_map]
          rw [← AliasTable.resolve?_shortestSpelling] at resolved
          refine normalize_eq_ok_iff.mpr (.known resolved ?_ (arguments_of_map keeps
            fun arg mem _ => ih arg mem (all arg mem) (distinct.child mem)) accepted
            (.plain form))
          rw [guardedArgs_eq_self (by simp [form])]
          exact mt (ellipsis_mem_map_iff keeps).mp guarded
  | container exact guarded _ ih =>
      cases writable with
      | container some all =>
          rw [abridged, abridgedAll_eq_map]
          exact normalize_eq_ok_iff.mpr (.container (mt (ellipsis_mem_map_iff keeps).mp guarded)
            (arguments_of_map keeps fun arg mem _ => ih arg mem (all arg mem) (distinct.child mem))
            exact)
  | tuple guarded _ ih =>
      cases writable with
      | tuple some all =>
          rw [abridged, abridgedAll_eq_map]
          refine normalize_eq_ok_iff.mpr (.tuple ?_ (arguments_of_map keeps
            fun arg mem notEllipsis => ih arg mem notEllipsis (all arg mem) (distinct.child mem)))
          rwa [ellipsis_mem_fixedElements_map_iff keeps]
  | union canonical forms ih =>
      cases writable with
      | union some all =>
          rw [abridged, abridgedAll_eq_map]
          exact normalize_abridgedUnion keeps
            (fun member mem => ih member mem (all member mem) (distinct.child mem))
            (fun mem => (forms _ mem).ne_ellipsis rfl) canonical distinct.members
  | literal values =>
      cases writable with
      | literal some all =>
          have form := normalize_literal_form AliasTable.declares_literal.shortestSpelling some
          rcases values with _ | ⟨value, _ | ⟨second, others⟩⟩
          · exact absurd rfl some
          · rfl
          · exact form

/-! ## The round trip -/

/-- The shorthand spelling of the canonical tree of a text is a text that has the
same canonical tree, wherever the limit is no smaller than the spelling. -/
theorem renderShorthand_round_trip {source : String} {limit : Nat} {raw tree : TypeExpr}
    (parsed : parseWithin limit source = .ok raw)
    (normalized : raw.normalize AliasTable.standard = .ok tree)
    (distinct : DistinctMembers tree) :
    ∃ text, tree.renderShorthand AliasTable.standard = .ok text ∧
      ∀ limit', text.utf8ByteSize ≤ limit' →
        ∃ raw', parseWithin limit' text = .ok raw' ∧
          raw'.normalize AliasTable.standard = .ok tree := by
  have normal := normalForm_of_normalize coherent_standard raw tree normalized
  have writable := writable_of_normalize raw tree (writable_of_parseWithin parsed) normalized
  have reads := (readsAsShorthand_shorthandText normal writable).expression
  refine ⟨tree.shorthandText AliasTable.standard, ?_, fun limit' fits =>
    ⟨_, reads.parseWithin fits, normalize_abridged normal writable distinct⟩⟩
  rw [renderShorthand, normal.checkCanonical writable]
  rfl

/-- A keyword in front of a union with the null literal makes the round trip. -/
theorem renderShorthand_round_trip_of_keyword :
    parseWithin 3 "async iter (list[1|'a,']|int?)" =
        .ok (.container .asyncIterable [.union [
          .generic "list" [.union [.literal [.int 1], .literal [.str "'a,'"]]],
          .optional (.name "int")]]) ∧
      (TypeExpr.container .asyncIterable [.union [
          .generic "list" [.union [.literal [.int 1], .literal [.str "'a,'"]]],
          .optional (.name "int")]]).normalize AliasTable.standard =
        .ok (.container .asyncIterable [.union [null, .name "int",
          .container .sequence [.literal [.str "'a,'", .int 1]]]]) ∧
      DistinctMembers (.container .asyncIterable [.union [null, .name "int",
        .container .sequence [.literal [.str "'a,'", .int 1]]]]) ∧
      ∃ text, (TypeExpr.container .asyncIterable [.union [null, .name "int",
          .container .sequence [.literal [.str "'a,'", .int 1]]]]).renderShorthand
            AliasTable.standard = .ok text ∧
        ∀ limit', text.utf8ByteSize ≤ limit' → ∃ raw', parseWithin limit' text = .ok raw' ∧
          raw'.normalize AliasTable.standard =
            .ok (.container .asyncIterable [.union [null, .name "int",
              .container .sequence [.literal [.str "'a,'", .int 1]]]]) := by
  have parsed : parseWithin 3 "async iter (list[1|'a,']|int?)" =
      .ok (.container .asyncIterable [.union [
        .generic "list" [.union [.literal [.int 1], .literal [.str "'a,'"]]],
        .optional (.name "int")]]) := by
    decide +kernel
  have distinct : DistinctMembers (.container .asyncIterable [.union [null, .name "int",
      .container .sequence [.literal [.str "'a,'", .int 1]]]]) := by
    intro members mem
    simp only [preorder, preorderAll, null, List.cons_append, List.nil_append, List.mem_cons,
      List.append_nil, reduceCtorEq, union.injEq, or_false, List.not_mem_nil, false_or] at mem
    subst mem
    decide
  exact ⟨parsed, rfl, distinct, renderShorthand_round_trip parsed rfl distinct⟩

end TypeSpelling.TypeExpr
