import TypeSpelling.Proofs.Composing
import TypeSpelling.Proofs.Shapes

/-!
# Reading the canonical spelling

The canonical spelling of a tree is read as a tree of names with subscripts, and
that tree has the canonical tree as its canonical form.  So the canonical
spelling of a text is a text of the same canonical tree.
-/

namespace TypeSpelling.TypeExpr

open TypeSpelling.Source

/-! ## What the canonical spelling is read as -/

mutual

/-- The tree that the canonical spelling of a tree is read as. -/
def spelledOut : TypeExpr → TypeExpr
  | .name path => .name path
  | .wildcard => .name "typing.Any"
  | .generic base args => .generic base (spelledOutAll args)
  | .container kind args => .generic kind.canonicalName (spelledOutAll args)
  | .tuple elements => .generic "typing.Tuple" (spelledOutAll elements)
  | .union members =>
      if isNullable members then .generic "typing.Optional" (spelledOutAll members).tail
      else .generic "typing.Union" (spelledOutAll members)
  | .optional inner => .generic "typing.Optional" [spelledOut inner]
  | .literal values =>
      if values = [.null] then null
      else .generic "typing.Literal" (values.map fun value => .literal [value])
  | .ellipsis => .ellipsis

/-- The trees that the canonical spellings of a list of trees are read as. -/
def spelledOutAll : List TypeExpr → List TypeExpr
  | [] => []
  | first :: rest => spelledOut first :: spelledOutAll rest

end

theorem spelledOutAll_eq_map (nodes : List TypeExpr) :
    spelledOutAll nodes = nodes.map spelledOut := by
  induction nodes with
  | nil => rfl
  | cons first rest ih => rw [spelledOutAll, ih, List.map_cons]

theorem isEllipsis_spelledOut (tree : TypeExpr) : tree.spelledOut.isEllipsis = tree.isEllipsis := by
  cases tree with
  | union members =>
      rw [spelledOut]
      split <;> rfl
  | literal values =>
      rw [spelledOut]
      split <;> rfl
  | _ => rfl

theorem isNullable_eq_true_iff {members : List TypeExpr} :
    isNullable members = true ↔ ∃ other, members = [null, other] := by
  unfold isNullable
  split
  · simp [isNull_eq_true_iff]
  · rename_i notPair
    simp only [Bool.false_eq_true, false_iff]
    rintro ⟨other, rfl⟩
    exact notPair _ _ rfl

/-- A name with the spellings of its arguments in a subscript. -/
theorem readsAsPrimary_subscriptText {α : Type} {base : String} {spelling : α → String}
    {raw : α → TypeExpr} (args : List α) (name : IsName base.toList) (some : args ≠ [])
    (reads : ∀ arg ∈ args, ReadsAsPrimary (spelling arg) (raw arg)) :
    ReadsAsPrimary (subscriptText base (args.map spelling)) (.generic base (args.map raw)) := by
  have all : List.Forall₂ ReadsAsExpression (args.map spelling) (args.map raw) := by
    rw [List.forall₂_map_left_iff, List.forall₂_map_right_iff, List.forall₂_same]
    exact fun arg mem => (reads arg mem).prefixed.operand.expression
  exact readsAsPrimary_subscript name
    (readsAsArguments_intercalate ", " .space rfl (mt List.map_eq_nil_iff.mp some) all)

theorem isName_of_declares {spelling : String} {form : Form} {arity : Arity}
    (declares : AliasTable.Declares spelling form arity) : IsName spelling.toList := by
  obtain ⟨entry, resolved, -, -⟩ := declares
  exact AliasTable.isName_of_resolve? resolved

/-- The canonical spelling of a tree that can be written is read as the tree of
names with subscripts. -/
theorem readsAsPrimary_canonicalText {tree : TypeExpr} (writable : Writable tree) :
    ReadsAsPrimary tree.canonicalText tree.spelledOut := by
  induction writable with
  | name name => exact (readsAsAtom_name name).primary
  | wildcard => exact (readsAsAtom_name (isName_of_declares AliasTable.declares_any)).primary
  | generic name some _ ih =>
      rw [canonicalText, spelledOut, canonicalTexts_eq_map, spelledOutAll_eq_map]
      exact readsAsPrimary_subscriptText _ name some ih
  | @container kind _ some _ ih =>
      rw [canonicalText, spelledOut, canonicalTexts_eq_map, spelledOutAll_eq_map]
      exact readsAsPrimary_subscriptText _
        (isName_of_declares (AliasTable.declares_container kind)) some ih
  | tuple some _ ih =>
      rw [canonicalText, spelledOut, canonicalTexts_eq_map, spelledOutAll_eq_map]
      exact readsAsPrimary_subscriptText _ (isName_of_declares AliasTable.declares_tuple) some ih
  | @union members some _ ih =>
      rw [canonicalText, spelledOut, canonicalTexts_eq_map, spelledOutAll_eq_map,
        canonicalUnionText]
      by_cases nullable : isNullable members = true
      · obtain ⟨other, rfl⟩ := isNullable_eq_true_iff.mp nullable
        rw [if_pos nullable, if_pos nullable]
        exact readsAsPrimary_subscriptText [other]
          (isName_of_declares AliasTable.declares_optional) (List.cons_ne_nil _ _)
          (fun arg mem => ih arg (List.mem_cons_of_mem _ mem))
      · rw [if_neg nullable, if_neg nullable]
        exact readsAsPrimary_subscriptText _ (isName_of_declares AliasTable.declares_union) some ih
  | @optional inner _ ih =>
      exact readsAsPrimary_subscriptText [inner]
        (isName_of_declares AliasTable.declares_optional) (List.cons_ne_nil _ _)
        (List.forall_mem_singleton.mpr ih)
  | @literal values some all =>
      rw [canonicalText, spelledOut]
      by_cases isNull : values = [.null]
      · rw [if_pos isNull, if_pos isNull]
        exact (readsAsAtom_null (by decide)).primary
      · rw [if_neg isNull, if_neg isNull]
        exact readsAsPrimary_subscriptText values
          (isName_of_declares AliasTable.declares_literal) some
          fun value mem => (readsAsAtom_canonicalToken (all value mem)).primary
  | ellipsis => exact readsAsAtom_ellipsis.primary

/-! ## What it becomes -/

theorem accepts_atLeast_one {α : Type} {items : List α} (some : items ≠ []) :
    (Arity.atLeast 1).accepts items.length = true :=
  decide_eq_true (List.length_pos_iff.mpr some)

/-- A name that the standard table declares, with arguments that become
canonical. -/
theorem normalize_declared {spelling : String} {form : Form} {arity : Arity}
    {raws normals : List TypeExpr} {tree : TypeExpr}
    (declares : AliasTable.Declares spelling form arity)
    (guarded : .ellipsis ∉ if form = .tuple then fixedElements raws else raws)
    (arguments : List.Forall₂ (ArgumentNormal AliasTable.standard) raws normals)
    (accepted : arity.accepts normals.length = true)
    (applied : ∀ entry : Entry, entry.form = form → Applied entry normals tree) :
    (generic spelling raws).normalize AliasTable.standard = .ok tree := by
  obtain ⟨entry, resolved, rfl, rfl⟩ := declares
  exact normalize_eq_ok_iff.mpr (.known resolved guarded arguments accepted (applied entry rfl))

theorem normalize_any : (name "typing.Any").normalize AliasTable.standard = .ok .wildcard := by
  obtain ⟨entry, resolved, form, -⟩ := AliasTable.declares_any
  rw [normalize, resolveName, resolved]
  exact congrArg Except.ok (if_pos form)

theorem normalize_unknown {table : AliasTable} {base : String} {raws normals : List TypeExpr}
    (resolved : table.resolve? base = none) (guarded : .ellipsis ∉ raws)
    (arguments : List.Forall₂ (ArgumentNormal table) raws normals) :
    (generic base raws).normalize table = .ok (.generic base normals) :=
  normalize_eq_ok_iff.mpr (.unknown resolved guarded arguments)

/-- The literal form of single values is the literal of all of them. -/
theorem normalize_literal_form {spelling : String} {values : List LiteralValue}
    (declares : AliasTable.Declares spelling .literal (.atLeast 1)) (some : values ≠ []) :
    (generic spelling (values.map fun value => .literal [value])).normalize
      AliasTable.standard = .ok (.literal values) := by
  have literal : ∀ arg ∈ values.map fun value => TypeExpr.literal [value],
      arg ≠ .ellipsis ∧ arg.normalize AliasTable.standard = .ok arg := by
    intro arg mem
    obtain ⟨value, -, rfl⟩ := List.mem_map.mp mem
    exact ⟨by simp, rfl⟩
  apply normalize_declared declares (fun mem => (literal _ mem).1 rfl)
    (List.forall₂_same.mpr fun arg mem => .inr (literal arg mem))
    (accepts_atLeast_one (mt List.map_eq_nil_iff.mp some))
  intro entry form
  have flat : (values.map fun value => [value]).flatten = values := by
    rw [← List.flatMap_def, List.flatMap_singleton']
  have applied := Applied.literal form (values.map_map (f := fun value => [value])).symm
  rwa [flat] at applied

/-- The tree that the canonical spelling is read as has the tree as its canonical
form. -/
theorem normalize_spelledOut {tree : TypeExpr} (normal : NormalForm AliasTable.standard tree)
    (writable : Writable tree) (distinct : DistinctMembers tree) :
    tree.spelledOut.normalize AliasTable.standard = .ok tree := by
  have absent : ∀ {args : List TypeExpr}, .ellipsis ∉ args → .ellipsis ∉ args.map spelledOut :=
    mt (ellipsis_mem_map_iff isEllipsis_spelledOut).mp
  have becomes : ∀ {args : List TypeExpr},
      (∀ arg ∈ args, arg ≠ .ellipsis → arg.spelledOut.normalize AliasTable.standard = .ok arg) →
        List.Forall₂ (ArgumentNormal AliasTable.standard) (args.map spelledOut) args :=
    fun all => arguments_of_map isEllipsis_spelledOut all
  induction normal with
  | name canonical => exact congrArg Except.ok canonical
  | wildcard => exact normalize_any
  | unknown resolved guarded _ ih =>
      cases writable with
      | generic name some all =>
          rw [spelledOut, spelledOutAll_eq_map]
          exact normalize_unknown resolved (absent guarded)
            (becomes fun arg mem _ => ih arg mem (all arg mem) (distinct.child mem))
  | plain resolved form accepted guarded _ ih =>
      cases writable with
      | generic name some all =>
          rw [spelledOut, spelledOutAll_eq_map]
          refine normalize_eq_ok_iff.mpr (.known resolved ?_
            (becomes fun arg mem _ => ih arg mem (all arg mem) (distinct.child mem)) accepted
            (.plain form))
          rw [guardedArgs_eq_self (by simp [form])]
          exact absent guarded
  | container exact guarded _ ih =>
      cases writable with
      | container some all =>
          rw [spelledOut, spelledOutAll_eq_map]
          exact normalize_declared (AliasTable.declares_container _) (absent guarded)
            (becomes fun arg mem _ => ih arg mem (all arg mem) (distinct.child mem))
            (decide_eq_true exact) fun entry form => .container form
  | tuple guarded _ ih =>
      cases writable with
      | tuple some all =>
          rw [spelledOut, spelledOutAll_eq_map]
          exact normalize_declared AliasTable.declares_tuple
            (mt (ellipsis_mem_fixedElements_map_iff isEllipsis_spelledOut).mp guarded)
            (becomes fun arg mem notEllipsis =>
              ih arg mem notEllipsis (all arg mem) (distinct.child mem))
            (accepts_atLeast_one some) fun entry form => .tuple form
  | @union members canonical forms ih =>
      cases writable with
      | union some all =>
          have each : ∀ member ∈ members,
              member.spelledOut.normalize AliasTable.standard = .ok member :=
            fun member mem => ih member mem (all member mem) (distinct.child mem)
          have guarded : .ellipsis ∉ members := fun mem => (forms _ mem).ne_ellipsis rfl
          have whole := canonical.unionOf_eq distinct.members
          rw [spelledOut, spelledOutAll_eq_map]
          by_cases nullable : isNullable members = true
          · obtain ⟨other, rfl⟩ := isNullable_eq_true_iff.mp nullable
            rw [List.forall_mem_cons] at each
            rw [List.mem_cons, not_or] at guarded
            rw [if_pos nullable]
            exact normalize_declared AliasTable.declares_optional (absent guarded.2)
              (becomes fun arg mem _ => each.2 arg mem) rfl
              fun entry form => whole ▸ .optional form
          · rw [if_neg nullable]
            exact normalize_declared AliasTable.declares_union (absent guarded)
              (becomes fun arg mem _ => each arg mem) (accepts_atLeast_one some)
              fun entry form => whole ▸ .union form
  | literal values =>
      cases writable with
      | literal some all =>
          rw [spelledOut]
          split
          · rename_i isNull
            rw [isNull]
            rfl
          · exact normalize_literal_form AliasTable.declares_literal some

/-! ## The round trip -/

theorem renderCanonical_eq_ok {table : AliasTable} {tree : TypeExpr}
    (normal : NormalForm table tree) (writable : Writable tree) :
    tree.renderCanonical = .ok tree.canonicalText := by
  rw [renderCanonical, normal.checkCanonical writable]
  rfl

/-- The canonical spelling of the canonical tree of a text is a text that has the
same canonical tree, wherever the limit is no smaller than the spelling. -/
theorem renderCanonical_round_trip {source : String} {limit : Nat} {raw tree : TypeExpr}
    (parsed : parseWithin limit source = .ok raw)
    (normalized : raw.normalize AliasTable.standard = .ok tree)
    (distinct : DistinctMembers tree) :
    ∃ text, tree.renderCanonical = .ok text ∧
      ∀ limit', text.utf8ByteSize ≤ limit' →
        ∃ raw', parseWithin limit' text = .ok raw' ∧
          raw'.normalize AliasTable.standard = .ok tree := by
  have normal := normalForm_of_normalize coherent_standard raw tree normalized
  have writable := writable_of_normalize raw tree (writable_of_parseWithin parsed) normalized
  have reads := (readsAsPrimary_canonicalText writable).prefixed.operand.expression
  exact ⟨tree.canonicalText, renderCanonical_eq_ok normal writable, fun limit' fits =>
    ⟨tree.spelledOut, reads.parseWithin fits, normalize_spelledOut normal writable distinct⟩⟩

/-- Quotation marks, an optional and a tuple of any length make the round trip. -/
theorem renderCanonical_round_trip_of_quoted :
    parseWithin 2 "(_,...)|'],'|await int?" =
        .ok (.union [.tuple [.wildcard, .ellipsis], .literal [.str "'],'"],
          .optional (.container .awaitable [.name "int"])]) ∧
      (TypeExpr.union [.tuple [.wildcard, .ellipsis], .literal [.str "'],'"],
          .optional (.container .awaitable [.name "int"])]).normalize AliasTable.standard =
        .ok (.union [null, .container .awaitable [.name "int"], .tuple [.wildcard, .ellipsis],
          .literal [.str "'],'"]]) ∧
      DistinctMembers (.union [null, .container .awaitable [.name "int"],
        .tuple [.wildcard, .ellipsis], .literal [.str "'],'"]]) ∧
      ∃ text, (TypeExpr.union [null, .container .awaitable [.name "int"],
          .tuple [.wildcard, .ellipsis], .literal [.str "'],'"]]).renderCanonical = .ok text ∧
        ∀ limit', text.utf8ByteSize ≤ limit' → ∃ raw', parseWithin limit' text = .ok raw' ∧
          raw'.normalize AliasTable.standard =
            .ok (.union [null, .container .awaitable [.name "int"],
              .tuple [.wildcard, .ellipsis], .literal [.str "'],'"]]) := by
  have parsed : parseWithin 2 "(_,...)|'],'|await int?" =
      .ok (.union [.tuple [.wildcard, .ellipsis], .literal [.str "'],'"],
        .optional (.container .awaitable [.name "int"])]) := by
    decide +kernel
  have distinct : DistinctMembers (.union [null, .container .awaitable [.name "int"],
      .tuple [.wildcard, .ellipsis], .literal [.str "'],'"]]) := by
    intro members mem
    simp only [preorder, preorderAll, null, List.cons_append, List.nil_append, List.mem_cons,
      List.append_nil, reduceCtorEq, union.injEq, or_false, List.not_mem_nil] at mem
    subst mem
    decide
  exact ⟨parsed, rfl, distinct, renderCanonical_round_trip parsed rfl distinct⟩

end TypeSpelling.TypeExpr
