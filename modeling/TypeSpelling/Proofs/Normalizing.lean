import Mathlib.Data.List.Forall2
import TypeSpelling.Canonical.Normalization
import TypeSpelling.Proofs.Unions

/-!
# What normalization does at a node

A successful normalization pairs every argument of a node with its canonical
form, an ellipsis that the node lets pass with itself.  `Normalizes` lists what
a node may then become, one case for each kind of node with everything that has
been checked there, and `Applied` what a known identifier becomes, one case for
each form; `normalize_eq_ok_iff` says that nothing else happens.  A property of
raw and canonical trees is shown by `inductionOnChildren` and these cases,
without another look at the checks.
-/

namespace TypeSpelling.TypeExpr

variable {table : AliasTable}

/-! ## Checks -/

theorem refuseEllipsis_eq_ok_iff {node : TypeExpr} {args : List TypeExpr} {passed : Unit} :
    refuseEllipsis node args = .ok passed ↔ .ellipsis ∉ args := by
  unfold refuseEllipsis
  split
  · rename_i found
    obtain ⟨arg, mem, isEllipsis⟩ := List.any_eq_true.mp found
    rw [isEllipsis_eq_true_iff] at isEllipsis
    subst isEllipsis
    simp [mem]
  · rename_i absent
    simp only [true_iff]
    intro mem
    exact absent (List.any_eq_true.mpr ⟨_, mem, rfl⟩)

theorem requireArity_eq_ok_iff {node : TypeExpr} {expected : Arity} {actual : Nat}
    {passed : Unit} :
    requireArity node expected actual = .ok passed ↔ expected.accepts actual = true := by
  by_cases accepted : expected.accepts actual = true
  · simp [requireArity, accepted]
  · simp [requireArity, accepted]

/-- A result of two computations in a row is a result of the second on a result
of the first. -/
theorem bind_eq_ok_iff {ε α β : Type} {first : Except ε α} {next : α → Except ε β} {result : β} :
    (first >>= next) = .ok result ↔ ∃ value, first = .ok value ∧ next value = .ok result := by
  cases first with
  | error error => simp [bind, Except.bind]
  | ok value => simp [bind, Except.bind]

/-- The arguments of a literal form are literals, and its values are theirs. -/
theorem literalValues_eq_ok_iff {node : TypeExpr} {args : List TypeExpr}
    {values : List LiteralValue} :
    literalValues node args = .ok values ↔
      ∃ lists : List (List LiteralValue), args = lists.map .literal ∧ values = lists.flatten := by
  induction args generalizing values with
  | nil =>
      constructor
      · intro found
        cases found
        exact ⟨[], rfl, rfl⟩
      · rintro ⟨lists, noArgs, rfl⟩
        rw [List.map_eq_nil_iff.mp noArgs.symm]
        rfl
  | cons first rest ih =>
      cases first with
      | literal own =>
          simp only [literalValues, bind_eq_ok_iff, ih]
          constructor
          · rintro ⟨others, ⟨lists, rfl, rfl⟩, whole⟩
            cases whole
            exact ⟨own :: lists, rfl, rfl⟩
          · rintro ⟨lists, args, rfl⟩
            cases lists with
            | nil => cases args
            | cons list lists =>
                simp only [List.map_cons, List.cons.injEq, literal.injEq] at args
                obtain ⟨rfl, rfl⟩ := args
                exact ⟨lists.flatten, ⟨lists, rfl, rfl⟩, rfl⟩
      | _ =>
          simp only [literalValues, reduceCtorEq, false_iff]
          rintro ⟨lists, args, -⟩
          cases lists <;> simp at args

/-! ## Arguments -/

/-- A raw argument and what it becomes: an ellipsis stays, any other argument
becomes its canonical form. -/
def ArgumentNormal (table : AliasTable) (raw normal : TypeExpr) : Prop :=
  (raw = .ellipsis ∧ normal = .ellipsis) ∨
    (raw ≠ .ellipsis ∧ raw.normalize table = .ok normal)

theorem argumentNormal_iff {raw normal : TypeExpr} :
    ArgumentNormal table raw normal ↔
      (if raw.isEllipsis then .ok .ellipsis else raw.normalize table) = .ok normal := by
  unfold ArgumentNormal
  by_cases isEllipsis : raw = .ellipsis
  · subst isEllipsis
    simp [TypeExpr.isEllipsis, eq_comm]
  · rw [if_neg (mt (isEllipsis_eq_true_iff raw).mp isEllipsis)]
    simp [isEllipsis]

theorem normalizeAll_cons (first : TypeExpr) (rest : List TypeExpr) :
    normalizeAll table (first :: rest) =
      ((if first.isEllipsis then .ok .ellipsis else first.normalize table) >>= fun normal =>
        normalizeAll table rest >>= fun others => .ok (normal :: others)) := by
  rw [normalizeAll]
  split <;> rfl

theorem normalizeAll_eq_ok_iff {args normals : List TypeExpr} :
    normalizeAll table args = .ok normals ↔
      List.Forall₂ (ArgumentNormal table) args normals := by
  induction args generalizing normals with
  | nil =>
      rw [List.forall₂_nil_left_iff, normalizeAll]
      simp [eq_comm]
  | cons first rest ih =>
      simp only [normalizeAll_cons, bind_eq_ok_iff, ← argumentNormal_iff, ih,
        List.forall₂_cons_left_iff, Except.ok.injEq]
      constructor
      · rintro ⟨normal, firstNormal, others, othersNormal, rfl⟩
        exact ⟨normal, others, firstNormal, othersNormal, rfl⟩
      · rintro ⟨normal, others, firstNormal, othersNormal, rfl⟩
        exact ⟨normal, firstNormal, others, othersNormal, rfl⟩

/-- Every canonical argument comes from a raw one. -/
theorem exists_argument_of_mem {raws normals : List TypeExpr}
    (arguments : List.Forall₂ (ArgumentNormal table) raws normals) {normal : TypeExpr}
    (mem : normal ∈ normals) : ∃ raw ∈ raws, ArgumentNormal table raw normal := by
  induction arguments with
  | nil => cases mem
  | cons argument _ ih =>
      rcases List.mem_cons.mp mem with rfl | mem
      · exact ⟨_, List.mem_cons_self .., argument⟩
      · obtain ⟨raw, rawMem, argument⟩ := ih mem
        exact ⟨raw, List.mem_cons_of_mem _ rawMem, argument⟩

/-! ## Nodes -/

/-- What an identifier with canonical arguments becomes, by the form it stands
for. -/
inductive Applied (entry : Entry) (args : List TypeExpr) : TypeExpr → Prop where
  | plain (form : entry.form = .plain) : Applied entry args (.generic entry.canonical args)
  | wildcard (form : entry.form = .wildcard) : Applied entry args .wildcard
  | container {kind : Container} (form : entry.form = .container kind) :
      Applied entry args (.container kind args)
  | tuple (form : entry.form = .tuple) : Applied entry args (.tuple args)
  | union (form : entry.form = .union) : Applied entry args (unionOf args)
  | optional (form : entry.form = .optional) : Applied entry args (unionOf (null :: args))
  | literal {lists : List (List LiteralValue)} (form : entry.form = .literal)
      (literals : args = lists.map .literal) : Applied entry args (.literal lists.flatten)

theorem applyEntry_eq_ok_iff {node : TypeExpr} {entry : Entry} {args : List TypeExpr}
    {normal : TypeExpr} :
    applyEntry node entry args = .ok normal ↔ Applied entry args normal := by
  constructor
  · intro success
    unfold applyEntry at success
    cases form : entry.form with
    | plain =>
        rw [form] at success
        cases success
        exact .plain form
    | wildcard =>
        rw [form] at success
        cases success
        exact .wildcard form
    | container kind =>
        rw [form] at success
        cases success
        exact .container form
    | tuple =>
        rw [form] at success
        cases success
        exact .tuple form
    | union =>
        rw [form] at success
        cases success
        exact .union form
    | optional =>
        rw [form] at success
        cases success
        exact .optional form
    | literal =>
        rw [form] at success
        obtain ⟨values, literals, whole⟩ := bind_eq_ok_iff.mp success
        obtain ⟨lists, same, rfl⟩ := literalValues_eq_ok_iff.mp literals
        cases whole
        exact .literal form same
  · intro applied
    cases applied with
    | literal form literals =>
        simp only [applyEntry, form]
        exact bind_eq_ok_iff.mpr ⟨_, literalValues_eq_ok_iff.mpr ⟨_, literals, rfl⟩, rfl⟩
    | plain form | wildcard form | container form | tuple form | union form | optional form =>
        simp only [applyEntry, form]

theorem guardedArgs_eq_self {entry : Entry} {args : List TypeExpr}
    (notTuple : entry.form ≠ .tuple) : guardedArgs entry args = args :=
  if_neg notTuple

/-- The kinds of nodes, what is checked of each and what it becomes. -/
inductive Normalizes (table : AliasTable) : TypeExpr → TypeExpr → Prop where
  | name (path : String) : Normalizes table (.name path) (resolveName table path)
  | wildcard : Normalizes table .wildcard .wildcard
  | unknown {base : String} {args normals : List TypeExpr}
      (resolved : table.resolve? base = none) (guarded : .ellipsis ∉ args)
      (arguments : List.Forall₂ (ArgumentNormal table) args normals) :
      Normalizes table (.generic base args) (.generic base normals)
  | known {base : String} {args normals : List TypeExpr} {entry : Entry} {normal : TypeExpr}
      (resolved : table.resolve? base = some entry)
      (guarded : .ellipsis ∉ guardedArgs entry args)
      (arguments : List.Forall₂ (ArgumentNormal table) args normals)
      (accepted : entry.arity.accepts normals.length = true)
      (applied : Applied entry normals normal) : Normalizes table (.generic base args) normal
  | container {kind : Container} {args normals : List TypeExpr} (guarded : .ellipsis ∉ args)
      (arguments : List.Forall₂ (ArgumentNormal table) args normals)
      (exact : normals.length = kind.arity) :
      Normalizes table (.container kind args) (.container kind normals)
  | tuple {elements normals : List TypeExpr} (guarded : .ellipsis ∉ fixedElements elements)
      (arguments : List.Forall₂ (ArgumentNormal table) elements normals) :
      Normalizes table (.tuple elements) (.tuple normals)
  | union {members normals : List TypeExpr} (guarded : .ellipsis ∉ members)
      (arguments : List.Forall₂ (ArgumentNormal table) members normals) :
      Normalizes table (.union members) (unionOf normals)
  | optional {inner normal : TypeExpr} (guarded : inner ≠ .ellipsis)
      (argument : inner.normalize table = .ok normal) :
      Normalizes table (.optional inner) (unionOf [null, normal])
  | literal (values : List LiteralValue) : Normalizes table (.literal values) (.literal values)

theorem normalize_generic_eq_ok_iff {base : String} {args : List TypeExpr} {normal : TypeExpr} :
    (generic base args).normalize table = .ok normal ↔
      Normalizes table (.generic base args) normal := by
  rw [normalize]
  cases resolved : table.resolve? base with
  | none =>
      simp only [bind_eq_ok_iff, exists_const, refuseEllipsis_eq_ok_iff,
        normalizeAll_eq_ok_iff]
      constructor
      · rintro ⟨guarded, normals, arguments, whole⟩
        cases whole
        exact .unknown resolved guarded arguments
      · intro normalizes
        cases normalizes with
        | unknown _ guarded arguments => exact ⟨guarded, _, arguments, rfl⟩
        | known found => simp [resolved] at found
  | some entry =>
      simp only [bind_eq_ok_iff, exists_const, refuseEllipsis_eq_ok_iff,
        normalizeAll_eq_ok_iff, requireArity_eq_ok_iff, applyEntry_eq_ok_iff]
      constructor
      · rintro ⟨guarded, normals, arguments, accepted, applied⟩
        exact .known resolved guarded arguments accepted applied
      · intro normalizes
        cases normalizes with
        | unknown missing => simp [resolved] at missing
        | known found guarded arguments accepted applied =>
            rw [resolved] at found
            cases found
            exact ⟨guarded, _, arguments, accepted, applied⟩

/-- A tree has a canonical form exactly if its node passes the checks. -/
theorem normalize_eq_ok_iff {raw normal : TypeExpr} :
    raw.normalize table = .ok normal ↔ Normalizes table raw normal := by
  cases raw with
  | generic base args => exact normalize_generic_eq_ok_iff
  | name path =>
      constructor
      · intro success
        cases success
        exact .name path
      · rintro ⟨⟩
        rfl
  | wildcard =>
      constructor
      · intro success
        cases success
        exact .wildcard
      · rintro ⟨⟩
        rfl
  | literal values =>
      constructor
      · intro success
        cases success
        exact .literal values
      · rintro ⟨⟩
        rfl
  | ellipsis =>
      constructor
      · intro success
        cases success
      · rintro ⟨⟩
  | container kind args =>
      simp only [normalize, bind_eq_ok_iff, exists_const, refuseEllipsis_eq_ok_iff,
        normalizeAll_eq_ok_iff, requireArity_eq_ok_iff, Arity.accepts, decide_eq_true_eq]
      constructor
      · rintro ⟨guarded, normals, arguments, exact, whole⟩
        cases whole
        exact .container guarded arguments exact
      · rintro ⟨⟩
        exact ⟨by assumption, _, by assumption, by assumption, rfl⟩
  | tuple elements =>
      simp only [normalize, bind_eq_ok_iff, exists_const, refuseEllipsis_eq_ok_iff,
        normalizeAll_eq_ok_iff]
      constructor
      · rintro ⟨guarded, normals, arguments, whole⟩
        cases whole
        exact .tuple guarded arguments
      · rintro ⟨⟩
        exact ⟨by assumption, _, by assumption, rfl⟩
  | union members =>
      simp only [normalize, bind_eq_ok_iff, exists_const, refuseEllipsis_eq_ok_iff,
        normalizeAll_eq_ok_iff]
      constructor
      · rintro ⟨guarded, normals, arguments, whole⟩
        cases whole
        exact .union guarded arguments
      · rintro ⟨⟩
        exact ⟨by assumption, _, by assumption, rfl⟩
  | optional inner =>
      simp only [normalize, bind_eq_ok_iff, exists_const, refuseEllipsis_eq_ok_iff,
        List.mem_singleton]
      constructor
      · rintro ⟨guarded, normal, argument, whole⟩
        cases whole
        exact .optional (fun same => guarded same.symm) argument
      · rintro ⟨⟩
        rename_i normal guarded argument
        exact ⟨fun same => guarded same.symm, normal, argument, rfl⟩

/-! ## Canonical forms with their arguments -/

theorem applied_iff {entry : Entry} {args : List TypeExpr} {normal other : TypeExpr}
    (applied : Applied entry args other) : Applied entry args normal ↔ normal = other := by
  have success : applyEntry .wildcard entry args = .ok other := applyEntry_eq_ok_iff.mpr applied
  rw [← applyEntry_eq_ok_iff, success, Except.ok.injEq, eq_comm]

theorem normalize_known_iff {base : String} {entry : Entry} {args : List TypeExpr}
    {normal : TypeExpr} (resolved : table.resolve? base = some entry) :
    (generic base args).normalize table = .ok normal ↔
      .ellipsis ∉ guardedArgs entry args ∧
        ∃ normals, List.Forall₂ (ArgumentNormal table) args normals ∧
          entry.arity.accepts normals.length = true ∧ Applied entry normals normal := by
  rw [normalize_eq_ok_iff]
  constructor
  · intro normalizes
    cases normalizes with
    | unknown missing => simp [resolved] at missing
    | known found guarded arguments accepted applied =>
        rw [resolved] at found
        cases found
        exact ⟨guarded, _, arguments, accepted, applied⟩
  · rintro ⟨guarded, normals, arguments, accepted, applied⟩
    exact .known resolved guarded arguments accepted applied

theorem normalize_container_iff {kind : Container} {args : List TypeExpr} {normal : TypeExpr} :
    (container kind args).normalize table = .ok normal ↔
      .ellipsis ∉ args ∧
        ∃ normals, List.Forall₂ (ArgumentNormal table) args normals ∧
          normals.length = kind.arity ∧ normal = .container kind normals := by
  rw [normalize_eq_ok_iff]
  constructor
  · intro normalizes
    cases normalizes with
    | container guarded arguments exact => exact ⟨guarded, _, arguments, exact, rfl⟩
  · rintro ⟨guarded, normals, arguments, exact, rfl⟩
    exact .container guarded arguments exact

theorem normalize_tuple_iff {elements : List TypeExpr} {normal : TypeExpr} :
    (tuple elements).normalize table = .ok normal ↔
      .ellipsis ∉ fixedElements elements ∧
        ∃ normals, List.Forall₂ (ArgumentNormal table) elements normals ∧
          normal = .tuple normals := by
  rw [normalize_eq_ok_iff]
  constructor
  · intro normalizes
    cases normalizes with
    | tuple guarded arguments => exact ⟨guarded, _, arguments, rfl⟩
  · rintro ⟨guarded, normals, arguments, rfl⟩
    exact .tuple guarded arguments

theorem normalize_union_iff {members : List TypeExpr} {normal : TypeExpr} :
    (union members).normalize table = .ok normal ↔
      .ellipsis ∉ members ∧
        ∃ normals, List.Forall₂ (ArgumentNormal table) members normals ∧
          normal = unionOf normals := by
  rw [normalize_eq_ok_iff]
  constructor
  · intro normalizes
    cases normalizes with
    | union guarded arguments => exact ⟨guarded, _, arguments, rfl⟩
  · rintro ⟨guarded, normals, arguments, rfl⟩
    exact .union guarded arguments

theorem normalize_optional_iff {inner normal : TypeExpr} :
    (optional inner).normalize table = .ok normal ↔
      inner ≠ .ellipsis ∧
        ∃ argument, inner.normalize table = .ok argument ∧ normal = unionOf [null, argument] := by
  rw [normalize_eq_ok_iff]
  constructor
  · intro normalizes
    cases normalizes with
    | optional guarded argument => exact ⟨guarded, _, argument, rfl⟩
  · rintro ⟨guarded, normal, argument, rfl⟩
    exact .optional guarded argument

/-! ## The ellipsis -/

theorem isEllipsis_eq_false_iff {node : TypeExpr} :
    node.isEllipsis = false ↔ node ≠ .ellipsis := by
  rw [← Bool.not_eq_true, isEllipsis_eq_true_iff]

/-- Members of a union are canonical forms of its raw members or literals, so no
ellipsis gets among them. -/
theorem ellipsis_not_mem_flatMembers_unionOf {normals : List TypeExpr}
    (absent : ∀ normal ∈ normals, .ellipsis ∉ normal.flatMembers) :
    .ellipsis ∉ (unionOf normals).flatMembers := by
  rw [(flatMembers_unionOf_perm normals).mem_iff]
  intro mem
  rcases mem_mergedMembers mem with contributed | ⟨values, same⟩
  · obtain ⟨normal, normalMem, inside⟩ := mem_flatMembersOf.mp contributed
    exact absent normal normalMem inside
  · cases same

/-- A canonical form contributes no ellipsis to a union. -/
theorem ellipsis_not_mem_flatMembers (raw : TypeExpr) :
    ∀ normal, raw.normalize table = .ok normal → .ellipsis ∉ normal.flatMembers := by
  induction raw using inductionOnChildren with
  | step raw ih =>
      have absent : ∀ {normals : List TypeExpr}, .ellipsis ∉ raw.children →
          List.Forall₂ (ArgumentNormal table) raw.children normals →
          ∀ normal ∈ normals, .ellipsis ∉ normal.flatMembers := by
        intro normals guarded arguments normal mem
        obtain ⟨child, childMem, ⟨rfl, -⟩ | ⟨-, success⟩⟩ := exists_argument_of_mem arguments mem
        · exact absurd childMem guarded
        · exact ih child childMem normal success
      have nullAbsent : .ellipsis ∉ null.flatMembers := by simp [null, flatMembers]
      intro normal success
      cases normalize_eq_ok_iff.mp success with
      | name path =>
          unfold resolveName
          split
          · simp [flatMembers]
          · split <;> simp [flatMembers]
      | known resolved guarded arguments accepted applied =>
          cases applied with
          | union form =>
              rw [guardedArgs_eq_self (by simp [form])] at guarded
              exact ellipsis_not_mem_flatMembers_unionOf (absent guarded arguments)
          | optional form =>
              rw [guardedArgs_eq_self (by simp [form])] at guarded
              exact ellipsis_not_mem_flatMembers_unionOf
                (List.forall_mem_cons.mpr ⟨nullAbsent, absent guarded arguments⟩)
          | _ => simp [flatMembers]
      | union guarded arguments =>
          exact ellipsis_not_mem_flatMembers_unionOf (absent guarded arguments)
      | optional guarded argument =>
          have innerAbsent := ih _ (List.mem_singleton_self _) _ argument
          exact ellipsis_not_mem_flatMembers_unionOf (List.forall_mem_cons.mpr
            ⟨nullAbsent, List.forall_mem_singleton.mpr innerAbsent⟩)
      | _ => simp [flatMembers]

/-- No tree has the marker for a canonical form. -/
theorem normalize_ne_ellipsis {raw normal : TypeExpr}
    (success : raw.normalize table = .ok normal) : normal ≠ .ellipsis := by
  rintro rfl
  exact ellipsis_not_mem_flatMembers raw _ success (List.mem_singleton_self _)

end TypeSpelling.TypeExpr
