import TypeSpelling.Proofs.NormalForm

/-!
# The checks of normalization

Normalization checks a node, its children from left to right and then the node
again.  `checks` lists the checks of a tree in this order, without a word about
what normalization does in between.  A tree has a canonical form exactly if all
of its checks pass, and where one fails, the first that does decides the error.
The error quotes the node as it stood in the tree, although the node's children
have been rewritten by the time its number of arguments is looked at.
-/

namespace TypeSpelling.TypeExpr

variable {table : AliasTable}

/-! ## What is checked -/

/-- What is checked of a tree and of every node in it. -/
inductive Check where
  /-- A tree is more than an ellipsis. -/
  | whole
  /-- An ellipsis stands nowhere but at the end of a tuple. -/
  | ellipsis
  /-- A node has a number of children that is allowed. -/
  | arity
  /-- The arguments of a literal form are literals. -/
  | literals

/-- The nodes whose children are the elements of a tuple. -/
def HoldsElements (table : AliasTable) : TypeExpr → Prop
  | .tuple _ => True
  | .generic base _ => ∃ entry, table.resolve? base = some entry ∧ entry.form = .tuple
  | _ => False

/-- The numbers of children that a node may have, where they are laid down. -/
def arity? (table : AliasTable) : TypeExpr → Option Arity
  | .container kind _ => some (.exactly kind.arity)
  | .generic base _ => (table.resolve? base).map Entry.arity
  | _ => none

/-- The nodes whose children have to be literals. -/
def TakesLiterals (table : AliasTable) : TypeExpr → Prop
  | .generic base _ => ∃ entry, table.resolve? base = some entry ∧ entry.form = .literal
  | _ => False

/-- A tree that has a literal for its canonical form. -/
def NormalizesToLiteral (table : AliasTable) (node : TypeExpr) : Prop :=
  ∃ values, node.normalize table = .ok (.literal values)

namespace Check

/-- Whether a node passes a check. -/
def Passes (table : AliasTable) (node : TypeExpr) : Check → Prop
  | .whole => node ≠ .ellipsis
  | .ellipsis => ∀ place, node.children[place]? = some .ellipsis →
      node.HoldsElements table ∧ 0 < place ∧ place + 1 = node.children.length
  | .arity => ∀ expected ∈ node.arity? table, expected.accepts node.children.length = true
  | .literals => node.TakesLiterals table → ∀ arg ∈ node.children, arg.NormalizesToLiteral table

/-- The error that is reported where a node fails a check. -/
inductive Fails (table : AliasTable) (node : TypeExpr) : Check → NormalizeError → Prop where
  | whole (bare : node = .ellipsis) : Fails table node .whole (.misplacedEllipsis node)
  | ellipsis (misplaced : ¬ Passes table node .ellipsis) :
      Fails table node .ellipsis (.misplacedEllipsis node)
  | arity {expected : Arity} (laidDown : node.arity? table = some expected)
      (refused : expected.accepts node.children.length = false) :
      Fails table node .arity (.arity node expected node.children.length)
  | literals {before after : List TypeExpr} {arg found : TypeExpr}
      (takes : node.TakesLiterals table) (split : node.children = before ++ arg :: after)
      (literals : ∀ other ∈ before, other.NormalizesToLiteral table)
      (normal : arg.normalize table = .ok found) (other : ¬ arg.NormalizesToLiteral table) :
      Fails table node .literals (.nonLiteralArgument node found)

end Check

/-! ## The order of the checks -/

/-- The checks of a node around the checks of its children. -/
def around (node : TypeExpr) (inner : List (Check × TypeExpr)) : List (Check × TypeExpr) :=
  (.ellipsis, node) :: (inner ++ [(.arity, node), (.literals, node)])

mutual

/-- The checks of the nodes of a tree, in order. -/
def checks : TypeExpr → List (Check × TypeExpr)
  | .name path => around (.name path) []
  | .wildcard => around .wildcard []
  | .generic base args => around (.generic base args) (checksOfAll args)
  | .container kind args => around (.container kind args) (checksOfAll args)
  | .tuple elements => around (.tuple elements) (checksOfAll elements)
  | .union members => around (.union members) (checksOfAll members)
  | .optional inner => around (.optional inner) (checks inner)
  | .literal values => around (.literal values) []
  | .ellipsis => around .ellipsis []

/-- The checks of the nodes of some trees, tree by tree. -/
def checksOfAll : List TypeExpr → List (Check × TypeExpr)
  | [] => []
  | first :: rest => checks first ++ checksOfAll rest

end

theorem checksOfAll_eq_flatMap (nodes : List TypeExpr) :
    checksOfAll nodes = nodes.flatMap checks := by
  induction nodes with
  | nil => rfl
  | cons first rest ih => rw [checksOfAll, ih, List.flatMap_cons]

/-- A node is checked before its children and again behind them. -/
theorem checks_eq (node : TypeExpr) :
    node.checks = around node (node.children.flatMap checks) := by
  cases node <;> simp [checks, children, checksOfAll_eq_flatMap]

theorem mem_checks_iff {node inner : TypeExpr} {check : Check} :
    (check, inner) ∈ node.checks ↔ check ≠ .whole ∧ inner ∈ node.preorder := by
  induction node using inductionOnChildren with
  | step node ih =>
      have below : (check, inner) ∈ node.children.flatMap checks ↔
          check ≠ .whole ∧ inner ∈ node.children.flatMap preorder := by
        simp only [List.mem_flatMap]
        constructor
        · rintro ⟨child, childMem, mem⟩
          obtain ⟨notWhole, inside⟩ := (ih child childMem).mp mem
          exact ⟨notWhole, child, childMem, inside⟩
        · rintro ⟨notWhole, child, childMem, inside⟩
          exact ⟨child, childMem, (ih child childMem).mpr ⟨notWhole, inside⟩⟩
      rw [checks_eq, preorder_eq_cons_children]
      simp only [around, List.mem_cons, List.mem_append, below, Prod.mk.injEq]
      cases check <;> simp [or_comm]

/-! ## The first check that fails -/

/-- Every check of a list passes. -/
def AllPass (table : AliasTable) (checks : List (Check × TypeExpr)) : Prop :=
  ∀ passed ∈ checks, passed.1.Passes table passed.2

/-- The first check of a list that fails reports an error about its node. -/
def FirstFails (table : AliasTable) (checks : List (Check × TypeExpr)) (node : TypeExpr)
    (error : NormalizeError) : Prop :=
  ∃ before check after, checks = before ++ (check, node) :: after ∧
    AllPass table before ∧ check.Fails table node error

/-- What comes first in a list without passing a test is one thing only. -/
theorem first_unique {α : Type} (test : α → Prop) {before before' after after' : List α}
    {first first' : α} (same : before ++ first :: after = before' ++ first' :: after')
    (passes : ∀ other ∈ before, test other) (fails : ¬ test first)
    (passes' : ∀ other ∈ before', test other) (fails' : ¬ test first') : first = first' := by
  induction before generalizing before' with
  | nil =>
      cases before' with
      | nil => exact (List.cons.inj same).1
      | cons head tail =>
          obtain rfl : first = head := (List.cons.inj same).1
          exact absurd (passes' first (List.mem_cons_self ..)) fails
  | cons head tail ih =>
      cases before' with
      | nil =>
          obtain rfl : head = first' := (List.cons.inj same).1
          exact absurd (passes head (List.mem_cons_self ..)) fails'
      | cons head' tail' =>
          exact ih (List.cons.inj same).2 (List.forall_mem_cons.mp passes).2
            (List.forall_mem_cons.mp passes').2

namespace Check

theorem Fails.not_passes {node : TypeExpr} {check : Check} {error : NormalizeError}
    (fails : check.Fails table node error) : ¬ check.Passes table node := by
  cases fails with
  | whole bare => exact fun passes => passes bare
  | ellipsis misplaced => exact misplaced
  | arity laidDown refused =>
      intro passes
      rw [passes _ laidDown] at refused
      cases refused
  | @literals _ _ arg _ takes split _ _ other =>
      exact fun passes => other (passes takes arg (by simp [split]))

/-- A check fails with one error only. -/
theorem Fails.unique {node : TypeExpr} {check : Check} {error error' : NormalizeError}
    (fails : check.Fails table node error) (fails' : check.Fails table node error') :
    error = error' := by
  cases fails with
  | whole => cases fails'; rfl
  | ellipsis => cases fails'; rfl
  | arity laidDown =>
      cases fails' with
      | arity laidDown' =>
          rw [laidDown] at laidDown'
          cases laidDown'
          rfl
  | literals takes split literals normal other =>
      cases fails' with
      | literals takes' split' literals' normal' other' =>
          obtain rfl := first_unique (NormalizesToLiteral table) (split.symm.trans split')
            literals other literals' other'
          rw [normal] at normal'
          cases normal'
          rfl

end Check

theorem allPass_append {left right : List (Check × TypeExpr)} :
    AllPass table (left ++ right) ↔ AllPass table left ∧ AllPass table right :=
  List.forall_mem_append

theorem allPass_singleton {check : Check} {node : TypeExpr} :
    AllPass table [(check, node)] ↔ check.Passes table node :=
  List.forall_mem_singleton

theorem FirstFails.append {left : List (Check × TypeExpr)} {node : TypeExpr}
    {error : NormalizeError} (fails : FirstFails table left node error)
    (right : List (Check × TypeExpr)) : FirstFails table (left ++ right) node error := by
  obtain ⟨before, check, after, rfl, passed, failed⟩ := fails
  exact ⟨before, check, after ++ right, by simp, passed, failed⟩

theorem FirstFails.behind {left right : List (Check × TypeExpr)} {node : TypeExpr}
    {error : NormalizeError} (fails : FirstFails table right node error)
    (passed : AllPass table left) : FirstFails table (left ++ right) node error := by
  obtain ⟨before, check, after, rfl, othersPassed, failed⟩ := fails
  exact ⟨left ++ before, check, after, by simp, allPass_append.mpr ⟨passed, othersPassed⟩, failed⟩

theorem FirstFails.not_allPass {all : List (Check × TypeExpr)} {node : TypeExpr}
    {error : NormalizeError} (fails : FirstFails table all node error) : ¬ AllPass table all := by
  obtain ⟨before, check, after, rfl, -, failed⟩ := fails
  exact fun passed => failed.not_passes (passed (check, node) (by simp))

theorem FirstFails.unique {all : List (Check × TypeExpr)} {node node' : TypeExpr}
    {error error' : NormalizeError} (fails : FirstFails table all node error)
    (fails' : FirstFails table all node' error') : error = error' := by
  obtain ⟨before, check, after, whole, passed, failed⟩ := fails
  obtain ⟨before', check', after', whole', passed', failed'⟩ := fails'
  have same : (check, node) = (check', node') :=
    first_unique (fun check => check.1.Passes table check.2) (whole.symm.trans whole')
      (fun _ mem => passed _ mem) failed.not_passes (fun _ mem => passed' _ mem)
      failed'.not_passes
  cases same
  exact failed.unique failed'

/-! ## Single checks -/

theorem ellipsis_not_mem_dropLastEllipsis_iff {elements : List TypeExpr} :
    .ellipsis ∉ dropLastEllipsis elements ↔
      ∀ place, elements[place]? = some .ellipsis → place + 1 = elements.length := by
  induction elements with
  | nil => simp [dropLastEllipsis]
  | cons first rest ih =>
      cases rest with
      | nil =>
          have never : .ellipsis ∉ dropLastEllipsis [first] := by
            unfold dropLastEllipsis
            split
            · simp
            · rename_i other
              rw [isEllipsis_eq_true_iff] at other
              simpa using Ne.symm other
          refine iff_of_true never fun place found => ?_
          have bound := (List.getElem?_eq_some_iff.mp found).1
          exact Nat.le_antisymm bound (Nat.succ_le_succ (Nat.zero_le place))
      | cons second others =>
          rw [dropLastEllipsis_cons_cons, List.mem_cons, not_or, ih]
          constructor
          · rintro ⟨notFirst, later⟩ (_ | place) found
            · exact absurd (Option.some.inj found).symm notFirst
            · exact congrArg Nat.succ (later place found)
          · intro all
            refine ⟨fun isFirst => ?_, fun place found => Nat.succ.inj (all (place + 1) found)⟩
            cases all 0 (congrArg some isFirst.symm)

/-- An ellipsis that is left of the elements of a tuple is not its last one, or is
its first. -/
theorem ellipsis_not_mem_fixedElements_iff {elements : List TypeExpr} :
    .ellipsis ∉ fixedElements elements ↔
      ∀ place, elements[place]? = some .ellipsis → 0 < place ∧ place + 1 = elements.length := by
  cases elements with
  | nil => simp [fixedElements]
  | cons first rest =>
      rw [fixedElements, List.mem_cons, not_or, ellipsis_not_mem_dropLastEllipsis_iff]
      constructor
      · rintro ⟨notFirst, later⟩ (_ | place) found
        · exact absurd (Option.some.inj found).symm notFirst
        · exact ⟨Nat.succ_pos place, congrArg Nat.succ (later place found)⟩
      · intro all
        refine ⟨fun isFirst => ?_, fun place found => Nat.succ.inj (all (place + 1) found).2⟩
        exact absurd (all 0 (congrArg some isFirst.symm)).1 (Nat.lt_irrefl 0)

namespace Check

theorem passes_ellipsis_of_elements {node : TypeExpr} (elements : node.HoldsElements table) :
    Passes table node .ellipsis ↔ .ellipsis ∉ fixedElements node.children := by
  rw [ellipsis_not_mem_fixedElements_iff]
  exact forall_congr' fun place => imp_congr_right fun _ => and_iff_right elements

theorem passes_ellipsis_of_others {node : TypeExpr} (others : ¬ node.HoldsElements table) :
    Passes table node .ellipsis ↔ .ellipsis ∉ node.children := by
  rw [List.mem_iff_getElem?, not_exists]
  exact forall_congr' fun place => imp_congr_right fun _ =>
    iff_of_false (fun passes => others passes.1) id

/-- What is kept from the arguments of a known identifier is what may not be an
ellipsis. -/
theorem passes_ellipsis_known {base : String} {args : List TypeExpr} {entry : Entry}
    (resolved : table.resolve? base = some entry) :
    Passes table (.generic base args) .ellipsis ↔ .ellipsis ∉ guardedArgs entry args := by
  unfold guardedArgs
  split
  · rename_i tuple
    exact passes_ellipsis_of_elements ⟨entry, resolved, tuple⟩
  · rename_i notTuple
    refine passes_ellipsis_of_others ?_
    rintro ⟨other, found, tuple⟩
    rw [resolved] at found
    cases found
    exact notTuple tuple

theorem passes_ellipsis_unknown {base : String} {args : List TypeExpr}
    (unknown : table.resolve? base = none) :
    Passes table (.generic base args) .ellipsis ↔ .ellipsis ∉ args := by
  refine passes_ellipsis_of_others ?_
  rintro ⟨entry, found, -⟩
  rw [unknown] at found
  cases found

theorem passes_arity_of_none {node : TypeExpr} (free : node.arity? table = none) :
    Passes table node .arity := by
  simp [Passes, free]

theorem passes_literals_of_others {node : TypeExpr} (others : ¬ node.TakesLiterals table) :
    Passes table node .literals :=
  fun takes => absurd takes others

end Check

/-! ## Trees that have a canonical form -/

theorem allPass_checks_iff {node : TypeExpr} :
    AllPass table node.checks ↔ Check.ellipsis.Passes table node ∧
      (∀ child ∈ node.children, AllPass table child.checks) ∧
      Check.arity.Passes table node ∧ Check.literals.Passes table node := by
  have inner : AllPass table (node.children.flatMap checks) ↔
      ∀ child ∈ node.children, AllPass table child.checks := by
    unfold AllPass
    simp only [List.mem_flatMap]
    exact ⟨fun all child childMem passed mem => all passed ⟨child, childMem, mem⟩,
      fun all passed ⟨child, childMem, mem⟩ => all child childMem passed mem⟩
  have behind : AllPass table [(.arity, node), (.literals, node)] ↔
      Check.arity.Passes table node ∧ Check.literals.Passes table node := by
    simp [AllPass]
  rw [checks_eq, around, ← inner, ← behind, ← allPass_append]
  exact List.forall_mem_cons

/-- An ellipsis has nothing of its own to be checked. -/
theorem allPass_checks_ellipsis : AllPass table (checks .ellipsis) :=
  allPass_checks_iff.mpr ⟨fun _ found => absurd found (by simp [children]), by simp [children],
    Check.passes_arity_of_none rfl, Check.passes_literals_of_others id⟩

/-- Every raw argument has a canonical form. -/
theorem exists_normal_of_mem {raws normals : List TypeExpr}
    (arguments : List.Forall₂ (ArgumentNormal table) raws normals) {raw : TypeExpr}
    (mem : raw ∈ raws) : ∃ normal ∈ normals, ArgumentNormal table raw normal := by
  induction arguments with
  | nil => cases mem
  | cons argument _ ih =>
      rcases List.mem_cons.mp mem with rfl | mem
      · exact ⟨_, List.mem_cons_self .., argument⟩
      · obtain ⟨normal, normalMem, argument⟩ := ih mem
        exact ⟨normal, List.mem_cons_of_mem _ normalMem, argument⟩

theorem normalizesToLiteral_of_arguments {raws : List TypeExpr}
    {lists : List (List LiteralValue)}
    (arguments : List.Forall₂ (ArgumentNormal table) raws (lists.map .literal)) :
    ∀ raw ∈ raws, raw.NormalizesToLiteral table := by
  intro raw mem
  obtain ⟨normal, normalMem, argument⟩ := exists_normal_of_mem arguments mem
  obtain ⟨values, -, rfl⟩ := List.mem_map.mp normalMem
  rcases argument with ⟨-, isEllipsis⟩ | ⟨-, success⟩
  · cases isEllipsis
  · exact ⟨values, success⟩

/-- All checks of a tree pass that has a canonical form. -/
theorem allPass_of_normalize {raw : TypeExpr} :
    ∀ {normal}, raw.normalize table = .ok normal → AllPass table raw.checks := by
  induction raw using inductionOnChildren with
  | step raw ih =>
      have below : ∀ {normals : List TypeExpr},
          List.Forall₂ (ArgumentNormal table) raw.children normals →
            ∀ child ∈ raw.children, AllPass table child.checks := by
        intro normals arguments child mem
        obtain ⟨normal, -, ⟨rfl, -⟩ | ⟨-, success⟩⟩ := exists_normal_of_mem arguments mem
        · exact allPass_checks_ellipsis
        · exact ih child mem success
      intro normal success
      rw [allPass_checks_iff]
      cases normalize_eq_ok_iff.mp success with
      | name path | wildcard | literal values =>
          exact ⟨fun _ found => absurd found (by simp [children]), by simp [children],
            Check.passes_arity_of_none rfl, Check.passes_literals_of_others id⟩
      | @unknown base args normals resolved guarded arguments =>
          refine ⟨(Check.passes_ellipsis_unknown resolved).mpr guarded, below arguments,
            Check.passes_arity_of_none (by simp [arity?, resolved]),
            Check.passes_literals_of_others ?_⟩
          rintro ⟨entry, found, -⟩
          cases resolved.symm.trans found
      | @known base args normals entry _ resolved guarded arguments accepted applied =>
          refine ⟨(Check.passes_ellipsis_known resolved).mpr guarded, below arguments, ?_, ?_⟩
          · intro expected laidDown
            obtain rfl : entry.arity = expected := by simpa [arity?, resolved] using laidDown
            rwa [← arguments.length_eq] at accepted
          · rintro ⟨other, found, form⟩
            obtain rfl : entry = other := Option.some.inj (resolved.symm.trans found)
            cases applied with
            | literal _ literals =>
                subst literals
                exact normalizesToLiteral_of_arguments arguments
            | _ otherForm => exact absurd (form.symm.trans otherForm) (by simp)
      | @container kind args normals guarded arguments exact =>
          refine ⟨(Check.passes_ellipsis_of_others id).mpr guarded, below arguments, ?_,
            Check.passes_literals_of_others id⟩
          intro expected laidDown
          obtain rfl : Arity.exactly kind.arity = expected := Option.some.inj laidDown
          exact decide_eq_true (arguments.length_eq.trans exact)
      | @tuple elements normals guarded arguments =>
          have elementsHeld : HoldsElements table (.tuple elements) := trivial
          exact ⟨(Check.passes_ellipsis_of_elements elementsHeld).mpr guarded, below arguments,
            Check.passes_arity_of_none rfl, Check.passes_literals_of_others id⟩
      | union guarded arguments =>
          exact ⟨(Check.passes_ellipsis_of_others id).mpr guarded, below arguments,
            Check.passes_arity_of_none rfl, Check.passes_literals_of_others id⟩
      | @optional inner argument guarded innerSuccess =>
          have arguments : List.Forall₂ (ArgumentNormal table) [inner] [argument] :=
            .cons (.inr ⟨guarded, innerSuccess⟩) .nil
          refine ⟨(Check.passes_ellipsis_of_others id).mpr ?_, below arguments,
            Check.passes_arity_of_none rfl, Check.passes_literals_of_others id⟩
          exact fun mem => guarded (List.mem_singleton.mp mem).symm

/-! ## Trees that have none -/

theorem bind_eq_error_iff {ε α β : Type} {first : Except ε α} {next : α → Except ε β}
    {error : ε} :
    (first >>= next) = .error error ↔
      first = .error error ∨ ∃ value, first = .ok value ∧ next value = .error error := by
  cases first with
  | error other => simp [bind, Except.bind]
  | ok value => simp [bind, Except.bind]

theorem firstFails_of_refuseEllipsis {node : TypeExpr} {guarded : List TypeExpr}
    {error : NormalizeError}
    (guards : Check.ellipsis.Passes table node ↔ .ellipsis ∉ guarded)
    (failed : refuseEllipsis node guarded = .error error) :
    FirstFails table [(.ellipsis, node)] node error := by
  unfold refuseEllipsis at failed
  split at failed
  · rename_i found
    obtain ⟨arg, mem, isEllipsis⟩ := List.any_eq_true.mp found
    rw [isEllipsis_eq_true_iff] at isEllipsis
    subst isEllipsis
    cases failed
    have misplaced : ¬ Check.ellipsis.Passes table node := fun passes => guards.mp passes mem
    exact ⟨[], .ellipsis, [], rfl, by simp [AllPass], .ellipsis misplaced⟩
  · cases failed

theorem fails_of_requireArity {node : TypeExpr} {expected : Arity} {actual : Nat}
    {error : NormalizeError} (laidDown : node.arity? table = some expected)
    (same : actual = node.children.length)
    (failed : requireArity node expected actual = .error error) :
    Check.arity.Fails table node error := by
  subst same
  unfold requireArity at failed
  split at failed
  · cases failed
  · rename_i refused
    cases failed
    exact .arity laidDown (Bool.not_eq_true _ ▸ refused)

/-- The canonical arguments of a literal form are refused for the first raw one
that does not become a literal. -/
theorem exists_split_of_literalValues {node : TypeExpr} {raws normals : List TypeExpr}
    {error : NormalizeError} (arguments : List.Forall₂ (ArgumentNormal table) raws normals)
    (guarded : .ellipsis ∉ raws) (failed : literalValues node normals = .error error) :
    ∃ before arg after found, raws = before ++ arg :: after ∧
      (∀ other ∈ before, other.NormalizesToLiteral table) ∧
      arg.normalize table = .ok found ∧ ¬ arg.NormalizesToLiteral table ∧
      error = .nonLiteralArgument node found := by
  induction arguments with
  | nil => cases failed
  | @cons raw normal raws normals argument arguments ih =>
      rw [List.mem_cons, not_or] at guarded
      obtain ⟨isEllipsis, -⟩ | ⟨-, success⟩ := argument
      · exact absurd isEllipsis.symm guarded.1
      by_cases literal : raw.NormalizesToLiteral table
      · obtain ⟨values, same⟩ := literal
        rw [success] at same
        cases same
        rw [literalValues, bind_eq_error_iff] at failed
        rcases failed with failed | ⟨_, _, impossible⟩
        · obtain ⟨before, arg, after, found, rfl, literals, rest⟩ := ih guarded.2 failed
          refine ⟨raw :: before, arg, after, found, rfl, ?_, rest⟩
          exact List.forall_mem_cons.mpr ⟨⟨values, success⟩, literals⟩
        · cases impossible
      · have isFound : error = .nonLiteralArgument node normal := by
          cases normal with
          | literal values => exact absurd ⟨values, success⟩ literal
          | _ => cases failed; rfl
        exact ⟨[], raw, raws, normal, rfl, by simp, success, literal, isFound⟩

/-- What is checked of a known identifier behind its arguments. -/
theorem firstFails_of_known {base : String} {args normals : List TypeExpr} {entry : Entry}
    {error : NormalizeError} (resolved : table.resolve? base = some entry)
    (guarded : .ellipsis ∉ guardedArgs entry args)
    (arguments : List.Forall₂ (ArgumentNormal table) args normals)
    (failed : (requireArity (.generic base args) entry.arity normals.length >>= fun _ =>
      applyEntry (.generic base args) entry normals) = .error error) :
    FirstFails table [(.arity, .generic base args), (.literals, .generic base args)]
      (.generic base args) error := by
  have laidDown : (generic base args).arity? table = some entry.arity := by simp [arity?, resolved]
  have same : normals.length = (generic base args).children.length := arguments.length_eq.symm
  rcases bind_eq_error_iff.mp failed with failed | ⟨_, accepted, failed⟩
  · exact ⟨[], .arity, _, rfl, by simp [AllPass], fails_of_requireArity laidDown same failed⟩
  rw [requireArity_eq_ok_iff, same] at accepted
  have passed : AllPass table [(.arity, .generic base args)] := by
    refine allPass_singleton.mpr fun expected found => ?_
    obtain rfl : entry.arity = expected := Option.some.inj (laidDown.symm.trans found)
    exact accepted
  unfold applyEntry at failed
  cases form : entry.form with
  | literal =>
      rw [form] at failed
      rw [guardedArgs_eq_self (by simp [form])] at guarded
      rcases bind_eq_error_iff.mp failed with failed | ⟨_, _, impossible⟩
      · obtain ⟨before, arg, after, found, split, literals, normal, other, rfl⟩ :=
          exists_split_of_literalValues arguments guarded failed
        exact ⟨[(.arity, .generic base args)], .literals, [], rfl, passed,
          .literals ⟨entry, resolved, form⟩ split literals normal other⟩
      · cases impossible
  | _ =>
      rw [form] at failed
      cases failed

/-- The first error among the arguments of a node is the first that their checks
report. -/
theorem exists_firstFails_of_normalizeAll {raws : List TypeExpr} {error : NormalizeError}
    (reports : ∀ raw ∈ raws, raw ≠ .ellipsis → raw.normalize table = .error error →
      ∃ node, FirstFails table raw.checks node error)
    (failed : normalizeAll table raws = .error error) :
    ∃ node, FirstFails table (raws.flatMap checks) node error := by
  induction raws with
  | nil => cases failed
  | cons first rest ih =>
      rw [List.forall_mem_cons] at reports
      rw [normalizeAll_cons] at failed
      rw [List.flatMap_cons]
      rcases bind_eq_error_iff.mp failed with failed | ⟨normal, success, failed⟩
      · split at failed
        · cases failed
        · rename_i notEllipsis
          obtain ⟨node, fails⟩ :=
            reports.1 (mt (isEllipsis_eq_true_iff first).mpr notEllipsis) failed
          exact ⟨node, fails.append _⟩
      · have passed : AllPass table first.checks := by
          rcases argumentNormal_iff.mpr success with ⟨rfl, -⟩ | ⟨-, success⟩
          · exact allPass_checks_ellipsis
          · exact allPass_of_normalize success
        rcases bind_eq_error_iff.mp failed with failed | ⟨_, _, impossible⟩
        · obtain ⟨node, fails⟩ := ih reports.2 failed
          exact ⟨node, fails.behind passed⟩
        · cases impossible

/-- A node that is checked, has its children normalized and is checked again
fails with the first of its checks that fails. -/
theorem exists_firstFails_of_stages {node : TypeExpr} {guarded : List TypeExpr}
    {finish : List TypeExpr → Except NormalizeError TypeExpr} {error : NormalizeError}
    (guards : Check.ellipsis.Passes table node ↔ .ellipsis ∉ guarded)
    (reports : ∀ child ∈ node.children, child ≠ .ellipsis →
      child.normalize table = .error error → ∃ node, FirstFails table child.checks node error)
    (finishes : ∀ normals, .ellipsis ∉ guarded →
      List.Forall₂ (ArgumentNormal table) node.children normals → finish normals = .error error →
        FirstFails table [(.arity, node), (.literals, node)] node error)
    (failed : (refuseEllipsis node guarded >>= fun _ =>
      normalizeAll table node.children >>= finish) = .error error) :
    ∃ node', FirstFails table node.checks node' error := by
  rw [checks_eq]
  rcases bind_eq_error_iff.mp failed with failed | ⟨_, passes, failed⟩
  · exact ⟨node, (firstFails_of_refuseEllipsis guards failed).append _⟩
  rw [refuseEllipsis_eq_ok_iff] at passes
  have first : AllPass table [(.ellipsis, node)] := allPass_singleton.mpr (guards.mpr passes)
  rcases bind_eq_error_iff.mp failed with failed | ⟨normals, success, failed⟩
  · obtain ⟨inner, fails⟩ := exists_firstFails_of_normalizeAll reports failed
    exact ⟨inner, (fails.append _).behind first⟩
  · rw [normalizeAll_eq_ok_iff] at success
    have below : AllPass table (node.children.flatMap checks) := by
      intro check mem
      obtain ⟨child, childMem, inside⟩ := List.mem_flatMap.mp mem
      obtain ⟨normal, -, ⟨rfl, -⟩ | ⟨-, success⟩⟩ := exists_normal_of_mem success childMem
      · exact allPass_checks_ellipsis check inside
      · exact allPass_of_normalize success check inside
    exact ⟨node, ((finishes normals passes success failed).behind below).behind first⟩

/-- The operand of a question mark is a list of one argument. -/
theorem staged_optional {inner : TypeExpr} {error : NormalizeError}
    (failed : (optional inner).normalize table = .error error) :
    (refuseEllipsis (.optional inner) [inner] >>= fun _ => normalizeAll table [inner] >>=
      fun normals => .ok (unionOf (null :: normals))) = .error error := by
  rw [normalize] at failed
  rcases bind_eq_error_iff.mp failed with refused | ⟨passed, passes, failed⟩
  · exact bind_eq_error_iff.mpr (.inl refused)
  refine bind_eq_error_iff.mpr (.inr ⟨passed, passes, bind_eq_error_iff.mpr (.inl ?_)⟩)
  rw [refuseEllipsis_eq_ok_iff, List.mem_singleton] at passes
  rcases bind_eq_error_iff.mp failed with failed | ⟨_, _, impossible⟩
  · rw [normalizeAll_cons, if_neg (mt (isEllipsis_eq_true_iff inner).mp (Ne.symm passes)), failed]
    rfl
  · cases impossible

theorem exists_firstFails_of_normalize {raw : TypeExpr} : ∀ {error}, raw ≠ .ellipsis →
    raw.normalize table = .error error → ∃ node, FirstFails table raw.checks node error := by
  induction raw using inductionOnChildren with
  | step raw ih =>
      intro error notEllipsis failed
      have reports : ∀ child ∈ raw.children, child ≠ .ellipsis →
          child.normalize table = .error error → ∃ node, FirstFails table child.checks node error :=
        fun child mem => ih child mem
      cases raw with
      | name | wildcard | literal => cases failed
      | ellipsis => exact absurd rfl notEllipsis
      | generic base args =>
          rw [normalize] at failed
          cases resolved : table.resolve? base with
          | none =>
              rw [resolved] at failed
              exact exists_firstFails_of_stages (Check.passes_ellipsis_unknown resolved) reports
                (fun _ _ _ impossible => by cases impossible) failed
          | some entry =>
              rw [resolved] at failed
              exact exists_firstFails_of_stages (Check.passes_ellipsis_known resolved) reports
                (fun _ => firstFails_of_known resolved) failed
      | container kind args =>
          refine exists_firstFails_of_stages (Check.passes_ellipsis_of_others id) reports
            (fun normals _ arguments failed => ?_) failed
          rcases bind_eq_error_iff.mp failed with failed | ⟨_, _, impossible⟩
          · exact ⟨[], .arity, _, rfl, by simp [AllPass],
              fails_of_requireArity rfl arguments.length_eq.symm failed⟩
          · cases impossible
      | tuple elements =>
          have elementsHeld : HoldsElements table (.tuple elements) := trivial
          exact exists_firstFails_of_stages (Check.passes_ellipsis_of_elements elementsHeld)
            reports (fun _ _ _ impossible => by cases impossible) failed
      | union members =>
          exact exists_firstFails_of_stages (Check.passes_ellipsis_of_others id) reports
            (fun _ _ _ impossible => by cases impossible) failed
      | optional inner =>
          exact exists_firstFails_of_stages (Check.passes_ellipsis_of_others id) reports
            (fun _ _ _ impossible => by cases impossible) (staged_optional failed)

/-! ## Success and failure -/

theorem Check.Fails.node_eq {node : TypeExpr} {check : Check} {error : NormalizeError}
    (fails : check.Fails table node error) : error.node = node := by
  cases fails <;> rfl

theorem FirstFails.node_eq {all : List (Check × TypeExpr)} {node : TypeExpr}
    {error : NormalizeError} (fails : FirstFails table all node error) : error.node = node := by
  obtain ⟨_, _, _, _, _, failed⟩ := fails
  exact failed.node_eq

theorem FirstFails.mem_preorder {tree node : TypeExpr} {error : NormalizeError}
    (fails : FirstFails table ((.whole, tree) :: tree.checks) node error) :
    node ∈ tree.preorder := by
  obtain ⟨before, check, after, whole, -, -⟩ := fails
  have mem : (check, node) ∈ (Check.whole, tree) :: tree.checks := by simp [whole]
  rcases List.mem_cons.mp mem with same | mem
  · cases same
    exact mem_preorder_self tree
  · exact (mem_checks_iff.mp mem).2

theorem allPass_checks_iff_forall {tree : TypeExpr} :
    AllPass table tree.checks ↔ ∀ node ∈ tree.preorder, Check.ellipsis.Passes table node ∧
      Check.arity.Passes table node ∧ Check.literals.Passes table node := by
  constructor
  · intro passed node mem
    exact ⟨passed _ (mem_checks_iff.mpr ⟨Check.noConfusion, mem⟩),
      passed _ (mem_checks_iff.mpr ⟨Check.noConfusion, mem⟩),
      passed _ (mem_checks_iff.mpr ⟨Check.noConfusion, mem⟩)⟩
  · rintro all ⟨check, node⟩ mem
    obtain ⟨notWhole, mem⟩ := mem_checks_iff.mp mem
    obtain ⟨ellipsis, arity, literals⟩ := all node mem
    cases check with
    | whole => exact absurd rfl notWhole
    | ellipsis => exact ellipsis
    | arity => exact arity
    | literals => exact literals

/-- A failing normalization reports the first check that fails, that of the whole
tree before all others. -/
theorem exists_firstFails {tree : TypeExpr} {error : NormalizeError}
    (failed : tree.normalize table = .error error) :
    ∃ node, FirstFails table ((.whole, tree) :: tree.checks) node error := by
  by_cases bare : tree = .ellipsis
  · subst bare
    cases failed
    exact ⟨.ellipsis, [], .whole, _, rfl, by simp [AllPass], .whole rfl⟩
  · have passes : Check.whole.Passes table tree := bare
    obtain ⟨node, fails⟩ := exists_firstFails_of_normalize bare failed
    exact ⟨node, fails.behind (allPass_singleton.mpr passes)⟩

/-- A tree has a canonical form exactly if it is no ellipsis and each of its nodes
passes the three checks of nodes.  Otherwise the error is that of the first check
that fails, and quotes the node that failed it as it stands in the tree. -/
theorem normalize_checked (table : AliasTable) (tree : TypeExpr) :
    ((∃ normal, tree.normalize table = .ok normal) ↔
      tree ≠ .ellipsis ∧ ∀ node ∈ tree.preorder, Check.ellipsis.Passes table node ∧
        Check.arity.Passes table node ∧ Check.literals.Passes table node) ∧
    ∀ error, tree.normalize table = .error error ↔
      ∃ node ∈ tree.preorder, error.node = node ∧
        FirstFails table ((.whole, tree) :: tree.checks) node error := by
  have passed : ∀ {normal}, tree.normalize table = .ok normal →
      Check.whole.Passes table tree ∧ AllPass table tree.checks := by
    refine fun {normal} success => ⟨?_, allPass_of_normalize success⟩
    rintro rfl
    cases success
  rw [← allPass_checks_iff_forall]
  refine ⟨⟨fun ⟨normal, success⟩ => passed success, fun ⟨bare, all⟩ => ?_⟩, fun error => ?_⟩
  · cases outcome : tree.normalize table with
    | ok normal => exact ⟨normal, rfl⟩
    | error error =>
        obtain ⟨node, fails⟩ := exists_firstFails_of_normalize bare outcome
        exact absurd all fails.not_allPass
  · constructor
    · intro failed
      obtain ⟨node, fails⟩ := exists_firstFails failed
      exact ⟨node, fails.mem_preorder, fails.node_eq, fails⟩
    · rintro ⟨node, -, -, fails⟩
      cases outcome : tree.normalize table with
      | ok normal =>
          obtain ⟨whole, all⟩ := passed outcome
          exact absurd (allPass_append.mpr ⟨allPass_singleton.mpr whole, all⟩) fails.not_allPass
      | error other =>
          obtain ⟨_, otherFails⟩ := exists_firstFails outcome
          rw [otherFails.unique fails]

/-- The wrong number of arguments of a child comes before the ellipsis of its
neighbour, and before the wrong number of the node above them. -/
example : (generic "typing.List" [.container .mapping [.wildcard], .tuple [.ellipsis]]).normalize
    .standard = .error (.arity (.container .mapping [.wildcard]) (.exactly 2) 1) := by
  cbv

end TypeSpelling.TypeExpr
