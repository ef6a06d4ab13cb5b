import TypeSpelling.Proofs.Normalizing
import TypeSpelling.Proofs.StandardTable
import TypeSpelling.TypeExpr.Traversal

/-!
# Normal forms

What a canonical tree looks like under a table, node by node: identifiers are
canonical, no known identifier is left that stands for a shape of its own, and
the members of a union are flat, in order and hold at most one literal besides
the null literal.  Every result of normalization has this form, and a tree of
this form is its own canonical form where no union repeats a member.
-/

namespace TypeSpelling.TypeExpr

variable {table : AliasTable}

/-! ## Members of unions -/

/-- What is always true of the members of a union that `unionOf` has built. -/
structure CanonicalMembers (members : List TypeExpr) : Prop where
  flat : ∀ member ∈ members, member.isUnion = false
  several : members.length ≠ 1
  ordered : members.Pairwise (precedes · · = true)
  oneLiteral : (members.filterMap mergeable?).length < 2

theorem filterMap_mergeable?_mergeLiterals_lt (members : List TypeExpr) :
    ((mergeLiterals members).filterMap mergeable?).length < 2 := by
  by_cases few : (members.filterMap mergeable?).length < 2
  · rwa [mergeLiterals_eq_self few]
  · have others : (members.filter fun member => (mergeable? member).isNone).filterMap
        mergeable? = [] := by
      apply List.filterMap_eq_nil_iff.mpr
      intro member mem
      exact (mem_unmerged_iff.mp mem).2
    rw [mergeLiterals_eq_cons (Nat.not_lt.mp few), List.filterMap_cons, others]
    cases mergeable? (mergedLiteral members) <;> simp

/-- A union is a single member or has canonical members. -/
theorem unionOf_canonical (members : List TypeExpr) :
    mergedMembers members = [unionOf members] ∨
      ∃ own, unionOf members = .union own ∧ own.Perm (mergedMembers members) ∧
        CanonicalMembers own := by
  rcases unionOf_cases members with single | ⟨notSingle, several⟩
  · exact .inl single
  · have perm := Sorting.sort_perm precedes (mergedMembers members)
    refine .inr ⟨_, several, perm, fun member mem => ?_, ?_, ?_, ?_⟩
    · exact isUnion_eq_false_of_mem_mergedMembers member (perm.mem_iff.mp mem)
    · rwa [perm.length_eq]
    · exact Sorting.pairwise_sort precedes_total precedes_trans _
    · rw [(perm.filterMap mergeable?).length_eq]
      exact filterMap_mergeable?_mergeLiterals_lt _

theorem eraseDups_eq_self {members : List TypeExpr} (distinct : members.Nodup) :
    members.eraseDups = members := by
  induction members with
  | nil => rfl
  | cons first rest ih =>
      obtain ⟨fresh, restDistinct⟩ := List.nodup_cons.mp distinct
      have kept : (rest.filter fun other => !other == first) = rest := by
        apply List.filter_eq_self.mpr
        intro other mem
        have different : other ≠ first := by
          rintro rfl
          exact fresh mem
        simpa using different
      rw [List.eraseDups_cons, kept, ih restDistinct]

/-- Distinct canonical members make the union that has them. -/
theorem CanonicalMembers.unionOf_eq {members : List TypeExpr}
    (canonical : CanonicalMembers members) (distinct : members.Nodup) :
    unionOf members = .union members := by
  have merged : mergedMembers members = members := by
    rw [mergedMembers, flatMembersOf_eq_self canonical.flat, eraseDups_eq_self distinct,
      mergeLiterals_eq_self canonical.oneLiteral]
  rcases unionOf_cases members with single | ⟨-, several⟩
  · have one := congrArg List.length single
    rw [merged] at one
    exact absurd one canonical.several
  · rw [several, merged, Sorting.sort_eq_self canonical.ordered]

/-! ## Where an ellipsis stands -/

theorem ellipsis_mem_iff {nodes : List TypeExpr} :
    .ellipsis ∈ nodes ↔ true ∈ nodes.map isEllipsis := by
  simp [isEllipsis_eq_true_iff]

theorem ellipsis_mem_congr {left right : List TypeExpr}
    (same : left.map isEllipsis = right.map isEllipsis) :
    .ellipsis ∈ left ↔ .ellipsis ∈ right := by
  rw [ellipsis_mem_iff, same, ← ellipsis_mem_iff]

theorem ellipsis_eq_congr {left right : TypeExpr} (same : left.isEllipsis = right.isEllipsis) :
    .ellipsis = left ↔ .ellipsis = right := by
  rw [eq_comm, ← isEllipsis_eq_true_iff, same, isEllipsis_eq_true_iff, eq_comm]

theorem dropLastEllipsis_cons_cons (first second : TypeExpr) (rest : List TypeExpr) :
    dropLastEllipsis (first :: second :: rest) = first :: dropLastEllipsis (second :: rest) :=
  rfl

theorem ellipsis_mem_dropLastEllipsis_congr {left right : List TypeExpr}
    (same : left.map isEllipsis = right.map isEllipsis) :
    .ellipsis ∈ dropLastEllipsis left ↔ .ellipsis ∈ dropLastEllipsis right := by
  induction left generalizing right with
  | nil =>
      rw [List.map_eq_nil_iff.mp same.symm]
  | cons first rest ih =>
      obtain ⟨other, others, rfl, sameFirst, sameRest⟩ := List.map_eq_cons_iff.mp same.symm
      have members := ih sameRest.symm
      cases rest with
      | nil =>
          rw [List.map_eq_nil_iff.mp sameRest]
          simp only [dropLastEllipsis, sameFirst]
          cases isEllipsis : first.isEllipsis with
          | true => simp
          | false =>
              rw [isEllipsis] at sameFirst
              simp [(isEllipsis_eq_false_iff.mp isEllipsis).symm,
                (isEllipsis_eq_false_iff.mp sameFirst).symm]
      | cons second more =>
          obtain ⟨third, remaining, rfl, -⟩ := List.map_eq_cons_iff.mp sameRest
          rw [dropLastEllipsis_cons_cons, dropLastEllipsis_cons_cons, List.mem_cons,
            List.mem_cons, members, ellipsis_eq_congr sameFirst.symm]

/-- Where an ellipsis is refused in a tuple depends on its places alone. -/
theorem ellipsis_mem_fixedElements_congr {left right : List TypeExpr}
    (same : left.map isEllipsis = right.map isEllipsis) :
    .ellipsis ∈ fixedElements left ↔ .ellipsis ∈ fixedElements right := by
  cases left with
  | nil => rw [List.map_eq_nil_iff.mp same.symm]
  | cons first rest =>
      obtain ⟨other, others, rfl, sameFirst, sameRest⟩ := List.map_eq_cons_iff.mp same.symm
      rw [fixedElements, fixedElements, List.mem_cons, List.mem_cons,
        ellipsis_mem_dropLastEllipsis_congr sameRest.symm, ellipsis_eq_congr sameFirst.symm]

/-- So does where an identifier refuses one. -/
theorem ellipsis_mem_guardedArgs_congr (entry : Entry) {left right : List TypeExpr}
    (same : left.map isEllipsis = right.map isEllipsis) :
    .ellipsis ∈ guardedArgs entry left ↔ .ellipsis ∈ guardedArgs entry right := by
  unfold guardedArgs
  split
  · exact ellipsis_mem_fixedElements_congr same
  · exact ellipsis_mem_congr same

theorem isEllipsis_of_argumentNormal {raw normal : TypeExpr}
    (argument : ArgumentNormal table raw normal) : raw.isEllipsis = normal.isEllipsis := by
  rcases argument with ⟨rfl, rfl⟩ | ⟨notEllipsis, success⟩
  · rfl
  · rw [isEllipsis_eq_false_iff.mpr notEllipsis,
      isEllipsis_eq_false_iff.mpr (normalize_ne_ellipsis success)]

theorem map_isEllipsis_of_arguments {raws normals : List TypeExpr}
    (arguments : List.Forall₂ (ArgumentNormal table) raws normals) :
    raws.map isEllipsis = normals.map isEllipsis := by
  induction arguments with
  | nil => rfl
  | cons argument _ ih =>
      rw [List.map_cons, List.map_cons, isEllipsis_of_argumentNormal argument, ih]

/-! ## Trees -/

/-- The form of canonical trees. -/
inductive NormalForm (table : AliasTable) : TypeExpr → Prop where
  | name {path : String} (canonical : resolveName table path = .name path) :
      NormalForm table (.name path)
  | wildcard : NormalForm table .wildcard
  | unknown {base : String} {args : List TypeExpr} (resolved : table.resolve? base = none)
      (guarded : .ellipsis ∉ args) (forms : ∀ arg ∈ args, NormalForm table arg) :
      NormalForm table (.generic base args)
  | plain {args : List TypeExpr} {entry : Entry}
      (resolved : table.resolve? entry.canonical = some entry) (form : entry.form = .plain)
      (accepted : entry.arity.accepts args.length = true) (guarded : .ellipsis ∉ args)
      (forms : ∀ arg ∈ args, NormalForm table arg) :
      NormalForm table (.generic entry.canonical args)
  | container {kind : Container} {args : List TypeExpr} (exact : args.length = kind.arity)
      (guarded : .ellipsis ∉ args) (forms : ∀ arg ∈ args, NormalForm table arg) :
      NormalForm table (.container kind args)
  | tuple {elements : List TypeExpr} (guarded : .ellipsis ∉ fixedElements elements)
      (forms : ∀ element ∈ elements, element ≠ .ellipsis → NormalForm table element) :
      NormalForm table (.tuple elements)
  | union {members : List TypeExpr} (canonical : CanonicalMembers members)
      (forms : ∀ member ∈ members, NormalForm table member) :
      NormalForm table (.union members)
  | literal (values : List LiteralValue) : NormalForm table (.literal values)

theorem NormalForm.ne_ellipsis {tree : TypeExpr} (normal : NormalForm table tree) :
    tree ≠ .ellipsis := by
  rintro rfl
  cases normal

theorem NormalForm.child {tree : TypeExpr} (normal : NormalForm table tree) :
    ∀ child ∈ tree.children, child ≠ .ellipsis → NormalForm table child := by
  cases normal with
  | unknown _ _ forms => exact fun child mem _ => forms child mem
  | plain _ _ _ _ forms => exact fun child mem _ => forms child mem
  | container _ _ forms => exact fun child mem _ => forms child mem
  | tuple _ forms => exact forms
  | union _ forms => exact fun child mem _ => forms child mem
  | _ => simp [children]

theorem NormalForm.of_mem_preorder {tree : TypeExpr} (normal : NormalForm table tree) :
    ∀ node ∈ tree.preorder, node ≠ .ellipsis → NormalForm table node := by
  refine forall_mem_preorder (fun node holds child mem notEllipsis => ?_) tree fun _ => normal
  refine (holds ?_).child child mem notEllipsis
  rintro rfl
  cases mem

/-- What canonical trees contribute to a union is canonical. -/
theorem NormalForm.of_mem_flatMembers {tree : TypeExpr} (normal : NormalForm table tree) :
    ∀ member ∈ tree.flatMembers, NormalForm table member := by
  intro member mem
  cases isUnion : tree.isUnion with
  | false =>
      rw [flatMembers_eq_singleton isUnion, List.mem_singleton] at mem
      rwa [mem]
  | true =>
      cases normal with
      | union canonical forms =>
          rw [flatMembers, flatMembersOf_eq_self canonical.flat] at mem
          exact forms member mem
      | _ => cases isUnion

theorem normalForm_of_mem_mergedMembers {parts : List TypeExpr}
    (forms : ∀ part ∈ parts, NormalForm table part) :
    ∀ member ∈ mergedMembers parts, NormalForm table member := by
  intro member mem
  rcases mem_mergedMembers mem with contributed | ⟨values, rfl⟩
  · obtain ⟨part, partMem, inside⟩ := mem_flatMembersOf.mp contributed
    exact (forms part partMem).of_mem_flatMembers member inside
  · exact .literal values

theorem NormalForm.unionOf {parts : List TypeExpr}
    (forms : ∀ part ∈ parts, NormalForm table part) : NormalForm table (unionOf parts) := by
  have members := normalForm_of_mem_mergedMembers forms
  rcases unionOf_canonical parts with single | ⟨own, same, perm, canonical⟩
  · exact members _ (single ▸ List.mem_singleton_self _)
  · rw [same]
    exact .union canonical fun member mem => members member (perm.mem_iff.mp mem)

/-! ## Tables -/

/-- A table whose entries can be named: the canonical spelling of an entry leads
back to it, and the entry of a container takes the number of arguments that the
container has. -/
structure Coherent (table : AliasTable) : Prop where
  canonical : ∀ {spelling entry}, table.resolve? spelling = some entry →
    table.resolve? entry.canonical = some entry
  exact : ∀ {spelling entry kind}, table.resolve? spelling = some entry →
    entry.form = .container kind → entry.arity = .exactly kind.arity

theorem exact_of_mem_standardEntries :
    ∀ entry ∈ AliasTable.standardEntries, ∀ kind ∈ Container.all,
      entry.form = .container kind → entry.arity = .exactly kind.arity := by
  decide +kernel

theorem coherent_standard : Coherent AliasTable.standard where
  canonical := AliasTable.resolve?_canonical
  exact := fun resolved form =>
    exact_of_mem_standardEntries _ (AliasTable.resolve?_standard_eq_some_iff.mp resolved).1 _
      (Container.mem_all _) form

theorem normalForm_resolveName (coherent : Coherent table) (path : String) :
    NormalForm table (resolveName table path) := by
  unfold resolveName
  split
  · rename_i unknown
    exact .name (by rw [resolveName, unknown])
  · rename_i entry resolved
    by_cases isWildcard : entry.form = .wildcard
    · rw [if_pos isWildcard]
      exact .wildcard
    · rw [if_neg isWildcard]
      refine .name ?_
      simp only [resolveName, coherent.canonical resolved, if_neg isWildcard]

/-- Canonical arguments are canonical, but for an ellipsis. -/
theorem normalForms_of_arguments {raws normals : List TypeExpr}
    (forms : ∀ raw ∈ raws, ∀ tree, raw.normalize table = .ok tree → NormalForm table tree)
    (arguments : List.Forall₂ (ArgumentNormal table) raws normals) :
    ∀ normal ∈ normals, normal ≠ .ellipsis → NormalForm table normal := by
  intro normal mem notEllipsis
  obtain ⟨raw, rawMem, ⟨-, rfl⟩ | ⟨-, success⟩⟩ := exists_argument_of_mem arguments mem
  · exact absurd rfl notEllipsis
  · exact forms raw rawMem _ success

/-- Every canonical form has the form of canonical trees. -/
theorem normalForm_of_normalize (coherent : Coherent table) (raw : TypeExpr) :
    ∀ tree, raw.normalize table = .ok tree → NormalForm table tree := by
  induction raw using inductionOnChildren with
  | step raw ih =>
      have absent : ∀ {normals : List TypeExpr}, .ellipsis ∉ raw.children →
          List.Forall₂ (ArgumentNormal table) raw.children normals → .ellipsis ∉ normals := by
        intro normals guarded arguments
        rwa [← ellipsis_mem_congr (map_isEllipsis_of_arguments arguments)]
      have forms : ∀ {normals : List TypeExpr}, .ellipsis ∉ raw.children →
          List.Forall₂ (ArgumentNormal table) raw.children normals →
            ∀ normal ∈ normals, NormalForm table normal := by
        intro normals guarded arguments normal mem
        apply normalForms_of_arguments ih arguments normal mem
        rintro rfl
        exact absent guarded arguments mem
      intro tree success
      cases normalize_eq_ok_iff.mp success with
      | name path => exact normalForm_resolveName coherent path
      | wildcard => exact .wildcard
      | unknown resolved guarded arguments =>
          exact .unknown resolved (absent guarded arguments) (forms guarded arguments)
      | @known base args normals entry _ resolved guarded arguments accepted applied =>
          cases applied with
          | plain form =>
              rw [guardedArgs_eq_self (by simp [form])] at guarded
              exact .plain (coherent.canonical resolved) form accepted (absent guarded arguments)
                (forms guarded arguments)
          | wildcard => exact .wildcard
          | container form =>
              rw [guardedArgs_eq_self (by simp [form])] at guarded
              rw [coherent.exact resolved form, Arity.accepts, decide_eq_true_eq] at accepted
              exact .container accepted (absent guarded arguments) (forms guarded arguments)
          | tuple form =>
              rw [guardedArgs, if_pos form,
                ellipsis_mem_fixedElements_congr (map_isEllipsis_of_arguments arguments)] at guarded
              exact .tuple guarded (normalForms_of_arguments ih arguments)
          | union form =>
              rw [guardedArgs_eq_self (by simp [form])] at guarded
              exact .unionOf (forms guarded arguments)
          | optional form =>
              rw [guardedArgs_eq_self (by simp [form])] at guarded
              exact .unionOf (List.forall_mem_cons.mpr ⟨.literal _, forms guarded arguments⟩)
          | literal => exact .literal _
      | container guarded arguments exact =>
          exact .container exact (absent guarded arguments) (forms guarded arguments)
      | tuple guarded arguments =>
          refine .tuple ?_ (normalForms_of_arguments ih arguments)
          rwa [← ellipsis_mem_fixedElements_congr (map_isEllipsis_of_arguments arguments)]
      | union guarded arguments => exact .unionOf (forms guarded arguments)
      | optional guarded argument =>
          refine .unionOf (List.forall_mem_cons.mpr ⟨.literal _, List.forall_mem_singleton.mpr ?_⟩)
          exact ih _ (List.mem_singleton_self _) _ argument
      | literal values => exact .literal values

/-! ## Trees that become canonical trees -/

/-- No union of a tree repeats a member. -/
def DistinctMembers (tree : TypeExpr) : Prop :=
  ∀ members, .union members ∈ tree.preorder → members.Nodup

/-- Whether a node is a union that repeats a member. -/
def repeatsMember : TypeExpr → Bool
  | .union members => !decide members.Nodup
  | _ => false

theorem distinctMembers_iff {tree : TypeExpr} :
    DistinctMembers tree ↔ tree.preorder.all (fun node => !node.repeatsMember) = true := by
  rw [List.all_eq_true]
  constructor
  · intro distinct node mem
    cases node with
    | union members => simpa [repeatsMember] using distinct members mem
    | _ => rfl
  · intro all members mem
    simpa [repeatsMember] using all _ mem

instance (tree : TypeExpr) : Decidable (DistinctMembers tree) :=
  decidable_of_iff _ distinctMembers_iff.symm

theorem DistinctMembers.child {tree child : TypeExpr} (distinct : DistinctMembers tree)
    (mem : child ∈ tree.children) : DistinctMembers child := by
  exact fun members inside => distinct members (mem_preorder_of_child mem inside)

theorem DistinctMembers.members {members : List TypeExpr}
    (distinct : DistinctMembers (.union members)) : members.Nodup :=
  distinct members (mem_preorder_self _)

section

variable {spelled : TypeExpr → TypeExpr}
  (keeps : ∀ tree, (spelled tree).isEllipsis = tree.isEllipsis) {args : List TypeExpr}

include keeps

theorem map_isEllipsis_map (args : List TypeExpr) :
    (args.map spelled).map isEllipsis = args.map isEllipsis := by
  simp [keeps]

/-- Spelling arguments in another way moves no ellipsis. -/
theorem ellipsis_mem_map_iff : .ellipsis ∈ args.map spelled ↔ .ellipsis ∈ args :=
  ellipsis_mem_congr (map_isEllipsis_map keeps args)

theorem ellipsis_mem_fixedElements_map_iff :
    .ellipsis ∈ fixedElements (args.map spelled) ↔ .ellipsis ∈ fixedElements args :=
  ellipsis_mem_fixedElements_congr (map_isEllipsis_map keeps args)

/-- Arguments that become canonical arguments one by one, but for an ellipsis. -/
theorem arguments_of_map
    (becomes : ∀ arg ∈ args, arg ≠ .ellipsis → (spelled arg).normalize table = .ok arg) :
    List.Forall₂ (ArgumentNormal table) (args.map spelled) args := by
  induction args with
  | nil => exact .nil
  | cons first rest ih =>
      rw [List.forall_mem_cons] at becomes
      refine .cons ?_ (ih becomes.2)
      by_cases isEllipsis : first = .ellipsis
      · subst isEllipsis
        exact .inl ⟨(isEllipsis_eq_true_iff _).mp (keeps .ellipsis), rfl⟩
      · refine .inr ⟨?_, becomes.1 isEllipsis⟩
        rw [← isEllipsis_eq_false_iff, keeps]
        exact isEllipsis_eq_false_iff.mpr isEllipsis

end

/-! ## Normal forms are kept -/

/-- A tree in normal form whose unions repeat no member is its own canonical
form. -/
theorem NormalForm.normalize_eq {tree : TypeExpr} (normal : NormalForm table tree)
    (distinct : DistinctMembers tree) : tree.normalize table = .ok tree := by
  have same : ∀ {args : List TypeExpr},
      (∀ arg ∈ args, arg ≠ .ellipsis → arg.normalize table = .ok arg) →
        List.Forall₂ (ArgumentNormal table) args args := by
    intro args becomes
    have arguments := @arguments_of_map table id (fun _ => rfl) args becomes
    rwa [List.map_id] at arguments
  rw [normalize_eq_ok_iff]
  induction normal with
  | @name path canonical =>
      have resolved : Normalizes table (.name path) (resolveName table path) := .name path
      rwa [canonical] at resolved
  | wildcard => exact .wildcard
  | unknown resolved guarded _ ih =>
      exact .unknown resolved guarded
        (same fun arg mem _ => normalize_eq_ok_iff.mpr (ih arg mem (distinct.child mem)))
  | plain resolved form accepted guarded _ ih =>
      refine .known resolved ?_
        (same fun arg mem _ => normalize_eq_ok_iff.mpr (ih arg mem (distinct.child mem))) accepted
        (.plain form)
      rwa [guardedArgs_eq_self (by simp [form])]
  | container exact guarded _ ih =>
      exact .container guarded
        (same fun arg mem _ => normalize_eq_ok_iff.mpr (ih arg mem (distinct.child mem))) exact
  | tuple guarded _ ih =>
      exact .tuple guarded (same fun element mem notEllipsis =>
        normalize_eq_ok_iff.mpr (ih element mem notEllipsis (distinct.child mem)))
  | @union members canonical forms ih =>
      have guarded : .ellipsis ∉ members := fun mem => (forms _ mem).ne_ellipsis rfl
      have built := Normalizes.union guarded
        (same fun member mem _ => normalize_eq_ok_iff.mpr (ih member mem (distinct.child mem)))
      rwa [canonical.unionOf_eq distinct.members] at built
  | literal values => exact .literal values

/-- A table is coherent if the canonical spelling of every entry leads back to
the entry and container entries take as many arguments as their containers. -/
theorem coherent_ofEntries {entries : List Entry}
    (canonical : ∀ entry ∈ entries,
      (AliasTable.ofEntries entries).resolve? entry.canonical = some entry)
    (exact : ∀ entry ∈ entries, ∀ kind, entry.form = .container kind →
      entry.arity = .exactly kind.arity) : Coherent (AliasTable.ofEntries entries) where
  canonical := fun resolved => canonical _ (AliasTable.exists_entry_of_resolve? resolved).1
  exact := fun resolved => exact _ (AliasTable.exists_entry_of_resolve? resolved).1 _

/-- Normalizing a second time changes nothing, under every table whose entries
can be named and whose containers take their number of arguments. -/
theorem normalize_idempotent {entries : List Entry}
    (canonical : ∀ entry ∈ entries,
      (AliasTable.ofEntries entries).resolve? entry.canonical = some entry)
    (exact : ∀ entry ∈ entries, ∀ kind, entry.form = .container kind →
      entry.arity = .exactly kind.arity) {raw tree : TypeExpr}
    (normalized : raw.normalize (AliasTable.ofEntries entries) = .ok tree)
    (distinct : DistinctMembers tree) :
    tree.normalize (AliasTable.ofEntries entries) = .ok tree :=
  (normalForm_of_normalize (coherent_ofEntries canonical exact) raw tree normalized).normalize_eq
    distinct

/-- Under two entries that want the same alias, one of them of odd arity, a union
of two names, a subscripted name and a set is kept. -/
theorem normalize_idempotent_of_shared_alias :
    let table := AliasTable.ofEntries
      [⟨"Bag", ["items"], .container .set, .exactly 1⟩,
        ⟨"Pack", ["items", "pack"], .plain, .atLeast 2⟩]
    let tree := TypeExpr.union
      [.name "Bag", .generic "Pack" [.name "a", .name "b"], .container .set [.wildcard]]
    (TypeExpr.union [.generic "items" [.wildcard], .generic "pack" [.name "a", .name "b"],
        .name "items", .name "Bag"]).normalize table = .ok tree ∧
      tree.normalize table = .ok tree := by
  intro table tree
  have distinct : DistinctMembers tree := by decide
  have normalized : (TypeExpr.union [.generic "items" [.wildcard],
      .generic "pack" [.name "a", .name "b"], .name "items", .name "Bag"]).normalize table =
        .ok tree := rfl
  exact ⟨normalized, normalize_idempotent (by decide) (by simp [Container.arity]) normalized
    distinct⟩

end TypeSpelling.TypeExpr
