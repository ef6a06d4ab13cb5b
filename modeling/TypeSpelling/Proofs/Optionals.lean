import TypeSpelling.Proofs.Reordering
import TypeSpelling.Proofs.UnionLengths

/-!
# Ways to write an optional type

A type or the null literal can be written with a question mark, as a union with the
null literal in front of the type or behind it, and as a name with a subscript.  All
of these are read alike, whatever the type is.  Members of a union that have one rank
and one canonical text keep their places among each other, so the canonical order
does not decide this by itself; but nothing shares a place with the null literal,
and every other member keeps its place when the null literal is moved.
-/

namespace TypeSpelling

/-! ## An item in front of the others -/

namespace Sorting

variable {α : Type} {le : α → α → Bool}
  (trans : ∀ left middle right, le left middle = true → le middle right = true →
    le left right = true)

include trans

/-- An item that stands strictly in front of another may be inserted before it or
after it. -/
theorem insert_insert_comm {item other : α} (before : le item other = true)
    (notBehind : le other item = false) (items : List α) :
    insert le other (insert le item items) = insert le item (insert le other items) := by
  induction items with
  | nil => simp [insert, before, notBehind]
  | cons first rest ih =>
      by_cases itemFirst : le item first = true
      · by_cases otherFirst : le other first = true
        · simp [insert, itemFirst, otherFirst, before, notBehind]
        · simp [insert, itemFirst, otherFirst, notBehind]
      · have otherFirst : ¬ le other first = true :=
          fun otherFirst => itemFirst (trans _ _ _ before otherFirst)
        simp only [insert, if_neg itemFirst, if_neg otherFirst, ih]

/-- An item may be moved in front of items that it stands strictly in front of. -/
theorem sort_append_cons {item : α} {front : List α}
    (first : ∀ other ∈ front, le item other = true ∧ le other item = false) (back : List α) :
    sort le (front ++ item :: back) = sort le (item :: (front ++ back)) := by
  induction front with
  | nil => rfl
  | cons other front ih =>
      obtain ⟨⟨before, notBehind⟩, others⟩ := List.forall_mem_cons.mp first
      rw [List.cons_append, sort, ih others, sort,
        insert_insert_comm trans before notBehind]
      rfl

end Sorting

namespace TypeExpr

variable {table : AliasTable}

/-! ## Lists without repetitions -/

section

variable {α : Type} [BEq α] [LawfulBEq α]

/-- Items can be dropped before repetitions are or behind that. -/
theorem filter_eraseDups (keeps : α → Bool) (items : List α) :
    items.eraseDups.filter keeps = (items.filter keeps).eraseDups := by
  induction length : items.length using Nat.strongRecOn generalizing items with
  | ind length ih =>
      cases items with
      | nil => rfl
      | cons first rest =>
          have shorter := List.length_filter_le (fun other => !other == first) rest
          rw [List.length_cons] at length
          have inner := ih _ (by omega) (rest.filter fun other => !other == first) rfl
          by_cases kept : keeps first = true
          · rw [List.eraseDups_cons, List.filter_cons_of_pos kept, inner,
              List.filter_cons_of_pos kept, List.eraseDups_cons, List.filter_comm]
          · have others : ∀ other, (keeps other && !other == first) = keeps other := by
              intro other
              by_cases same : other = first
              · simp [same, kept]
              · simp [same]
            rw [List.eraseDups_cons, List.filter_cons_of_neg kept, inner,
              List.filter_cons_of_neg kept, List.filter_filter]
            simp only [others]

/-- An item behind a list comes to stand somewhere in it, and what is around that place
is the list without the item. -/
theorem exists_eraseDups_append_singleton (items : List α) (item : α) :
    ∃ front back, item ∉ front ∧ (items ++ [item]).eraseDups = front ++ item :: back ∧
      front ++ back = (items.filter fun other => !other == item).eraseDups := by
  have mem : item ∈ (items ++ [item]).eraseDups := by simp
  obtain ⟨front, back, fresh, whole, erased⟩ := List.exists_erase_eq mem
  refine ⟨front, back, fresh, whole, ?_⟩
  rw [← erased, (nodup_eraseDups _).erase_eq_filter, filter_eraseDups, List.filter_append]
  simp [bne]

end

/-! ## The null literal among members -/

theorem precedes_null {other : TypeExpr} (notNull : other ≠ null) :
    precedes null other = true ∧ precedes other null = false := by
  have null : null.rank = 0 := rfl
  have positive := Nat.pos_of_ne_zero (mt rank_eq_zero_iff.mp notNull)
  simp only [precedes, null]
  exact ⟨by simp [positive], by simp; omega⟩

/-- In order the null literal comes first. -/
theorem sort_append_null_cons {front : List TypeExpr} (fresh : null ∉ front)
    (back : List TypeExpr) :
    Sorting.sort precedes (front ++ null :: back) =
      Sorting.sort precedes (null :: (front ++ back)) := by
  refine Sorting.sort_append_cons precedes_trans (fun other mem => precedes_null ?_) back
  rintro rfl
  exact fresh mem

/-- Merging literals leaves the null literal where it is, among the others. -/
theorem sort_mergeLiterals_append_null_cons {front : List TypeExpr} (fresh : null ∉ front)
    (back : List TypeExpr) :
    Sorting.sort precedes (mergeLiterals (front ++ null :: back)) =
      Sorting.sort precedes (mergeLiterals (null :: (front ++ back))) := by
  have skipped : mergeable? null = none := rfl
  have literals : (front ++ null :: back).filterMap mergeable? =
      (null :: (front ++ back)).filterMap mergeable? := by
    simp [skipped]
  by_cases few : ((null :: (front ++ back)).filterMap mergeable?).length < 2
  · rw [mergeLiterals_eq_self few, mergeLiterals_eq_self (literals ▸ few),
      sort_append_null_cons fresh]
  · have several := Nat.not_lt.mp few
    have merged : mergedLiteral (front ++ null :: back) =
        mergedLiteral (null :: (front ++ back)) := by
      rw [mergedLiteral, mergedLiteral, literals]
    rw [mergeLiterals_eq_cons several, mergeLiterals_eq_cons (literals ▸ several), merged,
      Sorting.sort, Sorting.sort, List.filter_append, List.filter_cons_of_pos (by rfl),
      List.filter_cons_of_pos (by rfl), List.filter_append,
      sort_append_null_cons fun mem => fresh (List.mem_of_mem_filter mem)]

/-- A union is determined by its merged members in order. -/
theorem unionOf_eq_of_sort {parts others : List TypeExpr}
    (same : Sorting.sort precedes (mergedMembers parts) =
      Sorting.sort precedes (mergedMembers others)) : unionOf parts = unionOf others := by
  have sameLength : (mergedMembers parts).length = (mergedMembers others).length := by
    rw [← Sorting.length_sort precedes, same, Sorting.length_sort]
  rcases unionOf_cases parts with single | ⟨notSingle, several⟩
  · rcases unionOf_cases others with otherSingle | ⟨otherNotSingle, -⟩
    · rw [single, otherSingle] at same
      exact List.singleton_inj.mp same
    · rw [single] at sameLength
      exact absurd sameLength.symm otherNotSingle
  · rcases unionOf_cases others with otherSingle | ⟨-, otherSeveral⟩
    · rw [otherSingle] at sameLength
      exact absurd sameLength notSingle
    · rw [several, otherSeveral, same]

/-- The null literal makes the same union behind a tree as in front of it. -/
theorem unionOf_null_comm (tree : TypeExpr) : unionOf [tree, null] = unionOf [null, tree] := by
  obtain ⟨front, back, fresh, whole, around⟩ :=
    exists_eraseDups_append_singleton tree.flatMembers null
  have behind : mergedMembers [tree, null] = mergeLiterals (front ++ null :: back) := by
    have flat : flatMembersOf [tree, null] = tree.flatMembers ++ [null] := rfl
    rw [mergedMembers, flat, whole]
  have ahead : mergedMembers [null, tree] = mergeLiterals (null :: (front ++ back)) := by
    have flat : flatMembersOf [null, tree] = null :: tree.flatMembers := by
      simp [flatMembersOf, flatMembers, null]
    rw [mergedMembers, flat, List.eraseDups_cons, around]
  apply unionOf_eq_of_sort
  rw [behind, ahead, sort_mergeLiterals_append_null_cons fresh]

/-! ## The spellings -/

theorem refuseEllipsis_eq_ok (node : TypeExpr) {args : List TypeExpr}
    (guarded : .ellipsis ∉ args) : refuseEllipsis node args = .ok () :=
  refuseEllipsis_eq_ok_iff.mpr guarded

section

variable {inner : TypeExpr} (notEllipsis : inner ≠ .ellipsis)

include notEllipsis

/-- An argument that is no ellipsis is normalized, and its error is the list's. -/
theorem normalizeAll_cons_of_ne (rest : List TypeExpr) :
    normalizeAll table (inner :: rest) = inner.normalize table >>= fun normal =>
      normalizeAll table rest >>= fun others => .ok (normal :: others) := by
  rw [normalizeAll_cons, if_neg (mt (isEllipsis_eq_true_iff inner).mp notEllipsis)]

/-- An optional is a union of the null literal and the type inside, and fails exactly
as the type inside does. -/
theorem normalize_optional_eq :
    (optional inner).normalize table =
      inner.normalize table >>= fun normal => .ok (unionOf [null, normal]) := by
  rw [normalize, refuseEllipsis_eq_ok _ (by simpa using notEllipsis.symm)]
  rfl

theorem normalize_union_null_behind :
    (union [inner, null]).normalize table =
      inner.normalize table >>= fun normal => .ok (unionOf [normal, null]) := by
  have guarded : .ellipsis ∉ [inner, null] := by simp [notEllipsis.symm, null]
  rw [normalize, refuseEllipsis_eq_ok _ guarded, normalizeAll_cons_of_ne notEllipsis]
  cases inner.normalize table <;> rfl

theorem normalize_union_null_ahead :
    (union [null, inner]).normalize table =
      inner.normalize table >>= fun normal => .ok (unionOf [null, normal]) := by
  have guarded : .ellipsis ∉ [null, inner] := by simp [notEllipsis.symm, null]
  have nullArgument : null ≠ ellipsis := by simp [null]
  rw [normalize, refuseEllipsis_eq_ok _ guarded, normalizeAll_cons_of_ne nullArgument,
    normalizeAll_cons_of_ne notEllipsis]
  cases inner.normalize table <;> rfl

/-- A name that stands for optionals makes one of its argument. -/
theorem normalize_optional_form {base : String} {entry : Entry}
    (resolved : table.resolve? base = some entry) (form : entry.form = .optional)
    (accepts : entry.arity.accepts 1 = true) :
    (generic base [inner]).normalize table =
      inner.normalize table >>= fun normal => .ok (unionOf [null, normal]) := by
  have notTuple : entry.form ≠ .tuple := by simp [form]
  have guarded : .ellipsis ∉ guardedArgs entry [inner] := by
    rw [guardedArgs_eq_self notTuple]
    simpa using notEllipsis.symm
  rw [normalize, resolved]
  dsimp only
  rw [refuseEllipsis_eq_ok _ guarded, normalizeAll_cons_of_ne notEllipsis]
  cases inner.normalize table with
  | error error => rfl
  | ok normal =>
      have applied : applyEntry (.generic base [inner]) entry [normal] =
          .ok (unionOf [null, normal]) := by
        simp only [applyEntry, form]
      have accepted : requireArity (.generic base [inner]) entry.arity 1 = .ok () :=
        requireArity_eq_ok_iff.mpr accepts
      change (requireArity _ _ 1 >>= fun _ => applyEntry _ _ [normal]) = _
      rw [accepted, applied]
      rfl

end

/-- The four ways to write an optional type have one canonical form, and where there
is none they fail with one error. -/
theorem normalize_optional_spellings {inner : TypeExpr} (notEllipsis : inner ≠ .ellipsis) :
    (union [inner, null]).normalize AliasTable.standard =
        (optional inner).normalize AliasTable.standard ∧
      (union [null, inner]).normalize AliasTable.standard =
        (optional inner).normalize AliasTable.standard ∧
      (generic "typing.Optional" [inner]).normalize AliasTable.standard =
        (optional inner).normalize AliasTable.standard := by
  obtain ⟨entry, resolved, form, arity⟩ := AliasTable.declares_optional
  have accepts : entry.arity.accepts 1 = true := by simp [arity, Arity.accepts]
  rw [normalize_optional_eq notEllipsis, normalize_union_null_behind notEllipsis,
    normalize_union_null_ahead notEllipsis,
    normalize_optional_form notEllipsis resolved form accepts]
  simp only [unionOf_null_comm, and_self]

/-- The type inside may hold the null literal, literals to be merged and names that
share one canonical text, and it may be one that has no canonical form. -/
theorem normalize_optional_spellings_of_union :
    let inner := union [.name "b", null, .literal [.int 2],
      .generic "k" [.name "a, a"], .generic "k" [.name "a", .name "a"], .literal [.int 1]]
    let refused := container .sequence [.name "a", .name "b"]
    (inner ≠ .ellipsis ∧ ∀ spelled ∈ [union [inner, null], union [null, inner],
        generic "typing.Optional" [inner], optional inner],
      spelled.normalize AliasTable.standard = .ok (.union [null, .name "b",
        .generic "k" [.name "a, a"], .generic "k" [.name "a", .name "a"],
        .literal [.int 1, .int 2]])) ∧
    (refused ≠ .ellipsis ∧ ∀ spelled ∈ [union [refused, null], union [null, refused],
        generic "typing.Optional" [refused], optional refused],
      spelled.normalize AliasTable.standard = .error (.arity refused (.exactly 1) 2)) := by
  intro inner refused
  have innerNotEllipsis : inner ≠ .ellipsis := TypeExpr.noConfusion
  have refusedNotEllipsis : refused ≠ .ellipsis := TypeExpr.noConfusion
  have innerSame := normalize_optional_spellings innerNotEllipsis
  have refusedSame := normalize_optional_spellings refusedNotEllipsis
  refine ⟨⟨innerNotEllipsis, ?_⟩, refusedNotEllipsis, ?_⟩
  · simp only [List.forall_mem_cons, innerSame, List.not_mem_nil, false_implies,
      implies_true, and_true, and_self]
    rfl
  · simp only [List.forall_mem_cons, refusedSame, List.not_mem_nil, false_implies,
      implies_true, and_true, and_self]
    rfl

end TypeExpr

end TypeSpelling
