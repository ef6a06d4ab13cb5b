import TypeSpelling.Pipeline
import TypeSpelling.Proofs.Shapes

/-!
# The stages of a spelling

Checking a text and spelling it out either way go through the same stages as far
as the canonical tree.  The last stage refuses trees that are not canonical, so it
never refuses one that the stages before it have made, and the three uses of a
table succeed together or fail together.
-/

namespace TypeSpelling

open TypeSpelling.Source
open TypeSpelling.TypeExpr

theorem mapError_eq_ok_iff {ε ε' α : Type} {stage : Except ε α} {wrap : ε → ε'} {value : α} :
    stage.mapError wrap = .ok value ↔ stage = .ok value := by
  cases stage <;> simp [Except.mapError]

namespace AliasTable

variable {table : AliasTable} {source : String} {tree : TypeExpr}

/-! ## Texts with a canonical tree -/

theorem normalized_eq_ok_iff :
    table.normalized source = .ok tree ↔
      ∃ raw, parse source = .ok raw ∧ raw.normalize table = .ok tree := by
  rw [normalized, bind_eq_ok_iff]
  simp only [mapError_eq_ok_iff]

theorem validate_of_normalized (normalized : table.normalized source = .ok tree) :
    table.validate source = .ok () := by
  rw [validate, normalized]
  rfl

theorem canonicalize_of_accepted (normalized : table.normalized source = .ok tree)
    (accepted : tree.checkCanonical = .ok ()) :
    table.canonicalize source = .ok tree.canonicalText := by
  rw [canonicalize, normalized]
  change tree.renderCanonical.mapError SpellingError.render = _
  rw [renderCanonical, accepted]
  rfl

theorem shorten_of_accepted (normalized : table.normalized source = .ok tree)
    (accepted : tree.checkCanonical = .ok ()) :
    table.shorten source =
      .ok ⟨tree.shorthandText table, tree.shorthandText table != Text.trim source⟩ := by
  rw [shorten, normalized]
  change (tree.renderShorthand table).mapError SpellingError.render >>= _ = _
  rw [renderShorthand, accepted]
  rfl

/-- The canonical tree of a text is spelled out under every table whose containers
take their number of arguments. -/
theorem checkCanonical_of_normalized (exact : ContainersExact table)
    (normalized : table.normalized source = .ok tree) : tree.checkCanonical = .ok () := by
  obtain ⟨raw, parsed, normalizes⟩ := normalized_eq_ok_iff.mp normalized
  rw [checkCanonical,
    firstOffender?_of_normalize exact raw tree (writable_of_parseWithin parsed) normalizes]

/-! ## Texts without one -/

section Failure

variable {error : SpellingError} (failure : table.normalized source = .error error)

include failure

theorem validate_of_error : table.validate source = .error error := by
  rw [validate, failure]
  rfl

theorem canonicalize_of_error : table.canonicalize source = .error error := by
  rw [canonicalize, failure]
  rfl

theorem shorten_of_error : table.shorten source = .error error := by
  rw [shorten, failure]
  rfl

/-- No stage before the last one fails for a fault of the library. -/
theorem isInternal_of_normalized : error.isInternal = false := by
  unfold normalized at failure
  cases parsed : parse source with
  | error parseError =>
      rw [parsed] at failure
      cases failure
      rfl
  | ok raw =>
      rw [parsed] at failure
      change (raw.normalize table).mapError SpellingError.normalize = .error error at failure
      cases normalizes : raw.normalize table with
      | error normalizeError =>
          rw [normalizes] at failure
          cases failure
          rfl
      | ok tree =>
          rw [normalizes] at failure
          cases failure

end Failure

/-! ## All three uses -/

theorem containersExact_ofEntries {entries : List Entry}
    (exact : ∀ entry ∈ entries, ∀ kind, entry.form = .container kind →
      ∀ count, 1 ≤ count → entry.arity.accepts count = true → count = kind.arity) :
    ContainersExact (ofEntries entries) :=
  fun resolved form _ some accepted =>
    exact _ (exists_entry_of_resolve? resolved).1 _ form _ some accepted

/-- Under a table whose containers take no other number of arguments than they
have, no text is refused for a fault of the library, and checking a text and
spelling it out either way succeed together or fail with the same error. -/
theorem succeed_or_fail_together {entries : List Entry}
    (exact : ∀ entry ∈ entries, ∀ kind, entry.form = .container kind →
      ∀ count, 1 ≤ count → entry.arity.accepts count = true → count = kind.arity)
    (source : String) :
    let table := ofEntries entries
    (∀ error, table.canonicalize source ≠ .error (.render error) ∧
        table.shorten source ≠ .error (.render error)) ∧
      ((∃ canonical shortened, table.validate source = .ok () ∧
          table.canonicalize source = .ok canonical ∧ table.shorten source = .ok shortened) ∨
        ∃ error, table.validate source = .error error ∧
          table.canonicalize source = .error error ∧ table.shorten source = .error error) := by
  intro table
  have containersExact : ContainersExact table := containersExact_ofEntries exact
  cases normalized : table.normalized source with
  | ok tree =>
      have accepted := checkCanonical_of_normalized containersExact normalized
      have canonical := canonicalize_of_accepted normalized accepted
      have shortened := shorten_of_accepted normalized accepted
      refine ⟨fun error => ?_, .inl ⟨_, _, validate_of_normalized normalized, canonical, shortened⟩⟩
      simp [canonical, shortened]
  | error error =>
      have canonical := canonicalize_of_error normalized
      have shortened := shorten_of_error normalized
      have external : ∀ internal, error ≠ .render internal := by
        rintro internal rfl
        cases isInternal_of_normalized normalized
      refine ⟨fun internal => ?_, .inr ⟨error, validate_of_error normalized, canonical, shortened⟩⟩
      simp [canonical, shortened, external]

/-- Names that cannot be written and odd numbers of arguments do no harm: a mapping
that takes none, and a union of three or more. -/
theorem succeed_together_of_odd_entries :
    let entries : List Entry :=
      [⟨"a bag", ["bag"], .container .set, .exactly 1⟩,
        ⟨"no pair", ["pair"], .container .mapping, .exactly 0⟩,
        ⟨"any of", ["any"], .literal, .atLeast 0⟩, ⟨"a choice", ["choose"], .union, .atLeast 3⟩]
    let source := "bag[choose[any[1, 1], (await _)?, (_, ...)]]"
    (∀ entry ∈ entries, ∀ kind, entry.form = .container kind →
        ∀ count, 1 ≤ count → entry.arity.accepts count = true → count = kind.arity) ∧
      ∃ canonical shortened, (ofEntries entries).validate source = .ok () ∧
        (ofEntries entries).canonicalize source = .ok canonical ∧
        (ofEntries entries).shorten source = .ok shortened := by
  intro entries source
  have exact : ∀ entry ∈ entries, ∀ kind, entry.form = .container kind →
      ∀ count, 1 ≤ count → entry.arity.accepts count = true → count = kind.arity := by
    simp only [entries, List.forall_mem_cons, Arity.accepts, decide_eq_true_eq]
    refine ⟨?_, ?_, ?_, ?_, List.forall_mem_nil _⟩
    · rintro kind ⟨⟩ count - rfl
      rfl
    · rintro kind ⟨⟩ count positive rfl
      cases positive
    · rintro kind ⟨⟩
    · rintro kind ⟨⟩
  have parsed : parse source = .ok (.generic "bag" [.generic "choose"
      [.generic "any" [.literal [.int 1], .literal [.int 1]],
        .optional (.container .awaitable [.wildcard]), .tuple [.wildcard, .ellipsis]]]) := by
    decide +kernel
  have normalized : (ofEntries entries).normalized source = .ok (.container .set
      [.union [null, .container .awaitable [.wildcard], .tuple [.wildcard, .ellipsis],
        .literal [.int 1, .int 1]]]) :=
    normalized_eq_ok_iff.mpr ⟨_, parsed, rfl⟩
  refine ⟨exact, ?_⟩
  rcases (succeed_or_fail_together exact source).2 with success | ⟨error, failure, -⟩
  · exact success
  · rw [validate_of_normalized normalized] at failure
    cases failure

end AliasTable

end TypeSpelling
