import TypeSpelling.Alias.Standard

/-!
# Tables and the standard table

The shortest spelling of a name belongs to the entry of the name in every table.
Every spelling of the standard table belongs to one entry, so an entry is found
again under each of its spellings.  The facts about single entries are checked
once for the list of all entries.
-/

namespace TypeSpelling.AliasTable

/-- What resolves to an entry is one of its spellings. -/
theorem exists_entry_of_resolve? {entries : List Entry} {spelling : String} {entry : Entry}
    (resolved : (ofEntries entries).resolve? spelling = some entry) :
    entry ∈ entries ∧ spelling ∈ entry.spellings := by
  obtain ⟨before, after, whole, -⟩ := List.lookup_eq_some_iff.mp resolved
  have mem : (spelling, entry) ∈ (ofEntries entries).bySpelling := by
    rw [whole]
    exact List.mem_append_right _ (List.mem_cons_self ..)
  obtain ⟨declared, declaredMem, pairMem⟩ := List.mem_flatMap.mp mem
  obtain ⟨own, ownMem, same⟩ := List.mem_map.mp pairMem
  cases same
  exact ⟨declaredMem, ownMem⟩

theorem mem_of_shortest? {spellings : List String} {shortest : String}
    (found : shortest? spellings = some shortest) : shortest ∈ spellings := by
  induction spellings generalizing shortest with
  | nil => cases found
  | cons first rest ih =>
      unfold shortest? at found
      split at found
      · cases found
        exact List.mem_cons_self ..
      · rename_i other inRest
        cases found
        split
        · exact List.mem_cons_self ..
        · exact List.mem_cons_of_mem _ (ih inRest)

/-- The shortest spelling of a name belongs to the same entry. -/
theorem resolve?_shortestSpelling (table : AliasTable) (name : String) :
    table.resolve? (table.shortestSpelling name) = table.resolve? name := by
  unfold shortestSpelling
  cases resolved : table.resolve? name with
  | none => exact resolved
  | some entry =>
      dsimp only
      cases found : shortest? (entry.spellings.filter fun spelling =>
          table.resolve? spelling = some entry) with
      | none => exact resolved
      | some shortest =>
          have mem := mem_of_shortest? found
          rw [List.mem_filter, decide_eq_true_eq] at mem
          exact mem.2

theorem shortestSpelling_eq_self {table : AliasTable} {name : String}
    (unknown : table.resolve? name = none) : table.shortestSpelling name = name := by
  rw [shortestSpelling, unknown]

theorem resolve?_standard_of_mem :
    ∀ entry ∈ standardEntries, ∀ spelling ∈ entry.spellings,
      standard.resolve? spelling = some entry := by
  decide +kernel

/-- An entry of the standard table is found under each of its spellings. -/
theorem resolve?_standard_eq_some_iff {spelling : String} {entry : Entry} :
    standard.resolve? spelling = some entry ↔
      entry ∈ standardEntries ∧ spelling ∈ entry.spellings :=
  ⟨exists_entry_of_resolve?, fun ⟨declared, spelled⟩ =>
    resolve?_standard_of_mem entry declared spelling spelled⟩

/-- The canonical spelling of an entry resolves to the entry. -/
theorem resolve?_canonical {spelling : String} {entry : Entry}
    (resolved : standard.resolve? spelling = some entry) :
    standard.resolve? entry.canonical = some entry := by
  have declared := (resolve?_standard_eq_some_iff.mp resolved).1
  exact resolve?_standard_eq_some_iff.mpr ⟨declared, List.mem_cons_self ..⟩

/-- Tuples and unions take some arguments, and optionals take one. -/
theorem arity_of_mem_standardEntries :
    ∀ entry ∈ standardEntries,
      (entry.form = .tuple ∨ entry.form = .union → entry.arity = .atLeast 1) ∧
        (entry.form = .optional → entry.arity = .exactly 1) := by
  decide +kernel

/-- The standard table has an entry of the form and the arity under the spelling. -/
def Declares (spelling : String) (form : Form) (arity : Arity) : Prop :=
  ∃ entry, standard.resolve? spelling = some entry ∧ entry.form = form ∧ entry.arity = arity

theorem declares_any : Declares "typing.Any" .wildcard (.exactly 0) :=
  ⟨_, rfl, rfl, rfl⟩

theorem declares_union : Declares "typing.Union" .union (.atLeast 1) :=
  ⟨_, rfl, rfl, rfl⟩

theorem declares_optional : Declares "typing.Optional" .optional (.exactly 1) :=
  ⟨_, rfl, rfl, rfl⟩

theorem declares_literal : Declares "typing.Literal" .literal (.atLeast 1) :=
  ⟨_, rfl, rfl, rfl⟩

theorem declares_tuple : Declares "typing.Tuple" .tuple (.atLeast 1) :=
  ⟨_, rfl, rfl, rfl⟩

theorem declares_container (kind : Container) :
    Declares kind.canonicalName (.container kind) (.exactly kind.arity) := by
  cases kind <;> exact ⟨_, rfl, rfl, rfl⟩

theorem Declares.shortestSpelling {spelling : String} {form : Form} {arity : Arity}
    (declares : Declares spelling form arity) :
    Declares (standard.shortestSpelling spelling) form arity := by
  unfold Declares
  rwa [resolve?_shortestSpelling]

end TypeSpelling.AliasTable
