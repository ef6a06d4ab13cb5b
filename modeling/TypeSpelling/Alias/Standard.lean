import TypeSpelling.Alias.Table

/-!
# The standard table

The identifiers of the typing vocabulary: the special forms, the containers that
have a shorthand, and the plain generics with their numbers of arguments.
-/

namespace TypeSpelling.AliasTable

/-- The entry of an identifier whose canonical spelling is its name under
`typing`, with the bare name and perhaps others as aliases. -/
private def typing (bare : String) (others : List String) (form : Form) (arity : Arity) : Entry :=
  ⟨"typing." ++ bare, bare :: others, form, arity⟩

/-- Entries of the special forms. -/
def specialForms : List Entry :=
  [typing "Any" [] .wildcard (.exactly 0),
    typing "Union" [] .union (.atLeast 1),
    typing "Optional" [] .optional (.exactly 1),
    typing "Literal" ["lit"] .literal (.atLeast 1),
    typing "Tuple" ["tuple"] .tuple (.atLeast 1)]

/-- Entries of the containers that have a shorthand. -/
def containers : List Entry :=
  [typing "Dict" ["dict"] (.container .mapping) (.exactly 2),
    typing "List" ["list"] (.container .sequence) (.exactly 1),
    typing "Set" ["set"] (.container .set) (.exactly 1),
    typing "Iterable" [] (.container .iterable) (.exactly 1),
    typing "Awaitable" [] (.container .awaitable) (.exactly 1),
    typing "AsyncIterable" [] (.container .asyncIterable) (.exactly 1),
    typing "ContextManager" [] (.container .contextManager) (.exactly 1),
    typing "AsyncContextManager" [] (.container .asyncContextManager) (.exactly 1)]

/-- Entries of the identifiers that stay identifiers. -/
def plainGenerics : List Entry :=
  [typing "Sequence" [] .plain (.exactly 1),
    typing "MutableSequence" [] .plain (.exactly 1),
    typing "Mapping" [] .plain (.exactly 2),
    typing "MutableMapping" [] .plain (.exactly 2),
    typing "FrozenSet" ["frozenset"] .plain (.exactly 1),
    typing "Iterator" [] .plain (.exactly 1),
    typing "AsyncIterator" [] .plain (.exactly 1),
    typing "Type" ["type"] .plain (.exactly 1),
    typing "Generator" [] .plain (.exactly 3),
    typing "AsyncGenerator" [] .plain (.exactly 2),
    typing "Coroutine" [] .plain (.exactly 3),
    typing "Deque" [] .plain (.exactly 1),
    typing "DefaultDict" [] .plain (.exactly 2),
    typing "Counter" [] .plain (.exactly 1),
    typing "Collection" [] .plain (.exactly 1),
    typing "Container" [] .plain (.exactly 1),
    typing "Reversible" [] .plain (.exactly 1),
    typing "NoReturn" [] .plain (.exactly 0),
    typing "Hashable" [] .plain (.exactly 0),
    typing "Sized" [] .plain (.exactly 0)]

/-- Entries of the standard table. -/
def standardEntries : List Entry :=
  specialForms ++ containers ++ plainGenerics

/-- The standard table. -/
def standard : AliasTable :=
  ofEntries standardEntries

end TypeSpelling.AliasTable
