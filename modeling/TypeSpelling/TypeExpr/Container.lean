/-!
# Container kinds

The structural shapes that the shorthand writes with brackets, braces or a
keyword.  Each kind has a fixed number of arguments and a canonical name.
-/

namespace TypeSpelling

/-- A structural shape with a fixed number of arguments. -/
inductive Container where
  | mapping
  | sequence
  | set
  | iterable
  | awaitable
  | asyncIterable
  | contextManager
  | asyncContextManager
  deriving DecidableEq

namespace Container

/-- Every kind, in the order in which kinds are listed. -/
def all : List Container :=
  [.mapping, .sequence, .set, .iterable, .awaitable, .asyncIterable, .contextManager,
    .asyncContextManager]

theorem mem_all (kind : Container) : kind ∈ all := by
  cases kind <;> decide

/-- Number of type arguments: a mapping has a key and a value, every other kind
a single element. -/
def arity : Container → Nat
  | .mapping => 2
  | _ => 1

theorem arity_pos (kind : Container) : 0 < kind.arity := by
  cases kind <;> decide

/-- The name under which the canonical spelling subscripts the arguments. -/
def canonicalName : Container → String
  | .mapping => "typing.Dict"
  | .sequence => "typing.List"
  | .set => "typing.Set"
  | .iterable => "typing.Iterable"
  | .awaitable => "typing.Awaitable"
  | .asyncIterable => "typing.AsyncIterable"
  | .contextManager => "typing.ContextManager"
  | .asyncContextManager => "typing.AsyncContextManager"

/-- The keyword in front of the element, for the kinds that have one. -/
def keyword? : Container → Option String
  | .mapping | .sequence | .set => none
  | .iterable => some "iter"
  | .awaitable => some "await"
  | .asyncIterable => some "async iter"
  | .contextManager => some "with"
  | .asyncContextManager => some "async with"

/-- The kind in words. -/
def describe : Container → String
  | .mapping => "mapping"
  | .sequence => "sequence"
  | .set => "set"
  | .iterable => "iterable"
  | .awaitable => "awaitable"
  | .asyncIterable => "async iterable"
  | .contextManager => "context manager"
  | .asyncContextManager => "async context manager"

/-- A kind with a keyword has a single element, which stands behind the keyword. -/
theorem arity_eq_one {kind : Container} {word : String} (keyword? : kind.keyword? = some word) :
    kind.arity = 1 := by
  cases kind with
  | mapping | sequence | set => cases keyword?
  | _ => rfl

/-- Place of the kind in the list of all kinds. -/
def index (kind : Container) : Nat :=
  all.idxOf kind

end Container

end TypeSpelling
