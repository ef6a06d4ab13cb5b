import TypeSpelling.TypeExpr.Container

/-!
# Entries of an alias table

An entry gathers the spellings of one identifier, the first of them canonical,
and says which shape the identifier stands for and how many type arguments it
takes.
-/

namespace TypeSpelling

/-- How many type arguments an identifier takes when it is subscripted. -/
inductive Arity where
  | exactly (count : Nat)
  | atLeast (count : Nat)
  deriving DecidableEq

namespace Arity

/-- Whether a number of arguments is allowed. -/
def accepts : Arity → Nat → Bool
  | .exactly required, count => count = required
  | .atLeast required, count => required ≤ count

/-- The arity in words. -/
def describe : Arity → String
  | .exactly count => "exactly " ++ count.repr
  | .atLeast count => "at least " ++ count.repr

end Arity

/-- The shape that a known identifier stands for. -/
inductive Form where
  /-- An identifier, or a generic once it is subscripted. -/
  | plain
  | wildcard
  | container (kind : Container)
  | tuple
  | union
  | optional
  | literal
  deriving DecidableEq

/-- What is known of one identifier. -/
structure Entry where
  canonical : String
  aliases : List String
  form : Form
  arity : Arity
  deriving DecidableEq

/-- Every spelling in the order of declaration, the canonical one first. -/
def Entry.spellings (entry : Entry) : List String :=
  entry.canonical :: entry.aliases

end TypeSpelling
