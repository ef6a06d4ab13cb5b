import TypeSpelling.Alias.Standard
import TypeSpelling.Canonical.Normalization
import TypeSpelling.Diagnostic
import TypeSpelling.Rendering
import TypeSpelling.Source.Parse
import TypeSpelling.Text.Blank

/-!
# From text to text

The whole way of a type expression: a text is read, its tree is normalized
under an alias table, and the canonical tree is spelled out again in one of the
two spellings.
-/

namespace TypeSpelling

/-- A shorthand spelling, and whether it differs from the text it was made of. -/
structure Shortened where
  text : String
  changed : Bool

namespace AliasTable

/-- The canonical tree of a text. -/
def normalized (table : AliasTable) (source : String) : Except SpellingError TypeExpr := do
  let raw ← (Source.parse source).mapError .parse
  (raw.normalize table).mapError .normalize

/-- Checks that a text is a type expression. -/
def validate (table : AliasTable) (source : String) : Except SpellingError Unit := do
  let _ ← table.normalized source
  return ()

/-- The canonical spelling of a text. -/
def canonicalize (table : AliasTable) (source : String) : Except SpellingError String := do
  let tree ← table.normalized source
  tree.renderCanonical.mapError .render

/-- The shorthand spelling of a text.  White space around the text is no
difference. -/
def shorten (table : AliasTable) (source : String) : Except SpellingError Shortened := do
  let tree ← table.normalized source
  let text ← (tree.renderShorthand table).mapError .render
  return ⟨text, text != Text.trim source⟩

end AliasTable

end TypeSpelling
