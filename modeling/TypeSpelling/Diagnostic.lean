import TypeSpelling.Canonical.NormalizeError
import TypeSpelling.Rendering
import TypeSpelling.Source.ParseError

/-!
# Errors and diagnostics

Reading, normalizing and spelling out fail for reasons of their own.  An error
says which of the three failed; a diagnostic says the same about a source text,
with a message, the part of the text that is to blame, a code and perhaps
advice.  Only reading knows positions, so any other diagnostic blames the whole
text.
-/

namespace TypeSpelling

/-- A failure of one of the stages that a text goes through. -/
inductive SpellingError where
  /-- The text is not a type expression. -/
  | parse (error : Source.ParseError)
  /-- The expression has no canonical form. -/
  | normalize (error : NormalizeError)
  /-- A tree was to be spelled out that is not canonical. -/
  | render (error : RenderError)

/-- A message about a part of a source text. -/
structure Diagnostic where
  message : String
  span : Source.Span
  help? : Option String
  code : String

namespace SpellingError

/-- The error in words, after the stage that failed. -/
def message : SpellingError → String
  | .parse error => "parse error: " ++ error.cause.message
  | .normalize error => "invalid type expression: " ++ error.message
  | .render error => "internal error: " ++ error.message

/-- Whether the fault lies with the library and not with the text. -/
def isInternal : SpellingError → Bool
  | .render _ => true
  | _ => false

/-- What the error says about the text it comes from. -/
def diagnose (source : String) : SpellingError → Diagnostic
  | .parse error => ⟨error.cause.message, error.span, error.cause.help?, error.cause.code⟩
  | .normalize error => ⟨error.message, ⟨0, source.utf8ByteSize⟩, error.help?, error.code⟩
  | .render error =>
      ⟨error.message, ⟨0, source.utf8ByteSize⟩,
        some "this is a bug in stenotype, please report it", error.code⟩

end SpellingError

end TypeSpelling
