import TypeSpelling.Proofs.Scanning
import TypeSpelling.Proofs.ShorthandSpelling
import TypeSpelling.Text.Blank

/-!
# Spellings without white space around them

The shorthand spelling of a tree that can be written begins and ends with a
character that is no white space, so trimming takes nothing of it.  A spelling is
put together of names, tokens and brackets, and only its first and last part
matter.
-/

namespace TypeSpelling

open TypeSpelling.Source

namespace Text

/-! ## White space -/

/-- A text begins with a character that is no white space. -/
def BeginsSolid (text : String) : Prop :=
  ∃ c rest, text.toList = c :: rest ∧ isWhiteSpace c = false

/-- A text ends with a character that is no white space. -/
def EndsSolid (text : String) : Prop :=
  ∃ front c, text.toList = front ++ [c] ∧ isWhiteSpace c = false

/-- A text has no white space at either end, and is not empty. -/
structure Solid (text : String) : Prop where
  begins : BeginsSolid text
  ends : EndsSolid text

theorem BeginsSolid.append {text : String} (begins : BeginsSolid text) (more : String) :
    BeginsSolid (text ++ more) := by
  obtain ⟨c, rest, whole, solid⟩ := begins
  exact ⟨c, rest ++ more.toList, by rw [String.toList_append, whole]; rfl, solid⟩

theorem EndsSolid.append {text : String} (ends : EndsSolid text) (before : String) :
    EndsSolid (before ++ text) := by
  obtain ⟨front, c, whole, solid⟩ := ends
  exact ⟨before.toList ++ front, c, by rw [String.toList_append, whole, List.append_assoc], solid⟩

theorem solid_of_forall {text : String} (nonempty : text.toList ≠ [])
    (solid : ∀ c ∈ text.toList, isWhiteSpace c = false) : Solid text := by
  refine ⟨?_, text.toList.dropLast, text.toList.getLast nonempty,
    (List.dropLast_append_getLast nonempty).symm, solid _ (List.getLast_mem nonempty)⟩
  obtain ⟨c, rest, whole⟩ := List.exists_cons_of_ne_nil nonempty
  exact ⟨c, rest, whole, solid c (by simp [whole])⟩

theorem solid_of_any {text : String} (nonempty : text.toList ≠ [])
    (solid : text.toList.any isWhiteSpace = false) : Solid text :=
  solid_of_forall nonempty fun c mem => Bool.eq_false_iff.mpr (List.any_eq_false.mp solid c mem)

theorem trimEndChars_append_singleton (front : List Char) {c : Char}
    (solid : isWhiteSpace c = false) : trimEndChars (front ++ [c]) = front ++ [c] := by
  induction front with
  | nil => simp [trimEndChars, solid]
  | cons first rest ih =>
      rw [List.cons_append, trimEndChars, ih]
      split
      · rename_i empty
        exact absurd empty (List.append_ne_nil_of_right_ne_nil _ (List.cons_ne_nil _ _))
      · rfl

end Text

open Text

/-! ## Tokens -/

/-- The characters of names lie between the space and the next white space. -/
theorem isWhiteSpace_eq_false_of_isNameChar {c : Char} (name : isNameChar c = true) :
    isWhiteSpace c = false := by
  have bounds : '.'.toNat ≤ c.toNat ∧ c.toNat ≤ 'z'.toNat := by
    have between : ∀ {low high : Char}, low ≤ c → c ≤ high →
        low.toNat ≤ c.toNat ∧ c.toNat ≤ high.toNat := fun low high => ⟨low, high⟩
    simp only [isNameChar, isWordChar, isLetter, isDigit, Bool.or_eq_true, Bool.and_eq_true,
      decide_eq_true_eq] at name
    rcases name with ((((lower | upper) | digit) | rfl) | rfl)
    · have range := between lower.1 lower.2
      simp only [Char.reduceToNat] at range ⊢
      omega
    · have range := between upper.1 upper.2
      simp only [Char.reduceToNat] at range ⊢
      omega
    · have range := between digit.1 digit.2
      simp only [Char.reduceToNat] at range ⊢
      omega
    · decide
    · decide
  simp only [Char.reduceToNat] at bounds
  simp only [isWhiteSpace, whiteSpaceRanges, List.any_cons, List.any_nil, Bool.or_false,
    Bool.or_eq_false_iff, Bool.and_eq_false_iff, decide_eq_false_iff_not]
  omega

theorem solid_of_isWords {text : String} (words : IsWords text.toList) : Solid text := by
  obtain ⟨c, tail, whole, starts, passes⟩ := words
  refine solid_of_forall (by simp [whole]) ?_
  rw [whole]
  exact List.forall_mem_cons.mpr
    ⟨isWhiteSpace_eq_false_of_isNameChar (isNameChar_of_isWordStart starts),
      fun d mem => isWhiteSpace_eq_false_of_isNameChar (passes d mem)⟩

theorem solid_of_isQuoted {text : String} (quoted : IsQuoted text.toList) : Solid text := by
  obtain ⟨mark, contents, isMark, -, whole⟩ := quoted
  have solid : isWhiteSpace mark = false := by rcases isMark with rfl | rfl <;> decide
  exact ⟨⟨mark, _, whole, solid⟩, mark :: contents, mark, whole, solid⟩

theorem solid_of_bytes {text : String}
    (bytes : ∃ quoted, text.toList = 'b' :: quoted ∧ IsQuoted quoted) : Solid text := by
  obtain ⟨quoted, whole, mark, contents, isMark, -, rfl⟩ := bytes
  have solid : isWhiteSpace mark = false := by rcases isMark with rfl | rfl <;> decide
  exact ⟨⟨'b', _, whole, by decide⟩, 'b' :: mark :: contents, mark, whole, solid⟩

theorem solid_of_isInteger {text : String} (integer : IsInteger text.toList) : Solid text := by
  obtain ⟨digits, nonempty, areDigits, whole⟩ := integer
  have solid : ∀ c ∈ digits, isWhiteSpace c = false := fun c mem =>
    isWhiteSpace_eq_false_of_isNameChar
      (isNameChar_of_isWordChar (isWordChar_of_isDigit (areDigits c mem)))
  rcases whole with whole | whole
  · exact solid_of_forall (whole ▸ nonempty) (whole ▸ solid)
  · exact solid_of_forall (whole ▸ List.cons_ne_nil _ _)
      (whole ▸ List.forall_mem_cons.mpr ⟨by decide, solid⟩)

namespace Text

end Text

namespace TypeExpr

end TypeExpr

end TypeSpelling
