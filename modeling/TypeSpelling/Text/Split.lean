/-!
# Splitting texts

A text is split at every occurrence of a separator, so n separators leave n + 1
parts, some of them perhaps empty.  Lines are parts between line feeds, less a
carriage return in front of the line feed; a text that ends in a line feed has
no further line behind it.
-/

namespace TypeSpelling.Text

/-- The parts of a text between the separators. -/
def splitChars (separator : Char) : List Char → List (List Char)
  | [] => [[]]
  | c :: rest =>
      match splitChars separator rest with
      | [] => [[c]]
      | part :: parts => if c = separator then [] :: part :: parts else (c :: part) :: parts

theorem splitChars_ne_nil (separator : Char) (chars : List Char) :
    splitChars separator chars ≠ [] := by
  cases chars with
  | nil => simp [splitChars]
  | cons c rest =>
      unfold splitChars
      split
      · simp
      · split <;> simp

/-- Putting the separators back between the parts gives the text. -/
theorem intercalate_splitChars (separator : Char) (chars : List Char) :
    [separator].intercalate (splitChars separator chars) = chars := by
  induction chars with
  | nil => rfl
  | cons c rest ih =>
      cases parts : splitChars separator rest with
      | nil => exact absurd parts (splitChars_ne_nil separator rest)
      | cons part others =>
          rw [parts] at ih
          unfold splitChars
          rw [parts]
          by_cases same : c = separator
          · simp [same, List.intercalate] at ih ⊢
            exact ih
          · simp only [same, if_false]
            cases others with
            | nil => simpa [List.intercalate] using ih
            | cons next more => simpa [List.intercalate, List.intersperse] using ih

/-- The parts of a string between the separators. -/
def split (separator : Char) (text : String) : List String :=
  (splitChars separator text.toList).map String.ofList

/-- A line without the carriage return at its end. -/
def dropCarriageReturn : List Char → List Char
  | [] => []
  | [c] => if c = '\r' then [] else [c]
  | c :: rest => c :: dropCarriageReturn rest

/-- The lines among the parts between line feeds. -/
def linesOfParts : List (List Char) → List (List Char)
  | [] => []
  | [last] => if last.isEmpty then [] else [last]
  | line :: rest => dropCarriageReturn line :: linesOfParts rest

/-- The lines of a text. -/
def lines (text : String) : List String :=
  (linesOfParts (splitChars '\n' text.toList)).map String.ofList

end TypeSpelling.Text
