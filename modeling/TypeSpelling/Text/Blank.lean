/-!
# White space

Characters that count as white space around an expression: those with the
property White_Space of Unicode.  They are more than the blanks that may stand
between the tokens of an expression.
-/

namespace TypeSpelling.Text

/-- Ranges of the code points with the property White_Space. -/
def whiteSpaceRanges : List (Nat × Nat) :=
  [(0x09, 0x0D), (0x20, 0x20), (0x85, 0x85), (0xA0, 0xA0), (0x1680, 0x1680),
    (0x2000, 0x200A), (0x2028, 0x2029), (0x202F, 0x202F), (0x205F, 0x205F), (0x3000, 0x3000)]

/-- Whether a character has the property White_Space. -/
def isWhiteSpace (c : Char) : Bool :=
  whiteSpaceRanges.any fun range => range.1 ≤ c.toNat && c.toNat ≤ range.2

/-- Characters without the white space at their end. -/
def trimEndChars : List Char → List Char
  | [] => []
  | c :: rest =>
      match trimEndChars rest with
      | [] => if isWhiteSpace c then [] else [c]
      | kept => c :: kept

/-- A text without the white space at its end. -/
def trimEnd (text : String) : String :=
  String.ofList (trimEndChars text.toList)

/-- A text without the white space at either end. -/
def trim (text : String) : String :=
  String.ofList (trimEndChars (text.toList.dropWhile isWhiteSpace))

/-- Whether a text is white space throughout. -/
def isBlankLine (text : String) : Bool :=
  text.toList.all isWhiteSpace

end TypeSpelling.Text
