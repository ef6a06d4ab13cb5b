/-!
# Written numbers

A decimal number may have a sign, a point and an exponent.  Infinity and the
value that is no number have names of their own.
-/

namespace TypeSpelling.Text

/-- The lower-case form of a Latin letter; other characters stay. -/
def lowerCase (c : Char) : Char :=
  if 'A' ≤ c && c ≤ 'Z' then Char.ofNat (c.toNat + 32) else c

/-- A text without the sign in front of it. -/
def dropSign : List Char → List Char
  | '+' :: rest | '-' :: rest => rest
  | text => text

/-- Whether a text is a row of digits. -/
def isDigits (text : List Char) : Bool :=
  !text.isEmpty && text.all Char.isDigit

/-- Whether a text may stand behind the digits of a number. -/
def isExponent : List Char → Bool
  | [] => true
  | c :: rest => (c = 'e' || c = 'E') && isDigits (dropSign rest)

/-- Whether a text is a number without a sign.  There are digits in front of the
point or behind it. -/
def isUnsignedNumber (text : List Char) : Bool :=
  let whole := text.takeWhile Char.isDigit
  match text.dropWhile Char.isDigit with
  | '.' :: rest =>
      let fraction := rest.takeWhile Char.isDigit
      !(whole.isEmpty && fraction.isEmpty) && isExponent (rest.dropWhile Char.isDigit)
  | rest => !whole.isEmpty && isExponent rest

/-- Whether a text is a number, infinity or the value that is no number. -/
def isNumber (text : List Char) : Bool :=
  let unsigned := dropSign text
  isUnsignedNumber unsigned ||
    String.ofList (unsigned.map lowerCase) ∈ ["inf", "infinity", "nan"]

end TypeSpelling.Text
