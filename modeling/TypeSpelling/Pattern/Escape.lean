import TypeSpelling.Pattern.Flags

/-!
# Escapes in patterns

A backslash makes the character behind it a literal, or gives it a meaning of
its own: a character by its code point, a class of characters, a place in the
text.  Classes by property and back references are not supported.
-/

namespace TypeSpelling.Pattern

/-- What an escape stands for. -/
inductive Escape where
  /-- A character, perhaps given by two hexadecimal digits. -/
  | literal (c : Char) (asByte : Bool)
  /-- Digits, spaces or the characters of words, or all characters but those. -/
  | charClass (negated : Bool)
  /-- An end of the text. -/
  | textEdge
  /-- An end of a word, or a place that is none. -/
  | wordEdge

/-- Value of a hexadecimal digit. -/
def hexValue? (c : Char) : Option Nat :=
  if '0' ≤ c && c ≤ '9' then some (c.toNat - '0'.toNat)
  else if 'a' ≤ c && c ≤ 'f' then some (c.toNat - 'a'.toNat + 10)
  else if 'A' ≤ c && c ≤ 'F' then some (c.toNat - 'A'.toNat + 10)
  else none

/-- Reads a number of hexadecimal digits onto the value of those in front. -/
def readHex? (flags : Flags) : Nat → Nat → List Char → Option (Nat × List Char)
  | 0, value, text => some (value, text)
  | count + 1, value, text =>
      match flags.skip text with
      | [] => none
      | c :: rest =>
          match hexValue? c with
          | some digit => readHex? flags count (16 * value + digit) rest
          | none => none

/-- Reads a character given by its code point in a number of hexadecimal
digits. -/
def readCodePoint? (flags : Flags) (digits : Nat) (text : List Char) :
    Option (Escape × List Char) :=
  match readHex? flags digits 0 text with
  | some (value, rest) =>
      if value.isValidChar then some (.literal (Char.ofNat value) (digits = 2), rest) else none
  | none => none

/-- The meaning of a character behind a backslash, where it alone has one.
Letters and digits have none unless they are listed, other ASCII characters
stand for themselves. -/
def Escape.ofChar? (c : Char) : Option Escape :=
  if c ∈ ['d', 's', 'w'] then some (.charClass false)
  else if c ∈ ['D', 'S', 'W'] then some (.charClass true)
  else if c ∈ ['a', 'f', 'n', 'r', 't', 'v'] then
    some (.literal (Char.ofNat
      (match c with | 'a' => 7 | 'f' => 12 | 'n' => 10 | 'r' => 13 | 't' => 9 | _ => 11)) false)
  else if c ∈ ['A', 'z'] then some .textEdge
  else if c ∈ ['b', 'B', '<', '>'] then some .wordEdge
  else if c.toNat < 128 && !c.isAlphanum then some (.literal c false)
  else none

/-- Reads what stands behind a backslash. -/
def readEscape? (flags : Flags) : List Char → Option (Escape × List Char)
  | [] => none
  | 'x' :: rest => readCodePoint? flags 2 rest
  | 'u' :: rest => readCodePoint? flags 4 rest
  | 'U' :: rest => readCodePoint? flags 8 rest
  | c :: rest => (Escape.ofChar? c).map fun escape => (escape, rest)

end TypeSpelling.Pattern
