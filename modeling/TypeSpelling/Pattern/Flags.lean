import TypeSpelling.Text.Blank
import TypeSpelling.Text.Letter

/-!
# Flags of patterns

Flags are set by a group, for what stands in it, or by themselves, for the rest
of the group around them.  Three of them decide which patterns are well formed:
whether case is ignored, whether characters are those of Unicode or only those
of ASCII, and whether white space and comments may stand between the parts.
-/

namespace TypeSpelling.Pattern

/-- The flags in force. -/
structure Flags where
  ignoreCase : Bool
  unicode : Bool
  /-- White space and comments are skipped. -/
  verbose : Bool

namespace Flags

/-- The flags at the beginning of a pattern. -/
def initial : Flags :=
  ⟨false, true, false⟩

/-- The flags with one of them turned on or off.  The flags about lines, about
the dot and about greed are of no account here. -/
def turn? (flags : Flags) (on : Bool) : Char → Option Flags
  | 'i' => some { flags with ignoreCase := on }
  | 'u' => some { flags with unicode := on }
  | 'x' => some { flags with verbose := on }
  | 'm' | 's' | 'U' | 'R' => some flags
  | _ => none

/-- Reads flags up to the colon or the parenthesis behind them.  A hyphen turns
the flags behind it off, and neither a flag nor the hyphen may come twice.  What
has been read is kept, the last first. -/
def read? (flags : Flags) (on : Bool) (seen : List Char) :
    List Char → Option (Flags × List Char × List Char)
  | [] => none
  | c :: rest =>
      if c = ':' || c = ')' then
        if seen.head? = some '-' then none else some (flags, seen, c :: rest)
      else if c ∈ seen then none
      else if c = '-' then read? flags false (c :: seen) rest
      else
        match flags.turn? on c with
        | some flags => read? flags on (c :: seen) rest
        | none => none

/-- A text without the white space and the comments in front of it. -/
def skipBlanks (inComment : Bool) : List Char → List Char
  | [] => []
  | c :: rest =>
      if inComment then skipBlanks (c ≠ '\n') rest
      else if Text.isWhiteSpace c then skipBlanks false rest
      else if c = '#' then skipBlanks true rest
      else c :: rest

/-- A text without what the flags let skip in front of it. -/
def skip (flags : Flags) (text : List Char) : List Char :=
  if flags.verbose then skipBlanks false text else text

/-- Without tables of case, only ASCII letters can be compared without regard to
case. -/
def allowsLiteral (flags : Flags) : Bool :=
  !(flags.ignoreCase && flags.unicode)

end Flags

/-! ## The beginning of a group -/

/-- What an opening parenthesis begins. -/
inductive Opening where
  /-- A setting of flags, complete with its closing parenthesis. -/
  | setting (flags : Flags)
  /-- A group under its flags, perhaps with a name. -/
  | group (flags : Flags) (name? : Option (List Char))

/-- Whether a name of a group may begin with a character. -/
def isNameStart (c : Char) : Bool :=
  c = '_' || Text.isAlphabetic c

/-- Whether a name of a group may go on with a character. -/
def isNamePart (c : Char) : Bool :=
  c = '_' || c = '.' || c = '[' || c = ']' || Text.isAlphanumeric c

/-- Reads the name of a group up to the angle bracket behind it. -/
def readName? (text : List Char) : Option (List Char × List Char) :=
  match text.takeWhile (· ≠ '>'), text.dropWhile (· ≠ '>') with
  | first :: others, _ :: rest =>
      if isNameStart first && others.all isNamePart then some (first :: others, rest) else none
  | _, _ => none

/-- Reads what stands behind an opening parenthesis. -/
def readOpening? (flags : Flags) (text : List Char) : Option (Opening × List Char) :=
  match flags.skip text with
  | '?' :: 'P' :: '<' :: rest | '?' :: '<' :: rest =>
      (readName? rest).map fun (name, rest) => (.group flags (some name), rest)
  | '?' :: rest =>
      match flags.read? true [] rest with
      | some (inner, _, ':' :: rest) => some (.group inner none, rest)
      | some (inner, _ :: _, ')' :: rest) => some (.setting inner, rest)
      | _ => none
  | rest => some (.group flags none, rest)

end TypeSpelling.Pattern
