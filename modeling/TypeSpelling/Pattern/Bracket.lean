import TypeSpelling.Pattern.Escape
import TypeSpelling.Pattern.Row

/-!
# Bracketed classes in patterns

A class in brackets lists characters, ranges, named classes and classes in
brackets of their own; doubled signs between its members intersect or subtract.
Hyphens at its beginning are members, and so is a closing bracket there.  Where
only ASCII is in force a class may not be negated, because it would then hold
parts of characters.
-/

namespace TypeSpelling.Pattern

/-! ## Members -/

/-- A single member. -/
inductive Member where
  | char (c : Char)
  | charClass (negated : Bool)

/-- Reads a single member. -/
def readMember? (flags : Flags) : List Char → Option (Member × List Char)
  | [] => none
  | '\\' :: rest =>
      match readEscape? flags rest with
      | some (.literal c _, rest) => some (.char c, rest)
      | some (.charClass negated, rest) => some (.charClass negated, rest)
      | _ => none
  | c :: rest => some (.char c, rest)

/-- Whether a character may be a member. -/
def allowsChar (flags : Flags) (c : Char) : Bool :=
  flags.allowsLiteral && (flags.unicode || c.toNat < 128)

/-- Whether a member may stand in a class.  The classes of digits, spaces and
words are known for ASCII only. -/
def Member.allowed (flags : Flags) : Member → Bool
  | .char c => allowsChar flags c
  | .charClass negated => !flags.unicode && !negated

/-- Whether a hyphen begins a range, given what stands behind it: at the end of
the class, and in front of another hyphen, it does not. -/
def beginsRange (flags : Flags) (behind : List Char) : Bool :=
  let next? :=
    if flags.verbose then
      match behind.dropWhile Text.isWhiteSpace with
      | '#' :: rest => (rest.dropWhile Text.isWhiteSpace).head?
      | rest => rest.head?
    else behind.head?
  next? ≠ some ']' && next? ≠ some '-'

/-- Reads a member or a range of characters. -/
def readItem? (flags : Flags) (text : List Char) : Option (List Char) :=
  match readMember? flags text with
  | none => none
  | some (first, rest) =>
      match flags.skip rest with
      | '-' :: behind =>
          if beginsRange flags behind then
            match first, readMember? flags (flags.skip behind) with
            | .char low, some (.char high, rest) =>
                if low ≤ high && allowsChar flags low && allowsChar flags high then some rest
                else none
            | _, _ => none
          else if first.allowed flags then some ('-' :: behind) else none
      | rest => if first.allowed flags then some rest else none

/-- Names of the classes that are written between colons. -/
def namedClasses : List String :=
  ["alnum", "alpha", "ascii", "blank", "cntrl", "digit", "graph", "lower", "print", "punct",
    "space", "upper", "word", "xdigit"]

/-- Reads a named class behind its opening bracket, and whether it is negated. -/
def readNamed? : List Char → Option (Bool × List Char)
  | ':' :: rest =>
      let (negated, rest) :=
        match rest with
        | '^' :: rest => (true, rest)
        | _ => (false, rest)
      match rest.dropWhile (· ≠ ':') with
      | ':' :: ']' :: behind =>
          if String.ofList (rest.takeWhile (· ≠ ':')) ∈ namedClasses then some (negated, behind)
          else none
      | _ => none
  | _ => none

/-! ## Brackets -/

/-- An open bracket. -/
structure Bracket where
  /-- Nothing but hyphens stands in it so far. -/
  fresh : Bool
  /-- How deep that nests which is in front of the last operator. -/
  operand? : Option Nat
  /-- The members behind the last operator. -/
  members : Row

namespace Bracket

/-- How deep the content of a bracket nests. -/
def depth (bracket : Bracket) : Nat :=
  match bracket.operand? with
  | none => bracket.members.depth
  | some operand => max operand bracket.members.depth + 1

/-- A bracket with one more member. -/
def push (bracket : Bracket) (depth : Nat) : Bracket :=
  { bracket with fresh := false, members := bracket.members.push depth }

/-- Reads what stands behind an opening bracket and in front of its members. -/
def open? (flags : Flags) (text : List Char) : Option (Bracket × List Char) :=
  match flags.skip text with
  | '^' :: rest => if flags.unicode then some (⟨true, none, .empty⟩, rest) else none
  | rest => some (⟨true, none, .empty⟩, rest)

end Bracket

/-- What is open while a class is read, the innermost bracket on its own. -/
structure Brackets where
  outer : List Bracket
  inner : Bracket

/-- What a step through a class leads to. -/
inductive ClassStep where
  /-- The class is closed and nests so deep. -/
  | closed (depth : Nat)
  | inside (brackets : Brackets)

/-- Reads the next part of a class. -/
def stepClass? (flags : Flags) (brackets : Brackets) (text : List Char) :
    Option (ClassStep × List Char) :=
  let inner := brackets.inner
  let goOn (inner : Bracket) (rest : List Char) : Option (ClassStep × List Char) :=
    some (.inside { brackets with inner := inner }, rest)
  let readOn : Option (ClassStep × List Char) :=
    (readItem? flags text).bind (goOn (inner.push 0))
  match text with
  | [] => none
  | '-' :: rest =>
      if inner.fresh then
        if flags.allowsLiteral then
          goOn { inner with members := inner.members.push 0 } rest
        else none
      else if rest.head? = some '-' then
        goOn ⟨false, some inner.depth, .empty⟩ rest.tail
      else readOn
  | ']' :: rest =>
      if inner.fresh && inner.members.count = 0 then
        if flags.allowsLiteral then goOn (inner.push 0) rest else none
      else
        match brackets.outer with
        | [] => some (.closed (inner.depth + 1), rest)
        | around :: outer => some (.inside ⟨outer, around.push (inner.depth + 1)⟩, rest)
  | '[' :: rest =>
      match readNamed? rest with
      | some (negated, behind) =>
          if flags.allowsLiteral && (flags.unicode || !negated) then goOn (inner.push 0) behind
          else none
      | none =>
          (Bracket.open? flags rest).map fun (bracket, rest) =>
            (.inside ⟨{ inner with fresh := false } :: brackets.outer, bracket⟩, rest)
  | '&' :: '&' :: rest | '~' :: '~' :: rest => goOn ⟨false, some inner.depth, .empty⟩ rest
  | _ => readOn

/-- Reads a class to its end and gives its depth.  Every part that is read takes
something off the text. -/
def readClassFrom? (flags : Flags) (brackets : Brackets) (text : List Char) :
    Option (Nat × List Char) :=
  match stepClass? flags brackets (flags.skip text) with
  | none => none
  | some (.closed depth, rest) => some (depth, rest)
  | some (.inside brackets, rest) =>
      if rest.length < text.length then readClassFrom? flags brackets rest else none
termination_by text.length

/-- Reads a class behind its opening bracket and gives its depth. -/
def readClass? (flags : Flags) (text : List Char) : Option (Nat × List Char) :=
  match Bracket.open? flags text with
  | none => none
  | some (bracket, rest) => readClassFrom? flags ⟨[], bracket⟩ rest

end TypeSpelling.Pattern
