import TypeSpelling.Pattern.WellFormed
import TypeSpelling.Source.Tree
import TypeSpelling.Text.Bytes
import TypeSpelling.Text.Number

/-!
# Directives of log filters

A directive names a target, a span in square brackets or both, and perhaps a
level behind an equals sign; a level may also stand alone.  A span may hold a
field in braces, perhaps with the value it has to have: a number or a pattern.

White space around a directive is passed over.  Positions are counted from the
first character that is read, but the parts of a directive are cut out by these
positions from the whole text.  So white space in front makes the parts begin
and end too early, and one may even begin or end inside a character: there is no
such part, and the run cannot go on.
-/

namespace TypeSpelling.CommandLine

/-- Why a log filter is not read. -/
inductive FilterFault where
  /-- It is not well formed. -/
  | malformed
  /-- A part of it would begin or end inside a character. -/
  | splitCharacter
  deriving DecidableEq

/-- Whether a text names a level, by a word in any case or by a number. -/
def isLevel (text : List Char) : Bool :=
  let digits :=
    match text with
    | '+' :: rest => rest
    | _ => text
  (Text.isDigits digits && Source.naturalValue digits ≤ 5) ||
    String.ofList (text.map Text.lowerCase) ∈
      ["off", "error", "warn", "info", "debug", "trace"]

/-- Whether a text is a field, perhaps with a value between an equals sign and
the next. -/
def isField (text : List Char) : Bool :=
  match text with
  | [] => false
  | _ =>
      match text.dropWhile (· ≠ '=') with
      | [] => true
      | _ :: rest =>
          let value := rest.takeWhile (· ≠ '=')
          Text.isNumber value || Pattern.isWellFormed value

/-- Whether a directive without brackets may begin with a character. -/
def isTargetStart (c : Char) : Bool :=
  c = '-' || c = ':' || c = '_' || Text.isAlphanumeric c

/-! ## Parts -/

/-- The text from one byte position on. -/
def cutFrom (text : List Char) (start : Nat) : Except FilterFault (List Char) :=
  match Text.splitBytes? start text with
  | some (_, rest) => .ok rest
  | none => .error .splitCharacter

/-- The text from one byte position to another. -/
def cut (text : List Char) (start stop : Nat) : Except FilterFault (List Char) := do
  let rest ← cutFrom text start
  match Text.splitBytes? (stop - start) rest with
  | some (part, _) => return part
  | none => throw .splitCharacter

/-! ## Walking through a directive -/

/-- Where in a directive a character stands.  A part that has been begun comes
with its first position. -/
inductive Place where
  | start
  /-- In a target, or in a level that stands alone. -/
  | target
  | span (first : Nat)
  | field (first : Nat)
  | behindField
  | behindSpan
  | level (first : Nat)

namespace Place

/-- The place behind a character at a position. -/
def after (text : List Char) (position : Nat) (c : Char) : Place → Except FilterFault Place
  | .start =>
      if c = '[' then .ok (.span (position + 1))
      else if isTargetStart c then .ok .target
      else .error .malformed
  | .target => do
      if c = '=' then
        let _ ← cut text 0 position
        return .level (position + 1)
      else if c = '[' then
        let _ ← cut text 0 position
        return .span (position + 1)
      else return .target
  | .span first => do
      if c = ']' then
        let _ ← cut text first position
        return .behindSpan
      else if c = '\x7b' then
        let _ ← cut text first position
        return .field (position + 1)
      else return .span first
  | .field first => do
      if c = '\x7d' then
        if isField (← cut text first position) then return .behindField
        else throw .malformed
      else return .field first
  | .behindField => if c = ']' then .ok .behindSpan else .error .malformed
  | .behindSpan => if c = '=' then .ok (.level (position + 1)) else .error .malformed
  | .level first => .ok (.level first)

/-- Whether a directive may end at a place. -/
def finish (text : List Char) : Place → Except FilterFault Unit
  | .target | .behindSpan => .ok ()
  | .level first => do
      let level ← cutFrom text first
      if level.isEmpty || isLevel level then return () else throw .malformed
  | .start | .span _ | .field _ | .behindField => .error .malformed

/-- Walks through the characters of a directive from a position on. -/
def walk (text : List Char) (position : Nat) (place : Place) :
    List Char → Except FilterFault Unit
  | [] => place.finish text
  | c :: rest => do
      let place ← place.after text position c
      walk text (position + c.utf8Size) place rest

end Place

/-- Checks a directive. -/
def checkDirective (text : List Char) : Except FilterFault Unit :=
  Place.start.walk text 0 (Text.trimEndChars (text.dropWhile Text.isWhiteSpace))

end TypeSpelling.CommandLine
