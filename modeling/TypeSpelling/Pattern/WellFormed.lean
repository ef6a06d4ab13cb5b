import TypeSpelling.Pattern.Bracket

/-!
# Well-formed patterns

A pattern is a regular expression that a value has to match.  Whether a text is
one is found in a single walk: the groups that are open are kept on a stack,
each with the flags and the items in front of it.  Counted repetitions,
look-around, back references and classes by property do not occur; ends of words
and the classes of digits, spaces and words are known for ASCII only, so they
need the Unicode flag to be off.
-/

namespace TypeSpelling.Pattern

/-- How deep a pattern may nest. -/
def maxDepth : Nat :=
  250

/-- The innermost open group: its flags, its finished alternatives and the items
of the alternative that is being read. -/
structure Group where
  flags : Flags
  alternatives : Row
  items : Row

namespace Group

/-- A group in which nothing has been read. -/
def fresh (flags : Flags) : Group :=
  ⟨flags, .empty, .empty⟩

/-- A group with one more item. -/
def push (group : Group) (depth : Nat) : Group :=
  { group with items := group.items.push depth }

/-- How deep the content of a group nests. -/
def depth (group : Group) : Nat :=
  (group.alternatives.push group.items.depth).depth

end Group

/-- A pattern in front of the place that has been reached. -/
structure Progress where
  /-- The groups around the innermost, the nearest first. -/
  outer : List Group
  inner : Group
  /-- Names given to groups. -/
  names : List (List Char)

namespace Progress

/-- Nothing has been read. -/
def start : Progress :=
  ⟨[], .fresh .initial, []⟩

/-- Whether a pattern may end here. -/
def mayEnd (progress : Progress) : Bool :=
  progress.outer.isEmpty && progress.inner.depth ≤ maxDepth

/-- Goes on with another innermost group. -/
def withInner (progress : Progress) (inner : Group) : Progress :=
  { progress with inner := inner }

/-- An item without parts. -/
def leaf (progress : Progress) : Progress :=
  progress.withInner (progress.inner.push 0)

/-- A name may be given once. -/
def addName? (progress : Progress) : Option (List Char) → Option Progress
  | none => some progress
  | some name =>
      if name ∈ progress.names then none
      else some { progress with names := name :: progress.names }

/-- What an opening parenthesis leads to. -/
def enter? (progress : Progress) : Opening → Option Progress
  | .setting flags =>
      let inner := progress.inner
      some (progress.withInner { inner with flags := flags, items := inner.items.pushSetting })
  | .group flags name? =>
      (progress.addName? name?).map fun progress =>
        { progress with outer := progress.inner :: progress.outer, inner := .fresh flags }

/-- What a closing parenthesis leads to. -/
def leave? (progress : Progress) : Option Progress :=
  match progress.outer with
  | [] => none
  | around :: outer =>
      some { progress with outer := outer, inner := around.push (progress.inner.depth + 1) }

/-- Begins the next alternative. -/
def nextAlternative (progress : Progress) : Progress :=
  let inner := progress.inner
  progress.withInner
    { inner with alternatives := inner.alternatives.push inner.items.depth, items := .empty }

/-- Repeats the last item. -/
def repeatLast? (progress : Progress) : Option Progress :=
  progress.inner.items.repeatLast?.map fun items =>
    progress.withInner { progress.inner with items := items }

end Progress

/-- Whether an escape may stand outside of a class. -/
def Escape.allowed (flags : Flags) : Escape → Bool
  | .literal c asByte => flags.allowsLiteral && (flags.unicode || !asByte || c.toNat < 128)
  | .charClass negated => !flags.unicode && !negated
  | .wordEdge => !flags.unicode
  | .textEdge => true

/-- Reads the next part of a pattern. -/
def step? (progress : Progress) (text : List Char) : Option (Progress × List Char) :=
  let flags := progress.inner.flags
  match text with
  | [] => none
  | '(' :: rest =>
      (readOpening? flags rest).bind fun (opening, rest) =>
        (progress.enter? opening).map fun progress => (progress, rest)
  | ')' :: rest => progress.leave?.map fun progress => (progress, rest)
  | '|' :: rest => some (progress.nextAlternative, rest)
  | '[' :: rest =>
      (readClass? flags rest).map fun (depth, rest) =>
        (progress.withInner (progress.inner.push depth), rest)
  | '?' :: rest | '*' :: rest | '+' :: rest =>
      let rest :=
        match rest with
        | '?' :: rest => rest
        | _ => rest
      progress.repeatLast?.map fun progress => (progress, rest)
  | '\\' :: rest =>
      match readEscape? flags rest with
      | some (escape, rest) => if escape.allowed flags then some (progress.leaf, rest) else none
      | none => none
  | '.' :: rest => if flags.unicode then some (progress.leaf, rest) else none
  | '^' :: rest | '$' :: rest => some (progress.leaf, rest)
  | c :: rest =>
      if c ≠ '\x7b' && flags.allowsLiteral then some (progress.leaf, rest) else none

/-- Whether a pattern can be completed by a text.  Every part that is read takes
something off the text. -/
def completes (progress : Progress) (text : List Char) : Bool :=
  match progress.inner.flags.skip text with
  | [] => progress.mayEnd
  | c :: others =>
      match step? progress (c :: others) with
      | none => false
      | some (progress, rest) =>
          if rest.length < text.length then completes progress rest else false
termination_by text.length

/-- Whether a text is a well-formed pattern. -/
def isWellFormed (text : List Char) : Bool :=
  completes .start text

end TypeSpelling.Pattern
