/-!
# Rows of items

Patterns may nest only so deep.  How deep a part nests is known when the part
has been read, so nothing else is kept of it.  A row is what is kept of the
items of a sequence, of the alternatives of a group or of the members of a
bracketed class: one item alone stands for itself, more of them form a level of
their own.
-/

namespace TypeSpelling.Pattern

/-- The items read so far of a row. -/
structure Row where
  count : Nat
  /-- The deepest item in front of the last. -/
  earlier : Nat
  /-- The depth of the last item. -/
  last : Nat
  /-- Whether a repetition may follow the last item. -/
  repeatable : Bool

namespace Row

/-- No items. -/
def empty : Row :=
  ⟨0, 0, 0, false⟩

/-- The deepest item. -/
def deepest (row : Row) : Nat :=
  max row.earlier row.last

/-- A row with one more item. -/
def push (row : Row) (depth : Nat) : Row :=
  ⟨row.count + 1, row.deepest, depth, true⟩

/-- A row with a setting of flags in it, which nests no deeper and cannot be
repeated. -/
def pushSetting (row : Row) : Row :=
  ⟨row.count + 1, row.deepest, 0, false⟩

/-- A row whose last item is repeated. -/
def repeatLast? (row : Row) : Option Row :=
  if row.repeatable then some { row with last := row.last + 1 } else none

/-- How deep a row nests. -/
def depth (row : Row) : Nat :=
  if row.count ≤ 1 then row.last else row.deepest + 1

end Row

end TypeSpelling.Pattern
