import TypeSpelling.Sorting
import TypeSpelling.Text.Order

/-!
# Literal values

The constants that a literal type may list.  A string or bytes value keeps its
token as written, quotation marks and escapes included, so printing it gives
back the spelling of the source.

Values are ordered by their kind and then by what they hold.  The order is
total and antisymmetric, so a list of values has one sorted form.
-/

namespace TypeSpelling

/-- A constant inside a literal type. -/
inductive LiteralValue where
  /-- A string, as the token that was written. -/
  | str (token : String)
  /-- A byte string, as the token that was written. -/
  | bytes (token : String)
  | int (value : Int)
  | bool (value : Bool)
  | null
  deriving DecidableEq

namespace LiteralValue

/-- The spelling that the type checker reads. -/
def canonicalToken : LiteralValue → String
  | .str token => token
  | .bytes token => token
  | .int value => value.repr
  | .bool true => "True"
  | .bool false => "False"
  | .null => "None"

/-- The spelling in the shorthand. -/
def shorthandToken : LiteralValue → String
  | .str token => token
  | .bytes token => token
  | .int value => value.repr
  | .bool true => "true"
  | .bool false => "false"
  | .null => "null"

/-- Place of the value's kind in the order of values. -/
def kindRank : LiteralValue → Nat
  | .str _ => 0
  | .bytes _ => 1
  | .int _ => 2
  | .bool _ => 3
  | .null => 4

/-- The order of values: by kind, then tokens by code points, numbers by size
and `false` before `true`. -/
def le : LiteralValue → LiteralValue → Bool
  | .str left, .str right => Text.textLe left right
  | .bytes left, .bytes right => Text.textLe left right
  | .int left, .int right => left ≤ right
  | .bool left, .bool right => !left || right
  | left, right => left.kindRank ≤ right.kindRank

theorem le_total (left right : LiteralValue) :
    left.le right = false → right.le left = true := by
  cases left <;> cases right <;> simp [le, kindRank]
  case str.str => exact Text.textLe_total _ _
  case bytes.bytes => exact Text.textLe_total _ _
  case int.int => exact Int.le_of_lt
  case bool.bool left right => cases left <;> cases right <;> simp

theorem le_trans (left middle right : LiteralValue) :
    left.le middle = true → middle.le right = true → left.le right = true := by
  cases left <;> cases middle <;> cases right <;> simp [le, kindRank]
  case str.str.str => exact Text.textLe_trans _ _ _
  case bytes.bytes.bytes => exact Text.textLe_trans _ _ _
  case int.int.int => exact Int.le_trans
  case bool.bool.bool left middle right => cases left <;> cases middle <;> cases right <;> simp

theorem le_antisymm (left right : LiteralValue) :
    left.le right = true → right.le left = true → left = right := by
  cases left <;> cases right <;> simp [le, kindRank]
  case str.str => exact Text.textLe_antisymm _ _
  case bytes.bytes => exact Text.textLe_antisymm _ _
  case int.int => exact Int.le_antisymm
  case bool.bool left right => cases left <;> cases right <;> simp

/-- The values in order. -/
def sort (values : List LiteralValue) : List LiteralValue :=
  Sorting.sort le values

end LiteralValue

end TypeSpelling
