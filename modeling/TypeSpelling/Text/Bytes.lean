/-!
# Byte lengths

Positions in a source text are counted in bytes of its UTF-8 form, while the
text itself is read one character at a time.  This module counts the bytes that
a run of characters takes and finds the character that begins at a byte
position.  Lengths add up along concatenation, and for a whole string the count
is the size of its encoding.
-/

namespace TypeSpelling.Text

/-- Number of bytes that the characters take in UTF-8. -/
def utf8Length : List Char → Nat
  | [] => 0
  | c :: rest => c.utf8Size + utf8Length rest

/-- The characters left once the given number of bytes has been passed. -/
def dropBytes : Nat → List Char → List Char
  | _, [] => []
  | count, c :: rest =>
      if count = 0 then c :: rest else dropBytes (count - c.utf8Size) rest

/-- The characters of the given number of first bytes, and those behind them,
unless the place between is none between two characters. -/
def splitBytes? : Nat → List Char → Option (List Char × List Char)
  | 0, chars => some ([], chars)
  | _ + 1, [] => none
  | count + 1, c :: rest =>
      if c.utf8Size ≤ count + 1 then
        (splitBytes? (count + 1 - c.utf8Size) rest).map fun (left, right) => (c :: left, right)
      else none

/-- How many characters begin before a byte position. -/
def columnOf (position : Nat) (chars : List Char) : Nat :=
  chars.length - (dropBytes position chars).length

@[simp]
theorem utf8Length_nil : utf8Length [] = 0 := rfl

@[simp]
theorem utf8Length_cons (c : Char) (rest : List Char) :
    utf8Length (c :: rest) = c.utf8Size + utf8Length rest := rfl

@[simp]
theorem utf8Length_append (left right : List Char) :
    utf8Length (left ++ right) = utf8Length left + utf8Length right := by
  induction left with
  | nil => simp
  | cons c rest ih => simp [ih, Nat.add_assoc]

@[simp]
theorem dropBytes_zero (chars : List Char) : dropBytes 0 chars = chars := by
  cases chars <;> rfl

/-- Passing exactly the bytes of a run of characters leaves what follows it. -/
@[simp]
theorem dropBytes_utf8Length_append (left right : List Char) :
    dropBytes (utf8Length left) (left ++ right) = right := by
  induction left with
  | nil => simp
  | cons c rest ih =>
      have positive : c.utf8Size ≠ 0 := Nat.ne_of_gt c.utf8Size_pos
      simp [dropBytes, positive, ih]

/-- A text splits at a byte position exactly where characters end. -/
theorem splitBytes?_eq_some_iff {count : Nat} {chars left right : List Char} :
    splitBytes? count chars = some (left, right) ↔
      chars = left ++ right ∧ utf8Length left = count := by
  fun_induction splitBytes? count chars generalizing left with
  | case1 chars =>
      cases left with
      | nil => simp [eq_comm]
      | cons c rest => simp [Nat.ne_of_gt c.utf8Size_pos]
  | case2 count =>
      cases left <;> simp
  | case3 count c rest fits ih =>
      cases left with
      | nil => simp
      | cons d others =>
          simp only [Option.map_eq_some_iff, Prod.exists, Prod.mk.injEq, List.cons.injEq,
            List.cons_append, utf8Length_cons]
          constructor
          · rintro ⟨others', right', found, ⟨rfl, rfl⟩, rfl⟩
            have ⟨whole, length⟩ := ih.mp found
            exact ⟨⟨rfl, whole⟩, by omega⟩
          · rintro ⟨⟨rfl, whole⟩, length⟩
            exact ⟨others, right, ih.mpr ⟨whole, by omega⟩, ⟨rfl, rfl⟩, rfl⟩
  | case4 count c rest tooLong =>
      cases left with
      | nil => simp
      | cons d others =>
          simp only [reduceCtorEq, List.cons_append, List.cons.injEq, utf8Length_cons, false_iff]
          rintro ⟨⟨rfl, _⟩, length⟩
          omega

theorem utf8Length_eq_size_utf8Encode (chars : List Char) :
    utf8Length chars = chars.utf8Encode.size := by
  induction chars with
  | nil => rfl
  | cons c rest ih =>
      rw [List.utf8Encode_cons, ByteArray.size_append, utf8Length_cons, ih,
        List.utf8Encode_singleton, List.size_toByteArray, String.length_utf8EncodeChar]

/-- The byte length of the characters of a string is the size of the string. -/
theorem utf8Length_toList (text : String) : utf8Length text.toList = text.utf8ByteSize := by
  rw [utf8Length_eq_size_utf8Encode, ← String.toByteArray_ofList, String.ofList_toList]
  rfl

end TypeSpelling.Text
