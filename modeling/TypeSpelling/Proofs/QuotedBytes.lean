import TypeSpelling.Proofs.Scanning

/-!
# Quoted literals in bytes

Where a quoted literal ends can be found in the bytes of a text alone: a backslash takes
the next byte along, whatever that byte is part of, and the first quotation mark that is
not taken along ends the literal.  A backslash and a quotation mark are one byte each, and
these bytes are part of no other character.  So the bytes may be entered in the middle of a
character, and the end is still found where the grammar ends the literal.  Where the
grammar finds no literal, all bytes are passed.
-/

namespace TypeSpelling.Source

open TypeSpelling.Peg
open TypeSpelling.Text

/-! ## The bytes of a character -/

/-- The byte of a character below 128 is part of no other character. -/
theorem eq_of_mem_utf8EncodeChar {c mark : Char} (ascii : mark.toNat < 128)
    (mem : mark.toUInt8 ∈ String.utf8EncodeChar c) : c = mark := by
  have byte : mark.toUInt8.toNat = mark.toNat := by
    rw [Char.toUInt8, UInt32.toNat_toUInt8]
    exact Nat.mod_eq_of_lt (Nat.lt_trans ascii (by decide))
  by_cases small : c.val.toNat ≤ 127
  · simp only [String.utf8EncodeChar, small, if_true, List.mem_singleton] at mem
    have same := congrArg UInt8.toNat mem
    rw [byte, UInt8.toNat_ofNat', Nat.mod_eq_of_lt (by omega)] at same
    exact Char.toNat_inj.mp same.symm
  · -- Every byte of a longer encoding is 128 or more.
    have high : ∀ n, 128 ≤ n → n < 256 → mark.toUInt8 ≠ UInt8.ofNat n := by
      intro n large fits same
      have values := congrArg UInt8.toNat same
      rw [byte, UInt8.toNat_ofNat', Nat.mod_eq_of_lt fits] at values
      omega
    exfalso
    simp only [String.utf8EncodeChar, small, if_false] at mem
    split at mem
    · simp only [List.mem_cons, List.not_mem_nil, or_false] at mem
      rcases mem with mem | mem <;> exact high _ (by omega) (by omega) mem
    split at mem
    · simp only [List.mem_cons, List.not_mem_nil, or_false] at mem
      rcases mem with mem | mem | mem <;> exact high _ (by omega) (by omega) mem
    · simp only [List.mem_cons, List.not_mem_nil, or_false] at mem
      rcases mem with mem | mem | mem | mem <;> exact high _ (by omega) (by omega) mem

theorem size_utf8Encode_append_cons (before : List Char) (c : Char) (rest : List Char) :
    (before ++ c :: rest).utf8Encode.size =
      utf8Length before + (c.utf8Size + utf8Length rest) := by
  rw [← utf8Length_eq_size_utf8Encode, utf8Length_append, utf8Length_cons]

/-- The bytes of a character stand behind the bytes of the characters in front of it. -/
theorem getElem_utf8Encode_mem (before : List Char) (c : Char) (rest : List Char)
    {position : Nat} (behind : utf8Length before ≤ position)
    (inside : position < utf8Length before + c.utf8Size)
    (bound : position < (before ++ c :: rest).utf8Encode.size) :
    (before ++ c :: rest).utf8Encode[position] ∈ String.utf8EncodeChar c := by
  have size := utf8Length_eq_size_utf8Encode before
  have bytes : (before ++ c :: rest).utf8Encode =
      before.utf8Encode ++ ((String.utf8EncodeChar c).toByteArray ++ rest.utf8Encode) := by
    rw [List.utf8Encode_append, List.utf8Encode_cons, List.utf8Encode_singleton]
  simp only [bytes]
  rw [ByteArray.getElem_append_right (by omega), ByteArray.getElem_append_left
    (by rw [List.size_toByteArray, String.length_utf8EncodeChar]; omega), List.getElem_toByteArray]
  exact List.getElem_mem _

/-! ## Passing a literal -/

/-- Position behind a quoted literal that goes on at a position, or behind all bytes if it
is not closed.  A backslash takes the next byte along. -/
def passQuoted (bytes : ByteArray) (quotation : UInt8) (position : Nat) : Nat :=
  if inside : position < bytes.size then
    if bytes[position] = '\\'.toUInt8 then passQuoted bytes quotation (position + 2)
    else if bytes[position] = quotation then position + 1
    else passQuoted bytes quotation (position + 1)
  else bytes.size
termination_by bytes.size - position

/-- Position behind the quoted literal that opens at a position. -/
def stopOfQuoted (bytes : ByteArray) (quotation : UInt8) (position : Nat) : Nat :=
  passQuoted bytes quotation (position + 1)

theorem passQuoted_of_size_le {bytes : ByteArray} {position : Nat} (quotation : UInt8)
    (behind : bytes.size ≤ position) : passQuoted bytes quotation position = bytes.size := by
  rw [passQuoted, dif_neg (Nat.not_lt.mpr behind)]

/-- Bytes that are neither a backslash nor the quotation mark are passed one by one. -/
theorem passQuoted_of_plain {bytes : ByteArray} {quotation : UInt8} {stop : Nat}
    (fits : stop ≤ bytes.size) {position : Nat} (ahead : position ≤ stop)
    (plain : ∀ place (inside : place < bytes.size), position ≤ place → place < stop →
      bytes[place] ≠ '\\'.toUInt8 ∧ bytes[place] ≠ quotation) :
    passQuoted bytes quotation position = passQuoted bytes quotation stop := by
  induction distance : stop - position generalizing position with
  | zero =>
      obtain rfl : position = stop := by omega
      rfl
  | succ distance ih =>
      have inside : position < bytes.size := by omega
      obtain ⟨notEscape, notMark⟩ := plain position inside (Nat.le_refl _) (by omega)
      rw [passQuoted, dif_pos inside, if_neg notEscape, if_neg notMark]
      exact ih (by omega) (fun place inside behind => plain place inside (by omega)) (by omega)

section

variable {mark : Char} (isMark : IsMark mark) (before rest : List Char)

include isMark

theorem toNat_lt_of_isMark : mark.toNat < 128 := by
  rcases isMark with rfl | rfl <;> decide

/-- What is left of a character that is neither a backslash nor the quotation mark is
passed, also from the middle of the character. -/
theorem passQuoted_character {c : Char} (notEscape : c ≠ '\\') (notMark : c ≠ mark)
    {position : Nat} (behind : utf8Length before ≤ position)
    (ahead : position ≤ utf8Length before + c.utf8Size) :
    passQuoted (before ++ c :: rest).utf8Encode mark.toUInt8 position =
      passQuoted (before ++ c :: rest).utf8Encode mark.toUInt8
        (utf8Length before + c.utf8Size) := by
  refine passQuoted_of_plain ?_ ahead fun place inside later earlier => ?_
  · rw [size_utf8Encode_append_cons]
    omega
  · have mem := getElem_utf8Encode_mem before c rest (by omega) earlier inside
    refine ⟨fun escape => notEscape ?_, fun closing => notMark ?_⟩
    · exact eq_of_mem_utf8EncodeChar (by decide) (escape ▸ mem)
    · exact eq_of_mem_utf8EncodeChar (toNat_lt_of_isMark isMark) (closing ▸ mem)

/-- What is left of a character behind its first byte is passed. -/
theorem passQuoted_taken (c : Char) :
    passQuoted (before ++ c :: rest).utf8Encode mark.toUInt8 (utf8Length before + 1) =
      passQuoted (before ++ c :: rest).utf8Encode mark.toUInt8
        (utf8Length before + c.utf8Size) := by
  have positive := c.utf8Size_pos
  by_cases single : c.utf8Size = 1
  · rw [single]
  · have longer : ∀ ascii : Char, ascii.utf8Size = 1 → c ≠ ascii := by
      rintro _ one rfl
      exact single one
    refine passQuoted_character isMark before rest (longer '\\' rfl) (longer mark ?_) (by omega)
      (by omega)
    rcases isMark with rfl | rfl <;> rfl

omit isMark in
theorem getElem_utf8Encode_of_single {c : Char}
    (single : String.utf8EncodeChar c = [c.toUInt8])
    (bound : utf8Length before < (before ++ c :: rest).utf8Encode.size) :
    (before ++ c :: rest).utf8Encode[utf8Length before] = c.toUInt8 := by
  have positive := c.utf8Size_pos
  have mem := getElem_utf8Encode_mem before c rest (Nat.le_refl _) (by omega) bound
  rwa [single, List.mem_singleton] at mem

omit isMark in
theorem passQuoted_escape (quotation : UInt8) :
    passQuoted (before ++ '\\' :: rest).utf8Encode quotation (utf8Length before) =
      passQuoted (before ++ '\\' :: rest).utf8Encode quotation (utf8Length before + 2) := by
  have bound : utf8Length before < (before ++ '\\' :: rest).utf8Encode.size := by
    rw [size_utf8Encode_append_cons]
    exact Nat.lt_add_of_pos_right (Nat.add_pos_left ('\\'.utf8Size_pos) _)
  rw [passQuoted, dif_pos bound, if_pos (getElem_utf8Encode_of_single before rest rfl bound)]

theorem passQuoted_mark :
    passQuoted (before ++ mark :: rest).utf8Encode mark.toUInt8 (utf8Length before) =
      utf8Length before + 1 := by
  have bound : utf8Length before < (before ++ mark :: rest).utf8Encode.size := by
    have positive := mark.utf8Size_pos
    rw [size_utf8Encode_append_cons]
    omega
  have single : String.utf8EncodeChar mark = [mark.toUInt8] := by
    rcases isMark with rfl | rfl <;> rfl
  have notEscape : mark.toUInt8 ≠ '\\'.toUInt8 := by rcases isMark with rfl | rfl <;> decide
  have byte := getElem_utf8Encode_of_single before rest single bound
  rw [passQuoted, dif_pos bound, byte, if_neg notEscape, if_pos rfl]

/-- The bytes are passed as the characters are split. -/
theorem passQuoted_eq_splitQuoted :
    passQuoted (before ++ rest).utf8Encode mark.toUInt8 (utf8Length before) =
      utf8Length before + utf8Length (splitQuoted mark rest).1 := by
  have markSize : mark.utf8Size = 1 := by rcases isMark with rfl | rfl <;> rfl
  have escapeSize : '\\'.utf8Size = 1 := rfl
  fun_induction splitQuoted mark rest generalizing before with
  | case1 =>
      rw [List.append_nil, utf8Length_eq_size_utf8Encode,
        passQuoted_of_size_le _ (Nat.le_refl _)]
      rfl
  | case2 c =>
      have size := size_utf8Encode_append_cons before c []
      rw [utf8Length_nil, Nat.add_zero] at size
      rw [utf8Length_cons, utf8Length_nil, Nat.add_zero]
      by_cases escape : c = '\\'
      · subst escape
        rw [passQuoted_escape, passQuoted_of_size_le _ (by omega), size]
      by_cases closing : c = mark
      · subst closing
        rw [passQuoted_mark isMark, markSize]
      · rw [passQuoted_character isMark before [] escape closing (Nat.le_refl _)
          (Nat.le_add_right _ _), passQuoted_of_size_le _ (Nat.le_of_eq size), size]
  | case3 next rest split ih =>
      -- Behind the backslash the scan may stand inside the next character.
      have taken := passQuoted_taken isMark (before ++ ['\\']) rest next
      have later := ih (before ++ ['\\', next])
      have whole : before ++ ['\\', next] ++ rest = before ++ '\\' :: next :: rest := by simp
      simp only [whole, ← List.append_cons, utf8Length_append, utf8Length_cons, utf8Length_nil,
        escapeSize, Nat.add_zero, Nat.add_assoc] at taken later ⊢
      rw [passQuoted_escape, taken, later]
  | case4 next rest notEscape =>
      rw [passQuoted_mark isMark, utf8Length_cons, markSize]
      rfl
  | case5 c next rest notEscape notMark split ih =>
      have later := ih (before ++ [c])
      rw [← List.append_cons, utf8Length_append, utf8Length_cons, utf8Length_nil, Nat.add_zero,
        Nat.add_assoc] at later
      rw [passQuoted_character isMark before (next :: rest) notEscape notMark (Nat.le_refl _)
        (Nat.le_add_right _ _), later, utf8Length_cons]

end

/-! ## Literals of the grammar -/

/-- A literal is split off at its end, or is not closed and takes everything. -/
theorem splitQuoted_cases (mark : Char) (input : List Char) :
    (∃ contents rest, QuotedContents mark contents ∧ input = contents ++ mark :: rest) ∨
      splitQuoted mark input = (input, []) := by
  fun_induction splitQuoted mark input with
  | case1 => exact .inr rfl
  | case2 c => exact .inr rfl
  | case3 next rest split ih =>
      refine ih.imp ?_ fun all => ?_
      · rintro ⟨contents, behind, quoted, rfl⟩
        exact ⟨'\\' :: next :: contents, behind, .escape next quoted, rfl⟩
      · simp [split, all]
  | case4 next rest notEscape => exact .inl ⟨[], next :: rest, .nil, rfl⟩
  | case5 c next rest notEscape notMark split ih =>
      refine ih.imp ?_ fun all => ?_
      · rintro ⟨contents, behind, quoted, whole⟩
        exact ⟨c :: contents, behind, .plain notMark notEscape quoted, by rw [whole]; rfl⟩
      · simp [split, all]

/-- The rule for strings takes what the rule for quoted literals takes. -/
theorem map_text_call?_string (inToken : Bool) (position : Nat) (input : List Char) :
    (grammar.call? inToken .string position input).map Match.text =
      (grammar.call? true .quoted position input).map Match.text := by
  have enters : grammar.entersToken inToken .string = true := Bool.or_true inToken
  rw [call?_eq_body, enters, Option.map_map]
  change (grammar.call? true .quoted position input).map _ = _
  exact congrArg (Option.map · _) (funext fun found => Match.text_ofRule ..)

section

variable {mark : Char} (isMark : IsMark mark)

include isMark

/-- The count takes the quoted literal that the grammar takes, or everything. -/
theorem nextPiece_of_call?_quoted (position : Nat) (rest : List Char) :
    (nextPiece mark rest).1.text =
      match grammar.call? true .quoted position (mark :: rest) with
      | some found => found.text
      | none => mark :: rest := by
  rw [nextPiece_mark isMark]
  cases quoted : grammar.call? true .quoted position (mark :: rest) with
  | some found =>
      obtain ⟨_, behind, ⟨opening, contents, -, inside, rfl⟩, whole, rfl⟩ :=
        call?_quoted_eq_some_iff.mp quoted
      obtain ⟨rfl, rfl⟩ := List.cons.inj whole
      simp [splitQuoted_append_mark isMark inside]
  | none =>
      rcases splitQuoted_cases mark rest with ⟨contents, behind, inside, rfl⟩ | all
      · have taken : grammar.call? true .quoted position (mark :: (contents ++ mark :: behind)) =
            some ⟨mark :: (contents ++ [mark]), behind, []⟩ :=
          call?_quoted_eq_some_iff.mpr
            ⟨_, behind, ⟨mark, contents, isMark, inside, rfl⟩, by simp, rfl⟩
        rw [quoted] at taken
        cases taken
      · rw [all]

omit isMark in
theorem toUTF8_eq_utf8Encode (text : String) : text.toUTF8 = text.toList.utf8Encode := by
  rw [String.toUTF8_eq_toByteArray, ← String.toByteArray_ofList, String.ofList_toList]

/-- A quotation mark among the bytes of a text is one among its characters. -/
theorem exists_append_of_byte {text : String} {position : Nat}
    (held : text.toUTF8[position]? = some mark.toUInt8) :
    ∃ before rest, text.toList = before ++ mark :: rest ∧ utf8Length before = position := by
  obtain ⟨bound, byte⟩ := getElem?_eq_some_iff.mp held
  have first : text.toUTF8[position].IsUTF8FirstByte := by
    rw [byte]
    rcases isMark with rfl | rfl <;> decide
  obtain ⟨left, right, whole, ends⟩ := String.Pos.Raw.isValid_iff_exists_append.mp
    (String.Pos.Raw.isValid_iff_isUTF8FirstByte.mpr (.inr ⟨bound, first⟩))
  have length : utf8Length left.toList = position := by
    rw [utf8Length_toList, ← String.byteIdx_rawEndPos, ← ends]
  have chars : text.toList = left.toList ++ right.toList := by rw [whole, String.toList_append]
  simp only [toUTF8_eq_utf8Encode, chars] at bound byte
  cases others : right.toList with
  | nil =>
      rw [others, List.append_nil, ← utf8Length_eq_size_utf8Encode, length] at bound
      exact absurd bound (Nat.lt_irrefl _)
  | cons c rest =>
      have positive := c.utf8Size_pos
      simp only [others] at bound byte
      have mem := getElem_utf8Encode_mem left.toList c rest (Nat.le_of_eq length) (by omega) bound
      rw [byte] at mem
      obtain rfl := eq_of_mem_utf8EncodeChar (toNat_lt_of_isMark isMark) mem
      exact ⟨left.toList, rest, by rw [chars, others], length⟩

end

/-- The grammar's rule for quoted literals is called from tokens alone, where no blanks are
passed.  At every quotation mark among the bytes of a text the literal ends in the bytes
where this rule ends it, and everything is passed where the rule does not match.  The count
of the nesting takes just this much as a piece, and the rule for strings takes what the rule
for quoted literals takes. -/
theorem stopOfQuoted_eq (text : String) {mark : Char} (isMark : IsMark mark) {position : Nat}
    (held : text.toUTF8[position]? = some mark.toUInt8) :
    ∃ before rest, text.toList = before ++ mark :: rest ∧ utf8Length before = position ∧
      stopOfQuoted text.toUTF8 mark.toUInt8 position =
        position + utf8Length (nextPiece mark rest).1.text ∧
      (∀ inToken, (grammar.call? inToken .string position (mark :: rest)).map Match.text =
        (grammar.call? true .quoted position (mark :: rest)).map Match.text) ∧
      stopOfQuoted text.toUTF8 mark.toUInt8 position =
        match grammar.call? true .quoted position (mark :: rest) with
        | some found => position + utf8Length found.text
        | none => text.utf8ByteSize := by
  obtain ⟨before, rest, whole, length⟩ := exists_append_of_byte isMark held
  have markSize : mark.utf8Size = 1 := by rcases isMark with rfl | rfl <;> rfl
  have piece : stopOfQuoted text.toUTF8 mark.toUInt8 position =
      position + utf8Length (nextPiece mark rest).1.text := by
    have passed := passQuoted_eq_splitQuoted isMark (before ++ [mark]) rest
    rw [← List.append_cons, ← whole, ← toUTF8_eq_utf8Encode, utf8Length_append, length,
      utf8Length_cons, utf8Length_nil, markSize] at passed
    rw [stopOfQuoted, passed, nextPiece_mark isMark, utf8Length_cons, markSize, Nat.add_assoc]
  refine ⟨before, rest, whole, length, piece, fun inToken => map_text_call?_string .., ?_⟩
  rw [piece, nextPiece_of_call?_quoted isMark position rest]
  cases grammar.call? true .quoted position (mark :: rest) with
  | some found => rfl
  | none => rw [← utf8Length_toList, whole, utf8Length_append, length]

/-- A backslash may take along the first byte of a longer character, and at the end of the
text it takes nothing. -/
theorem stopOfQuoted_of_escapes :
    let text := "a|'\\é'|\"é\\"
    IsMark '\'' ∧ text.toUTF8[2]? = some '\''.toUInt8 ∧
      IsMark '"' ∧ text.toUTF8[8]? = some '"'.toUInt8 ∧
      (grammar.call? true .quoted 2 "'\\é'|\"é\\".toList).map Match.text =
        some "'\\é'".toList ∧
      stopOfQuoted text.toUTF8 '\''.toUInt8 2 = 7 ∧
      grammar.call? true .quoted 8 "\"é\\".toList = none ∧
      stopOfQuoted text.toUTF8 '"'.toUInt8 8 = text.utf8ByteSize := by
  intro text
  have single : IsMark '\'' := .inr rfl
  have double : IsMark '"' := .inl rfl
  have held : text.toUTF8[2]? = some '\''.toUInt8 := by decide +kernel
  have heldBehind : text.toUTF8[8]? = some '"'.toUInt8 := by decide +kernel
  have closed : (grammar.call? true .quoted 2 "'\\é'|\"é\\".toList).map Match.text =
      some "'\\é'".toList := by decide +kernel
  have unclosed : grammar.call? true .quoted 8 "\"é\\".toList = none :=
    Option.map_eq_none_iff.mp
      (by decide +kernel :
        (grammar.call? true .quoted 8 "\"é\\".toList).map Match.text = none)
  have front : splitBytes? 2 text.toList =
      some ("a|".toList, "'\\é'|\"é\\".toList) := by decide +kernel
  have behind : splitBytes? 8 text.toList =
      some ("a|'\\é'|".toList, "\"é\\".toList) := by decide +kernel
  refine ⟨single, held, double, heldBehind, closed, ?_, unclosed, ?_⟩
  · obtain ⟨before, rest, whole, length, -, -, stop⟩ := stopOfQuoted_eq text single held
    rw [splitBytes?_eq_some_iff.mpr ⟨whole, length⟩] at front
    obtain ⟨-, here⟩ := Prod.mk.inj (Option.some.inj front)
    obtain ⟨found, quoted, taken⟩ := Option.map_eq_some_iff.mp closed
    rw [here, quoted] at stop
    change _ = 2 + utf8Length found.text at stop
    rw [stop, taken]
    decide
  · obtain ⟨before, rest, whole, length, -, -, stop⟩ := stopOfQuoted_eq text double heldBehind
    rw [splitBytes?_eq_some_iff.mpr ⟨whole, length⟩] at behind
    obtain ⟨-, here⟩ := Prod.mk.inj (Option.some.inj behind)
    rwa [here, unclosed] at stop

end TypeSpelling.Source
