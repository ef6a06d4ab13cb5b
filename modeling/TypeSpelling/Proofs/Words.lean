import TypeSpelling.Proofs.Matching
import TypeSpelling.Source.Ranking

/-!
# Words

Inside a token nothing is blank, and what a token takes is found by looking at
whole words: a word rule takes the word in front of it if that is one of its
words, and a segment of a name takes the word in front of it if a letter or an
underscore begins it.
-/

namespace TypeSpelling.Source

open TypeSpelling.Peg
open TypeSpelling.Text

/-! ## Inside tokens -/

/-- The test that nothing passes, which stands for blanks inside a token. -/
def noBlank (_ : Char) : Bool :=
  false

theorem startsWithout_noBlank (input : List Char) : StartsWithout noBlank input :=
  fun _ _ => rfl

section

variable {R : Type} {call : R → Matcher R}

theorem match?_spaced_solid_eq_some_iff {part second : Expr R} {others : List (Expr R)}
    {position : Nat} {input : List Char} {found : Match R} :
    (Expr.spaced (part :: second :: others)).match? noBlank call position input = some found ↔
      ∃ left right, part.match? noBlank call position input = some left ∧
        (Expr.spaced (second :: others)).match? noBlank call
          (position + utf8Length left.text) left.rest = some right ∧
        found = left.append right := by
  rw [match?_spaced_cons_eq_some_iff]
  have nothing : ∀ rest : List Char, rest.takeWhile noBlank = [] := fun rest =>
    takeWhile_eq_nil (startsWithout_noBlank rest)
  have everything : ∀ rest : List Char, rest.dropWhile noBlank = rest := fun rest =>
    dropWhile_eq_self (startsWithout_noBlank rest)
  simp only [nothing, everything, utf8Length_nil, Nat.add_zero, List.nil_append]
  rfl

theorem match?_skip_seq_solid (call : R → Matcher R) (item : Expr R) :
    (Expr.seq .skip item).match? noBlank call = item.match? noBlank call := by
  funext position input
  simp only [Expr.match?, takeWhile_eq_nil (startsWithout_noBlank input),
    dropWhile_eq_self (startsWithout_noBlank input), utf8Length_nil, Nat.add_zero]
  cases item.match? noBlank call position input <;> rfl

theorem match?_many_solid_eq_some_iff {item : Expr R}
    (progress : Progress (item.match? noBlank call)) {position : Nat} {input : List Char}
    {found : Match R} :
    (Expr.many item).match? noBlank call position input = some found ↔
      Repeats (item.match? noBlank call) position input found := by
  have skips := match?_skip_seq_solid call item
  rw [match?_many_eq_some_iff (skips ▸ progress), skips]
  constructor
  · rintro (⟨fails, rfl⟩ | ⟨first, others, matched, repeats, rfl⟩)
    · exact .stop fails
    · exact .step matched repeats
  · rintro (fails | ⟨matched, repeats⟩)
    · exact .inl ⟨fails, rfl⟩
    · exact .inr ⟨_, _, matched, repeats, rfl⟩

theorem progress_char (test : Char → Bool) (isBlank : Char → Bool) :
    Progress ((Expr.char test).match? isBlank call) := by
  intro position input found matched
  obtain ⟨c, rest, rfl, -, rfl⟩ := match?_char_eq_some_iff.mp matched
  exact ⟨rfl, List.cons_ne_nil c []⟩

/-- Repeating a character that passes a test takes the whole run of such
characters. -/
theorem repeats_char (test : Char → Bool) (isBlank : Char → Bool) (input : List Char) :
    ∀ position, Repeats ((Expr.char test).match? isBlank call) position input
      ⟨input.takeWhile test, input.dropWhile test, []⟩ := by
  induction input with
  | nil => exact fun position => .stop rfl
  | cons c rest ih =>
      intro position
      by_cases passes : test c = true
      · rw [List.takeWhile_cons_of_pos passes, List.dropWhile_cons_of_pos passes]
        have matched : (Expr.char test).match? isBlank call position (c :: rest) =
            some ⟨[c], rest, []⟩ := match?_char_eq_some_iff.mpr ⟨c, rest, rfl, passes, rfl⟩
        exact .step matched (ih _)
      · rw [List.takeWhile_cons_of_neg passes, List.dropWhile_cons_of_neg passes]
        exact .stop (match?_char_eq_none (startsWithout_cons.mpr (Bool.not_eq_true _ ▸ passes)))

theorem match?_many_char (test : Char → Bool) (position : Nat) (input : List Char) :
    (Expr.many (.char test)).match? noBlank call position input =
      some ⟨input.takeWhile test, input.dropWhile test, []⟩ :=
  (match?_many_solid_eq_some_iff (progress_char test noBlank)).mpr
    (repeats_char test noBlank input position)

end

/-! ## Calls -/

/-- The nodes of a token: one, unless it is part of a larger token. -/
def tokenNodes (inToken : Bool) (rule : Rule) (position : Nat) (text : List Char) :
    List (Node Rule) :=
  if inToken then [] else [⟨rule, position, text, []⟩]

/-- A token matches as its body does, and keeps none of the nodes below. -/
theorem call?_token_eq_some_iff {inToken : Bool} {rule : Rule} (token : rule.kind = .token)
    {position : Nat} {input : List Char} {found : Match Rule} :
    grammar.call? inToken rule position input = some found ↔
      ∃ inner, rule.body.match? noBlank (grammar.call? true) position input = some inner ∧
        found = ⟨inner.text, inner.rest, tokenNodes inToken rule position inner.text⟩ := by
  have enters : grammar.entersToken inToken rule = true := by
    simp [Grammar.entersToken, grammar, token]
  rw [call?_eq_body, enters, Option.map_eq_some_iff]
  refine exists_congr fun inner => and_congr_right fun _ => ?_
  rw [token]
  cases inToken <;> exact eq_comm

/-- Inside a token a rule matches as its body does and leaves no nodes. -/
theorem call?_inToken (rule : Rule) (position : Nat) (input : List Char) :
    grammar.call? true rule position input =
      (rule.body.match? noBlank (grammar.call? true) position input).map
        fun found => ⟨found.text, found.rest, []⟩ :=
  call?_eq_body true rule position input

/-- A character that goes on with a word is matched as such. -/
theorem call?_identChar :
    grammar.call? true .identChar =
      (Expr.char isWordChar).match? noBlank (grammar.call? true) := by
  funext position input
  rw [call?_inToken]
  cases matched : (Expr.char isWordChar).match? noBlank (grammar.call? true) position input with
  | none =>
      change ((Expr.char isWordChar).match? noBlank _ position input).map _ = none
      rw [matched]
      rfl
  | some found =>
      obtain ⟨c, rest, rfl, passes, rfl⟩ := match?_char_eq_some_iff.mp matched
      change ((Expr.char isWordChar).match? noBlank _ position _).map _ = _
      rw [matched]
      rfl

theorem match?_many_identChar (position : Nat) (input : List Char) :
    (Expr.many (.call Rule.identChar)).match? noBlank (grammar.call? true) position input =
      some ⟨input.takeWhile isWordChar, input.dropWhile isWordChar, []⟩ := by
  have same : (Expr.call Rule.identChar).match? noBlank (grammar.call? true) =
      (Expr.char isWordChar).match? noBlank (grammar.call? true) := call?_identChar
  rw [match?_many_solid_eq_some_iff (same ▸ progress_char isWordChar noBlank), same]
  exact repeats_char isWordChar noBlank input position

/-! ## Whole words -/

/-- What matches as a whole word is not carried on by the next character. -/
theorem match?_wholeWord_eq_some_iff {word : Expr Rule} {position : Nat} {input : List Char}
    {found : Match Rule} :
    (Rule.wholeWord word).match? noBlank (grammar.call? true) position input = some found ↔
      word.match? noBlank (grammar.call? true) position input = some found ∧
        StartsWithout isWordChar found.rest := by
  rw [Rule.wholeWord, match?_spaced_solid_eq_some_iff]
  simp only [Expr.spaced, match?_refuse_eq_some_iff]
  have refused : ∀ position (rest : List Char),
      (Expr.call Rule.identChar).match? noBlank (grammar.call? true) position rest = none ↔
        StartsWithout isWordChar rest := by
    intro position rest
    change grammar.call? true .identChar position rest = none ↔ _
    rw [call?_identChar]
    cases rest with
    | nil => simp [Expr.match?, startsWithout_nil]
    | cons c rest => simp [Expr.match?]
  have unchanged : ∀ found : Match Rule, found.append (.empty found.rest) = found := by
    intro found
    simp [Match.append, Match.empty]
  constructor
  · rintro ⟨left, right, matched, ⟨stops, rfl⟩, rfl⟩
    rw [unchanged]
    exact ⟨matched, (refused _ _).mp stops⟩
  · rintro ⟨matched, stops⟩
    exact ⟨found, _, matched, ⟨(refused _ _).mpr stops, rfl⟩, (unchanged found).symm⟩

/-- The word at the beginning of a text. -/
def firstWord (input : List Char) : List Char :=
  input.takeWhile isWordChar

/-- The text behind the word at its beginning. -/
def behindWord (input : List Char) : List Char :=
  input.dropWhile isWordChar

theorem firstWord_append_behindWord (input : List Char) :
    firstWord input ++ behindWord input = input :=
  List.takeWhile_append_dropWhile

theorem firstWord_append {word rest : List Char} (passes : ∀ c ∈ word, isWordChar c = true)
    (stops : StartsWithout isWordChar rest) : firstWord (word ++ rest) = word :=
  takeWhile_append_eq passes stops

theorem behindWord_append {word rest : List Char} (passes : ∀ c ∈ word, isWordChar c = true)
    (stops : StartsWithout isWordChar rest) : behindWord (word ++ rest) = rest :=
  dropWhile_append_eq passes stops

/-- Words none of which begins another one. -/
structure PrefixFree (words : List String) : Prop where
  wordChars : ∀ word ∈ words, ∀ c ∈ word.toList, isWordChar c = true
  prefixEq : ∀ word ∈ words, ∀ other ∈ words, word.toList <+: other.toList → word = other

/-- The characters of words, checked one by one. -/
theorem PrefixFree.of_all {words : List String}
    (wordChars : (words.all fun word => word.toList.all isWordChar) = true)
    (prefixEq : ∀ word ∈ words, ∀ other ∈ words, word.toList <+: other.toList → word = other) :
    PrefixFree words where
  wordChars := fun word mem => List.all_eq_true.mp (List.all_eq_true.mp wordChars word mem)
  prefixEq := prefixEq

/-- The first of the words that begins the text is taken. -/
theorem match?_firstOf_eq_some {words : List String} {position : Nat} {input : List Char}
    {found : Match Rule}
    (matched : (Expr.firstOf (words.map .literal)).match? noBlank (grammar.call? true) position
      input = some found) :
    ∃ word ∈ words, ∃ rest, input = word.toList ++ rest ∧ found = ⟨word.toList, rest, []⟩ := by
  obtain ⟨_, mem, wordMatched⟩ := exists_of_match?_firstOf matched
  obtain ⟨word, wordMem, rfl⟩ := List.mem_map.mp mem
  obtain ⟨rest, rfl, rfl⟩ := match?_text_eq_some_iff.mp wordMatched
  exact ⟨word, wordMem, rest, rfl, rfl⟩

theorem exists_match?_firstOf {words : List String} {word : String} (mem : word ∈ words)
    (rest : List Char) (position : Nat) :
    ∃ found, (Expr.firstOf (words.map .literal)).match? noBlank (grammar.call? true) position
      (word.toList ++ rest) = some found := by
  induction words with
  | nil => cases mem
  | cons first others ih =>
      cases others with
      | nil =>
          cases List.mem_singleton.mp mem
          exact ⟨_, match?_text_append word.toList rest position⟩
      | cons second others =>
          cases here : (Expr.literal first).match? noBlank (grammar.call? true) position
              (word.toList ++ rest) with
          | some found => exact ⟨found, match?_choice_eq_some_iff.mpr (.inl here)⟩
          | none =>
              have inOthers : word ∈ second :: others := by
                rcases List.mem_cons.mp mem with rfl | inOthers
                · rw [Expr.literal, match?_text_append] at here
                  cases here
                · exact inOthers
              obtain ⟨found, later⟩ := ih inOthers
              exact ⟨found, match?_choice_eq_some_iff.mpr (.inr ⟨here, later⟩)⟩

/-- A choice of whole words takes the first word of the text if it is one of them. -/
theorem match?_words_eq_some_iff {words : List String} (prefixFree : PrefixFree words)
    {position : Nat} {input : List Char} {found : Match Rule} :
    (Rule.wholeWord (Expr.firstOf (words.map .literal))).match? noBlank (grammar.call? true)
        position input = some found ↔
      (∃ word ∈ words, firstWord input = word.toList) ∧
        found = ⟨firstWord input, behindWord input, []⟩ := by
  rw [match?_wholeWord_eq_some_iff]
  constructor
  · rintro ⟨matched, stops⟩
    obtain ⟨word, mem, rest, rfl, rfl⟩ := match?_firstOf_eq_some matched
    have passes := prefixFree.wordChars word mem
    rw [firstWord_append passes stops, behindWord_append passes stops]
    exact ⟨⟨word, mem, rfl⟩, rfl⟩
  · rintro ⟨⟨word, mem, whole⟩, rfl⟩
    have stops : StartsWithout isWordChar (behindWord input) :=
      startsWithout_dropWhile isWordChar input
    obtain ⟨found, matched⟩ := exists_match?_firstOf mem (behindWord input) position
    rw [← whole, firstWord_append_behindWord] at matched
    -- A word that is taken instead begins the first word or is begun by it.
    obtain ⟨other, otherMem, rest, split, rfl⟩ := match?_firstOf_eq_some matched
    have same : other = word := by
      rw [← firstWord_append_behindWord input, whole] at split
      rcases List.prefix_or_prefix_of_prefix (List.prefix_append word.toList (behindWord input))
          (split ▸ List.prefix_append other.toList rest) with shorter | longer
      · exact (prefixFree.prefixEq word mem other otherMem shorter).symm
      · exact prefixFree.prefixEq other otherMem word mem longer
    subst same
    have behind : behindWord input = rest := by
      rw [← firstWord_append_behindWord input, whole] at split
      exact List.append_cancel_left split
    rw [whole, behind]
    exact ⟨matched, behind ▸ stops⟩

end TypeSpelling.Source
