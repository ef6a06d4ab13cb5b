import TypeSpelling.Proofs.Atoms
import TypeSpelling.Proofs.Keywords
import TypeSpelling.Source.Nesting

/-!
# The nesting of texts

How the count of the nesting goes over the parts that texts are made of.  A text
nests as deep as its deepest piece, whatever the limit is, so the count is stated
without one.  Blanks and tokens leave the nesting alone, a keyword opens a level,
and a bracket opens one until it is closed.

Words and names are one kind of piece to the count, and a word goes on with the
dots behind it.  So a keyword that touches an ellipsis is one word with it, and
opens nothing.
-/

namespace TypeSpelling.Source

open TypeSpelling.Peg
open TypeSpelling.Text

/-! ## The deepest piece -/

namespace Nesting

/-- The depth of the deepest of some pieces and of the place where they begin. -/
def deepest : Nesting → List Piece → Nat
  | nesting, [] => nesting.depth
  | nesting, piece :: rest => max nesting.depth ((nesting.after piece.mark).deepest rest)

theorem depth_le_deepest (nesting : Nesting) (rest : List Piece) :
    nesting.depth ≤ nesting.deepest rest := by
  cases rest with
  | nil => exact Nat.le_refl _
  | cons piece rest => exact Nat.le_max_left _ _

/-- The depth of the deepest place of a text and of the place where it begins. -/
def reach (nesting : Nesting) (input : List Char) : Nat :=
  nesting.deepest (pieces input)

end Nesting

/-- How deep a text nests. -/
def nestingOf (input : List Char) : Nat :=
  Nesting.start.reach input

/-- A limit is exceeded nowhere if it is not exceeded at the deepest place. -/
theorem firstExcess?_eq_none_iff {limit : Nat} {pieces : List Piece} :
    ∀ {position : Nat} {nesting : Nesting}, nesting.depth ≤ limit →
      (firstExcess? limit position nesting pieces = none ↔ nesting.deepest pieces ≤ limit) := by
  induction pieces with
  | nil => exact fun {_ nesting} fits => iff_of_true rfl fits
  | cons piece rest ih =>
      intro position nesting fits
      have below := (nesting.after piece.mark).depth_le_deepest rest
      rw [firstExcess?, Nesting.deepest, Nat.max_le, and_iff_right fits]
      by_cases exceeded : limit < (nesting.after piece.mark).depth
      · rw [if_pos exceeded]
        exact iff_of_false (by simp) (by omega)
      · rw [if_neg exceeded, ih (Nat.not_lt.mp exceeded)]

/-- A text is refused for its nesting exactly if it nests deeper than the limit. -/
theorem depthError?_eq_none_iff {limit : Nat} {input : List Char} :
    depthError? limit input = none ↔ nestingOf input ≤ limit :=
  firstExcess?_eq_none_iff (Nat.zero_le limit)

/-- The words that open a level. -/
def levelWords : List (List Char) :=
  ["await".toList, "iter".toList, "with".toList]

/-- The brackets, separators and quotation marks. -/
def punctuation : List Char :=
  ['(', '[', '\x7b', ')', ']', '\x7d', '|', ',', ':', '\'', '"']

theorem nextPiece_opening {c : Char} (opening : c ∈ ['(', '[', '\x7b']) (rest : List Char) :
    nextPiece c rest = (⟨.opening, [c]⟩, rest) := by
  simp only [List.mem_cons, List.not_mem_nil, or_false] at opening
  rcases opening with rfl | rfl | rfl <;> rfl

theorem nextPiece_closing {c : Char} (closing : c ∈ [')', ']', '\x7d']) (rest : List Char) :
    nextPiece c rest = (⟨.closing, [c]⟩, rest) := by
  simp only [List.mem_cons, List.not_mem_nil, or_false] at closing
  rcases closing with rfl | rfl | rfl <;> rfl

theorem nextPiece_separator {c : Char} (separator : c ∈ ['|', ',', ':']) (rest : List Char) :
    nextPiece c rest = (⟨.separator, [c]⟩, rest) := by
  simp only [List.mem_cons, List.not_mem_nil, or_false] at separator
  rcases separator with rfl | rfl | rfl <;> rfl

theorem nextPiece_mark {mark : Char} (isMark : IsMark mark) (rest : List Char) :
    nextPiece mark rest =
      (⟨.neutral, mark :: (splitQuoted mark rest).1⟩, (splitQuoted mark rest).2) := by
  rcases isMark with rfl | rfl <;> rfl

theorem nextPiece_of_not_mem {c : Char} (plain : c ∉ punctuation) (rest : List Char) :
    nextPiece c rest =
      if isWordStart c then
        (⟨if c :: rest.takeWhile isNameChar ∈ levelWords then .keyword else .neutral,
          c :: rest.takeWhile isNameChar⟩, rest.dropWhile isNameChar)
      else (⟨.neutral, [c]⟩, rest) := by
  simp only [punctuation, List.mem_cons, List.not_mem_nil, or_false, not_or] at plain
  simp [nextPiece, levelWords, plain, or_assoc]

theorem isNameChar_of_isWordStart {c : Char} (starts : isWordStart c = true) :
    isNameChar c = true := by
  rw [isNameChar, isWordChar_of_isWordStart starts, Bool.true_or]

theorem not_mem_punctuation_of_isWordStart {c : Char} (starts : isWordStart c = true) :
    c ∉ punctuation := by
  have nowhere : punctuation.any isWordStart = false := by decide
  exact fun mem => List.any_eq_false.mp nowhere c mem starts

/-- A letter or an underscore begins a piece that takes all words and dots
behind it. -/
theorem nextPiece_word {c : Char} (starts : isWordStart c = true) {tail rest : List Char}
    (passes : ∀ d ∈ tail, isNameChar d = true) (stops : StartsWithout isNameChar rest) :
    nextPiece c (tail ++ rest) =
      (⟨if c :: tail ∈ levelWords then .keyword else .neutral, c :: tail⟩, rest) := by
  rw [nextPiece_of_not_mem (not_mem_punctuation_of_isWordStart starts), if_pos starts,
    takeWhile_append_eq passes stops, dropWhile_append_eq passes stops]

/-- The count ends a quoted literal where the grammar does. -/
theorem splitQuoted_append_mark {mark : Char} (isMark : IsMark mark) {contents : List Char}
    (quoted : QuotedContents mark contents) (rest : List Char) :
    splitQuoted mark (contents ++ mark :: rest) = (contents ++ [mark], rest) := by
  have notEscape : mark ≠ '\\' := by rcases isMark with rfl | rfl <;> decide
  induction quoted with
  | nil => cases rest <;> simp [splitQuoted, notEscape]
  | escape c others ih => simp [splitQuoted, ih]
  | @plain c contents notMark notEscape others ih =>
      obtain ⟨next, behind, whole⟩ := List.exists_cons_of_ne_nil
        (List.append_ne_nil_of_right_ne_nil contents (List.cons_ne_nil mark rest))
      rw [whole] at ih
      rw [List.cons_append, whole, splitQuoted, if_neg notEscape, if_neg notMark, ih]
      rfl

namespace Nesting

variable (nesting : Nesting)

theorem reach_nil : nesting.reach [] = nesting.depth := by
  rw [reach, pieces, deepest]

theorem reach_cons (c : Char) (rest : List Char) :
    nesting.reach (c :: rest) = max nesting.depth
      ((nesting.after (nextPiece c rest).1.mark).reach (nextPiece c rest).2) := by
  rw [reach, pieces, deepest]
  rfl

theorem depth_le_reach (input : List Char) : nesting.depth ≤ nesting.reach input :=
  nesting.depth_le_deepest _

theorem reach_opening {c : Char} (opening : c ∈ ['(', '[', '\x7b']) (rest : List Char) :
    nesting.reach (c :: rest) = (nesting.after .opening).reach rest := by
  rw [reach_cons, nextPiece_opening opening]
  exact Nat.max_eq_right (Nat.le_of_succ_le ((nesting.after .opening).depth_le_reach rest))

theorem reach_closing {c : Char} (closing : c ∈ [')', ']', '\x7d']) (rest : List Char) :
    nesting.reach (c :: rest) = max nesting.depth ((nesting.after .closing).reach rest) := by
  rw [reach_cons, nextPiece_closing closing]

theorem reach_separator {c : Char} (separator : c ∈ ['|', ',', ':']) (rest : List Char) :
    nesting.reach (c :: rest) = max nesting.depth ((nesting.after .separator).reach rest) := by
  rw [reach_cons, nextPiece_separator separator]

/-- A neutral piece may be left out. -/
theorem reach_neutral {c : Char} {rest : List Char}
    (neutral : (nextPiece c rest).1.mark = .neutral) :
    nesting.reach (c :: rest) = nesting.reach (nextPiece c rest).2 := by
  rw [reach_cons, neutral]
  exact Nat.max_eq_right (nesting.depth_le_reach _)

/-- Characters that begin no word and are no punctuation may be left out. -/
theorem reach_inert {run : List Char}
    (inert : ∀ c ∈ run, c ∉ punctuation ∧ isWordStart c = false) (rest : List Char) :
    nesting.reach (run ++ rest) = nesting.reach rest := by
  induction run with
  | nil => rfl
  | cons c others ih =>
      obtain ⟨⟨plain, notWord⟩, othersInert⟩ := List.forall_mem_cons.mp inert
      have alone : nextPiece c (others ++ rest) = (⟨.neutral, [c]⟩, others ++ rest) := by
        rw [nextPiece_of_not_mem plain, notWord]
        rfl
      rw [List.cons_append, nesting.reach_neutral (by rw [alone]), alone, ih othersInert]

theorem reach_blanks (blanks : Blanks) (rest : List Char) :
    nesting.reach (blanks.chars ++ rest) = nesting.reach rest := by
  apply nesting.reach_inert
  intro c mem
  have blank := blanks.blank c mem
  simp only [isBlank, Bool.or_eq_true, decide_eq_true_eq] at blank
  rcases blank with ((rfl | rfl) | rfl) | rfl <;> decide

theorem reach_quoted {text : List Char} (quoted : IsQuoted text) (rest : List Char) :
    nesting.reach (text ++ rest) = nesting.reach rest := by
  obtain ⟨mark, contents, isMark, inside, rfl⟩ := quoted
  have piece := nextPiece_mark isMark (contents ++ mark :: rest)
  rw [splitQuoted_append_mark isMark inside] at piece
  rw [List.cons_append, List.append_assoc, List.singleton_append,
    nesting.reach_neutral (by rw [piece]), piece]

end Nesting

/-! ## Words and tokens -/

/-- A word with more words and dots behind it, which the count takes at once. -/
def IsWords (text : List Char) : Prop :=
  ∃ c tail, text = c :: tail ∧ isWordStart c = true ∧ ∀ d ∈ tail, isNameChar d = true

theorem isNameChar_of_isWordChar {c : Char} (word : isWordChar c = true) : isNameChar c = true := by
  rw [isNameChar, word, Bool.true_or]

theorem IsSegment.isWords {text : List Char} (segment : IsSegment text) : IsWords text := by
  obtain ⟨c, tail, rfl, starts, passes⟩ := segment
  exact ⟨c, tail, rfl, starts, fun d mem => isNameChar_of_isWordChar (passes d mem)⟩

theorem IsWords.append {text more : List Char} (words : IsWords text)
    (passes : ∀ c ∈ more, isNameChar c = true) : IsWords (text ++ more) := by
  obtain ⟨c, tail, rfl, starts, tailPasses⟩ := words
  exact ⟨c, tail ++ more, rfl, starts, List.forall_mem_append.mpr ⟨tailPasses, passes⟩⟩

theorem isSegment_of_mem_levelWords : ∀ word ∈ levelWords, IsSegment word := by
  decide

theorem mem_keywords_of_mem_levelWords :
    ∀ word ∈ levelWords, ∃ keyword ∈ Rule.keywords, word = keyword.toList := by
  decide

theorem isNameChar_dotted {segments : List (List Char)}
    (all : ∀ segment ∈ segments, IsSegment segment) :
    ∀ c ∈ dotted segments, isNameChar c = true := by
  intro c mem
  obtain ⟨segment, segmentMem, inside⟩ := List.mem_flatMap.mp mem
  rcases List.mem_cons.mp inside with rfl | inside
  · decide
  · exact isNameChar_of_isWordChar ((all segment segmentMem).wordChars c inside)

theorem IsName.isWords {text : List Char} (name : IsName text) : IsWords text := by
  obtain ⟨first, others, rfl, segment, -, segments⟩ := name
  exact segment.isWords.append (isNameChar_dotted segments)

/-- The first segment of a name is no keyword, so the name is none. -/
theorem IsName.not_mem_levelWords {text : List Char} (name : IsName text) :
    text ∉ levelWords := by
  obtain ⟨first, others, rfl, segment, notKeyword, -⟩ := name
  intro mem
  obtain ⟨keyword, keywordMem, whole⟩ := mem_keywords_of_mem_levelWords _ mem
  have word := firstWord_append (isSegment_of_mem_levelWords _ mem).wordChars
    (startsWithout_nil isWordChar)
  have stops := startsWithout_dotted_append others (startsWithout_nil isWordChar)
  rw [List.append_nil] at word stops
  rw [firstWord_append segment.wordChars stops] at word
  exact notKeyword keyword (List.mem_cons_of_mem _ keywordMem) (word.trans whole)

namespace Nesting

variable (nesting : Nesting)

theorem reach_levelWord {word rest : List Char} (mem : word ∈ levelWords)
    (stops : StartsWithout isNameChar rest) :
    nesting.reach (word ++ rest) = (nesting.after .keyword).reach rest := by
  obtain ⟨c, tail, rfl, starts, passes⟩ := (isSegment_of_mem_levelWords word mem).isWords
  rw [List.cons_append, reach_cons, nextPiece_word starts passes stops, if_pos mem]
  exact Nat.max_eq_right (Nat.le_of_succ_le ((nesting.after .keyword).depth_le_reach rest))

theorem reach_words {text rest : List Char} (words : IsWords text) (notLevel : text ∉ levelWords)
    (stops : StartsWithout isNameChar rest) :
    nesting.reach (text ++ rest) = nesting.reach rest := by
  obtain ⟨c, tail, rfl, starts, passes⟩ := words
  have piece := nextPiece_word starts passes stops
  rw [if_neg notLevel] at piece
  rw [List.cons_append, nesting.reach_neutral (by rw [piece]), piece]

/-- Tokens leave the nesting alone. -/
theorem reach_token {rule : Rule} {text rest : List Char} (shape : TokenShape rule text)
    (stops : StartsWithout isNameChar rest) :
    nesting.reach (text ++ rest) = nesting.reach rest := by
  have booleans : ∀ word ∈ wordsOf .boolean,
      IsSegment word.toList ∧ word.toList ∉ levelWords := by decide
  have nulls : ∀ word ∈ wordsOf .null, IsSegment word.toList ∧ word.toList ∉ levelWords := by decide
  have inert : ∀ c, isDigit c = true → c ∉ punctuation ∧ isWordStart c = false := by
    have nowhere : punctuation.any isDigit = false := by decide
    intro c digit
    refine ⟨fun mem => List.any_eq_false.mp nowhere c mem digit, ?_⟩
    refine Bool.eq_false_iff.mpr fun starts => ?_
    rw [isDigit_of_isWordStart starts] at digit
    cases digit
  cases shape with
  | name name => exact nesting.reach_words name.isWords name.not_mem_levelWords stops
  | wildcard =>
      have segment : IsSegment "_".toList := by decide
      exact nesting.reach_words segment.isWords (by decide) stops
  | ellipsis =>
      refine nesting.reach_inert (fun c mem => ?_) rest
      have dot : c = '.' := List.eq_of_mem_replicate (show c ∈ List.replicate 3 '.' from mem)
      rw [dot]
      decide
  | string quoted => exact nesting.reach_quoted quoted rest
  | @bytes text quoted =>
      have segment : IsSegment ['b'] := by decide
      have apart : StartsWithout isNameChar (text ++ rest) := by
        obtain ⟨mark, contents, rfl | rfl, -, rfl⟩ := quoted <;> exact startsWithout_cons.mpr rfl
      have begins := nesting.reach_words segment.isWords (by decide) apart
      exact begins.trans (nesting.reach_quoted quoted rest)
  | integer integer =>
      obtain ⟨digits, -, areDigits, rfl | rfl⟩ := integer
      · exact nesting.reach_inert (fun c mem => inert c (areDigits c mem)) rest
      · refine nesting.reach_inert (List.forall_mem_cons.mpr ⟨by decide, ?_⟩) rest
        exact fun c mem => inert c (areDigits c mem)
  | boolean mem =>
      obtain ⟨segment, notLevel⟩ := booleans _ mem
      exact nesting.reach_words segment.isWords notLevel stops
  | null mem =>
      obtain ⟨segment, notLevel⟩ := nulls _ mem
      exact nesting.reach_words segment.isWords notLevel stops

end Nesting

/-! ## Keywords -/

theorem Blanks.startsWithout_isNameChar {blanks : Blanks} (apart : blanks.chars ≠ [])
    (rest : List Char) : StartsWithout isNameChar (blanks.chars ++ rest) := by
  obtain ⟨c, others, whole⟩ := List.exists_cons_of_ne_nil apart
  have blank := blanks.blank c (by simp [whole])
  simp only [isBlank, Bool.or_eq_true, decide_eq_true_eq] at blank
  rw [whole, List.cons_append, startsWithout_cons]
  rcases blank with ((rfl | rfl) | rfl) | rfl <;> decide

theorem Keyword.lastWord_mem_levelWords (keyword : Keyword) :
    keyword.lastWord.toList ∈ levelWords := by
  cases keyword <;> simp only [Keyword.lastWord] <;> decide

namespace Nesting

variable (nesting : Nesting)

/-- The first word of a double keyword is a word like any other. -/
theorem reach_lastWord (keyword : Keyword) (rest : List Char) :
    nesting.reach (keyword.text ++ rest) = nesting.reach (keyword.lastWord.toList ++ rest) := by
  have async : ∀ {between : Blanks} (apart : between.chars ≠ []) (tail : List Char),
      nesting.reach ("async".toList ++ (between.chars ++ tail)) = nesting.reach tail := by
    intro between apart tail
    have segment : IsSegment "async".toList := by decide
    have stops := Blanks.startsWithout_isNameChar apart tail
    rw [nesting.reach_words segment.isWords (by decide) stops, reach_blanks]
  cases keyword with
  | asyncIter between apart =>
      rw [Keyword.text_asyncIter, List.append_assoc, List.append_assoc]
      exact async apart _
  | asyncWith between apart =>
      rw [Keyword.text_asyncWith, List.append_assoc, List.append_assoc]
      exact async apart _
  | _ => rfl

/-- A keyword opens a level. -/
theorem reach_keyword (keyword : Keyword) {rest : List Char}
    (stops : StartsWithout isNameChar rest) :
    nesting.reach (keyword.text ++ rest) = (nesting.after .keyword).reach rest := by
  rw [reach_lastWord, nesting.reach_levelWord keyword.lastWord_mem_levelWords stops]

/-- A keyword that touches an ellipsis is one word with it. -/
theorem reach_keyword_ellipsis (keyword : Keyword) {rest : List Char}
    (stops : StartsWithout isNameChar rest) :
    nesting.reach (keyword.text ++ ("...".toList ++ rest)) = nesting.reach rest := by
  have longer : ∀ word ∈ levelWords, word ++ "...".toList ∉ levelWords := by decide
  have isLevel := keyword.lastWord_mem_levelWords
  have dots : ∀ c ∈ "...".toList, isNameChar c = true := List.all_eq_true.mp (by decide)
  have words := (isSegment_of_mem_levelWords _ isLevel).isWords.append dots
  rw [reach_lastWord, ← List.append_assoc, nesting.reach_words words (longer _ isLevel) stops]

end Nesting

end TypeSpelling.Source
