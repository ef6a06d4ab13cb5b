import TypeSpelling.Proofs.Words

/-!
# Tokens

The texts that the token rules take, said without the grammar: words, dotted
names, quoted literals and integers.  Each rule takes such a text wherever
nothing behind it could be part of it, and takes nothing else.
-/

namespace TypeSpelling.Source

open TypeSpelling.Peg
open TypeSpelling.Text

/-! ## Word rules -/

/-- The words of the rules that take one of some words. -/
def wordsOf : Rule → List String
  | .boolean => ["true", "false", "True", "False"]
  | .null => ["null", "None"]
  | .wildcard => ["_"]
  | .keyword => Rule.keywords
  | .kwAsync => ["async"]
  | .kwAwait => ["await"]
  | .kwIter => ["iter"]
  | .kwWith => ["with"]
  | _ => []

/-- The rules that take one of some words. -/
def IsWordRule (rule : Rule) : Prop :=
  rule.kind = .token ∧ PrefixFree (wordsOf rule) ∧
    rule.body = Rule.wholeWord (Expr.firstOf ((wordsOf rule).map .literal))

theorem isWordRule_boolean : IsWordRule .boolean :=
  ⟨rfl, .of_all (by decide) (by decide), rfl⟩

theorem isWordRule_null : IsWordRule .null :=
  ⟨rfl, .of_all (by decide) (by decide), rfl⟩

theorem isWordRule_wildcard : IsWordRule .wildcard :=
  ⟨rfl, .of_all (by decide) (by decide), rfl⟩

theorem isWordRule_keyword : IsWordRule .keyword :=
  ⟨rfl, .of_all (by decide) (by decide), rfl⟩

theorem isWordRule_kwAsync : IsWordRule .kwAsync :=
  ⟨rfl, .of_all (by decide) (by decide), rfl⟩

theorem isWordRule_kwAwait : IsWordRule .kwAwait :=
  ⟨rfl, .of_all (by decide) (by decide), rfl⟩

theorem isWordRule_kwIter : IsWordRule .kwIter :=
  ⟨rfl, .of_all (by decide) (by decide), rfl⟩

theorem isWordRule_kwWith : IsWordRule .kwWith :=
  ⟨rfl, .of_all (by decide) (by decide), rfl⟩

/-- A word rule takes the first word of a text if it is one of its words. -/
theorem call?_word_eq_some_iff {rule : Rule} (isWord : IsWordRule rule) {inToken : Bool}
    {position : Nat} {input : List Char} {found : Match Rule} :
    grammar.call? inToken rule position input = some found ↔
      (∃ word ∈ wordsOf rule, firstWord input = word.toList) ∧
        found = ⟨firstWord input, behindWord input,
          tokenNodes inToken rule position (firstWord input)⟩ := by
  obtain ⟨token, prefixFree, body⟩ := isWord
  rw [call?_token_eq_some_iff token, body]
  simp only [match?_words_eq_some_iff prefixFree]
  constructor
  · rintro ⟨inner, ⟨isOne, rfl⟩, rfl⟩
    exact ⟨isOne, rfl⟩
  · rintro ⟨isOne, rfl⟩
    exact ⟨_, ⟨isOne, rfl⟩, rfl⟩

theorem call?_word_eq_none_iff {rule : Rule} (isWord : IsWordRule rule) {inToken : Bool}
    {position : Nat} {input : List Char} :
    grammar.call? inToken rule position input = none ↔
      ∀ word ∈ wordsOf rule, firstWord input ≠ word.toList := by
  rw [Option.eq_none_iff_forall_ne_some]
  simp only [ne_eq, call?_word_eq_some_iff isWord, not_and, forall_exists_index, and_imp]
  constructor
  · intro fails word mem same
    exact fails _ word mem same rfl
  · intro other found word mem same
    exact absurd same (other word mem)

/-! ## Names -/

/-- A segment of a name: a letter or an underscore, and then the rest of a word. -/
def IsSegment (chars : List Char) : Prop :=
  ∃ c rest, chars = c :: rest ∧ isWordStart c = true ∧ ∀ d ∈ rest, isWordChar d = true

theorem isSegment_cons_iff {c : Char} {rest : List Char} :
    IsSegment (c :: rest) ↔ (isWordStart c && rest.all isWordChar) = true := by
  rw [Bool.and_eq_true, List.all_eq_true]
  constructor
  · rintro ⟨_, _, same, starts, passes⟩
    cases same
    exact ⟨starts, passes⟩
  · rintro ⟨starts, passes⟩
    exact ⟨c, rest, rfl, starts, passes⟩

instance : DecidablePred IsSegment
  | [] => .isFalse fun ⟨_, _, same, _⟩ => by cases same
  | _ :: _ => decidable_of_iff' _ isSegment_cons_iff

/-- Segments with a dot in front of each. -/
def dotted (segments : List (List Char)) : List Char :=
  segments.flatMap fun segment => '.' :: segment

/-- A text that is read as a name: segments with dots between them, the first of
which is no keyword and not the wildcard. -/
def IsName (chars : List Char) : Prop :=
  ∃ first others, chars = first ++ dotted others ∧ IsSegment first ∧
    (∀ word ∈ "_" :: Rule.keywords, first ≠ word.toList) ∧ ∀ segment ∈ others, IsSegment segment

theorem isWordChar_of_isWordStart {c : Char} (starts : isWordStart c = true) :
    isWordChar c = true := by
  simp only [isWordStart, isWordChar, Bool.or_eq_true] at starts ⊢
  rcases starts with letter | underscore
  · exact .inl (.inl letter)
  · exact .inr underscore

theorem IsSegment.wordChars {chars : List Char} (segment : IsSegment chars) :
    ∀ c ∈ chars, isWordChar c = true := by
  obtain ⟨c, rest, rfl, starts, passes⟩ := segment
  exact List.forall_mem_cons.mpr ⟨isWordChar_of_isWordStart starts, passes⟩

/-- A segment takes the first word of a text that begins with a letter or an
underscore. -/
theorem call?_segment_eq_some_iff {position : Nat} {input : List Char} {found : Match Rule} :
    grammar.call? true .segment position input = some found ↔
      (∃ c ∈ input.head?, isWordStart c = true) ∧
        found = ⟨firstWord input, behindWord input, []⟩ := by
  rw [call?_token_eq_some_iff rfl]
  change (∃ inner, (Expr.spaced [.char isWordStart, .many (.call .identChar)]).match? noBlank
    (grammar.call? true) position input = some inner ∧ _) ↔ _
  simp only [match?_spaced_solid_eq_some_iff, spaced_singleton, match?_char_eq_some_iff,
    match?_many_identChar, Option.some.injEq]
  constructor
  · rintro ⟨_, ⟨_, _, ⟨c, rest, rfl, starts, rfl⟩, rfl, rfl⟩, rfl⟩
    have passes := isWordChar_of_isWordStart starts
    refine ⟨⟨c, rfl, starts⟩, ?_⟩
    simp [firstWord, behindWord, passes, Match.append, tokenNodes]
  · rintro ⟨⟨c, head, starts⟩, rfl⟩
    have passes := isWordChar_of_isWordStart starts
    cases input with
    | nil => cases head
    | cons d rest =>
        cases head
        refine ⟨_, ⟨_, _, ⟨c, rest, rfl, starts, rfl⟩, rfl, rfl⟩, ?_⟩
        simp [firstWord, behindWord, passes, Match.append, tokenNodes]

/-- A segment is taken where no word goes on behind it. -/
theorem call?_segment_append {segment rest : List Char} (isSegment : IsSegment segment)
    (stops : StartsWithout isWordChar rest) (position : Nat) :
    grammar.call? true .segment position (segment ++ rest) = some ⟨segment, rest, []⟩ := by
  have passes := isSegment.wordChars
  obtain ⟨c, others, rfl, starts, -⟩ := isSegment
  rw [call?_segment_eq_some_iff, firstWord_append passes stops, behindWord_append passes stops]
  exact ⟨⟨c, rfl, starts⟩, rfl⟩

/-- What a segment takes is a segment. -/
theorem isSegment_of_call? {position : Nat} {input : List Char} {found : Match Rule}
    (matched : grammar.call? true .segment position input = some found) :
    IsSegment found.text := by
  obtain ⟨⟨c, head, starts⟩, rfl⟩ := call?_segment_eq_some_iff.mp matched
  cases input with
  | nil => cases head
  | cons d rest =>
      cases head
      refine ⟨c, rest.takeWhile isWordChar, ?_, starts, List.all_eq_true.mp List.all_takeWhile⟩
      simp [firstWord, isWordChar_of_isWordStart starts]

/-- The first segment of a name is no keyword. -/
theorem call?_ident_eq_some_iff {position : Nat} {input : List Char} {found : Match Rule} :
    grammar.call? true .ident position input = some found ↔
      (∀ word ∈ Rule.keywords, firstWord input ≠ word.toList) ∧
        grammar.call? true .segment position input = some found := by
  rw [call?_token_eq_some_iff rfl]
  change (∃ inner, (Expr.spaced [.refuse (.call .keyword), .call .segment]).match? noBlank
    (grammar.call? true) position input = some inner ∧ _) ↔ _
  simp only [match?_spaced_solid_eq_some_iff, spaced_singleton, match?_refuse_eq_some_iff]
  have keywordFails : (Expr.call Rule.keyword).match? noBlank (grammar.call? true) position
      input = none ↔ ∀ word ∈ Rule.keywords, firstWord input ≠ word.toList :=
    call?_word_eq_none_iff isWordRule_keyword
  rw [← keywordFails]
  constructor
  · rintro ⟨_, ⟨_, right, ⟨fails, rfl⟩, matched, rfl⟩, rfl⟩
    refine ⟨fails, ?_⟩
    obtain ⟨-, rfl⟩ := call?_segment_eq_some_iff.mp matched
    exact matched
  · rintro ⟨fails, matched⟩
    obtain ⟨-, rfl⟩ := call?_segment_eq_some_iff.mp matched
    exact ⟨_, ⟨_, _, ⟨fails, rfl⟩, matched, rfl⟩, rfl⟩

/-- A dot and a segment behind it. -/
def dottedSegment : Expr Rule :=
  Expr.spaced [.text ['.'], .call .segment]

theorem match?_dottedSegment_eq_some_iff {position : Nat} {input : List Char}
    {found : Match Rule} :
    dottedSegment.match? noBlank (grammar.call? true) position input = some found ↔
      ∃ rest inner, input = '.' :: rest ∧
        grammar.call? true .segment (position + 1) rest = some inner ∧
        found = ⟨'.' :: inner.text, inner.rest, []⟩ := by
  unfold dottedSegment
  simp only [match?_spaced_solid_eq_some_iff, spaced_singleton, match?_text_eq_some_iff]
  constructor
  · rintro ⟨_, inner, ⟨rest, rfl, rfl⟩, matched, rfl⟩
    obtain ⟨-, rfl⟩ := call?_segment_eq_some_iff.mp matched
    exact ⟨rest, _, rfl, matched, rfl⟩
  · rintro ⟨rest, inner, rfl, matched, rfl⟩
    obtain ⟨-, rfl⟩ := call?_segment_eq_some_iff.mp matched
    exact ⟨_, _, ⟨rest, rfl, rfl⟩, matched, rfl⟩

theorem progress_dottedSegment :
    Progress (dottedSegment.match? noBlank (grammar.call? true)) := by
  intro position input found matched
  obtain ⟨rest, inner, rfl, segmentMatched, rfl⟩ := match?_dottedSegment_eq_some_iff.mp matched
  obtain ⟨-, rfl⟩ := call?_segment_eq_some_iff.mp segmentMatched
  refine ⟨?_, List.cons_ne_nil _ _⟩
  simp [Match.Splits, firstWord_append_behindWord]

theorem startsWithout_dotted_append (others : List (List Char)) {rest : List Char}
    (stops : StartsWithout isWordChar rest) : StartsWithout isWordChar (dotted others ++ rest) := by
  cases others with
  | nil => exact stops
  | cons segment others => exact startsWithout_cons.mpr rfl

/-- Segments with dots in front of them are taken up to the last one. -/
theorem repeats_dotted {others : List (List Char)} {rest : List Char}
    (segments : ∀ segment ∈ others, IsSegment segment) (stops : StartsWithout isWordChar rest)
    (noDot : StartsWithout (fun c => c = '.') rest) :
    ∀ position, Repeats (dottedSegment.match? noBlank (grammar.call? true)) position
      (dotted others ++ rest) ⟨dotted others, rest, []⟩ := by
  induction others with
  | nil =>
      intro position
      refine .stop (Option.eq_none_iff_forall_ne_some.mpr fun found matched => ?_)
      obtain ⟨behind, inner, whole, -⟩ := match?_dottedSegment_eq_some_iff.mp matched
      rw [show rest = '.' :: behind from whole] at noDot
      simp at noDot
  | cons segment others ih =>
      intro position
      rw [List.forall_mem_cons] at segments
      have matched := call?_segment_append segments.1
        (startsWithout_dotted_append others stops) (position + 1)
      have step : dottedSegment.match? noBlank (grammar.call? true) position
          (dotted (segment :: others) ++ rest) =
            some ⟨'.' :: segment, dotted others ++ rest, []⟩ :=
        match?_dottedSegment_eq_some_iff.mpr ⟨_, _, by simp [dotted], matched, rfl⟩
      have whole := Repeats.step step (ih segments.2 _)
      simpa [Match.append, dotted] using whole

/-- A repetition of dots and segments takes segments with dots in front of them. -/
theorem exists_dotted_of_repeats {position : Nat} {input : List Char} {found : Match Rule}
    (repeats : Repeats (dottedSegment.match? noBlank (grammar.call? true)) position input found) :
    found.nodes = [] ∧ ∃ others, found.text = dotted others ∧
      ∀ segment ∈ others, IsSegment segment := by
  induction repeats with
  | stop => exact ⟨rfl, [], rfl, by simp⟩
  | step matched _ ih =>
      obtain ⟨noNodes, others, text, segments⟩ := ih
      obtain ⟨rest, inner, rfl, segmentMatched, rfl⟩ := match?_dottedSegment_eq_some_iff.mp matched
      refine ⟨by simp [Match.append, noNodes], inner.text :: others, ?_, ?_⟩
      · simp [Match.append, text, dotted]
      · exact List.forall_mem_cons.mpr ⟨isSegment_of_call? segmentMatched, segments⟩

theorem call?_name_eq_some_iff {inToken : Bool} {position : Nat} {input : List Char}
    {found : Match Rule} :
    grammar.call? inToken .name position input = some found ↔
      ∃ first others, grammar.call? true .ident position input = some first ∧
        Repeats (dottedSegment.match? noBlank (grammar.call? true))
          (position + utf8Length first.text) first.rest others ∧
        found = ⟨first.text ++ others.text, others.rest,
          tokenNodes inToken .name position (first.text ++ others.text)⟩ := by
  rw [call?_token_eq_some_iff rfl]
  change (∃ inner, (Expr.spaced [.call .ident, .many dottedSegment]).match? noBlank
    (grammar.call? true) position input = some inner ∧ _) ↔ _
  simp only [match?_spaced_solid_eq_some_iff, spaced_singleton,
    match?_many_solid_eq_some_iff progress_dottedSegment]
  constructor
  · rintro ⟨_, ⟨first, others, matched, repeats, rfl⟩, rfl⟩
    exact ⟨first, others, matched, repeats, rfl⟩
  · rintro ⟨first, others, matched, repeats, rfl⟩
    exact ⟨_, ⟨first, others, matched, repeats, rfl⟩, rfl⟩

/-- A name is taken where no word and no dot follows it. -/
theorem call?_name_append {chars rest : List Char} (name : IsName chars)
    (stops : StartsWithout isWordChar rest) (noDot : StartsWithout (fun c => c = '.') rest)
    (inToken : Bool) (position : Nat) :
    grammar.call? inToken .name position (chars ++ rest) =
      some ⟨chars, rest, tokenNodes inToken .name position chars⟩ := by
  obtain ⟨first, others, rfl, isSegment, noKeyword, segments⟩ := name
  have stopsFirst := startsWithout_dotted_append others stops
  have wholeWord := firstWord_append isSegment.wordChars stopsFirst
  have firstMatched := call?_segment_append isSegment stopsFirst position
  rw [List.append_assoc, call?_name_eq_some_iff]
  refine ⟨_, _, call?_ident_eq_some_iff.mpr ⟨?_, firstMatched⟩,
    repeats_dotted segments stops noDot _, rfl⟩
  intro word mem
  rw [wholeWord]
  exact noKeyword word (List.mem_cons_of_mem _ mem)

/-- What the name rule takes is a name, unless its first segment is the wildcard. -/
theorem isName_of_call? {inToken : Bool} {position : Nat} {input : List Char}
    {found : Match Rule} (matched : grammar.call? inToken .name position input = some found)
    (notWildcard : firstWord input ≠ "_".toList) :
    IsName found.text ∧ found.nodes = tokenNodes inToken .name position found.text := by
  obtain ⟨first, others, identMatched, repeats, rfl⟩ := call?_name_eq_some_iff.mp matched
  obtain ⟨noKeyword, segmentMatched⟩ := call?_ident_eq_some_iff.mp identMatched
  have isSegment := isSegment_of_call? segmentMatched
  obtain ⟨-, rfl⟩ := call?_segment_eq_some_iff.mp segmentMatched
  obtain ⟨-, segments, text, areSegments⟩ := exists_dotted_of_repeats repeats
  refine ⟨⟨_, segments, by rw [text], isSegment, ?_, areSegments⟩, rfl⟩
  exact List.forall_mem_cons.mpr ⟨notWildcard, noKeyword⟩

/-! ## Quoted literals -/

/-- What may stand between two equal quotation marks.  A backslash takes the
next character along. -/
inductive QuotedContents (mark : Char) : List Char → Prop where
  | nil : QuotedContents mark []
  | escape (c : Char) {contents : List Char} (others : QuotedContents mark contents) :
      QuotedContents mark ('\\' :: c :: contents)
  | plain {c : Char} {contents : List Char} (notMark : c ≠ mark) (notEscape : c ≠ '\\')
      (others : QuotedContents mark contents) : QuotedContents mark (c :: contents)

/-- The characters that quote a literal. -/
def IsMark (c : Char) : Prop :=
  c = '"' ∨ c = '\''

/-- A literal with its quotation marks. -/
def IsQuoted (chars : List Char) : Prop :=
  ∃ mark contents, IsMark mark ∧ QuotedContents mark contents ∧
    chars = mark :: (contents ++ [mark])

theorem call?_escape_eq_some_iff {position : Nat} {input : List Char} {found : Match Rule} :
    grammar.call? true .escape position input = some found ↔
      ∃ c rest, input = '\\' :: c :: rest ∧ found = ⟨['\\', c], rest, []⟩ := by
  rw [call?_inToken, Option.map_eq_some_iff]
  change (∃ inner, (Expr.spaced [.text ['\\'], .char fun _ => true]).match? noBlank
    (grammar.call? true) position input = some inner ∧ _) ↔ _
  simp only [match?_spaced_solid_eq_some_iff, spaced_singleton, match?_text_eq_some_iff,
    match?_char_eq_some_iff]
  constructor
  · rintro ⟨_, ⟨_, _, ⟨rest, rfl, rfl⟩, ⟨c, rest', rfl, -, rfl⟩, rfl⟩, rfl⟩
    exact ⟨c, rest', rfl, rfl⟩
  · rintro ⟨c, rest, rfl, rfl⟩
    exact ⟨_, ⟨_, _, ⟨_, rfl, rfl⟩, ⟨c, rest, rfl, trivial, rfl⟩, rfl⟩, rfl⟩

/-- One character of a literal, or two behind a backslash. -/
def quotedItem (mark : Char) : Expr Rule :=
  .choice (.call .escape)
    (Expr.spaced [.refuse (.choice (.text [mark]) (.text ['\\'])), .char fun _ => true])

theorem match?_quotedItem_eq_some_iff {mark : Char} {position : Nat} {input : List Char}
    {found : Match Rule} :
    (quotedItem mark).match? noBlank (grammar.call? true) position input = some found ↔
      (∃ c rest, input = '\\' :: c :: rest ∧ found = ⟨['\\', c], rest, []⟩) ∨
        ∃ c rest, input = c :: rest ∧ c ≠ mark ∧ c ≠ '\\' ∧ found = ⟨[c], rest, []⟩ := by
  have escapes : (Expr.call Rule.escape).match? noBlank (grammar.call? true) position input =
      grammar.call? true .escape position input := rfl
  have refused : (Expr.refuse (.choice (.text [mark]) (.text ['\\']))).match? noBlank
      (grammar.call? true) position input = some (.empty input) ↔
        StartsWithout (fun c => c = mark) input ∧ StartsWithout (fun c => c = '\\') input := by
    rw [match?_refuse_eq_some_iff, match?_choice_eq_none_iff]
    cases input with
    | nil => simp [Expr.match?, dropExpected?, startsWithout_nil]
    | cons c rest => simp [Expr.match?, dropExpected?]
  unfold quotedItem
  rw [match?_choice_eq_some_iff, escapes, call?_escape_eq_some_iff,
    match?_spaced_solid_eq_some_iff]
  simp only [spaced_singleton, match?_char_eq_some_iff]
  constructor
  · rintro (escaped | ⟨-, left, _, matched, ⟨c, rest, whole, -, rfl⟩, rfl⟩)
    · exact .inl escaped
    · obtain ⟨-, rfl⟩ := match?_refuse_eq_some_iff.mp matched
      obtain rfl : input = c :: rest := whole
      obtain ⟨notMark, notEscape⟩ := refused.mp matched
      exact .inr ⟨c, rest, rfl, by simpa using notMark, by simpa using notEscape, rfl⟩
  · rintro (escaped | ⟨c, rest, rfl, notMark, notEscape, rfl⟩)
    · exact .inl escaped
    · refine .inr ⟨Option.eq_none_iff_forall_ne_some.mpr fun found matched => ?_, .empty _, _,
        refused.mpr ⟨by simpa using notMark, by simpa using notEscape⟩,
        ⟨c, rest, rfl, trivial, rfl⟩, rfl⟩
      obtain ⟨d, rest', same, -⟩ := call?_escape_eq_some_iff.mp matched
      exact notEscape (List.cons.inj same).1

theorem progress_quotedItem (mark : Char) :
    Progress ((quotedItem mark).match? noBlank (grammar.call? true)) := by
  intro position input found matched
  rcases match?_quotedItem_eq_some_iff.mp matched with
    ⟨c, rest, rfl, rfl⟩ | ⟨c, rest, rfl, -, -, rfl⟩
  · exact ⟨rfl, List.cons_ne_nil _ _⟩
  · exact ⟨rfl, List.cons_ne_nil _ _⟩

theorem repeats_quotedItem {mark : Char} (isMark : IsMark mark) {contents : List Char}
    (quoted : QuotedContents mark contents) (rest : List Char) :
    ∀ position, Repeats ((quotedItem mark).match? noBlank (grammar.call? true)) position
      (contents ++ mark :: rest) ⟨contents, mark :: rest, []⟩ := by
  induction quoted with
  | nil =>
      intro position
      refine .stop (Option.eq_none_iff_forall_ne_some.mpr fun found matched => ?_)
      rcases match?_quotedItem_eq_some_iff.mp matched with
        ⟨c, _, whole, -⟩ | ⟨c, _, whole, other, -⟩
      · rcases isMark with rfl | rfl <;> cases whole
      · exact other (List.cons.inj whole).1.symm
  | escape c _ ih =>
      intro position
      exact .step (match?_quotedItem_eq_some_iff.mpr (.inl ⟨c, _, rfl, rfl⟩)) (ih _)
  | plain notMark notEscape _ ih =>
      intro position
      exact .step (match?_quotedItem_eq_some_iff.mpr
        (.inr ⟨_, _, rfl, notMark, notEscape, rfl⟩)) (ih _)

theorem quotedContents_of_repeats {mark : Char} {position : Nat} {input : List Char}
    {found : Match Rule}
    (repeats : Repeats ((quotedItem mark).match? noBlank (grammar.call? true)) position input
      found) :
    found.nodes = [] ∧ QuotedContents mark found.text ∧ found.Splits input := by
  induction repeats with
  | stop => exact ⟨rfl, .nil, Match.splits_empty _⟩
  | step matched _ ih =>
      obtain ⟨noNodes, contents, splits⟩ := ih
      have first := (progress_quotedItem mark _ _ _ matched).1
      rcases match?_quotedItem_eq_some_iff.mp matched with
        ⟨c, rest, rfl, rfl⟩ | ⟨c, rest, rfl, notMark, notEscape, rfl⟩
      · exact ⟨noNodes, .escape c contents, first.append splits⟩
      · exact ⟨noNodes, .plain notMark notEscape contents, first.append splits⟩

theorem match?_quotedBy_eq_some_iff {mark : Char} (isMark : IsMark mark) {position : Nat}
    {input : List Char} {found : Match Rule} :
    (Rule.quotedBy mark).match? noBlank (grammar.call? true) position input = some found ↔
      ∃ contents rest, QuotedContents mark contents ∧
        input = mark :: (contents ++ mark :: rest) ∧
        found = ⟨mark :: (contents ++ [mark]), rest, []⟩ := by
  change (Expr.spaced [.text [mark], .many (quotedItem mark), .text [mark]]).match? noBlank
    (grammar.call? true) position input = some found ↔ _
  simp only [match?_spaced_solid_eq_some_iff, spaced_singleton, match?_text_eq_some_iff,
    match?_many_solid_eq_some_iff (progress_quotedItem mark)]
  constructor
  · rintro ⟨_, _, ⟨behind, rfl, rfl⟩, ⟨inner, _, repeats, ⟨rest, close, rfl⟩, rfl⟩, rfl⟩
    obtain ⟨noNodes, contents, splits⟩ := quotedContents_of_repeats repeats
    refine ⟨inner.text, rest, contents, ?_, ?_⟩
    · rw [Match.Splits, close] at splits
      exact congrArg (List.cons mark) splits.symm
    · simp [Match.append, noNodes]
  · rintro ⟨contents, rest, quoted, rfl, rfl⟩
    exact ⟨_, _, ⟨_, rfl, rfl⟩,
      ⟨_, _, repeats_quotedItem isMark quoted rest _, ⟨rest, rfl, rfl⟩, rfl⟩, rfl⟩

/-- The quoted rule takes a literal with its quotation marks. -/
theorem call?_quoted_eq_some_iff {position : Nat} {input : List Char} {found : Match Rule} :
    grammar.call? true .quoted position input = some found ↔
      ∃ chars rest, IsQuoted chars ∧ input = chars ++ rest ∧ found = ⟨chars, rest, []⟩ := by
  rw [call?_inToken, Option.map_eq_some_iff]
  change (∃ inner, (Expr.choice (Rule.quotedBy '"') (Rule.quotedBy '\'')).match? noBlank
    (grammar.call? true) position input = some inner ∧ _) ↔ _
  have double : IsMark '"' := .inl rfl
  have single : IsMark '\'' := .inr rfl
  simp only [match?_choice_eq_some_iff, match?_quotedBy_eq_some_iff double,
    match?_quotedBy_eq_some_iff single]
  constructor
  · rintro ⟨_, ⟨contents, rest, quoted, rfl, rfl⟩ | ⟨-, contents, rest, quoted, rfl, rfl⟩, rfl⟩
    · exact ⟨_, rest, ⟨_, contents, double, quoted, rfl⟩, by simp, rfl⟩
    · exact ⟨_, rest, ⟨_, contents, single, quoted, rfl⟩, by simp, rfl⟩
  · rintro ⟨_, rest, ⟨mark, contents, isMark, quoted, rfl⟩, rfl, rfl⟩
    rcases isMark with rfl | rfl
    · exact ⟨_, .inl ⟨contents, rest, quoted, by simp, rfl⟩, rfl⟩
    · refine ⟨_, .inr ⟨?_, contents, rest, quoted, by simp, rfl⟩, rfl⟩
      apply Option.eq_none_iff_forall_ne_some.mpr
      intro found matched
      obtain ⟨_, _, -, whole, -⟩ := (match?_quotedBy_eq_some_iff double).mp matched
      cases (List.cons.inj whole).1

theorem call?_string_eq_some_iff {inToken : Bool} {position : Nat} {input : List Char}
    {found : Match Rule} :
    grammar.call? inToken .string position input = some found ↔
      ∃ chars rest, IsQuoted chars ∧ input = chars ++ rest ∧
        found = ⟨chars, rest, tokenNodes inToken .string position chars⟩ := by
  rw [call?_token_eq_some_iff rfl]
  change (∃ inner, grammar.call? true .quoted position input = some inner ∧ _) ↔ _
  simp only [call?_quoted_eq_some_iff]
  constructor
  · rintro ⟨_, ⟨chars, rest, quoted, rfl, rfl⟩, rfl⟩
    exact ⟨chars, rest, quoted, rfl, rfl⟩
  · rintro ⟨chars, rest, quoted, rfl, rfl⟩
    exact ⟨_, ⟨chars, rest, quoted, rfl, rfl⟩, rfl⟩

theorem call?_bytes_eq_some_iff {inToken : Bool} {position : Nat} {input : List Char}
    {found : Match Rule} :
    grammar.call? inToken .bytes position input = some found ↔
      ∃ chars rest, IsQuoted chars ∧ input = 'b' :: (chars ++ rest) ∧
        found = ⟨'b' :: chars, rest, tokenNodes inToken .bytes position ('b' :: chars)⟩ := by
  rw [call?_token_eq_some_iff rfl]
  change (∃ inner, (Expr.spaced [.text ['b'], .call .quoted]).match? noBlank
    (grammar.call? true) position input = some inner ∧ _) ↔ _
  simp only [match?_spaced_solid_eq_some_iff, spaced_singleton, match?_text_eq_some_iff]
  constructor
  · rintro ⟨_, ⟨_, _, ⟨behind, rfl, rfl⟩, matched, rfl⟩, rfl⟩
    obtain ⟨chars, rest, quoted, rfl, rfl⟩ := call?_quoted_eq_some_iff.mp matched
    exact ⟨chars, rest, quoted, rfl, rfl⟩
  · rintro ⟨chars, rest, quoted, rfl, rfl⟩
    exact ⟨_, ⟨_, _, ⟨_, rfl, rfl⟩,
      call?_quoted_eq_some_iff.mpr ⟨chars, rest, quoted, rfl, rfl⟩, rfl⟩, rfl⟩

/-! ## Integers -/

/-- An integer as it is written: digits, perhaps behind a minus sign. -/
def IsInteger (chars : List Char) : Prop :=
  ∃ digits, digits ≠ [] ∧ (∀ c ∈ digits, isDigit c = true) ∧
    (chars = digits ∨ chars = '-' :: digits)

/-- A run of digits, at least one of them. -/
theorem match?_digits_eq_some_iff {position : Nat} {input : List Char} {found : Match Rule} :
    (Expr.many1 (.char isDigit)).match? noBlank (grammar.call? true) position input = some found ↔
      input.takeWhile isDigit ≠ [] ∧
        found = ⟨input.takeWhile isDigit, input.dropWhile isDigit, []⟩ := by
  simp only [Expr.many1, match?_spaced_solid_eq_some_iff, spaced_singleton,
    match?_char_eq_some_iff, match?_many_char, Option.some.injEq]
  constructor
  · rintro ⟨_, _, ⟨c, rest, rfl, passes, rfl⟩, rfl, rfl⟩
    simp [passes, Match.append]
  · rintro ⟨nonempty, rfl⟩
    cases input with
    | nil => exact absurd rfl nonempty
    | cons c rest =>
        by_cases passes : isDigit c = true
        · exact ⟨_, _, ⟨c, rest, rfl, passes, rfl⟩, rfl, by simp [passes, Match.append]⟩
        · rw [List.takeWhile_cons_of_neg passes] at nonempty
          exact absurd rfl nonempty

theorem isWordChar_of_isDigit {c : Char} (digit : isDigit c = true) : isWordChar c = true := by
  simp [isWordChar, digit]

/-- A minus sign in front of an integer is taken where there is one. -/
theorem match?_sign_eq_some_iff {position : Nat} {input : List Char} {found : Match Rule} :
    (Expr.optional (.text ['-'])).match? noBlank (grammar.call? true) position input =
        some found ↔
      (∃ rest, input = '-' :: rest ∧ found = ⟨['-'], rest, []⟩) ∨
        (StartsWithout (fun c => c = '-') input ∧ found = .empty input) := by
  rw [match?_optional_eq_some_iff, match?_text_eq_some_iff]
  refine or_congr Iff.rfl (and_congr_left fun _ => ?_)
  cases input with
  | nil => simp [Expr.match?, dropExpected?, startsWithout_nil]
  | cons c rest => simp [Expr.match?, dropExpected?]

theorem call?_integer_eq_some_iff {inToken : Bool} {position : Nat} {input : List Char}
    {found : Match Rule} :
    grammar.call? inToken .integer position input = some found ↔
      ∃ chars rest, IsInteger chars ∧ StartsWithout isWordChar rest ∧ input = chars ++ rest ∧
        found = ⟨chars, rest, tokenNodes inToken .integer position chars⟩ := by
  rw [call?_token_eq_some_iff rfl]
  change (∃ inner, (Rule.wholeWord (Expr.spaced [.optional (.text ['-']),
    .many1 (.char isDigit)])).match? noBlank (grammar.call? true) position input =
      some inner ∧ _) ↔ _
  simp only [match?_wholeWord_eq_some_iff, match?_spaced_solid_eq_some_iff, spaced_singleton,
    match?_digits_eq_some_iff, match?_sign_eq_some_iff]
  have allDigits : ∀ rest : List Char, ∀ c ∈ rest.takeWhile isDigit, isDigit c = true :=
    fun rest => List.all_eq_true.mp List.all_takeWhile
  constructor
  · rintro ⟨_, ⟨⟨_, _, ⟨rest, rfl, rfl⟩ | ⟨-, rfl⟩, ⟨nonempty, rfl⟩, rfl⟩, stops⟩, rfl⟩
    · refine ⟨'-' :: rest.takeWhile isDigit, rest.dropWhile isDigit,
        ⟨_, nonempty, allDigits rest, .inr rfl⟩, stops, ?_, rfl⟩
      rw [List.cons_append, List.takeWhile_append_dropWhile]
    · exact ⟨input.takeWhile isDigit, input.dropWhile isDigit,
        ⟨_, nonempty, allDigits input, .inl rfl⟩, stops, List.takeWhile_append_dropWhile.symm, rfl⟩
  · rintro ⟨chars, rest, ⟨digits, nonempty, areDigits, plain | negative⟩, stops, rfl, rfl⟩
    · subst plain
      have noDigit := stops.mono fun c => isWordChar_of_isDigit
      have noSign : StartsWithout (fun c => c = '-') (chars ++ rest) := by
        cases chars with
        | nil => exact absurd rfl nonempty
        | cons c others =>
            have digit := areDigits c (List.mem_cons_self ..)
            refine startsWithout_cons.mpr (decide_eq_false ?_)
            rintro rfl
            cases digit
      refine ⟨_, ⟨⟨_, _, .inr ⟨noSign, rfl⟩, ⟨?_, rfl⟩, rfl⟩, ?_⟩, ?_⟩
      · rwa [Match.empty, takeWhile_append_eq areDigits noDigit]
      · rwa [Match.append, Match.empty, dropWhile_append_eq areDigits noDigit]
      · simp [Match.append, Match.empty, takeWhile_append_eq areDigits noDigit,
          dropWhile_append_eq areDigits noDigit]
    · subst negative
      have noDigit := stops.mono fun c => isWordChar_of_isDigit
      refine ⟨_, ⟨⟨_, _, .inl ⟨digits ++ rest, rfl, rfl⟩, ⟨?_, rfl⟩, rfl⟩, ?_⟩, ?_⟩
      · rwa [takeWhile_append_eq areDigits noDigit]
      · rwa [Match.append, dropWhile_append_eq areDigits noDigit]
      · simp [Match.append, takeWhile_append_eq areDigits noDigit,
          dropWhile_append_eq areDigits noDigit]

end TypeSpelling.Source
