import TypeSpelling.Proofs.Calls

/-!
# Keywords

The keyword rule takes one of three words, or the word `async` and one of two
others behind it, where no word goes on behind the last one.  It takes nothing
else.
-/

namespace TypeSpelling.Source

open TypeSpelling.Peg
open TypeSpelling.Text

/-- A rule that takes one word takes it where it is the first one. -/
theorem call?_onlyWord_eq_some_iff {rule : Rule} (isWord : IsWordRule rule) {word : String}
    (only : wordsOf rule = [word]) {position : Nat} {input : List Char} {found : Match Rule} :
    grammar.call? false rule position input = some found ↔
      firstWord input = word.toList ∧
        found = ⟨word.toList, behindWord input, [⟨rule, position, word.toList, []⟩]⟩ := by
  rw [call?_word_eq_some_iff isWord, only]
  constructor
  · rintro ⟨⟨other, mem, first⟩, rfl⟩
    cases List.mem_singleton.mp mem
    rw [first]
    exact ⟨rfl, rfl⟩
  · rintro ⟨first, rfl⟩
    rw [first]
    exact ⟨⟨word, List.mem_singleton_self word, rfl⟩, rfl⟩

theorem call?_wordOp_eq_some_iff {rule inner : Rule} (node : rule.kind = .node)
    (body : rule.body = .call inner) (isWord : IsWordRule inner) {word : String}
    (only : wordsOf inner = [word]) {position : Nat} {input : List Char} {found : Match Rule} :
    grammar.call? false rule position input = some found ↔
      firstWord input = word.toList ∧
        found = ⟨word.toList, behindWord input,
          [⟨rule, position, word.toList, [⟨inner, position, word.toList, []⟩]⟩]⟩ := by
  rw [call?_node_eq_some_iff node, body]
  simp only [Expr.match?, call?_onlyWord_eq_some_iff isWord only]
  constructor
  · rintro ⟨_, ⟨first, rfl⟩, rfl⟩
    exact ⟨first, rfl⟩
  · rintro ⟨first, rfl⟩
    exact ⟨_, ⟨first, rfl⟩, rfl⟩

/-- A double keyword takes two words with blanks between them. -/
theorem call?_asyncOp_eq_some_iff {rule inner : Rule} (node : rule.kind = .node)
    (body : rule.body = Expr.spaced [.call .kwAsync, .call inner]) (isWord : IsWordRule inner)
    {word : String} (only : wordsOf inner = [word]) {position : Nat} {input : List Char}
    {found : Match Rule} :
    grammar.call? false rule position input = some found ↔
      ∃ blanks rest, firstWord input = "async".toList ∧ behindWord input = blanks ++ rest ∧
        (∀ c ∈ blanks, isBlank c = true) ∧ StartsWithout isBlank rest ∧
        firstWord rest = word.toList ∧
        found = ⟨"async".toList ++ (blanks ++ word.toList), behindWord rest,
          [⟨rule, position, "async".toList ++ (blanks ++ word.toList),
            [⟨.kwAsync, position, "async".toList, []⟩,
              ⟨inner, position + 5 + utf8Length blanks, word.toList, []⟩]⟩]⟩ := by
  rw [call?_node_eq_some_iff node, body]
  simp only [match?_spaced_cons_eq_some_iff, spaced_singleton, Expr.match?,
    call?_onlyWord_eq_some_iff isWordRule_kwAsync rfl, call?_onlyWord_eq_some_iff isWord only]
  constructor
  · rintro ⟨_, ⟨_, _, ⟨async, rfl⟩, ⟨first, rfl⟩, rfl⟩, rfl⟩
    exact ⟨_, _, async, List.takeWhile_append_dropWhile.symm,
      List.all_eq_true.mp List.all_takeWhile, startsWithout_dropWhile _ _, first, rfl⟩
  · rintro ⟨blanks, rest, async, behind, blank, stops, first, rfl⟩
    refine ⟨_, ⟨_, _, ⟨async, rfl⟩, ⟨?_, rfl⟩, rfl⟩, ?_⟩
    · simpa only [behind, dropWhile_append_eq blank stops] using first
    · simp only [behind, takeWhile_append_eq blank stops, dropWhile_append_eq blank stops]
      rfl

theorem isWordStart_keyword (keyword : Keyword) :
    ∃ c rest, keyword.text = c :: rest ∧ isWordStart c = true := by
  cases keyword <;> exact ⟨_, _, rfl, by decide⟩

theorem isWordChar_of_isBlank {c : Char} (blank : isBlank c = true) : isWordChar c = false := by
  simp only [isBlank, Bool.or_eq_true, decide_eq_true_eq] at blank
  rcases blank with ((rfl | rfl) | rfl) | rfl <;> decide

/-- Blanks that are there keep words apart. -/
theorem startsWithout_blanks_append {blanks : List Char} (nonempty : blanks ≠ [])
    (blank : ∀ c ∈ blanks, isBlank c = true) (rest : List Char) :
    StartsWithout isWordChar (blanks ++ rest) := by
  cases blanks with
  | nil => exact absurd rfl nonempty
  | cons c others =>
      exact startsWithout_cons.mpr (isWordChar_of_isBlank (blank c (List.mem_cons_self ..)))

theorem eq_append_behindWord {word : String} {input : List Char}
    (first : firstWord input = word.toList) : input = word.toList ++ behindWord input := by
  rw [← first, firstWord_append_behindWord]

theorem startsWithout_behindWord (input : List Char) :
    StartsWithout isWordChar (behindWord input) :=
  startsWithout_dropWhile isWordChar input

theorem isSegment_iter : IsSegment "iter".toList :=
  isSegment_cons_iff.mpr (by decide)

theorem isSegment_with : IsSegment "with".toList :=
  isSegment_cons_iff.mpr (by decide)

/-- The two words of a double keyword are apart. -/
theorem exists_blanks_of_call?_asyncOp {rule inner : Rule} (node : rule.kind = .node)
    (body : rule.body = Expr.spaced [.call .kwAsync, .call inner]) (isWord : IsWordRule inner)
    {word : String} (only : wordsOf inner = [word]) (segment : IsSegment word.toList)
    {position : Nat} {input : List Char} {found : Match Rule}
    (matched : grammar.call? false rule position input = some found) :
    ∃ (between : Blanks) (rest : List Char), between.chars ≠ [] ∧
      StartsWithout isWordChar rest ∧
      input = "async".toList ++ (between.chars ++ word.toList) ++ rest ∧
      found = ⟨"async".toList ++ (between.chars ++ word.toList), rest,
        [⟨rule, position, "async".toList ++ (between.chars ++ word.toList),
          [⟨.kwAsync, position, "async".toList, []⟩,
            ⟨inner, position + 5 + utf8Length between.chars, word.toList, []⟩]⟩]⟩ := by
  obtain ⟨blanks, rest, async, behind, blank, -, first, rfl⟩ :=
    (call?_asyncOp_eq_some_iff node body isWord only).mp matched
  have whole := eq_append_behindWord async
  have stops := startsWithout_behindWord input
  rw [behind, eq_append_behindWord first] at whole stops
  refine ⟨⟨blanks, blank⟩, behindWord rest, ?_, startsWithout_behindWord rest, ?_, rfl⟩
  · rintro rfl
    obtain ⟨c, others, text, starts, -⟩ := segment
    rw [text, List.nil_append, List.cons_append, startsWithout_cons,
      isWordChar_of_isWordStart starts] at stops
    cases stops
  · simpa using whole

/-- The rules of the keywords in the order in which they are tried. -/
def keywordRules : List Rule :=
  [.asyncIterOp, .asyncWithOp, .awaitOp, .iterOp, .withOp]

theorem call?_prefixOp :
    grammar.call? false .prefixOp =
      (Expr.firstOf (keywordRules.map .call)).match? isBlank (grammar.call? false) :=
  call?_silent rfl

/-- What the keyword rule takes is a keyword. -/
theorem exists_keyword_of_call? {position : Nat} {input : List Char} {found : Match Rule}
    (matched : grammar.call? false .prefixOp position input = some found) :
    ∃ (keyword : Keyword) (rest : List Char), StartsWithout isWordChar rest ∧
      input = keyword.text ++ rest ∧ found = ⟨keyword.text, rest, [keyword.node position]⟩ := by
  rw [call?_prefixOp] at matched
  obtain ⟨_, mem, called⟩ := exists_of_match?_firstOf matched
  obtain ⟨rule, ruleMem, rfl⟩ := List.mem_map.mp mem
  simp only [keywordRules, List.mem_cons, List.not_mem_nil, or_false] at ruleMem
  rcases ruleMem with rfl | rfl | rfl | rfl | rfl
  · obtain ⟨between, rest, apart, stops, whole, rfl⟩ :=
      exists_blanks_of_call?_asyncOp rfl rfl isWordRule_kwIter rfl
        isSegment_iter called
    exact ⟨.asyncIter between apart, rest, stops, whole, rfl⟩
  · obtain ⟨between, rest, apart, stops, whole, rfl⟩ :=
      exists_blanks_of_call?_asyncOp rfl rfl isWordRule_kwWith rfl
        isSegment_with called
    exact ⟨.asyncWith between apart, rest, stops, whole, rfl⟩
  · obtain ⟨first, rfl⟩ := (call?_wordOp_eq_some_iff rfl rfl isWordRule_kwAwait rfl).mp called
    exact ⟨.await, _, startsWithout_behindWord input, eq_append_behindWord first, rfl⟩
  · obtain ⟨first, rfl⟩ := (call?_wordOp_eq_some_iff rfl rfl isWordRule_kwIter rfl).mp called
    exact ⟨.iter, _, startsWithout_behindWord input, eq_append_behindWord first, rfl⟩
  · obtain ⟨first, rfl⟩ := (call?_wordOp_eq_some_iff rfl rfl isWordRule_kwWith rfl).mp called
    exact ⟨.with, _, startsWithout_behindWord input, eq_append_behindWord first, rfl⟩

/-- The first word of a keyword. -/
def Keyword.firstWord : Keyword → String
  | .await => "await"
  | .iter => "iter"
  | .with => "with"
  | .asyncIter _ _ | .asyncWith _ _ => "async"

theorem Keyword.firstWord_append (keyword : Keyword) {rest : List Char}
    (stops : StartsWithout isWordChar rest) :
    Source.firstWord (keyword.text ++ rest) = keyword.firstWord.toList := by
  have apartStops : ∀ {between : Blanks} (apart : between.chars ≠ []) (tail : List Char),
      StartsWithout isWordChar (between.chars ++ tail) := fun {between} apart tail =>
    startsWithout_blanks_append apart between.blank tail
  cases keyword with
  | asyncIter between apart =>
      rw [text_asyncIter, List.append_assoc, List.append_assoc]
      exact Source.firstWord_append (List.all_eq_true.mp (by decide)) (apartStops apart _)
  | asyncWith between apart =>
      rw [text_asyncWith, List.append_assoc, List.append_assoc]
      exact Source.firstWord_append (List.all_eq_true.mp (by decide)) (apartStops apart _)
  | _ => exact Source.firstWord_append (List.all_eq_true.mp (by decide)) stops

/-- A double keyword is read as one where its second word is the rule's. -/
theorem call?_asyncOp_append_eq_some_iff {rule inner : Rule} (node : rule.kind = .node)
    (body : rule.body = Expr.spaced [.call .kwAsync, .call inner]) (isWord : IsWordRule inner)
    {word : String} (only : wordsOf inner = [word]) {between : Blanks}
    (apart : between.chars ≠ []) {tail : List Char} (stops : StartsWithout isBlank tail)
    {position : Nat} {found : Match Rule} :
    grammar.call? false rule position ("async".toList ++ (between.chars ++ tail)) = some found ↔
      firstWord tail = word.toList ∧
        found = ⟨"async".toList ++ (between.chars ++ word.toList), behindWord tail,
          [⟨rule, position, "async".toList ++ (between.chars ++ word.toList),
            [⟨.kwAsync, position, "async".toList, []⟩,
              ⟨inner, position + 5 + utf8Length between.chars, word.toList, []⟩]⟩]⟩ := by
  have asyncStops : StartsWithout isWordChar (between.chars ++ tail) :=
    startsWithout_blanks_append apart between.blank tail
  have async : ∀ c ∈ "async".toList, isWordChar c = true := List.all_eq_true.mp (by decide)
  rw [call?_asyncOp_eq_some_iff node body isWord only, firstWord_append async asyncStops,
    behindWord_append async asyncStops]
  constructor
  · rintro ⟨blanks, rest, -, same, blank, restStops, first, rfl⟩
    obtain ⟨rfl, rfl⟩ := append_inj_of_startsWithout between.blank stops blank restStops same
    exact ⟨first, rfl⟩
  · rintro ⟨first, rfl⟩
    exact ⟨between.chars, tail, rfl, rfl, between.blank, stops, first, rfl⟩

theorem startsWithout_blank_segment {segment : List Char} (isSegment : IsSegment segment)
    (rest : List Char) : StartsWithout isBlank (segment ++ rest) := by
  obtain ⟨c, others, rfl, starts, -⟩ := isSegment
  rw [List.cons_append, startsWithout_cons]
  cases blank : isBlank c with
  | false => rfl
  | true =>
      have wordChar := isWordChar_of_isBlank blank
      rw [isWordChar_of_isWordStart starts] at wordChar
      cases wordChar

/-- The operator of a keyword takes it where no word goes on behind it. -/
theorem call?_keyword_rule (keyword : Keyword) {rest : List Char}
    (stops : StartsWithout isWordChar rest) (position : Nat) :
    grammar.call? false keyword.rule position (keyword.text ++ rest) =
      some ⟨keyword.text, rest, [keyword.node position]⟩ := by
  have single : ∀ {rule inner : Rule} (node : rule.kind = .node) (body : rule.body = .call inner)
      (isWord : IsWordRule inner) {word : String} (only : wordsOf inner = [word])
      (wordChars : ∀ c ∈ word.toList, isWordChar c = true),
      grammar.call? false rule position (word.toList ++ rest) = some ⟨word.toList, rest,
        [⟨rule, position, word.toList, [⟨inner, position, word.toList, []⟩]⟩]⟩ := by
    intro rule inner node body isWord word only wordChars
    rw [call?_wordOp_eq_some_iff node body isWord only, firstWord_append wordChars stops,
      behindWord_append wordChars stops]
    exact ⟨rfl, rfl⟩
  cases keyword with
  | await => exact single rfl rfl isWordRule_kwAwait rfl (List.all_eq_true.mp (by decide))
  | iter => exact single rfl rfl isWordRule_kwIter rfl isSegment_iter.wordChars
  | «with» => exact single rfl rfl isWordRule_kwWith rfl isSegment_with.wordChars
  | asyncIter between apart =>
      rw [Keyword.text_asyncIter, List.append_assoc, List.append_assoc]
      refine (call?_asyncOp_append_eq_some_iff rfl rfl isWordRule_kwIter rfl apart
        (startsWithout_blank_segment isSegment_iter rest)).mpr ⟨?_, ?_⟩
      · exact firstWord_append isSegment_iter.wordChars stops
      · rw [behindWord_append isSegment_iter.wordChars stops]
        rfl
  | asyncWith between apart =>
      rw [Keyword.text_asyncWith, List.append_assoc, List.append_assoc]
      refine (call?_asyncOp_append_eq_some_iff rfl rfl isWordRule_kwWith rfl apart
        (startsWithout_blank_segment isSegment_with rest)).mpr ⟨?_, ?_⟩
      · exact firstWord_append isSegment_with.wordChars stops
      · rw [behindWord_append isSegment_with.wordChars stops]
        rfl

theorem call?_wordOp_eq_none (keyword : Keyword) {rest : List Char}
    (stops : StartsWithout isWordChar rest) {rule inner : Rule} (node : rule.kind = .node)
    (body : rule.body = .call inner) (isWord : IsWordRule inner) {word : String}
    (only : wordsOf inner = [word]) (other : keyword.firstWord ≠ word) (position : Nat) :
    grammar.call? false rule position (keyword.text ++ rest) = none := by
  apply Option.eq_none_iff_forall_ne_some.mpr
  intro found matched
  have first := ((call?_wordOp_eq_some_iff node body isWord only).mp matched).1
  rw [keyword.firstWord_append stops] at first
  exact other (String.toList_inj.mp first)

/-- The last word of a keyword. -/
def Keyword.lastWord : Keyword → String
  | .await => "await"
  | .iter | .asyncIter _ _ => "iter"
  | .with | .asyncWith _ _ => "with"

/-- The operator of a double keyword refuses all other keywords. -/
theorem call?_asyncOp_eq_none (keyword : Keyword) {rest : List Char}
    (stops : StartsWithout isWordChar rest) {rule inner : Rule} (node : rule.kind = .node)
    (body : rule.body = Expr.spaced [.call .kwAsync, .call inner]) (isWord : IsWordRule inner)
    {word : String} (only : wordsOf inner = [word])
    (other : keyword.firstWord = "async" → keyword.lastWord ≠ word) (position : Nat) :
    grammar.call? false rule position (keyword.text ++ rest) = none := by
  apply Option.eq_none_iff_forall_ne_some.mpr
  intro found matched
  have async : keyword.firstWord = "async" := by
    obtain ⟨_, _, first, -⟩ := (call?_asyncOp_eq_some_iff node body isWord only).mp matched
    rw [keyword.firstWord_append stops] at first
    exact String.toList_inj.mp first
  have double : ∀ {between : Blanks} (apart : between.chars ≠ []) {last : String}
      (segment : IsSegment last.toList),
      keyword.text = "async".toList ++ (between.chars ++ last.toList) → last = word := by
    intro between apart last segment text
    rw [text, List.append_assoc, List.append_assoc, call?_asyncOp_append_eq_some_iff node body
      isWord only apart (startsWithout_blank_segment segment rest),
      firstWord_append segment.wordChars stops] at matched
    exact String.toList_inj.mp matched.1
  cases keyword with
  | asyncIter between apart => exact other rfl (double apart isSegment_iter rfl)
  | asyncWith between apart => exact other rfl (double apart isSegment_with rfl)
  | _ => exact absurd async (by decide)

/-- A keyword of one word is told by its first word, and one of two words by the last. -/
theorem Keyword.rule_of_words (keyword : Keyword) :
    (keyword.firstWord = "await" → keyword.rule = .awaitOp) ∧
      (keyword.firstWord = "iter" → keyword.rule = .iterOp) ∧
      (keyword.firstWord = "with" → keyword.rule = .withOp) ∧
      (keyword.firstWord = "async" → keyword.lastWord = "iter" → keyword.rule = .asyncIterOp) ∧
      (keyword.firstWord = "async" → keyword.lastWord = "with" → keyword.rule = .asyncWithOp) := by
  cases keyword <;> simp [Keyword.firstWord, Keyword.lastWord, Keyword.rule]

/-- The keyword rule takes a keyword where no word goes on behind it. -/
theorem call?_prefixOp_append (keyword : Keyword) {rest : List Char}
    (stops : StartsWithout isWordChar rest) (position : Nat) :
    grammar.call? false .prefixOp position (keyword.text ++ rest) =
      some ⟨keyword.text, rest, [keyword.node position]⟩ := by
  have mem : keyword.rule ∈ keywordRules := by cases keyword <;> simp [keywordRules, Keyword.rule]
  rw [call?_prefixOp]
  refine match?_firstOf_calls mem (fun other otherMem => ?_)
    (call?_keyword_rule keyword stops position)
  have isOther : other ≠ keyword.rule := by
    simpa using List.all_eq_true.mp List.all_takeWhile other otherMem
  have isOne := (List.takeWhile_prefix _).subset otherMem
  simp only [keywordRules, List.mem_cons, List.not_mem_nil, or_false] at isOne
  obtain ⟨await, iter, manager, asyncIter, asyncWith⟩ := keyword.rule_of_words
  rcases isOne with rfl | rfl | rfl | rfl | rfl
  · exact call?_asyncOp_eq_none keyword stops rfl rfl isWordRule_kwIter rfl
      (fun async last => isOther (asyncIter async last).symm) position
  · exact call?_asyncOp_eq_none keyword stops rfl rfl isWordRule_kwWith rfl
      (fun async last => isOther (asyncWith async last).symm) position
  · exact call?_wordOp_eq_none keyword stops rfl rfl isWordRule_kwAwait rfl
      (fun first => isOther (await first).symm) position
  · exact call?_wordOp_eq_none keyword stops rfl rfl isWordRule_kwIter rfl
      (fun first => isOther (iter first).symm) position
  · exact call?_wordOp_eq_none keyword stops rfl rfl isWordRule_kwWith rfl
      (fun first => isOther (manager first).symm) position

end TypeSpelling.Source
