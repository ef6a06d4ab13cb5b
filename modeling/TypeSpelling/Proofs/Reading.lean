import TypeSpelling.Proofs.Atoms
import TypeSpelling.Proofs.Keywords

/-!
# Reading phrases

Whatever a rule of the grammar takes is the body of a phrase, and the nodes it
makes are those of the phrase.  The proof follows the levels of the grammar at
one text, with the statement for expressions in all shorter texts.
-/

namespace TypeSpelling.Source

open TypeSpelling.Peg
open TypeSpelling.Text

/-! ## What is to be read -/

/-- The item of a repetition. -/
def Repetition.item : Repetition → Expr Rule
  | .bar => Expr.spaced [.call .unionOp, .call .optionalExpr]
  | .comma => Expr.spaced [.call .comma, .call .expression]
  | .entry =>
      Expr.spaced [.call .comma, .call .expression, .call .colon, .call .expression]

/-- A match takes the body of a phrase and leaves the blanks behind it. -/
def Reads (category : Category) (position : Nat) (found : Match Rule) : Prop :=
  ∃ (phrase : Phrase category) (rest : List Char), StartsWithout isBlank rest ∧
    found = ⟨phrase.body, phrase.trail ++ rest, phrase.nodes position⟩

/-- Expressions are read in all texts up to a length that no blank begins. -/
def ReadsBelow (length : Nat) : Prop :=
  ∀ position (input : List Char) found, input.length < length → StartsWithout isBlank input →
    grammar.call? false .expression position input = some found →
      Reads .expression position found

/-! ## Parts in a row -/

section

variable {part second : Expr Rule} {others : List (Expr Rule)} {position : Nat}
  {input : List Char} {found : Match Rule}

/-- A punctuation mark, the blanks behind it and the other parts. -/
theorem exists_of_match?_mark (mark : Char) {nodes : List (Node Rule)}
    (size : utf8Length [mark] = 1)
    (marks : ∀ left, part.match? isBlank (grammar.call? false) position input = some left →
      ∃ rest, left = ⟨[mark], rest, nodes⟩)
    (matched : (Expr.spaced (part :: second :: others)).match? isBlank (grammar.call? false)
      position input = some found) :
    ∃ (behind : Blanks) (rest : List Char) (right : Match Rule),
      input = mark :: (behind.chars ++ rest) ∧ StartsWithout isBlank rest ∧
      (Expr.spaced (second :: others)).match? isBlank (grammar.call? false)
        (position + 1 + utf8Length behind.chars) rest = some right ∧
      found = ⟨mark :: (behind.chars ++ right.text), right.rest, nodes ++ right.nodes⟩ := by
  obtain ⟨left, right, partMatched, othersMatched, rfl⟩ :=
    match?_spaced_cons_eq_some_iff.mp matched
  have splits := splits_of_match? partMatched
  obtain ⟨rest, rfl⟩ := marks left partMatched
  obtain ⟨behind, rest, stops, rfl⟩ := Blanks.exists_append rest
  simp only [takeWhile_append_eq behind.blank stops, dropWhile_append_eq behind.blank stops, size]
    at othersMatched
  refine ⟨behind, rest, right, splits.symm, stops, othersMatched, ?_⟩
  simp only [takeWhile_append_eq behind.blank stops]
  rfl

/-- A phrase, the blanks behind it and the other parts. -/
theorem exists_of_match?_phrase {category : Category}
    (reads : ∀ left, part.match? isBlank (grammar.call? false) position input = some left →
      Reads category position left)
    (matched : (Expr.spaced (part :: second :: others)).match? isBlank (grammar.call? false)
      position input = some found) :
    ∃ (phrase : Phrase category) (rest : List Char) (right : Match Rule),
      input = phrase.text ++ rest ∧ StartsWithout isBlank rest ∧
      (Expr.spaced (second :: others)).match? isBlank (grammar.call? false)
        (position + utf8Length phrase.text) rest = some right ∧
      found = ⟨phrase.body ++ (phrase.trail ++ right.text), right.rest,
        phrase.nodes position ++ right.nodes⟩ := by
  obtain ⟨left, right, partMatched, othersMatched, rfl⟩ :=
    match?_spaced_cons_eq_some_iff.mp matched
  have splits := splits_of_match? partMatched
  obtain ⟨phrase, rest, stops, rfl⟩ := reads left partMatched
  rw [takeWhile_append_eq phrase.blank_trail stops, dropWhile_append_eq phrase.blank_trail stops]
    at othersMatched
  refine ⟨phrase, rest, right, ?_, stops, ?_, ?_⟩
  · rw [Phrase.text, List.append_assoc]
    exact splits.symm
  · rwa [Phrase.text, utf8Length_append, ← Nat.add_assoc]
  · simp only [takeWhile_append_eq phrase.blank_trail stops]

end

/-! ## Repetitions -/

theorem progress_item (repetition : Repetition) :
    Progress ((Expr.seq .skip repetition.item).match? isBlank (grammar.call? false)) := by
  cases repetition <;> exact progress_of_nullable (by decide)

/-- A repetition takes a list of items, with blanks in front of the first one. -/
theorem exists_items_of_repeats {repetition : Repetition} {length : Nat}
    (reads : ∀ position (input : List Char) found, input.length ≤ length →
      repetition.item.match? isBlank (grammar.call? false) position input = some found →
        Reads (.item repetition) position found)
    {position : Nat} {input : List Char} {found : Match Rule}
    (repeats : Repeats ((Expr.seq .skip repetition.item).match? isBlank (grammar.call? false))
      position input found) :
    ∀ {blanks tail : List Char}, input = blanks ++ tail → (∀ c ∈ blanks, isBlank c = true) →
      StartsWithout isBlank tail → tail.length ≤ length →
        ∃ (phrase : Phrase (.items repetition)) (rest : List Char), StartsWithout isBlank rest ∧
          found = ⟨if phrase.isNil then [] else blanks ++ phrase.body,
            (if phrase.isNil then blanks else phrase.trail) ++ rest,
            phrase.nodes (position + utf8Length blanks)⟩ := by
  induction repeats with
  | stop =>
      rintro blanks tail rfl blank stops -
      exact ⟨.nil, tail, stops, rfl⟩
  | @step position input first others matched repeats ih =>
      rintro blanks tail rfl blank stops bound
      obtain ⟨_, inner, skips, itemMatched, rfl⟩ := match?_seq_eq_some_iff.mp matched
      rw [match?_skip_append blank stops] at skips
      cases skips
      have splits := splits_of_match? itemMatched
      obtain ⟨item, rest, itemStops, rfl⟩ := reads _ _ _ bound itemMatched
      have shorter : rest.length ≤ length := by
        have whole := congrArg List.length splits
        simp only [List.length_append] at whole
        omega
      obtain ⟨items, rest', stops', rfl⟩ := ih rfl item.blank_trail itemStops shorter
      refine ⟨.cons item items, rest', stops', ?_⟩
      simp [Match.append, Phrase.isNil, Phrase.body, Phrase.trail, Phrase.nodes, Phrase.text,
        Nat.add_assoc]

theorem reads_many {repetition : Repetition} {length : Nat}
    (reads : ∀ position (input : List Char) found, input.length ≤ length →
      repetition.item.match? isBlank (grammar.call? false) position input = some found →
        Reads (.item repetition) position found)
    {position : Nat} {input : List Char} {found : Match Rule} (bound : input.length ≤ length)
    (stops : StartsWithout isBlank input)
    (matched : (Expr.many repetition.item).match? isBlank (grammar.call? false) position input =
      some found) : Reads (.items repetition) position found := by
  have progress := progress_item repetition
  obtain ⟨others, repeats⟩ := exists_repeats progress position input
  rw [match?_many_of_repeats progress stops repeats] at matched
  cases matched
  obtain ⟨phrase, rest, restStops, rfl⟩ :=
    exists_items_of_repeats reads repeats (List.nil_append input).symm (by simp) stops bound
  refine ⟨phrase, rest, restStops, ?_⟩
  cases phrase with
  | nil => simp [Phrase.isNil, Phrase.body, Phrase.trail, Phrase.nodes]
  | cons first others => simp [Phrase.isNil]

/-! ## Expressions with commas between them -/

theorem exists_of_match?_text {mark : Char} {position : Nat} {input : List Char}
    (left : Match Rule)
    (matched : (Expr.text [mark]).match? isBlank (grammar.call? false) position input =
      some left) : ∃ rest, left = ⟨[mark], rest, []⟩ := by
  obtain ⟨rest, -, rfl⟩ := match?_text_eq_some_iff.mp matched
  exact ⟨rest, rfl⟩

theorem isMarkRule_comma : IsMarkRule .comma ',' := ⟨rfl, rfl⟩

theorem isMarkRule_colon : IsMarkRule .colon ':' := ⟨rfl, rfl⟩

theorem isMarkRule_unionOp : IsMarkRule .unionOp '|' := ⟨rfl, rfl⟩

theorem isMarkRule_optionalOp : IsMarkRule .optionalOp '?' := ⟨rfl, rfl⟩

theorem isMarkRule_rparen : IsMarkRule .rparen ')' := ⟨rfl, rfl⟩

theorem isMarkRule_rbracket : IsMarkRule .rbracket ']' := ⟨rfl, rfl⟩

theorem isMarkRule_rbrace : IsMarkRule .rbrace '\x7d' := ⟨rfl, rfl⟩

/-- What a punctuation rule takes is its mark. -/
theorem exists_of_call?_mark {rule : Rule} {mark : Char} (isMark : IsMarkRule rule mark)
    {position : Nat} {input : List Char} (left : Match Rule)
    (matched : (Expr.call rule).match? isBlank (grammar.call? false) position input = some left) :
    ∃ rest, left = ⟨[mark], rest, [markNode rule position mark]⟩ := by
  obtain ⟨rest, -, rfl⟩ := (call?_mark_eq_some_iff isMark).mp matched
  exact ⟨rest, rfl⟩

section

variable {length : Nat} (below : ReadsBelow length) {position : Nat} {input : List Char}
  {found : Match Rule}

include below

/-- An expression, the blanks behind it and the other parts. -/
theorem exists_of_match?_expression {second : Expr Rule} {others : List (Expr Rule)}
    (bound : input.length < length) (starts : StartsWithout isBlank input)
    (matched : (Expr.spaced (.call .expression :: second :: others)).match? isBlank
      (grammar.call? false) position input = some found) :
    ∃ (phrase : Phrase .expression) (rest : List Char) (right : Match Rule),
      input = phrase.text ++ rest ∧ StartsWithout isBlank rest ∧
      (Expr.spaced (second :: others)).match? isBlank (grammar.call? false)
        (position + utf8Length phrase.text) rest = some right ∧
      found = ⟨phrase.body ++ (phrase.trail ++ right.text), right.rest,
        phrase.nodes position ++ right.nodes⟩ := by
  have reads : ∀ left, (Expr.call Rule.expression).match? isBlank (grammar.call? false) position
      input = some left → Reads .expression position left :=
    fun left called => below position input left bound starts called
  exact exists_of_match?_phrase reads matched

theorem reads_comma (bound : input.length ≤ length)
    (matched : Repetition.comma.item.match? isBlank (grammar.call? false) position input =
      some found) : Reads (.item .comma) position found := by
  obtain ⟨behind, rest, right, rfl, starts, called, rfl⟩ :=
    exists_of_match?_mark ',' rfl (exists_of_call?_mark isMarkRule_comma) matched
  have shorter : rest.length < length := by
    simp only [List.length_cons, List.length_append] at bound
    omega
  obtain ⟨phrase, rest', stops, rfl⟩ := below _ _ _ shorter starts called
  exact ⟨.comma behind phrase, rest', stops, rfl⟩

theorem reads_entry (bound : input.length ≤ length)
    (matched : Repetition.entry.item.match? isBlank (grammar.call? false) position input =
      some found) : Reads (.item .entry) position found := by
  obtain ⟨behind, rest, right, rfl, starts, others, rfl⟩ :=
    exists_of_match?_mark ',' rfl (exists_of_call?_mark isMarkRule_comma) matched
  have shorter : rest.length < length := by
    simp only [List.length_cons, List.length_append] at bound
    omega
  obtain ⟨key, rest', right', rfl, -, others', rfl⟩ :=
    exists_of_match?_expression below shorter starts others
  obtain ⟨between, rest'', right'', rfl, starts', called, rfl⟩ :=
    exists_of_match?_mark ':' rfl (exists_of_call?_mark isMarkRule_colon) others'
  have shorter' : rest''.length < length := by
    simp only [List.length_cons, List.length_append] at shorter
    omega
  obtain ⟨value, last, stops, rfl⟩ := below _ _ _ shorter' starts' called
  exact ⟨.entry behind key between value, last, stops, rfl⟩

/-- One or more expressions with commas between them. -/
theorem exists_of_match?_expressions (bound : input.length < length)
    (starts : StartsWithout isBlank input)
    (matched : Rule.expressions.match? isBlank (grammar.call? false) position input =
      some found) :
    ∃ (first : Phrase .expression) (others : Phrase (.items .comma)) (rest : List Char),
      StartsWithout isBlank rest ∧ input = first.text ++ (others.text ++ rest) ∧
      found = ⟨first.body ++ (first.trail ++ others.body), others.trail ++ rest,
        first.nodes position ++ others.nodes (position + utf8Length first.text)⟩ := by
  obtain ⟨first, rest, right, rfl, stops, many, rfl⟩ :=
    exists_of_match?_expression below bound starts matched
  have splits := splits_of_match? many
  have shorter : rest.length ≤ length := by
    simp only [List.length_append] at bound
    omega
  obtain ⟨others, rest', stops', rfl⟩ :=
    reads_many (fun _ _ _ => reads_comma below) shorter stops many
  refine ⟨first, others, rest', stops', ?_, rfl⟩
  rw [← splits]
  simp [Phrase.text]

/-- Expressions with commas between them, the blanks behind them and the other
parts. -/
theorem exists_of_match?_spaced_expressions {second : Expr Rule} {parts : List (Expr Rule)}
    (bound : input.length < length) (starts : StartsWithout isBlank input)
    (matched : (Expr.spaced (Rule.expressions :: second :: parts)).match? isBlank
      (grammar.call? false) position input = some found) :
    ∃ (first : Phrase .expression) (others : Phrase (.items .comma)) (rest : List Char)
      (right : Match Rule), StartsWithout isBlank rest ∧
      input = first.text ++ (others.text ++ rest) ∧
      (Expr.spaced (second :: parts)).match? isBlank (grammar.call? false)
        (position + utf8Length first.text + utf8Length others.text) rest = some right ∧
      found = ⟨first.body ++ (first.trail ++ (others.body ++ (others.trail ++ right.text))),
        right.rest, first.nodes position ++
          (others.nodes (position + utf8Length first.text) ++ right.nodes)⟩ := by
  obtain ⟨left, right, leftMatched, partsMatched, rfl⟩ :=
    match?_spaced_cons_eq_some_iff.mp matched
  obtain ⟨first, others, rest, stops, whole, rfl⟩ :=
    exists_of_match?_expressions below bound starts leftMatched
  rw [takeWhile_append_eq others.blank_trail stops, dropWhile_append_eq others.blank_trail stops]
    at partsMatched
  refine ⟨first, others, rest, right, stops, whole, ?_, ?_⟩
  · simpa only [Phrase.text, utf8Length_append, Nat.add_assoc] using partsMatched
  · simp only [takeWhile_append_eq others.blank_trail stops, List.append_assoc]

/-! ## Atoms -/

theorem reads_parens (bound : input.length ≤ length)
    (matched : grammar.call? false .parens position input = some found) :
    ∃ (inside : Blanks) (first : Phrase .expression) (others : Phrase (.items .comma))
      (closing : Option Blanks) (rest : List Char),
      found = ⟨(Phrase.parens inside first others closing).body, rest,
        (Phrase.parens inside first others closing).nodes position⟩ := by
  obtain ⟨inner, bodyMatched, rfl⟩ := (call?_node_eq_some_iff rfl).mp matched
  obtain ⟨inside, rest, right, rfl, starts, afterMark, rfl⟩ :=
    exists_of_match?_mark '(' rfl exists_of_match?_text bodyMatched
  have shorter : rest.length < length := by
    simp only [List.length_cons, List.length_append] at bound
    omega
  obtain ⟨first, others, rest', right', stops, rfl, afterOthers, rfl⟩ :=
    exists_of_match?_spaced_expressions below shorter starts afterMark
  obtain ⟨comma, last, commaMatched, close, rfl⟩ := match?_spaced_cons_eq_some_iff.mp afterOthers
  rcases match?_optional_eq_some_iff.mp commaMatched with found | ⟨-, rfl⟩
  · obtain ⟨rest'', rfl, rfl⟩ := (call?_mark_eq_some_iff isMarkRule_comma).mp found
    obtain ⟨behind, tail, tailStops, rfl⟩ := Blanks.exists_append rest''
    obtain ⟨end', rfl⟩ := exists_of_call?_mark isMarkRule_rparen last close
    refine ⟨inside, first, others, some behind, end', ?_⟩
    simp [Phrase.body, Phrase.nodes, Phrase.closingComma, Phrase.text, Nat.add_assoc,
      takeWhile_append_eq behind.blank tailStops]
  · obtain ⟨end', rfl⟩ := exists_of_call?_mark isMarkRule_rparen last close
    refine ⟨inside, first, others, none, end', ?_⟩
    simp [Phrase.body, Phrase.nodes, Phrase.closingComma, Phrase.text, Nat.add_assoc,
      Match.empty, takeWhile_eq_nil stops]

theorem reads_brackets (bound : input.length ≤ length)
    (matched : grammar.call? false .brackets position input = some found) :
    ∃ (inside : Blanks) (first : Phrase .expression) (others : Phrase (.items .comma))
      (rest : List Char), found = ⟨(Phrase.brackets inside first others).body, rest,
        (Phrase.brackets inside first others).nodes position⟩ := by
  obtain ⟨inner, bodyMatched, rfl⟩ := (call?_node_eq_some_iff rfl).mp matched
  obtain ⟨inside, rest, right, rfl, starts, afterMark, rfl⟩ :=
    exists_of_match?_mark '[' rfl exists_of_match?_text bodyMatched
  have shorter : rest.length < length := by
    simp only [List.length_cons, List.length_append] at bound
    omega
  obtain ⟨first, others, rest', right', -, rfl, close, rfl⟩ :=
    exists_of_match?_spaced_expressions below shorter starts afterMark
  obtain ⟨end', rfl⟩ := exists_of_call?_mark isMarkRule_rbracket right' close
  refine ⟨inside, first, others, end', ?_⟩
  simp [Phrase.body, Phrase.nodes, Phrase.text, Nat.add_assoc]

theorem reads_mappingRest (bound : input.length ≤ length)
    (matched : grammar.call? false .mappingRest position input = some found) :
    ∃ (between : Blanks) (value : Phrase .expression) (others : Phrase (.items .entry))
      (rest : List Char), StartsWithout isBlank rest ∧
      found = ⟨':' :: (between.chars ++ (value.body ++ (value.trail ++ others.body))),
        others.trail ++ rest,
        [⟨.mappingRest, position,
          ':' :: (between.chars ++ (value.body ++ (value.trail ++ others.body))),
          markNode .colon position ':' ::
            (value.nodes (position + 1 + utf8Length between.chars) ++
              others.nodes (position + 1 + utf8Length between.chars +
                utf8Length value.text))⟩]⟩ := by
  obtain ⟨inner, bodyMatched, rfl⟩ := (call?_node_eq_some_iff rfl).mp matched
  obtain ⟨between, rest, right, rfl, starts, afterMark, rfl⟩ :=
    exists_of_match?_mark ':' rfl (exists_of_call?_mark isMarkRule_colon) bodyMatched
  have shorter : rest.length < length := by
    simp only [List.length_cons, List.length_append] at bound
    omega
  obtain ⟨value, rest', right', rfl, stops, many, rfl⟩ :=
    exists_of_match?_expression below shorter starts afterMark
  have shorter' : rest'.length ≤ length := by
    simp only [List.length_append] at shorter
    omega
  obtain ⟨others, rest'', stops', rfl⟩ :=
    reads_many (fun _ _ _ => reads_entry below) shorter' stops many
  exact ⟨between, value, others, rest'', stops', rfl⟩

/-- A key in braces has a mapping behind it, or else other members of a set. -/
theorem reads_braces (bound : input.length ≤ length)
    (matched : grammar.call? false .braces position input = some found) :
    ∃ (phrase : Phrase (.atom false)) (rest : List Char),
      found = ⟨phrase.body, rest, phrase.nodes position⟩ := by
  obtain ⟨inner, bodyMatched, rfl⟩ := (call?_node_eq_some_iff rfl).mp matched
  obtain ⟨inside, rest, right, rfl, starts, afterMark, rfl⟩ :=
    exists_of_match?_mark '\x7b' rfl exists_of_match?_text bodyMatched
  have shorter : rest.length < length := by
    simp only [List.length_cons, List.length_append] at bound
    omega
  obtain ⟨first, rest', right', rfl, stops, afterFirst, rfl⟩ :=
    exists_of_match?_expression below shorter starts afterMark
  have shorter' : rest'.length ≤ length := by
    simp only [List.length_append] at shorter
    omega
  obtain ⟨middle, last, middleMatched, close, rfl⟩ := match?_spaced_cons_eq_some_iff.mp afterFirst
  rcases match?_choice_eq_some_iff.mp middleMatched with mapping | ⟨-, set⟩
  · obtain ⟨between, value, others, rest'', stops', rfl⟩ := reads_mappingRest below shorter' mapping
    obtain ⟨end', rfl⟩ := exists_of_call?_mark isMarkRule_rbrace last close
    have size : Char.utf8Size ':' = 1 := rfl
    refine ⟨.mapping inside first between value others, end', ?_⟩
    simp [Phrase.body, Phrase.nodes, Phrase.text, Nat.add_assoc, size,
      takeWhile_append_eq others.blank_trail stops']
  · obtain ⟨items, itemsMatched, rfl⟩ := (call?_node_eq_some_iff rfl).mp set
    obtain ⟨others, rest'', stops', rfl⟩ :=
      reads_many (fun _ _ _ => reads_comma below) shorter' stops itemsMatched
    obtain ⟨end', rfl⟩ := exists_of_call?_mark isMarkRule_rbrace last close
    refine ⟨.set inside first others, end', ?_⟩
    simp [Phrase.body, Phrase.nodes, Phrase.text, Nat.add_assoc,
      takeWhile_append_eq others.blank_trail stops']

/-- What an atom takes is a phrase. -/
theorem reads_atom (bound : input.length ≤ length)
    (matched : grammar.call? false .atom position input = some found) :
    ∃ (word : Bool) (phrase : Phrase (.atom word)) (rest : List Char),
      found = ⟨phrase.body, rest, phrase.nodes position⟩ := by
  rcases cases_of_call?_atom matched with ⟨own, rest, rfl⟩ | ⟨rule, mem, called⟩
  · exact ⟨_, .token own, rest, rfl⟩
  · simp only [bracketRules, List.mem_cons, List.not_mem_nil, or_false] at mem
    rcases mem with rfl | rfl | rfl
    · obtain ⟨inside, first, others, closing, rest, rfl⟩ := reads_parens below bound called
      exact ⟨false, _, rest, rfl⟩
    · obtain ⟨phrase, rest, rfl⟩ := reads_braces below bound called
      exact ⟨false, phrase, rest, rfl⟩
    · obtain ⟨inside, first, others, rest, rfl⟩ := reads_brackets below bound called
      exact ⟨false, _, rest, rfl⟩

/-! ## Operands -/

theorem reads_subscript (bound : input.length ≤ length)
    (matched : grammar.call? false .subscript position input = some found) :
    ∃ (inside : Blanks) (first : Phrase .expression) (others : Phrase (.items .comma))
      (rest : List Char),
      found = ⟨'[' :: (inside.chars ++ (first.text ++ (others.text ++ [']']))), rest,
        [⟨.subscript, position, '[' :: (inside.chars ++ (first.text ++ (others.text ++ [']']))),
          first.nodes (position + 1 + utf8Length inside.chars) ++
            (others.nodes (position + 1 + utf8Length inside.chars + utf8Length first.text) ++
              [markNode .rbracket (position + 1 + utf8Length inside.chars +
                utf8Length first.text + utf8Length others.text) ']'])⟩]⟩ := by
  obtain ⟨inner, bodyMatched, rfl⟩ := (call?_node_eq_some_iff rfl).mp matched
  obtain ⟨inside, rest, right, rfl, starts, afterMark, rfl⟩ :=
    exists_of_match?_mark '[' rfl exists_of_match?_text bodyMatched
  have shorter : rest.length < length := by
    simp only [List.length_cons, List.length_append] at bound
    omega
  obtain ⟨first, others, rest', right', -, rfl, close, rfl⟩ :=
    exists_of_match?_spaced_expressions below shorter starts afterMark
  obtain ⟨end', rfl⟩ := exists_of_call?_mark isMarkRule_rbracket right' close
  refine ⟨inside, first, others, end', ?_⟩
  simp [Phrase.text]

/-- What an atom and its subscript take is a phrase. -/
theorem reads_primary (bound : input.length ≤ length)
    (matched : grammar.call? false .subscripted position input = some found) :
    ∃ word, Reads (.primary word) position found := by
  obtain ⟨inner, bodyMatched, rfl⟩ := (call?_node_eq_some_iff rfl).mp matched
  obtain ⟨left, right, atomMatched, optional, rfl⟩ := match?_spaced_cons_eq_some_iff.mp bodyMatched
  have splits := splits_of_match? atomMatched
  obtain ⟨word, atom, rest, rfl⟩ := reads_atom below bound atomMatched
  obtain ⟨before, rest', stops, rfl⟩ := Blanks.exists_append rest
  have whole : atom.body ++ (before.chars ++ rest') = input := splits
  have shorter : rest'.length ≤ length := by
    rw [← whole] at bound
    simp only [List.length_append] at bound
    omega
  simp only [takeWhile_append_eq before.blank stops, dropWhile_append_eq before.blank stops]
    at optional
  rcases match?_optional_eq_some_iff.mp optional with subscript | ⟨-, rfl⟩
  · obtain ⟨inside, first, others, rest'', rfl⟩ := reads_subscript below shorter subscript
    obtain ⟨behind, last, lastStops, rfl⟩ := Blanks.exists_append rest''
    refine ⟨word, .subscripted atom before inside first others behind, last, lastStops, ?_⟩
    simp [Phrase.body, Phrase.trail, Phrase.nodes, Phrase.text,
      takeWhile_append_eq before.blank stops]
  · refine ⟨word, .bare atom before, rest', stops, ?_⟩
    simp [Phrase.body, Phrase.trail, Phrase.nodes, Match.empty,
      takeWhile_append_eq before.blank stops]

end

/-! ## Keywords in front of an operand -/

theorem beginsWord_eq_false {input : List Char} (stops : StartsWithout isWordChar input) :
    beginsWord input = false := by
  cases input with
  | nil => rfl
  | cons c rest => exact startsWithout_cons.mp stops

theorem beginsWord_keyword_append (keyword : Keyword) (rest : List Char) :
    beginsWord (keyword.text ++ rest) = true := by
  cases keyword <;> rfl

/-- Keywords stay apart from a further keyword in front of them. -/
theorem Prefixes.apart_cons {keyword : Keyword} {behind : Blanks} {prefixes : Prefixes}
    {rest : List Char} (stops : StartsWithout isWordChar (behind.chars ++ (prefixes.text ++ rest)))
    (apart : prefixes.Apart (beginsWord rest)) :
    Prefixes.Apart ((keyword, behind) :: prefixes) (beginsWord rest) := by
  have nonempty (follows : beginsWord (prefixes.text ++ rest) = true) : behind.chars ≠ [] := by
    intro nothing
    rw [nothing, List.nil_append] at stops
    rw [beginsWord_eq_false stops] at follows
    cases follows
  cases prefixes with
  | nil => exact nonempty
  | cons second others =>
      refine ⟨nonempty ?_, apart⟩
      rw [Prefixes.text, List.flatMap_cons, List.append_assoc, List.append_assoc]
      exact beginsWord_keyword_append _ _

/-- Keywords in a row are taken up to the first text that is none. -/
theorem exists_prefixes_of_repeats {position : Nat} {input : List Char} {found : Match Rule}
    (repeats : Repeats ((Expr.seq .skip (.call Rule.prefixOp)).match? isBlank
      (grammar.call? false)) position input found) :
    ∀ {blanks tail : List Char}, input = blanks ++ tail → (∀ c ∈ blanks, isBlank c = true) →
      StartsWithout isBlank tail →
        ∃ (prefixes : Prefixes) (behind : Blanks) (rest : List Char),
          StartsWithout isBlank rest ∧ prefixes.Apart (beginsWord rest) ∧
          tail = prefixes.text ++ rest ∧ found.rest = behind.chars ++ rest ∧
          found.text ++ behind.chars = blanks ++ prefixes.text ∧
          found.nodes = prefixes.nodes (position + utf8Length blanks) := by
  induction repeats with
  | stop =>
      rintro blanks tail rfl blank stops
      exact ⟨[], ⟨blanks, blank⟩, tail, stops, trivial, rfl, rfl, (List.append_nil _).symm, rfl⟩
  | @step position input first others matched repeats ih =>
      rintro blanks tail rfl blank stops
      obtain ⟨_, inner, skips, called, rfl⟩ := match?_seq_eq_some_iff.mp matched
      rw [match?_skip_append blank stops] at skips
      cases skips
      obtain ⟨keyword, input, wordStops, rfl, rfl⟩ := exists_keyword_of_call? called
      obtain ⟨space, tail, tailStops, rfl⟩ := Blanks.exists_append input
      obtain ⟨prefixes, behind, rest, restStops, apart, rfl, left, taken, nodes⟩ :=
        ih rfl space.blank tailStops
      refine ⟨(keyword, space) :: prefixes, behind, rest, restStops,
        Prefixes.apart_cons wordStops apart, ?_, left, ?_, ?_⟩
      · simp [Prefixes.text]
      · simp [Match.append, taken, Prefixes.text]
      · simp [Match.append, nodes, Prefixes.nodes, Nat.add_assoc]

theorem progress_prefixOp :
    Progress ((Expr.seq .skip (.call Rule.prefixOp)).match? isBlank (grammar.call? false)) :=
  progress_of_nullable (by decide)

section

variable {length : Nat} (below : ReadsBelow length) {position : Nat} {input : List Char}
  {found : Match Rule}

include below

/-- Keywords and the primary behind them. -/
theorem exists_of_call?_prefixed (bound : input.length ≤ length)
    (starts : StartsWithout isBlank input)
    (matched : grammar.call? false .prefixed position input = some found) :
    ∃ (word : Bool) (prefixes : Prefixes) (primary : Phrase (.primary word)) (rest : List Char),
      prefixes.Apart word ∧ StartsWithout isBlank rest ∧
      input = prefixes.text ++ (primary.text ++ rest) ∧
      found = ⟨prefixes.text ++ primary.body, primary.trail ++ rest,
        [⟨.prefixed, position, prefixes.text ++ primary.body,
          prefixes.nodes position ++
            primary.nodes (position + utf8Length prefixes.text)⟩]⟩ := by
  obtain ⟨inner, bodyMatched, rfl⟩ := (call?_node_eq_some_iff rfl).mp matched
  obtain ⟨left, right, many, primaryMatched, rfl⟩ :=
    match?_spaced_cons_eq_some_iff.mp bodyMatched
  obtain ⟨others, repeats⟩ := exists_repeats progress_prefixOp position input
  rw [match?_many_of_repeats progress_prefixOp starts repeats] at many
  cases many
  obtain ⟨prefixes, behind, rest, stops, apart, whole, behindText, taken, nodes⟩ :=
    exists_prefixes_of_repeats repeats (List.nil_append input).symm (by simp) starts
  have shorter : rest.length ≤ length := by
    rw [whole, List.length_append] at bound
    omega
  have place : position + utf8Length left.text + utf8Length behind.chars =
      position + utf8Length prefixes.text := by
    rw [Nat.add_assoc, ← utf8Length_append, taken, List.nil_append]
  simp only [behindText, takeWhile_append_eq behind.blank stops,
    dropWhile_append_eq behind.blank stops, place] at primaryMatched
  have splits := splits_of_match? primaryMatched
  obtain ⟨word, primary, rest', stops', rfl⟩ := reads_primary below shorter primaryMatched
  have primaryText : primary.text ++ rest' = rest := by
    rw [Phrase.text, List.append_assoc]
    exact splits
  refine ⟨word, prefixes, primary, rest', ?_, stops', ?_, ?_⟩
  · rwa [← primaryText, Phrase.beginsWord_primary] at apart
  · rw [whole, primaryText]
  · simp only [behindText, takeWhile_append_eq behind.blank stops, nodes, utf8Length_nil,
      Nat.add_zero, ← List.append_assoc, taken, List.nil_append]

/-- What an operand takes is a phrase. -/
theorem reads_operand (bound : input.length ≤ length) (starts : StartsWithout isBlank input)
    (matched : grammar.call? false .optionalExpr position input = some found) :
    Reads .operand position found := by
  obtain ⟨inner, bodyMatched, rfl⟩ := (call?_node_eq_some_iff rfl).mp matched
  obtain ⟨left, right, prefixed, optional, rfl⟩ := match?_spaced_cons_eq_some_iff.mp bodyMatched
  obtain ⟨word, prefixes, primary, rest, apart, stops, -, rfl⟩ :=
    exists_of_call?_prefixed below bound starts prefixed
  simp only [takeWhile_append_eq primary.blank_trail stops,
    dropWhile_append_eq primary.blank_trail stops] at optional
  rcases match?_optional_eq_some_iff.mp optional with mark | ⟨-, rfl⟩
  · obtain ⟨rest', rfl⟩ := exists_of_call?_mark isMarkRule_optionalOp right mark
    obtain ⟨behind, last, lastStops, rfl⟩ := Blanks.exists_append rest'
    refine ⟨.operand prefixes apart primary (some behind), last, lastStops, ?_⟩
    simp [Phrase.body, Phrase.trail, Phrase.nodes, Phrase.text, Phrase.questionMark,
      takeWhile_append_eq primary.blank_trail stops, Nat.add_assoc]
  · refine ⟨.operand prefixes apart primary none, rest, stops, ?_⟩
    simp [Phrase.body, Phrase.trail, Phrase.nodes, Phrase.questionMark, Match.empty,
      takeWhile_append_eq primary.blank_trail stops]

theorem reads_bar (bound : input.length ≤ length)
    (matched : Repetition.bar.item.match? isBlank (grammar.call? false) position input =
      some found) : Reads (.item .bar) position found := by
  obtain ⟨behind, rest, right, rfl, starts, called, rfl⟩ :=
    exists_of_match?_mark '|' rfl (exists_of_call?_mark isMarkRule_unionOp) matched
  have shorter : rest.length ≤ length := by
    simp only [List.length_cons, List.length_append] at bound
    omega
  obtain ⟨phrase, rest', stops, rfl⟩ := reads_operand below shorter starts called
  exact ⟨.bar behind phrase, rest', stops, rfl⟩

theorem reads_expression_step (bound : input.length ≤ length) (starts : StartsWithout isBlank input)
    (matched : grammar.call? false .expression position input = some found) :
    Reads .expression position found := by
  obtain ⟨inner, bodyMatched, rfl⟩ := (call?_node_eq_some_iff rfl).mp matched
  have reads : ∀ left, (Expr.call Rule.optionalExpr).match? isBlank (grammar.call? false) position
      input = some left → Reads .operand position left :=
    fun left called => reads_operand below bound starts called
  obtain ⟨first, rest, right, rfl, stops, many, rfl⟩ := exists_of_match?_phrase reads bodyMatched
  have shorter : rest.length ≤ length := by
    simp only [List.length_append] at bound
    omega
  obtain ⟨others, rest', stops', rfl⟩ :=
    reads_many (fun _ _ _ => reads_bar below) shorter stops many
  exact ⟨.expression first others, rest', stops', rfl⟩

end

theorem readsBelow (length : Nat) : ReadsBelow length := by
  induction length with
  | zero => exact fun _ _ _ short => absurd short (Nat.not_lt_zero _)
  | succ length ih =>
      intro position input found short starts matched
      exact reads_expression_step ih (Nat.le_of_lt_succ short) starts matched

/-- What the expression rule takes is the body of a phrase. -/
theorem reads_expression {position : Nat} {input : List Char} {found : Match Rule}
    (starts : StartsWithout isBlank input)
    (matched : grammar.call? false .expression position input = some found) :
    Reads .expression position found :=
  readsBelow (input.length + 1) position input found (Nat.lt_succ_self _) starts matched

end TypeSpelling.Source
