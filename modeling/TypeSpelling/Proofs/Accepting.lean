import TypeSpelling.Proofs.Reading

/-!
# Accepting phrases

The rule of a phrase takes its body in front of every text that could follow it.
A text that begins with something else might carry the phrase on: a bar carries
on an expression, a question mark an operand and a bracket an atom.  What may
follow is said by its first character alone, so a phrase takes no notice of what
stands further on.
-/

namespace TypeSpelling.Source

open TypeSpelling.Peg
open TypeSpelling.Text

/-! ## What may follow -/

/-- A text begins with a character that passes the test, if with any. -/
def Follows (test : Char → Bool) (rest : List Char) : Prop :=
  ∀ c ∈ rest.head?, test c = true

theorem follows_nil (test : Char → Bool) : Follows test [] := by
  simp [Follows]

@[simp]
theorem follows_cons {test : Char → Bool} {c : Char} {rest : List Char} :
    Follows test (c :: rest) ↔ test c = true := by
  simp [Follows]

theorem Follows.mono {test other : Char → Bool} {rest : List Char} (follows : Follows test rest)
    (passes : ∀ c, test c = true → other c = true) : Follows other rest :=
  fun c head => passes c (follows c head)

theorem Follows.startsWithout {test other : Char → Bool} {rest : List Char}
    (follows : Follows test rest) (apart : ∀ c, test c = true → other c = false) :
    StartsWithout other rest :=
  fun c head => apart c (follows c head)

/-- What may follow an expression. -/
def isCloser (c : Char) : Bool :=
  c = ',' || c = ')' || c = ']' || c = '\x7d' || c = ':'

/-- What may follow an operand of `|`. -/
def endsOperand (c : Char) : Bool :=
  isCloser c || c = '|'

/-- What may follow a primary and the blanks behind it. -/
def endsPrimary (c : Char) : Bool :=
  endsOperand c || c = '?'

/-- What may follow an atom. -/
def endsAtom (c : Char) : Bool :=
  endsPrimary c || c = '[' || isBlank c

/-- What may follow an item of a repetition. -/
def Repetition.endsItem : Repetition → Char → Bool
  | .bar => endsOperand
  | .comma | .entry => isCloser

theorem cases_of_endsPrimary {c : Char} (ends : endsPrimary c = true) :
    c ∈ [',', ')', ']', '\x7d', ':', '|', '?'] := by
  simpa [endsPrimary, endsOperand, isCloser, or_assoc] using ends

theorem endsOperand_of_isCloser (c : Char) (closer : isCloser c = true) : endsOperand c = true := by
  simp [endsOperand, closer]

theorem endsPrimary_of_endsOperand (c : Char) (ends : endsOperand c = true) :
    endsPrimary c = true := by
  simp [endsPrimary, ends]

theorem endsAtom_of_endsPrimary (c : Char) (ends : endsPrimary c = true) : endsAtom c = true := by
  simp [endsAtom, ends]

theorem isBlank_of_endsPrimary (c : Char) (ends : endsPrimary c = true) : isBlank c = false := by
  have nowhere : [',', ')', ']', '\x7d', ':', '|', '?'].any isBlank = false := by decide
  exact Bool.eq_false_iff.mpr (List.any_eq_false.mp nowhere c (cases_of_endsPrimary ends))

theorem carriesOn_of_endsAtom (c : Char) (ends : endsAtom c = true) : carriesOn c = false := by
  have nowhere : [',', ')', ']', '\x7d', ':', '|', '?'].any carriesOn = false := by decide
  simp only [endsAtom, Bool.or_eq_true, decide_eq_true_eq] at ends
  rcases ends with (ends | rfl) | blank
  · exact Bool.eq_false_iff.mpr (List.any_eq_false.mp nowhere c (cases_of_endsPrimary ends))
  · decide
  · simp only [isBlank, Bool.or_eq_true, decide_eq_true_eq] at blank
    rcases blank with ((rfl | rfl) | rfl) | rfl <;> decide

/-! ## How phrases begin -/

/-- The characters that an expression may begin with. -/
def isOpener (c : Char) : Bool :=
  isWordStart c || isDigit c || c ∈ ['-', '.', '"', '\'', '(', '\x7b', '[']

theorem isBlank_of_isOpener {c : Char} (opener : isOpener c = true) : isBlank c = false := by
  have nowhere : [' ', '\t', '\r', '\n'].any isOpener = false := by decide
  cases blank : isBlank c with
  | false => rfl
  | true =>
      have mem : c ∈ [' ', '\t', '\r', '\n'] := by simpa [isBlank, or_assoc] using blank
      exact absurd opener (List.any_eq_false.mp nowhere c mem)

/-- A text begins as an expression may. -/
def Opens (text : List Char) : Prop :=
  ∃ c rest, text = c :: rest ∧ isOpener c = true

theorem Opens.append {text : List Char} (opens : Opens text) (rest : List Char) :
    Opens (text ++ rest) := by
  obtain ⟨c, others, rfl, opener⟩ := opens
  exact ⟨c, others ++ rest, rfl, opener⟩

theorem Opens.startsWithout_blank {text : List Char} (opens : Opens text) :
    StartsWithout isBlank text := by
  obtain ⟨c, others, rfl, opener⟩ := opens
  exact startsWithout_cons.mpr (isBlank_of_isOpener opener)

theorem opens_of_isSegment {text : List Char} (segment : IsSegment text) : Opens text := by
  obtain ⟨c, rest, rfl, starts, -⟩ := segment
  exact ⟨c, rest, rfl, by simp [isOpener, starts]⟩

theorem TokenShape.opens {rule : Rule} {text : List Char} (shape : TokenShape rule text) :
    Opens text := by
  have booleans : ∀ word ∈ wordsOf .boolean, IsSegment word.toList := by decide
  have nulls : ∀ word ∈ wordsOf .null, IsSegment word.toList := by decide
  cases shape with
  | name name =>
      obtain ⟨first, others, rfl, segment, -⟩ := name
      exact (opens_of_isSegment segment).append _
  | string quoted =>
      obtain ⟨mark, contents, rfl | rfl, -, rfl⟩ := quoted
      · exact ⟨_, _, rfl, by decide⟩
      · exact ⟨_, _, rfl, by decide⟩
  | integer integer =>
      obtain ⟨digits, nonempty, areDigits, rfl | rfl⟩ := integer
      · cases text with
        | nil => exact absurd rfl nonempty
        | cons c others =>
            exact ⟨c, others, rfl, by simp [isOpener, areDigits c (List.mem_cons_self ..)]⟩
      · exact ⟨_, _, rfl, by decide⟩
  | boolean mem => exact opens_of_isSegment (booleans _ mem)
  | null mem => exact opens_of_isSegment (nulls _ mem)
  | _ => exact ⟨_, _, rfl, by decide⟩

theorem Keyword.opens (keyword : Keyword) : Opens keyword.text := by
  obtain ⟨c, rest, text, starts⟩ := isWordStart_keyword keyword
  exact ⟨c, rest, text, by simp [isOpener, starts]⟩

theorem Prefixes.opens_append (prefixes : Prefixes) {rest : List Char} (opens : Opens rest) :
    Opens (prefixes.text ++ rest) := by
  cases prefixes with
  | nil => exact opens
  | cons first others =>
      rw [text, List.flatMap_cons, List.append_assoc, List.append_assoc]
      exact first.1.opens.append _

namespace Phrase

theorem opens_atom {word : Bool} (phrase : Phrase (.atom word)) : Opens phrase.text := by
  cases phrase with
  | token own => exact (text_token own).symm ▸ own.shape.opens
  | _ => exact ⟨_, _, rfl, by decide⟩

theorem opens_primary {word : Bool} (phrase : Phrase (.primary word)) : Opens phrase.text := by
  cases phrase with
  | bare atom behind => exact (text_bare atom behind).symm ▸ atom.opens_atom.append _
  | subscripted atom before inside first others behind =>
      exact (text_subscripted atom before inside first others behind).symm ▸
        atom.opens_atom.append _

theorem opens_operand (phrase : Phrase .operand) : Opens phrase.text := by
  cases phrase with
  | operand prefixes apart primary mark =>
      rw [text_operand]
      exact prefixes.opens_append (primary.opens_primary.append _)

theorem opens_expression (phrase : Phrase .expression) : Opens phrase.text := by
  cases phrase with
  | expression first others =>
      exact (text_expression first others).symm ▸ first.opens_operand.append _

end Phrase

/-! ## Marks and keywords -/

theorem call?_mark_append {rule : Rule} {mark : Char} (isMark : IsMarkRule rule mark)
    (rest : List Char) (position : Nat) :
    grammar.call? false rule position (mark :: rest) =
      some ⟨[mark], rest, [markNode rule position mark]⟩ :=
  (call?_mark_eq_some_iff isMark).mpr ⟨rest, rfl, rfl⟩

theorem leadingRule?_keyword (keyword : Keyword) {rest : List Char}
    (stops : StartsWithout isWordChar rest) :
    leadingRule? (keyword.text ++ rest) = some .keyword := by
  have first := keyword.firstWord_append stops
  have segment : IsSegment keyword.firstWord.toList := by
    cases keyword <;> simp only [Keyword.firstWord] <;> decide
  have notBytes : keyword.firstWord.toList ≠ ['b'] := by
    cases keyword <;> simp only [Keyword.firstWord] <;> decide
  have isKeyword : wordRule keyword.firstWord.toList = .keyword := by
    cases keyword <;> simp only [Keyword.firstWord] <;> decide
  rw [leadingRule?_of_segment first segment fun same => absurd same notBytes, isKeyword]

/-- No keyword is taken where an atom begins. -/
theorem call?_prefixOp_eq_none {position : Nat} {input : List Char} {rule : Rule}
    (leads : leadingRule? input = some rule) (mem : rule ∈ atomRules) :
    grammar.call? false .prefixOp position input = none := by
  apply Option.eq_none_iff_forall_ne_some.mpr
  intro found matched
  obtain ⟨keyword, rest, stops, rfl, -⟩ := exists_keyword_of_call? matched
  rw [leadingRule?_keyword keyword stops] at leads
  cases leads
  exact absurd mem (by decide)

theorem Phrase.exists_leadingRule? {word : Bool} (phrase : Phrase (.atom word)) {rest : List Char}
    (follows : Follows endsAtom rest) :
    ∃ rule ∈ atomRules, leadingRule? (phrase.text ++ rest) = some rule := by
  cases phrase with
  | token own =>
      rw [text_token]
      exact ⟨own.rule, own.shape.rule_mem,
        leadingRule?_token own (follows.startsWithout carriesOn_of_endsAtom)⟩
  | parens inside first others closing => exact ⟨.parens, by decide, rfl⟩
  | brackets inside first others => exact ⟨.brackets, by decide, rfl⟩
  | mapping inside key between value others => exact ⟨.braces, by decide, rfl⟩
  | set inside first others => exact ⟨.braces, by decide, rfl⟩

theorem startsWithout_of_beginsWord {text : List Char} (other : beginsWord text = false) :
    StartsWithout isWordChar text := by
  cases text with
  | nil => exact startsWithout_nil _
  | cons c rest => exact startsWithout_cons.mpr other

/-- Keywords that are apart end where their blanks or a further word begin. -/
theorem Prefixes.startsWithout_of_apart {keyword : Keyword} {behind : Blanks}
    {prefixes : Prefixes} {tail : List Char}
    (apart : Prefixes.Apart ((keyword, behind) :: prefixes) (beginsWord tail)) :
    StartsWithout isWordChar (behind.chars ++ (prefixes.text ++ tail)) := by
  by_cases nothing : behind.chars = []
  · cases prefixes with
    | nil =>
        rw [nothing]
        cases begins : beginsWord tail with
        | false => exact startsWithout_of_beginsWord begins
        | true => exact absurd nothing (apart begins)
    | cons second others => exact absurd nothing apart.1
  · exact startsWithout_blanks_append nothing behind.blank _

theorem Prefixes.apart_tail {keyword : Keyword} {behind : Blanks} {prefixes : Prefixes}
    {word : Bool} (apart : Prefixes.Apart ((keyword, behind) :: prefixes) word) :
    prefixes.Apart word := by
  cases prefixes with
  | nil => trivial
  | cons second others => exact apart.2

/-- Keywords in a row are taken where no keyword follows them. -/
theorem exists_repeats_prefixes {tail : List Char} (stops : StartsWithout isBlank tail)
    (fails : ∀ position, grammar.call? false .prefixOp position tail = none)
    (prefixes : Prefixes) :
    ∀ (blanks : Blanks) position, prefixes.Apart (beginsWord tail) →
      ∃ (found : Match Rule) (behind : Blanks),
        Repeats ((Expr.seq .skip (.call Rule.prefixOp)).match? isBlank (grammar.call? false))
          position (blanks.chars ++ (prefixes.text ++ tail)) found ∧
        found.rest = behind.chars ++ tail ∧
        found.text ++ behind.chars = blanks.chars ++ prefixes.text ∧
        found.nodes = prefixes.nodes (position + utf8Length blanks.chars) := by
  induction prefixes with
  | nil =>
      intro blanks position _
      refine ⟨_, blanks, .stop ?_, rfl, (List.append_nil _).symm, rfl⟩
      refine match?_seq_eq_none_iff.mpr fun left skips => ?_
      rw [Prefixes.text, List.flatMap_nil, List.nil_append,
        match?_skip_append blanks.blank stops] at skips
      cases skips
      exact fails _
  | cons first others ih =>
      obtain ⟨keyword, space⟩ := first
      intro blanks position apart
      have called : (Expr.call Rule.prefixOp).match? isBlank (grammar.call? false)
          (position + utf8Length blanks.chars) _ = some _ :=
        call?_prefixOp_append keyword (Prefixes.startsWithout_of_apart apart) _
      have opens : StartsWithout isBlank
          (keyword.text ++ (space.chars ++ (Prefixes.text others ++ tail))) :=
        (keyword.opens.append _).startsWithout_blank
      have step := match?_skip_seq blanks.blank opens called
      obtain ⟨found, behind, repeats, left, taken, nodes⟩ :=
        ih space _ (Prefixes.apart_tail apart)
      have whole : Prefixes.text ((keyword, space) :: others) ++ tail =
          keyword.text ++ (space.chars ++ (Prefixes.text others ++ tail)) := by
        simp [Prefixes.text]
      rw [whole]
      refine ⟨_, behind, .step step repeats, left, ?_, ?_⟩
      · simp [Match.append, taken, Prefixes.text]
      · simp [Match.append, nodes, Prefixes.nodes, Nat.add_assoc]

/-! ## Phrases -/

/-- The matcher takes the body of a phrase in front of every text that begins
with a character that may follow. -/
def TakenBy {category : Category} (matcher : Matcher Rule) (mayFollow : Char → Bool)
    (phrase : Phrase category) : Prop :=
  ∀ position rest, Follows mayFollow rest → matcher position (phrase.text ++ rest) =
    some ⟨phrase.body, phrase.trail ++ rest, phrase.nodes position⟩

/-- The rule of a phrase takes its body.  A list of items is taken behind blanks,
and the blanks stay where the list is empty. -/
def Accepts : {category : Category} → Phrase category → Prop
  | .expression, phrase => TakenBy (grammar.call? false .expression) isCloser phrase
  | .operand, phrase => TakenBy (grammar.call? false .optionalExpr) endsOperand phrase
  | .primary _, phrase => TakenBy (grammar.call? false .subscripted) endsPrimary phrase
  | .atom _, phrase => TakenBy (grammar.call? false .atom) endsAtom phrase
  | .item repetition, phrase =>
      TakenBy (repetition.item.match? isBlank (grammar.call? false)) repetition.endsItem phrase
  | .items repetition, phrase =>
      ∀ rest, Follows repetition.endsItem rest →
        (∀ position, repetition.item.match? isBlank (grammar.call? false) position rest = none) →
        ∀ (blanks : Blanks) position,
          Repeats ((Expr.seq .skip repetition.item).match? isBlank (grammar.call? false)) position
            (blanks.chars ++ (phrase.text ++ rest))
            ⟨if phrase.isNil then [] else blanks.chars ++ phrase.body,
              (if phrase.isNil then blanks.chars else phrase.trail) ++ rest,
              phrase.nodes (position + utf8Length blanks.chars)⟩

theorem endsPrimary_of_endsItem (repetition : Repetition) (c : Char)
    (ends : repetition.endsItem c = true) : endsPrimary c = true := by
  cases repetition with
  | bar => exact endsPrimary_of_endsOperand c ends
  | _ => exact endsPrimary_of_endsOperand c (endsOperand_of_isCloser c ends)

theorem follows_items {repetition : Repetition} (phrase : Phrase (.items repetition))
    {rest : List Char} (follows : Follows repetition.endsItem rest) :
    Follows repetition.endsItem (phrase.text ++ rest) := by
  cases phrase with
  | nil => exact follows
  | cons first others =>
      rw [Phrase.text_cons, List.append_assoc]
      cases first <;> exact follows_cons.mpr (by decide)

theorem startsWithout_blank_of_follows {repetition : Repetition} {rest : List Char}
    (follows : Follows repetition.endsItem rest) : StartsWithout isBlank rest :=
  follows.startsWithout fun c ends =>
    isBlank_of_endsPrimary c (endsPrimary_of_endsItem repetition c ends)

theorem match?_item_eq_none (repetition : Repetition) {mark : Char}
    (begins : ∃ rule, IsMarkRule rule mark ∧ ∃ second others,
      repetition.item = Expr.spaced (.call rule :: second :: others))
    {rest : List Char} (other : StartsWithout (fun c => c = mark) rest) (position : Nat) :
    repetition.item.match? isBlank (grammar.call? false) position rest = none := by
  obtain ⟨rule, isMark, second, others, item⟩ := begins
  rw [item]
  exact match?_spaced_cons_eq_none (call?_mark_eq_none isMark other)

/-- A list of items is taken by its repetition. -/
theorem match?_many_items {repetition : Repetition} {phrase : Phrase (.items repetition)}
    (accepts : Accepts phrase) {rest : List Char} (follows : Follows repetition.endsItem rest)
    (fails : ∀ position,
      repetition.item.match? isBlank (grammar.call? false) position rest = none)
    (position : Nat) :
    (Expr.many repetition.item).match? isBlank (grammar.call? false) position
        (phrase.text ++ rest) =
      some ⟨phrase.body, phrase.trail ++ rest, phrase.nodes position⟩ := by
  have stops := startsWithout_blank_of_follows (follows_items phrase follows)
  have repeats := accepts rest follows fails .none position
  rw [Blanks.none, List.nil_append] at repeats
  rw [match?_many_of_repeats (progress_item repetition) stops repeats]
  cases phrase <;> simp [Phrase.isNil, Phrase.body, Phrase.trail]

theorem accepts_expression {first : Phrase .operand} {others : Phrase (.items .bar)}
    (firstAccepts : Accepts first) (othersAccept : Accepts others) :
    Accepts (.expression first others) := by
  intro position rest follows
  have endsItem : Follows Repetition.bar.endsItem rest := follows.mono endsOperand_of_isCloser
  have noBar : StartsWithout (fun c => c = '|') rest := by
    refine follows.startsWithout fun c closer => decide_eq_false ?_
    rintro rfl
    exact absurd closer (by decide)
  have fails := match?_item_eq_none .bar ⟨_, isMarkRule_unionOp, _, _, rfl⟩ noBar
  have followsFirst := follows_items others endsItem
  have firstTaken := firstAccepts position _ followsFirst
  have othersTaken := match?_many_items othersAccept endsItem fails
    (position + utf8Length first.body + utf8Length first.trail)
  rw [call?_node_eq_some_iff rfl, Phrase.text_expression, List.append_assoc]
  refine ⟨_, match?_spaced_cons firstTaken first.blank_trail
    (startsWithout_blank_of_follows followsFirst) othersTaken, ?_⟩
  simp [Phrase.body, Phrase.trail, Phrase.nodes, Phrase.text, Nat.add_assoc]

/-- Blanks may stand behind an atom. -/
theorem follows_blanks (blanks : Blanks) {rest : List Char} (follows : Follows endsAtom rest) :
    Follows endsAtom (blanks.chars ++ rest) := by
  obtain ⟨chars, blank⟩ := blanks
  cases chars with
  | nil => exact follows
  | cons c others =>
      exact follows_cons.mpr (by simp [endsAtom, blank c (List.mem_cons_self ..)])

theorem Phrase.call?_prefixOp_eq_none {word : Bool} (phrase : Phrase (.primary word))
    {rest : List Char} (follows : Follows endsPrimary rest) (position : Nat) :
    grammar.call? false .prefixOp position (phrase.text ++ rest) = none := by
  cases phrase with
  | bare atom behind =>
      have followsAtom := follows_blanks behind (follows.mono endsAtom_of_endsPrimary)
      obtain ⟨rule, mem, leads⟩ := atom.exists_leadingRule? followsAtom
      rw [text_bare, List.append_assoc]
      exact Source.call?_prefixOp_eq_none leads mem
  | subscripted atom before inside first others behind =>
      have bracket : ∀ rest, Follows endsAtom ('[' :: rest) := fun _ => follows_cons.mpr (by decide)
      obtain ⟨rule, mem, leads⟩ := atom.exists_leadingRule? (follows_blanks before (bracket _))
      rw [text_subscripted, List.append_assoc, List.append_assoc]
      exact Source.call?_prefixOp_eq_none leads mem

/-- Keywords and the primary behind them are taken together. -/
theorem call?_prefixed_append {word : Bool} {prefixes : Prefixes} (apart : prefixes.Apart word)
    {primary : Phrase (.primary word)} (accepts : Accepts primary) {rest : List Char}
    (follows : Follows endsPrimary rest) (position : Nat) :
    grammar.call? false .prefixed position (prefixes.text ++ (primary.text ++ rest)) =
      some ⟨prefixes.text ++ primary.body, primary.trail ++ rest,
        [⟨.prefixed, position, prefixes.text ++ primary.body,
          prefixes.nodes position ++ primary.nodes (position + utf8Length prefixes.text)⟩]⟩ := by
  have opens : Opens (primary.text ++ rest) := primary.opens_primary.append rest
  have stops := opens.startsWithout_blank
  obtain ⟨found, behind, repeats, left, taken, nodes⟩ :=
    exists_repeats_prefixes stops (primary.call?_prefixOp_eq_none follows) prefixes .none
      position (by rwa [Phrase.beginsWord_primary])
  have starts := (prefixes.opens_append opens).startsWithout_blank
  have many := match?_many_of_repeats progress_prefixOp starts repeats
  obtain ⟨text, left', nodes'⟩ := found
  obtain rfl : left' = behind.chars ++ (primary.text ++ rest) := left
  obtain rfl : nodes' = prefixes.nodes position := nodes
  have whole : text ++ behind.chars = prefixes.text := taken
  have primaryTaken := accepts (position + utf8Length text + utf8Length behind.chars) rest follows
  rw [call?_node_eq_some_iff rfl]
  refine ⟨_, match?_spaced_cons many behind.blank stops primaryTaken, ?_⟩
  simp [← whole, Nat.add_assoc]

/-- A question mark behind an operand is taken where there is one. -/
theorem match?_optionalOp (mark : Option Blanks) {rest : List Char}
    (follows : Follows endsOperand rest) (position : Nat) :
    (Expr.optional (.call Rule.optionalOp)).match? isBlank (grammar.call? false) position
        (Phrase.markText mark ++ rest) =
      some ⟨Phrase.questionMark mark, (mark.map Blanks.chars).getD [] ++ rest,
        if mark.isSome then [markNode .optionalOp position '?'] else []⟩ := by
  cases mark with
  | some behind =>
      exact match?_optional_eq_some_iff.mpr (.inl (call?_mark_append isMarkRule_optionalOp _ _))
  | none =>
      have noMark : StartsWithout (fun c => c = '?') rest := by
        refine follows.startsWithout fun c ends => decide_eq_false ?_
        rintro rfl
        exact absurd ends (by decide)
      exact match?_optional_eq_some_iff.mpr
        (.inr ⟨call?_mark_eq_none isMarkRule_optionalOp noMark, rfl⟩)

theorem accepts_operand {word : Bool} {prefixes : Prefixes} {apart : prefixes.Apart word}
    {primary : Phrase (.primary word)} {mark : Option Blanks} (accepts : Accepts primary) :
    Accepts (.operand prefixes apart primary mark) := by
  intro position rest follows
  have followsPrimary : Follows endsPrimary (Phrase.markText mark ++ rest) := by
    cases mark with
    | none => exact follows.mono endsPrimary_of_endsOperand
    | some behind => exact fun c head => by cases head; decide
  have taken := call?_prefixed_append apart accepts followsPrimary position
  have marked := match?_optionalOp mark follows
    (position + utf8Length (prefixes.text ++ primary.body) + utf8Length primary.trail)
  rw [call?_node_eq_some_iff rfl, Phrase.text_operand, List.append_assoc, List.append_assoc]
  refine ⟨_, match?_spaced_cons taken primary.blank_trail
    (followsPrimary.startsWithout isBlank_of_endsPrimary) marked, ?_⟩
  simp [Phrase.body, Phrase.trail, Phrase.nodes, Phrase.text, Nat.add_assoc]

theorem accepts_bare {word : Bool} {atom : Phrase (.atom word)} {behind : Blanks}
    (accepts : Accepts atom) : Accepts (.bare atom behind) := by
  intro position rest follows
  have followsAtom := follows_blanks behind (follows.mono endsAtom_of_endsPrimary)
  have taken := accepts position _ followsAtom
  have noSubscript : ∀ position, grammar.call? false .subscript position rest = none := by
    intro position
    apply Option.eq_none_iff_forall_ne_some.mpr
    intro found matched
    obtain ⟨inside, rfl⟩ := exists_of_call?_bracket rfl rfl matched
    exact absurd (follows_cons.mp follows) (by decide)
  have optional : ∀ position, (Expr.optional (.call Rule.subscript)).match? isBlank
      (grammar.call? false) position rest = some ⟨[], rest, []⟩ := fun position =>
    match?_optional_eq_some_iff.mpr (.inr ⟨noSubscript position, rfl⟩)
  rw [atom.trail_atom, List.nil_append] at taken
  rw [call?_node_eq_some_iff rfl, Phrase.text_bare, List.append_assoc]
  refine ⟨_, match?_spaced_cons taken behind.blank
    (follows.startsWithout isBlank_of_endsPrimary) (optional _), ?_⟩
  simp [Phrase.body, Phrase.trail, Phrase.nodes]

/-- A mark and what is behind it. -/
theorem match?_mark {part second : Expr Rule} {others : List (Expr Rule)} {mark : Char}
    (size : utf8Length [mark] = 1) (behind : Blanks) {rest : List Char} {position : Nat}
    {text left : List Char} {marks nodes : List (Node Rule)}
    (taken : part.match? isBlank (grammar.call? false) position
      (mark :: (behind.chars ++ rest)) = some ⟨[mark], behind.chars ++ rest, marks⟩)
    (stops : StartsWithout isBlank rest)
    (matched : (Expr.spaced (second :: others)).match? isBlank (grammar.call? false)
      (position + 1 + utf8Length behind.chars) rest = some ⟨text, left, nodes⟩) :
    (Expr.spaced (part :: second :: others)).match? isBlank (grammar.call? false) position
        (mark :: (behind.chars ++ rest)) =
      some ⟨mark :: (behind.chars ++ text), left, marks ++ nodes⟩ := by
  rw [← size] at matched
  exact match?_spaced_cons taken behind.blank stops matched

theorem match?_textMark (mark : Char) (rest : List Char) (position : Nat) :
    (Expr.text [mark]).match? isBlank (grammar.call? false) position (mark :: rest) =
      some ⟨[mark], rest, []⟩ :=
  match?_text_append [mark] rest position

theorem match?_callMark {rule : Rule} {mark : Char} (isMark : IsMarkRule rule mark)
    (rest : List Char) (position : Nat) :
    (Expr.call rule).match? isBlank (grammar.call? false) position (mark :: rest) =
      some ⟨[mark], rest, [markNode rule position mark]⟩ :=
  call?_mark_append isMark rest position

/-- A mark that closes a row of parts. -/
theorem match?_closing {rule : Rule} {mark : Char} (isMark : IsMarkRule rule mark)
    (rest : List Char) (position : Nat) :
    (Expr.spaced [.call rule]).match? isBlank (grammar.call? false) position (mark :: rest) =
      some ⟨[mark], rest, [markNode rule position mark]⟩ :=
  call?_mark_append isMark rest position

/-- Expressions with commas between them and what is behind them. -/
theorem match?_expressions {first : Phrase .expression} {others : Phrase (.items .comma)}
    (firstAccepts : Accepts first) (othersAccept : Accepts others) {rest : List Char}
    (follows : Follows isCloser rest)
    (fails : ∀ position,
      Repetition.comma.item.match? isBlank (grammar.call? false) position rest = none)
    {second : Expr Rule} {parts : List (Expr Rule)} {position : Nat} {text left : List Char}
    {nodes : List (Node Rule)}
    (matched : (Expr.spaced (second :: parts)).match? isBlank (grammar.call? false)
      (position + utf8Length first.text + utf8Length others.text) rest =
        some ⟨text, left, nodes⟩) :
    (Expr.spaced (Rule.expressions :: second :: parts)).match? isBlank (grammar.call? false)
        position (first.text ++ (others.text ++ rest)) =
      some ⟨first.text ++ (others.text ++ text), left,
        first.nodes position ++ (others.nodes (position + utf8Length first.text) ++ nodes)⟩ := by
  have endsItem : Follows Repetition.comma.endsItem rest := follows
  have followsFirst := follows_items others endsItem
  have firstTaken : (Expr.call Rule.expression).match? isBlank (grammar.call? false) position
      (first.text ++ (others.text ++ rest)) = some _ := firstAccepts position _ followsFirst
  have othersTaken := match?_many_items othersAccept endsItem fails
    (position + utf8Length first.body + utf8Length first.trail)
  have expressions : Rule.expressions.match? isBlank (grammar.call? false) position
      (first.text ++ (others.text ++ rest)) = some _ :=
    match?_spaced_cons firstTaken first.blank_trail (startsWithout_blank_of_follows followsFirst)
      othersTaken
  have place : position + utf8Length (first.body ++ (first.trail ++ others.body)) +
      utf8Length others.trail = position + utf8Length first.text + utf8Length others.text := by
    simp only [Phrase.text, utf8Length_append]
    omega
  rw [← place] at matched
  have whole := match?_spaced_cons expressions others.blank_trail
    (startsWithout_blank_of_follows endsItem) matched
  rw [whole]
  simp [Phrase.text, Nat.add_assoc]

/-- Where a bracket closes, no comma goes on with a list of expressions. -/
theorem match?_comma_eq_none {close : Char} (other : close ≠ ',') (rest : List Char)
    (position : Nat) :
    Repetition.comma.item.match? isBlank (grammar.call? false) position (close :: rest) = none :=
  match?_item_eq_none .comma ⟨_, isMarkRule_comma, _, _, rfl⟩
    (startsWithout_cons.mpr (decide_eq_false other)) position

theorem call?_subscript_append {first : Phrase .expression} {others : Phrase (.items .comma)}
    (firstAccepts : Accepts first) (othersAccept : Accepts others) (inside : Blanks)
    (rest : List Char) (position : Nat) :
    grammar.call? false .subscript position
        ('[' :: (inside.chars ++ (first.text ++ (others.text ++ ']' :: rest)))) =
      some ⟨'[' :: (inside.chars ++ (first.text ++ (others.text ++ [']']))), rest,
        [⟨.subscript, position, '[' :: (inside.chars ++ (first.text ++ (others.text ++ [']']))),
          first.nodes (position + 1 + utf8Length inside.chars) ++
            (others.nodes (position + 1 + utf8Length inside.chars + utf8Length first.text) ++
              [markNode .rbracket (position + 1 + utf8Length inside.chars +
                utf8Length first.text + utf8Length others.text) ']'])⟩]⟩ := by
  have close := match?_closing isMarkRule_rbracket rest
  have arguments := match?_expressions firstAccepts othersAccept
    (follows_cons.mpr (by decide)) (match?_comma_eq_none (by decide) rest)
    (close (position + 1 + utf8Length inside.chars + utf8Length first.text +
      utf8Length others.text))
  rw [call?_node_eq_some_iff rfl]
  exact ⟨_, match?_mark rfl inside (match?_textMark '[' _ _)
    (first.opens_expression.append _).startsWithout_blank arguments, rfl⟩

theorem accepts_subscripted {word : Bool} {atom : Phrase (.atom word)} {before inside : Blanks}
    {first : Phrase .expression} {others : Phrase (.items .comma)} {behind : Blanks}
    (accepts : Accepts atom) (firstAccepts : Accepts first) (othersAccept : Accepts others) :
    Accepts (.subscripted atom before inside first others behind) := by
  intro position rest follows
  have bracket : ∀ rest, Follows endsAtom ('[' :: rest) := fun _ => follows_cons.mpr (by decide)
  have taken := accepts position _ (follows_blanks before (bracket
    (inside.chars ++ (first.text ++ (others.text ++ ']' :: (behind.chars ++ rest))))))
  rw [atom.trail_atom, List.nil_append] at taken
  have subscript := call?_subscript_append firstAccepts othersAccept inside (behind.chars ++ rest)
    (position + utf8Length atom.body + utf8Length before.chars)
  have optional : (Expr.optional (.call Rule.subscript)).match? isBlank (grammar.call? false)
      (position + utf8Length atom.body + utf8Length before.chars) _ = some _ :=
    match?_optional_eq_some_iff.mpr (.inl subscript)
  have whole : (Phrase.subscripted atom before inside first others behind).text ++ rest =
      atom.text ++ (before.chars ++ '[' :: (inside.chars ++ (first.text ++ (others.text ++
        ']' :: (behind.chars ++ rest))))) := by simp
  rw [call?_node_eq_some_iff rfl, whole]
  refine ⟨_, match?_spaced_cons taken before.blank (startsWithout_cons.mpr (by decide)) optional,
    ?_⟩
  simp [Phrase.body, Phrase.trail, Phrase.nodes, Phrase.text]

theorem accepts_token (own : Token) : Accepts (.token own) := by
  intro position rest follows
  rw [Phrase.text_token]
  exact call?_atom_token own (follows.startsWithout carriesOn_of_endsAtom) position

/-- A bracketed atom is what the rule of its bracket takes. -/
theorem takenBy_atom (rule : Rule) (mem : rule ∈ bracketRules) {phrase : Phrase (.atom false)}
    (leads : ∀ rest, leadingRule? (phrase.text ++ rest) = some rule)
    (called : ∀ position rest, grammar.call? false rule position (phrase.text ++ rest) =
      some ⟨phrase.text, rest, phrase.nodes position⟩) : Accepts phrase := by
  have isAtom : ∀ rule ∈ bracketRules, rule ∈ atomRules := by decide
  intro position rest _
  rw [phrase.trail_atom, phrase.body_atom]
  exact call?_atom_of_call? (isAtom rule mem) (leads rest) (called position rest)

theorem accepts_brackets {inside : Blanks} {first : Phrase .expression}
    {others : Phrase (.items .comma)} (firstAccepts : Accepts first)
    (othersAccept : Accepts others) : Accepts (.brackets inside first others) := by
  apply takenBy_atom .brackets (by decide) (fun _ => rfl)
  intro position rest
  have close := match?_closing isMarkRule_rbracket rest
  have arguments := match?_expressions firstAccepts othersAccept
    (follows_cons.mpr (by decide)) (match?_comma_eq_none (by decide) rest)
    (close (position + 1 + utf8Length inside.chars + utf8Length first.text +
      utf8Length others.text))
  have whole : (Phrase.brackets inside first others).text ++ rest =
      '[' :: (inside.chars ++ (first.text ++ (others.text ++ ']' :: rest))) := by simp
  rw [call?_node_eq_some_iff rfl, whole]
  refine ⟨_, match?_mark rfl inside (match?_textMark '[' _ _)
    (first.opens_expression.append _).startsWithout_blank arguments, ?_⟩
  simp [Phrase.nodes, Phrase.body, Phrase.trail, Phrase.text]

/-- No expression begins with a character that closes one. -/
theorem call?_expression_eq_none {c : Char} (notBlank : isBlank c = false)
    (notOpener : isOpener c = false) (rest : List Char) (position : Nat) :
    grammar.call? false .expression position (c :: rest) = none := by
  apply Option.eq_none_iff_forall_ne_some.mpr
  intro found matched
  have splits := (sound_call? false .expression position _ found matched).1
  obtain ⟨phrase, left, -, rfl⟩ := reads_expression (startsWithout_cons.mpr notBlank) matched
  obtain ⟨d, others, opens, opener⟩ := phrase.opens_expression.append left
  have whole : phrase.text ++ left = c :: rest := by
    rw [Phrase.text, List.append_assoc]
    exact splits
  rw [whole] at opens
  cases opens
  rw [notOpener] at opener
  cases opener

/-- The comma behind the last expression in parentheses is not one in front of a
further expression. -/
theorem match?_comma_closing_eq_none (closing : Option Blanks) (rest : List Char)
    (position : Nat) :
    Repetition.comma.item.match? isBlank (grammar.call? false) position
      (Phrase.closingComma closing ++ ')' :: rest) = none := by
  cases closing with
  | none => exact match?_comma_eq_none (by decide) rest position
  | some behind =>
      apply Option.eq_none_iff_forall_ne_some.mpr
      intro found matched
      obtain ⟨left, right, comma, expression, -⟩ := match?_spaced_cons_eq_some_iff.mp matched
      obtain ⟨rest', same, rfl⟩ := (call?_mark_eq_some_iff isMarkRule_comma).mp comma
      obtain rfl : behind.chars ++ ')' :: rest = rest' := (List.cons.inj same).2
      have stops : StartsWithout isBlank (')' :: rest) := startsWithout_cons.mpr (by decide)
      simp only [takeWhile_append_eq behind.blank stops, dropWhile_append_eq behind.blank stops]
        at expression
      cases expression.symm.trans (call?_expression_eq_none (by decide) (by decide) rest _)

theorem match?_closingComma (closing : Option Blanks) (rest : List Char) (position : Nat) :
    (Expr.spaced [.optional (.call Rule.comma), .call .rparen]).match? isBlank
        (grammar.call? false) position (Phrase.closingComma closing ++ ')' :: rest) =
      some ⟨Phrase.closingComma closing ++ [')'], rest,
        (if closing.isSome then [markNode .comma position ','] else []) ++
          [markNode .rparen (position + utf8Length (Phrase.closingComma closing)) ')']⟩ := by
  have stops : StartsWithout isBlank (')' :: rest) := startsWithout_cons.mpr (by decide)
  cases closing with
  | none =>
      have noComma : (Expr.optional (.call Rule.comma)).match? isBlank (grammar.call? false)
          position (')' :: rest) = some ⟨[], [] ++ ')' :: rest, []⟩ :=
        match?_optional_eq_some_iff.mpr (.inr ⟨call?_mark_eq_none isMarkRule_comma
          (startsWithout_cons.mpr (by decide)), rfl⟩)
      exact match?_spaced_cons noComma (by simp) stops (match?_closing isMarkRule_rparen rest _)
  | some behind =>
      have comma : (Expr.optional (.call Rule.comma)).match? isBlank (grammar.call? false)
          position (',' :: (behind.chars ++ ')' :: rest)) = some _ :=
        match?_optional_eq_some_iff.mpr (.inl (call?_mark_append isMarkRule_comma _ position))
      have size : Char.utf8Size ',' = 1 := rfl
      have whole := match?_mark rfl behind comma stops (match?_closing isMarkRule_rparen rest _)
      simpa [Phrase.closingComma, size, Nat.add_assoc] using whole

theorem accepts_parens {inside : Blanks} {first : Phrase .expression}
    {others : Phrase (.items .comma)} {closing : Option Blanks} (firstAccepts : Accepts first)
    (othersAccept : Accepts others) : Accepts (.parens inside first others closing) := by
  apply takenBy_atom .parens (by decide) (fun _ => rfl)
  intro position rest
  have follows : Follows isCloser (Phrase.closingComma closing ++ ')' :: rest) := by
    cases closing <;> exact follows_cons.mpr (by decide)
  have arguments := match?_expressions firstAccepts othersAccept follows
    (match?_comma_closing_eq_none closing rest) (match?_closingComma closing rest
      (position + 1 + utf8Length inside.chars + utf8Length first.text + utf8Length others.text))
  have whole : (Phrase.parens inside first others closing).text ++ rest =
      '(' :: (inside.chars ++ (first.text ++ (others.text ++
        (Phrase.closingComma closing ++ ')' :: rest)))) := by simp
  rw [call?_node_eq_some_iff rfl, whole]
  refine ⟨_, match?_mark rfl inside (match?_textMark '(' _ _)
    (first.opens_expression.append _).startsWithout_blank arguments, ?_⟩
  simp [Phrase.nodes, Phrase.body, Phrase.trail, Phrase.text]

theorem accepts_bar {behind : Blanks} {next : Phrase .operand} (accepts : Accepts next) :
    Accepts (.bar behind next) := by
  intro position rest follows
  have taken : (Expr.spaced [.call Rule.optionalExpr]).match? isBlank (grammar.call? false)
      (position + 1 + utf8Length behind.chars) (next.text ++ rest) = some _ :=
    accepts _ rest follows
  rw [Phrase.text_bar, List.cons_append, List.append_assoc]
  exact match?_mark rfl behind (match?_callMark isMarkRule_unionOp _ _)
    (next.opens_operand.append _).startsWithout_blank taken

theorem accepts_comma {behind : Blanks} {next : Phrase .expression} (accepts : Accepts next) :
    Accepts (.comma behind next) := by
  intro position rest follows
  have taken : (Expr.spaced [.call Rule.expression]).match? isBlank (grammar.call? false)
      (position + 1 + utf8Length behind.chars) (next.text ++ rest) = some _ :=
    accepts _ rest follows
  rw [Phrase.text_comma, List.cons_append, List.append_assoc]
  exact match?_mark rfl behind (match?_callMark isMarkRule_comma _ _)
    (next.opens_expression.append _).startsWithout_blank taken

/-- An expression, the blanks behind it and what is behind them. -/
theorem match?_expression {phrase : Phrase .expression} (accepts : Accepts phrase)
    {rest : List Char} (follows : Follows isCloser rest) {second : Expr Rule}
    {others : List (Expr Rule)} {position : Nat} {text left : List Char}
    {nodes : List (Node Rule)}
    (matched : (Expr.spaced (second :: others)).match? isBlank (grammar.call? false)
      (position + utf8Length phrase.text) rest = some ⟨text, left, nodes⟩) :
    (Expr.spaced (.call .expression :: second :: others)).match? isBlank (grammar.call? false)
        position (phrase.text ++ rest) =
      some ⟨phrase.text ++ text, left, phrase.nodes position ++ nodes⟩ := by
  have taken : (Expr.call Rule.expression).match? isBlank (grammar.call? false) position
      (phrase.text ++ rest) = some _ := accepts position rest follows
  have endsItem : Follows Repetition.comma.endsItem rest := follows
  rw [Phrase.text, utf8Length_append, ← Nat.add_assoc] at matched
  rw [match?_spaced_cons taken phrase.blank_trail (startsWithout_blank_of_follows endsItem)
    matched, Phrase.text, List.append_assoc]

theorem accepts_entry {behind : Blanks} {key : Phrase .expression} {between : Blanks}
    {value : Phrase .expression} (keyAccepts : Accepts key) (valueAccepts : Accepts value) :
    Accepts (.entry behind key between value) := by
  intro position rest follows
  have taken : (Expr.spaced [.call Rule.expression]).match? isBlank (grammar.call? false)
      (position + 1 + utf8Length behind.chars + utf8Length key.text + 1 +
        utf8Length between.chars) (value.text ++ rest) = some _ :=
    valueAccepts _ rest follows
  have afterKey := match?_mark rfl between (match?_callMark isMarkRule_colon _ _)
    (value.opens_expression.append _).startsWithout_blank taken
  have afterComma := match?_expression keyAccepts (follows_cons.mpr (by decide)) afterKey
  have whole := match?_mark rfl behind (match?_callMark isMarkRule_comma _ _)
    (key.opens_expression.append _).startsWithout_blank afterComma
  have text : (Phrase.entry behind key between value).text ++ rest =
      ',' :: (behind.chars ++ (key.text ++ ':' :: (between.chars ++ (value.text ++ rest)))) := by
    simp
  rw [text]
  apply whole.trans
  simp [Phrase.body, Phrase.trail, Phrase.nodes, Phrase.text]

theorem accepts_nil (repetition : Repetition) :
    Accepts (.nil : Phrase (.items repetition)) := by
  intro rest follows fails blanks position
  refine .stop (match?_seq_eq_none_iff.mpr fun left skips => ?_)
  rw [Phrase.text_nil, List.nil_append,
    match?_skip_append blanks.blank (startsWithout_blank_of_follows follows)] at skips
  cases skips
  exact fails _

theorem opens_item {repetition : Repetition} (phrase : Phrase (.item repetition))
    (rest : List Char) : StartsWithout isBlank (phrase.text ++ rest) := by
  cases phrase <;> exact startsWithout_cons.mpr (by decide)

theorem accepts_cons {repetition : Repetition} {first : Phrase (.item repetition)}
    {others : Phrase (.items repetition)} (firstAccepts : Accepts first)
    (othersAccept : Accepts others) : Accepts (.cons first others) := by
  intro rest follows fails blanks position
  have taken := firstAccepts (position + utf8Length blanks.chars) (others.text ++ rest)
    (follows_items others follows)
  have step := match?_skip_seq blanks.blank (opens_item first _) taken
  have repeats := othersAccept rest follows fails ⟨first.trail, first.blank_trail⟩
    (position + utf8Length (blanks.chars ++ first.body))
  have whole := Repeats.step step repeats
  rw [Phrase.text_cons, List.append_assoc]
  simpa [Match.append, Phrase.isNil, Phrase.body, Phrase.trail, Phrase.nodes, Phrase.text,
    Nat.add_assoc] using whole

/-- What is behind the first key of a mapping. -/
theorem call?_mappingRest_append {value : Phrase .expression} {others : Phrase (.items .entry)}
    (valueAccepts : Accepts value) (othersAccept : Accepts others) (between : Blanks)
    (rest : List Char) (position : Nat) :
    grammar.call? false .mappingRest position
        (':' :: (between.chars ++ (value.text ++ (others.text ++ '\x7d' :: rest)))) =
      some ⟨':' :: (between.chars ++ (value.body ++ (value.trail ++ others.body))),
        others.trail ++ '\x7d' :: rest,
        [⟨.mappingRest, position,
          ':' :: (between.chars ++ (value.body ++ (value.trail ++ others.body))),
          markNode .colon position ':' ::
            (value.nodes (position + 1 + utf8Length between.chars) ++
              others.nodes (position + 1 + utf8Length between.chars +
                utf8Length value.text))⟩]⟩ := by
  have endsItem : Follows Repetition.entry.endsItem ('\x7d' :: rest) :=
    follows_cons.mpr (by decide)
  have fails := match?_item_eq_none .entry ⟨_, isMarkRule_comma, _, _, rfl⟩
    (startsWithout_cons.mpr (by decide) : StartsWithout (fun c => c = ',') ('\x7d' :: rest))
  have followsValue := follows_items others endsItem
  have othersTaken : (Expr.spaced [.many Repetition.entry.item]).match? isBlank
      (grammar.call? false) (position + 1 + utf8Length between.chars + utf8Length value.text)
      (others.text ++ '\x7d' :: rest) = some _ :=
    match?_many_items othersAccept endsItem fails _
  have afterColon := match?_expression valueAccepts followsValue othersTaken
  rw [call?_node_eq_some_iff rfl]
  refine ⟨_, match?_mark rfl between (match?_callMark isMarkRule_colon _ _)
    (value.opens_expression.append _).startsWithout_blank afterColon, ?_⟩
  simp [Phrase.text]

theorem accepts_mapping {inside : Blanks} {key : Phrase .expression} {between : Blanks}
    {value : Phrase .expression} {others : Phrase (.items .entry)} (keyAccepts : Accepts key)
    (valueAccepts : Accepts value) (othersAccept : Accepts others) :
    Accepts (.mapping inside key between value others) := by
  apply takenBy_atom .braces (by decide) (fun _ => rfl)
  intro position rest
  have choice : (Expr.choice (.call Rule.mappingRest) (.call .setRest)).match? isBlank
      (grammar.call? false) (position + 1 + utf8Length inside.chars + utf8Length key.text) _ =
        some _ :=
    match?_choice_eq_some_iff.mpr
      (.inl (call?_mappingRest_append valueAccepts othersAccept between rest _))
  have afterKey := match?_spaced_cons choice others.blank_trail
    (startsWithout_cons.mpr (by decide)) (match?_closing isMarkRule_rbrace rest _)
  have inBraces := match?_expression keyAccepts (follows_cons.mpr (by decide)) afterKey
  have whole : (Phrase.mapping inside key between value others).text ++ rest =
      '\x7b' :: (inside.chars ++ (key.text ++ ':' :: (between.chars ++ (value.text ++
        (others.text ++ '\x7d' :: rest))))) := by simp
  have size : Char.utf8Size ':' = 1 := rfl
  rw [call?_node_eq_some_iff rfl, whole]
  refine ⟨_, match?_mark rfl inside (match?_textMark '\x7b' _ _)
    (key.opens_expression.append _).startsWithout_blank inBraces, ?_⟩
  simp [Phrase.nodes, Phrase.body, Phrase.trail, Phrase.text, size, Nat.add_assoc]

theorem accepts_set {inside : Blanks} {first : Phrase .expression}
    {others : Phrase (.items .comma)} (firstAccepts : Accepts first)
    (othersAccept : Accepts others) : Accepts (.set inside first others) := by
  apply takenBy_atom .braces (by decide) (fun _ => rfl)
  intro position rest
  have endsItem : Follows Repetition.comma.endsItem ('\x7d' :: rest) :=
    follows_cons.mpr (by decide)
  have followsFirst := follows_items others endsItem
  have noColon : StartsWithout (fun c => c = ':') (others.text ++ '\x7d' :: rest) := by
    cases others with
    | nil => exact startsWithout_cons.mpr (by decide)
    | cons second others =>
        rw [Phrase.text_cons]
        cases second
        exact startsWithout_cons.mpr (by decide)
  have noMapping : ∀ position, grammar.call? false .mappingRest position
      (others.text ++ '\x7d' :: rest) = none := by
    intro position
    apply Option.eq_none_iff_forall_ne_some.mpr
    intro found matched
    obtain ⟨inner, bodyMatched, -⟩ := (call?_node_eq_some_iff rfl).mp matched
    obtain ⟨_, _, colon, -⟩ := match?_spaced_cons_eq_some_iff.mp bodyMatched
    cases colon.symm.trans (call?_mark_eq_none isMarkRule_colon noColon)
  have choice : (Expr.choice (.call Rule.mappingRest) (.call .setRest)).match? isBlank
      (grammar.call? false) (position + 1 + utf8Length inside.chars + utf8Length first.text) _ =
        some _ :=
    match?_choice_eq_some_iff.mpr (.inr ⟨noMapping _, (call?_node_eq_some_iff rfl).mpr
      ⟨_, match?_many_items othersAccept endsItem (match?_comma_eq_none (by decide) rest) _, rfl⟩⟩)
  have afterFirst := match?_spaced_cons choice others.blank_trail
    (startsWithout_cons.mpr (by decide)) (match?_closing isMarkRule_rbrace rest _)
  have inBraces := match?_expression firstAccepts followsFirst afterFirst
  have whole : (Phrase.set inside first others).text ++ rest =
      '\x7b' :: (inside.chars ++ (first.text ++ (others.text ++ '\x7d' :: rest))) := by simp
  rw [call?_node_eq_some_iff rfl, whole]
  refine ⟨_, match?_mark rfl inside (match?_textMark '\x7b' _ _)
    (first.opens_expression.append _).startsWithout_blank inBraces, ?_⟩
  simp [Phrase.nodes, Phrase.body, Phrase.trail, Phrase.text, Nat.add_assoc]

/-- Every phrase is accepted: its rule takes its body and makes its nodes. -/
theorem accepts {category : Category} (phrase : Phrase category) : Accepts phrase := by
  induction phrase with
  | expression first others firstIh othersIh => exact accepts_expression firstIh othersIh
  | operand prefixes apart primary mark ih => exact accepts_operand ih
  | bare atom behind ih => exact accepts_bare ih
  | subscripted atom before inside first others behind ih firstIh othersIh =>
      exact accepts_subscripted ih firstIh othersIh
  | token own => exact accepts_token own
  | parens inside first others closing firstIh othersIh => exact accepts_parens firstIh othersIh
  | mapping inside key between value others keyIh valueIh othersIh =>
      exact accepts_mapping keyIh valueIh othersIh
  | set inside first others firstIh othersIh => exact accepts_set firstIh othersIh
  | brackets inside first others firstIh othersIh => exact accepts_brackets firstIh othersIh
  | bar behind next ih => exact accepts_bar ih
  | comma behind next ih => exact accepts_comma ih
  | entry behind key between value keyIh valueIh => exact accepts_entry keyIh valueIh
  | nil => exact accepts_nil _
  | cons first others firstIh othersIh => exact accepts_cons firstIh othersIh

end TypeSpelling.Source
