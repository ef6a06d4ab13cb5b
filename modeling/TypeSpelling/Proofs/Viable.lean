import TypeSpelling.Proofs.Parsing
import TypeSpelling.Proofs.Tracking

/-!
# Texts that can be completed

A text begins a phrase of a category if it is an initial part of one.  Wherever a
rule of the grammar is tried, what stands before the place begins a phrase, so
nothing before the position that a syntax error names is at fault.

The statement for a rule follows the parts of its body, with the statement for
expressions in all shorter texts, as in the reading of phrases.  What is missing
is put in as an ellipsis, which may stand directly behind a keyword.
-/

namespace TypeSpelling.Source

open TypeSpelling.Peg
open TypeSpelling.Text

/-! ## What is put in -/

namespace Phrase

def missingPrimary : Phrase (.primary false) :=
  .bare (.token ⟨.ellipsis, "...".toList, .ellipsis⟩) .none

def missingOperand : Phrase .operand :=
  .operand [] trivial missingPrimary none

def missingExpression : Phrase .expression :=
  .expression missingOperand .nil

end Phrase

open Phrase

/-! ## Beginnings of phrases -/

/-- An initial part of a phrase of a category. -/
def Begins (category : Category) (taken : List Char) : Prop :=
  ∃ phrase : Phrase category, taken <+: phrase.text

/-- An initial part of an atom. -/
def BeginsAtom (taken : List Char) : Prop :=
  ∃ word, Begins (.atom word) taken

/-- An initial part of an atom with or without a subscript. -/
def BeginsPrimary (taken : List Char) : Prop :=
  ∃ word, Begins (.primary word) taken

/-- An initial part of expressions with commas between them. -/
def BeginsList (taken : List Char) : Prop :=
  ∃ (first : Phrase .expression) (others : Phrase (.items .comma)),
    taken <+: first.text ++ others.text

section

variable {category : Category} {repetition : Repetition} {taken : List Char}

theorem begins_text (phrase : Phrase category) : Begins category phrase.text :=
  ⟨phrase, List.prefix_rfl⟩

theorem begins_nil (phrase : Phrase category) : Begins category [] :=
  ⟨phrase, List.nil_prefix⟩

theorem begins_expression (begins : Begins .operand taken) : Begins .expression taken := by
  obtain ⟨first, initial⟩ := begins
  exact ⟨.expression first .nil, by simpa using initial⟩

theorem begins_expression_append (first : Phrase .operand) (begins : Begins (.items .bar) taken) :
    Begins .expression (first.text ++ taken) := by
  obtain ⟨others, initial⟩ := begins
  exact ⟨.expression first others, by simpa using initial⟩

theorem begins_items (begins : Begins (.item repetition) taken) :
    Begins (.items repetition) taken := by
  obtain ⟨first, initial⟩ := begins
  exact ⟨.cons first .nil, by simpa using initial⟩

theorem begins_items_append (first : Phrase (.item repetition))
    (begins : Begins (.items repetition) taken) :
    Begins (.items repetition) (first.text ++ taken) := by
  obtain ⟨others, initial⟩ := begins
  exact ⟨.cons first others, by simpa using initial⟩

theorem begins_bar (behind : Blanks) (begins : Begins .operand taken) :
    Begins (.item .bar) ('|' :: (behind.chars ++ taken)) := by
  obtain ⟨next, initial⟩ := begins
  exact ⟨.bar behind next, by simpa using initial⟩

theorem begins_comma (behind : Blanks) (begins : Begins .expression taken) :
    Begins (.item .comma) (',' :: (behind.chars ++ taken)) := by
  obtain ⟨next, initial⟩ := begins
  exact ⟨.comma behind next, by simpa using initial⟩

theorem begins_entry (behind : Blanks) (begins : Begins .expression taken) :
    Begins (.item .entry) (',' :: (behind.chars ++ taken)) := by
  obtain ⟨key, initial⟩ := begins
  exact ⟨.entry behind key .none missingExpression,
    by simpa using initial.trans (List.prefix_append _ _)⟩

theorem begins_entry_append (behind : Blanks) (key : Phrase .expression) (between : Blanks)
    (begins : Begins .expression taken) :
    Begins (.item .entry)
      (',' :: (behind.chars ++ (key.text ++ ':' :: (between.chars ++ taken)))) := by
  obtain ⟨value, initial⟩ := begins
  exact ⟨.entry behind key between value, by simpa using initial⟩

theorem beginsList (begins : Begins .expression taken) : BeginsList taken := by
  obtain ⟨first, initial⟩ := begins
  exact ⟨first, .nil, by simpa using initial⟩

theorem beginsList_append (first : Phrase .expression) (begins : Begins (.items .comma) taken) :
    BeginsList (first.text ++ taken) := by
  obtain ⟨others, initial⟩ := begins
  exact ⟨first, others, by simpa using initial⟩

theorem beginsAtom_parens (inside : Blanks) (begins : BeginsList taken) :
    BeginsAtom ('(' :: (inside.chars ++ taken)) := by
  obtain ⟨first, others, initial⟩ := begins
  refine ⟨false, .parens inside first others none, ?_⟩
  simpa [closingComma] using initial.trans (List.prefix_append _ [')'])

/-- In parentheses a comma may stand behind the last expression. -/
theorem beginsAtom_parens_comma (inside : Blanks) (first : Phrase .expression)
    (others : Phrase (.items .comma)) (behind : Blanks) :
    BeginsAtom ('(' :: (inside.chars ++ (first.text ++ (others.text ++ ',' :: behind.chars)))) :=
  ⟨false, .parens inside first others (some behind), by simp [closingComma]⟩

theorem beginsAtom_brackets (inside : Blanks) (begins : BeginsList taken) :
    BeginsAtom ('[' :: (inside.chars ++ taken)) := by
  obtain ⟨first, others, initial⟩ := begins
  refine ⟨false, .brackets inside first others, ?_⟩
  simpa using initial.trans (List.prefix_append _ [']'])

theorem beginsAtom_set (inside : Blanks) (begins : BeginsList taken) :
    BeginsAtom ('\x7b' :: (inside.chars ++ taken)) := by
  obtain ⟨first, others, initial⟩ := begins
  refine ⟨false, .set inside first others, ?_⟩
  simpa using initial.trans (List.prefix_append _ ['\x7d'])

theorem beginsAtom_mapping (inside : Blanks) (key : Phrase .expression) (between : Blanks)
    (begins : Begins .expression taken) :
    BeginsAtom ('\x7b' :: (inside.chars ++ (key.text ++ ':' :: (between.chars ++ taken)))) := by
  obtain ⟨value, initial⟩ := begins
  refine ⟨false, .mapping inside key between value .nil, ?_⟩
  simpa using initial.trans (List.prefix_append _ ['\x7d'])

theorem beginsAtom_mapping_append (inside : Blanks) (key : Phrase .expression) (between : Blanks)
    (value : Phrase .expression) (begins : Begins (.items .entry) taken) :
    BeginsAtom ('\x7b' :: (inside.chars ++ (key.text ++ ':' :: (between.chars ++
      (value.text ++ taken))))) := by
  obtain ⟨others, initial⟩ := begins
  refine ⟨false, .mapping inside key between value others, ?_⟩
  simpa using initial.trans (List.prefix_append _ ['\x7d'])

theorem beginsPrimary (begins : BeginsAtom taken) : BeginsPrimary taken := by
  obtain ⟨word, atom, initial⟩ := begins
  exact ⟨word, .bare atom .none, by simpa [Blanks.none] using initial⟩

theorem beginsPrimary_subscript {word : Bool} (atom : Phrase (.atom word)) (before inside : Blanks)
    (begins : BeginsList taken) :
    BeginsPrimary (atom.text ++ (before.chars ++ '[' :: (inside.chars ++ taken))) := by
  obtain ⟨first, others, initial⟩ := begins
  refine ⟨word, .subscripted atom before inside first others .none, ?_⟩
  simpa [Blanks.none] using initial.trans (List.prefix_append _ [']'])

theorem startsWithout_of_append {test : Char → Bool} {left right : List Char}
    (stops : StartsWithout test (left ++ right)) : StartsWithout test left := by
  cases left with
  | nil => exact startsWithout_nil test
  | cons c others => exact startsWithout_cons.mpr (startsWithout_cons.mp stops)

/-- An operand may follow a keyword that no word character touches. -/
theorem begins_operand_keyword (keyword : Keyword) (behind : Blanks)
    (stops : StartsWithout isWordChar (behind.chars ++ taken)) (begins : Begins .operand taken) :
    Begins .operand (keyword.text ++ (behind.chars ++ taken)) := by
  obtain ⟨phrase, more, whole⟩ := begins
  cases behindText : behind.chars ++ taken with
  | nil =>
      have apart : Prefixes.Apart [(keyword, Blanks.none)] false := fun follows => by cases follows
      exact ⟨.operand [(keyword, .none)] apart missingPrimary none, by simp [Prefixes.text]⟩
  | cons c others =>
      cases phrase with
      | @operand word prefixes apart primary mark =>
          have follows := primary.beginsWord_primary (markText mark)
          have text : behind.chars ++ (prefixes.text ++ (primary.text ++ markText mark)) =
              c :: (others ++ more) := by
            rw [← text_operand prefixes apart, ← whole, ← List.append_assoc, behindText,
              List.cons_append]
          have apart' : Prefixes.Apart ((keyword, behind) :: prefixes) word := by
            rw [← follows] at apart ⊢
            refine Prefixes.apart_cons ?_ apart
            rw [behindText] at stops
            rw [text]
            exact startsWithout_cons.mpr (startsWithout_cons.mp stops)
          refine ⟨.operand ((keyword, behind) :: prefixes) apart' primary mark, more, ?_⟩
          rw [text_operand, Prefixes.text, List.flatMap_cons, List.append_assoc]
          simp [← text, Prefixes.text]

/-- Keywords that no word follows may have anything else behind them. -/
theorem Prefixes.Apart.weaken {prefixes : Prefixes} {wordFollows : Bool}
    (apart : prefixes.Apart wordFollows) : prefixes.Apart false := by
  induction prefixes with
  | nil => trivial
  | cons first others ih =>
      cases others with
      | nil => exact fun follows => by cases follows
      | cons second others => exact ⟨apart.1, ih apart.2⟩

/-- A primary may follow keywords that are apart from it. -/
theorem begins_operand_prefixes {prefixes : Prefixes} {more : List Char}
    (apart : prefixes.Apart (beginsWord (taken ++ more))) (begins : BeginsPrimary taken) :
    Begins .operand (prefixes.text ++ taken) := by
  cases taken with
  | nil => exact ⟨.operand prefixes apart.weaken missingPrimary none, by simp⟩
  | cons c others =>
      obtain ⟨word, primary, rest, whole⟩ := begins
      have follows := primary.beginsWord_primary []
      rw [List.append_nil, ← whole] at follows
      refine ⟨.operand prefixes (follows ▸ apart) primary none, rest, ?_⟩
      rw [text_operand, ← whole]
      simp [markText]

/-- The second word of a double keyword may follow the first. -/
theorem begins_operand_async (behind : Blanks) :
    Begins .operand ("async".toList ++ behind.chars) := by
  have apart : ∀ keyword, Prefixes.Apart [(keyword, Blanks.none)] false :=
    fun keyword follows => by cases follows
  by_cases nothing : behind.chars = []
  · have spaced : Blanks.space.chars ≠ [] := List.cons_ne_nil _ _
    refine ⟨.operand [(.asyncIter .space spaced, .none)] (apart _) missingPrimary none, ?_⟩
    simp [Prefixes.text, nothing]
  · refine ⟨.operand [(.asyncIter behind nothing, .none)] (apart _) missingPrimary none, ?_⟩
    simp [Prefixes.text]

end

/-! ## Parts in a row -/

section

variable {reached : List Char → Prop} {part second : Expr Rule} {others : List (Expr Rule)}
  {input : List Char}

/-- A match and what is left behind blanks are no longer than the input. -/
theorem length_add_le_of_match? {position : Nat} {left : Match Rule} {blanks rest : List Char}
    (matched : part.match? isBlank (grammar.call? false) position input = some left)
    (whole : left.rest = blanks ++ rest) : left.text.length + rest.length ≤ input.length := by
  have lengths := congrArg List.length (splits_of_match? matched)
  simp only [whole, List.length_append] at lengths
  omega

/-- Parts are tried behind the first of them and its blanks. -/
theorem tries_spaced (head : Tries reached (grammar.trackExpr part) input)
    (tail : ∀ position left (behind : Blanks) rest,
      part.match? isBlank (grammar.call? false) position input = some left →
        left.rest = behind.chars ++ rest → StartsWithout isBlank rest →
          Tries (fun taken => reached (left.text ++ (behind.chars ++ taken)))
            (grammar.trackExpr (Expr.spaced (second :: others))) rest) :
    Tries reached (grammar.trackExpr (Expr.spaced (part :: second :: others))) input := by
  refine Tries.spaced ranking head fun position left matched => ?_
  let behind : Blanks := ⟨left.rest.takeWhile isBlank, List.all_eq_true.mp List.all_takeWhile⟩
  exact tail position left behind (left.rest.dropWhile isBlank) matched
    List.takeWhile_append_dropWhile.symm (startsWithout_dropWhile isBlank left.rest)

/-- A rule that is tried as a whole is tried where it stands. -/
theorem tries_leaf {rule : Rule} (here : reached [])
    (leaf : rule.kind ≠ .token → ∃ expected, rule.body = .text expected) :
    Tries reached (grammar.trackExpr (.call rule)) input := by
  refine Tries.call ranking here fun notToken => ?_
  obtain ⟨expected, body⟩ := leaf notToken
  change Tries reached (grammar.trackExpr rule.body) input
  rw [body]
  exact .of_snd_eq fun _ _ => rfl

theorem tries_text (mark : Char) :
    Tries reached (grammar.trackExpr (.text [mark] : Expr Rule)) input :=
  .of_snd_eq fun _ _ => rfl

/-- Parts behind a punctuation mark. -/
theorem tries_mark {mark : Char} {nodes : Nat → List (Node Rule)}
    (head : Tries reached (grammar.trackExpr part) input)
    (marks : ∀ position left, part.match? isBlank (grammar.call? false) position input =
      some left → ∃ rest, left = ⟨[mark], rest, nodes position⟩)
    (tail : ∀ (behind : Blanks) rest, rest.length < input.length → StartsWithout isBlank rest →
      Tries (fun taken => reached (mark :: (behind.chars ++ taken)))
        (grammar.trackExpr (Expr.spaced (second :: others))) rest) :
    Tries reached (grammar.trackExpr (Expr.spaced (part :: second :: others))) input := by
  refine tries_spaced head fun position left behind rest matched whole stops => ?_
  have lengths := length_add_le_of_match? matched whole
  obtain ⟨after, rfl⟩ := marks position left matched
  rw [List.length_singleton, Nat.add_comm] at lengths
  exact tail behind rest lengths stops

/-- Parts behind a phrase. -/
theorem tries_phrase {category : Category} (head : Tries reached (grammar.trackExpr part) input)
    (reads : ∀ position left, part.match? isBlank (grammar.call? false) position input =
      some left → Reads category position left)
    (tail : ∀ (phrase : Phrase category) rest, rest.length ≤ input.length →
      StartsWithout isBlank rest → Tries (fun taken => reached (phrase.text ++ taken))
        (grammar.trackExpr (Expr.spaced (second :: others))) rest) :
    Tries reached (grammar.trackExpr (Expr.spaced (part :: second :: others))) input := by
  refine tries_spaced head fun position left behind rest matched whole stops => ?_
  have shorter : rest.length ≤ input.length :=
    Nat.le_trans (Nat.le_add_left _ _) (length_add_le_of_match? matched whole)
  obtain ⟨phrase, rest', stops', rfl⟩ := reads position left matched
  obtain ⟨trail, rfl⟩ := append_inj_of_startsWithout phrase.blank_trail stops' behind.blank stops
    whole
  refine (tail phrase _ shorter stops).mono fun taken _ _ reaches => ?_
  rwa [Phrase.text, trail, List.append_assoc] at reaches

/-- A repetition tries its item behind occurrences of it, as long as these and what
is tried make up what is to be reached. -/
theorem tries_many {item : Expr Rule} {length : Nat}
    (tries : ∀ input : List Char, input.length ≤ length → StartsWithout isBlank input →
      Tries reached (grammar.trackExpr item) input)
    (next : ∀ position input left (behind : Blanks) rest taken more,
      item.match? isBlank (grammar.call? false) position input = some left →
        left.rest = behind.chars ++ rest → StartsWithout isBlank rest → rest = taken ++ more →
          input.length ≤ length → reached taken → reached (left.text ++ (behind.chars ++ taken)))
    (bound : input.length ≤ length) (starts : StartsWithout isBlank input) :
    Tries reached (grammar.trackExpr (Expr.many item)) input := by
  have shorter : ∀ {position : Nat} {input : List Char} {left : Match Rule} {blanks rest},
      item.match? isBlank (grammar.call? false) position input = some left →
        left.rest = blanks ++ rest → input.length ≤ length → rest.length ≤ length :=
    fun matched whole bound => Nat.le_trans (Nat.le_add_left _ _)
      (Nat.le_trans (length_add_le_of_match? matched whole) bound)
  refine .optional (.seq ranking (tries input bound starts) fun position left matched => ?_)
  -- What is known: blanks stand in front of what is left, and behind them anything
  -- that the repetition reaches makes up what is to be reached.
  refine .repeated ranking (fun goal input => ∃ (blanks : Blanks) (rest : List Char),
    input = blanks.chars ++ rest ∧ StartsWithout isBlank rest ∧ rest.length ≤ length ∧
      ∀ taken more, rest = taken ++ more → reached taken → goal (blanks.chars ++ taken))
    ?_ ?_ ?_
  · rintro goal _ ⟨blanks, rest, rfl, stops, bound, implies⟩
    refine .seq ranking (.of_snd_eq fun _ _ => rfl) fun position skipped skips => ?_
    have skips := (match?_skip_append blanks.blank stops position).symm.trans skips
    cases skips
    exact (tries rest bound stops).mono implies
  · rintro goal _ position first ⟨blanks, rest, rfl, stops, bound, implies⟩ matched
    obtain ⟨_, inner, skips, itemMatched, rfl⟩ := match?_seq_eq_some_iff.mp matched
    have skips := (match?_skip_append blanks.blank stops position).symm.trans skips
    cases skips
    obtain ⟨behind, rest', stops', whole⟩ := Blanks.exists_append inner.rest
    refine ⟨behind, rest', whole, stops', shorter itemMatched whole bound, ?_⟩
    intro taken more later reaches
    have splits : inner.text ++ inner.rest = rest := splits_of_match? itemMatched
    have step := next _ _ inner behind rest' taken more itemMatched whole stops' later bound reaches
    have implied := implies _ more (by rw [← splits, whole, later]; simp) step
    simpa [Match.append] using implied
  · obtain ⟨behind, rest, stops, whole⟩ := Blanks.exists_append left.rest
    refine ⟨behind, rest, whole, stops, shorter matched whole bound, ?_⟩
    exact fun taken more later reaches =>
      next position input left behind rest taken more matched whole stops later bound reaches

end

/-! ## Expressions in a list -/

/-- Expressions are tried as they are read, in all texts up to a length that no blank
begins. -/
def TriesBelow (length : Nat) : Prop :=
  ∀ input : List Char, input.length < length → StartsWithout isBlank input →
    Tries (Begins .expression) (grammar.trackExpr (.call .expression)) input

/-- What an occurrence takes is an item. -/
theorem reads_item {repetition : Repetition} {position : Nat} {input : List Char}
    {found : Match Rule}
    (matched : repetition.item.match? isBlank (grammar.call? false) position input = some found) :
    Reads (.item repetition) position found := by
  cases repetition with
  | bar => exact reads_bar (readsBelow _) (Nat.le_refl _) matched
  | comma => exact reads_comma (readsBelow _) (Nat.le_refl _) matched
  | entry => exact reads_entry (readsBelow _) (Nat.le_refl _) matched

theorem tries_items {repetition : Repetition} (length : Nat)
    (tries : ∀ input : List Char, input.length ≤ length → StartsWithout isBlank input →
      Tries (Begins (.item repetition)) (grammar.trackExpr repetition.item) input)
    {input : List Char} (bound : input.length ≤ length) (starts : StartsWithout isBlank input) :
    Tries (Begins (.items repetition)) (grammar.trackExpr (Expr.many repetition.item)) input := by
  refine tries_many (fun input bound starts => (tries input bound starts).mono
    fun taken _ _ begins => begins_items begins) ?_ bound starts
  rintro position input left behind rest taken more matched whole stops - - begins
  obtain ⟨item, rest', stops', rfl⟩ := reads_item matched
  obtain ⟨trail, -⟩ := append_inj_of_startsWithout item.blank_trail stops' behind.blank stops whole
  rw [← trail, ← List.append_assoc]
  exact begins_items_append item begins

section

variable {length : Nat} (below : TriesBelow length) {input : List Char}

include below

theorem tries_comma (bound : input.length ≤ length) :
    Tries (Begins (.item .comma)) (grammar.trackExpr Repetition.comma.item) input := by
  refine tries_mark (tries_leaf ?_ fun _ => ⟨[','], rfl⟩)
    (fun position left matched => exists_of_call?_mark isMarkRule_comma left matched) ?_
  · exact begins_nil (.comma .none missingExpression)
  · intro behind rest shorter starts
    exact (below rest (by omega) starts).mono fun taken _ _ begins => begins_comma behind begins

theorem tries_entry (bound : input.length ≤ length) :
    Tries (Begins (.item .entry)) (grammar.trackExpr Repetition.entry.item) input := by
  refine tries_mark (tries_leaf ?_ fun _ => ⟨[','], rfl⟩)
    (fun position left matched => exists_of_call?_mark isMarkRule_comma left matched) ?_
  · exact begins_nil (.entry .none missingExpression .none missingExpression)
  intro behind rest shorter starts
  refine tries_phrase ((below rest (by omega) starts).mono fun taken _ _ begins =>
    begins_entry behind begins) (fun position left matched => reads_expression starts matched) ?_
  intro key rest' shorter' starts'
  refine tries_mark (tries_leaf ?_ fun _ => ⟨[':'], rfl⟩)
    (fun position left matched => exists_of_call?_mark isMarkRule_colon left matched) ?_
  · rw [List.append_nil]
    exact begins_entry behind (begins_text key)
  · intro between rest'' shorter'' starts''
    exact (below rest'' (by omega) starts'').mono fun taken _ _ begins =>
      begins_entry_append behind key between begins

/-- Expressions with commas between them. -/
theorem tries_list (bound : input.length < length) (starts : StartsWithout isBlank input) :
    Tries BeginsList (grammar.trackExpr Rule.expressions) input := by
  refine tries_phrase ((below input bound starts).mono fun taken _ _ begins => beginsList begins)
    (fun position left matched => reads_expression starts matched) ?_
  intro first rest shorter starts'
  exact (tries_items length (fun _ bound _ => tries_comma below bound) (by omega)
    starts').mono fun taken _ _ begins => beginsList_append first begins

/-- Expressions with commas between them behind an opening bracket, and what comes
behind them. -/
theorem tries_bracketed {reached : List Char → Prop} {mark : Char} {second : Expr Rule}
    {others : List (Expr Rule)} (bound : input.length ≤ length)
    (list : ∀ (inside : Blanks) taken, BeginsList taken →
      reached (mark :: (inside.chars ++ taken)))
    (close : ∀ (inside : Blanks) (first : Phrase .expression) (others' : Phrase (.items .comma))
      rest, StartsWithout isBlank rest →
        Tries (fun taken =>
            reached (mark :: (inside.chars ++ (first.text ++ (others'.text ++ taken)))))
          (grammar.trackExpr (Expr.spaced (second :: others))) rest) :
    Tries reached (grammar.trackExpr
      (Expr.spaced (.text [mark] :: Rule.expressions :: second :: others))) input := by
  refine tries_mark (tries_text mark)
    (fun position left matched => exists_of_match?_text left matched) ?_
  intro inside rest shorter starts
  refine tries_spaced ((tries_list below (by omega) starts).mono fun taken _ _ begins =>
    list inside taken begins) ?_
  intro position left behind rest' matched whole stops
  obtain ⟨first, others', rest'', stops', -, rfl⟩ :=
    exists_of_match?_expressions (readsBelow _) (Nat.lt_succ_self _) starts matched
  obtain ⟨trail, -⟩ :=
    append_inj_of_startsWithout others'.blank_trail stops' behind.blank stops whole
  refine (close inside first others' rest' stops).mono fun taken _ _ reaches => ?_
  simpa only [Phrase.text, trail, List.append_assoc] using reaches

/-! ## Atoms -/

theorem tries_brackets (bound : input.length ≤ length) :
    Tries BeginsAtom (grammar.trackExpr (.call .brackets)) input := by
  have here : BeginsAtom [] := ⟨false, begins_nil (.brackets .none missingExpression .nil)⟩
  refine Tries.call ranking here fun _ => tries_bracketed below bound
    (fun inside taken begins => beginsAtom_brackets inside begins) ?_
  intro inside first others rest stops
  refine tries_leaf ?_ fun _ => ⟨[']'], rfl⟩
  rw [List.append_nil]
  exact beginsAtom_brackets inside ⟨first, others, List.prefix_rfl⟩

theorem tries_parens (bound : input.length ≤ length) :
    Tries BeginsAtom (grammar.trackExpr (.call .parens)) input := by
  have here : BeginsAtom [] := ⟨false, begins_nil (.parens .none missingExpression .nil none)⟩
  refine Tries.call ranking here fun _ => tries_bracketed below bound
    (fun inside taken begins => beginsAtom_parens inside begins) ?_
  intro inside first others rest stops
  have listed : BeginsList (first.text ++ others.text) := ⟨first, others, List.prefix_rfl⟩
  refine tries_spaced (Tries.optional (tries_leaf ?_ fun _ => ⟨[','], rfl⟩)) ?_
  · rw [List.append_nil]
    exact beginsAtom_parens inside listed
  intro position left behind rest' matched whole stops'
  refine tries_leaf ?_ fun _ => ⟨[')'], rfl⟩
  rcases match?_optional_eq_some_iff.mp matched with comma | ⟨-, rfl⟩
  · obtain ⟨after, rfl⟩ := exists_of_call?_mark isMarkRule_comma left comma
    simpa using beginsAtom_parens_comma inside first others behind
  · obtain ⟨nothing, -⟩ :=
      append_inj_of_startsWithout (List.forall_mem_nil _) stops behind.blank stops' whole
    simpa [Match.empty, ← nothing] using beginsAtom_parens inside listed

/-- What follows the key of a mapping. -/
theorem tries_mappingRest {reached : List Char → Prop} (bound : input.length ≤ length)
    (here : reached [])
    (value : ∀ (between : Blanks) taken, Begins .expression taken →
      reached (':' :: (between.chars ++ taken)))
    (entries : ∀ (between : Blanks) (value : Phrase .expression) taken,
      Begins (.items .entry) taken → reached (':' :: (between.chars ++ (value.text ++ taken)))) :
    Tries reached (grammar.trackExpr (.call .mappingRest)) input := by
  refine Tries.call ranking here fun _ => tries_mark (tries_leaf here fun _ => ⟨[':'], rfl⟩)
    (fun position left matched => exists_of_call?_mark isMarkRule_colon left matched) ?_
  intro between rest shorter starts
  refine tries_phrase ((below rest (by omega) starts).mono fun taken _ _ begins =>
    value between taken begins) (fun position left matched => reads_expression starts matched) ?_
  intro first rest' shorter' starts'
  exact (tries_items length (fun _ bound _ => tries_entry below bound) (by omega)
    starts').mono fun taken _ _ begins => entries between first taken begins

theorem tries_braces (bound : input.length ≤ length) :
    Tries BeginsAtom (grammar.trackExpr (.call .braces)) input := by
  have here : BeginsAtom [] := ⟨false, begins_nil (.set .none missingExpression .nil)⟩
  refine Tries.call ranking here fun _ => tries_mark (tries_text '\x7b')
    (fun position left matched => exists_of_match?_text left matched) ?_
  intro inside rest shorter starts
  refine tries_phrase ((below rest (by omega) starts).mono fun taken _ _ begins =>
    beginsAtom_set inside (beginsList begins))
    (fun position left matched => reads_expression starts matched) ?_
  intro key rest' shorter' starts'
  have alone : BeginsAtom ('\x7b' :: (inside.chars ++ (key.text ++ []))) :=
    beginsAtom_set inside (beginsList_append key (begins_nil .nil))
  refine tries_spaced (.choice ?_ ?_) ?_
  · exact tries_mappingRest below (by omega) alone
      (fun between taken begins => beginsAtom_mapping inside key between begins)
      (fun between value taken begins => beginsAtom_mapping_append inside key between value begins)
  · refine Tries.call ranking alone fun _ => ?_
    exact (tries_items length (fun _ bound _ => tries_comma below bound) (by omega)
      starts').mono fun taken _ _ begins => beginsAtom_set inside (beginsList_append key begins)
  intro position left behind rest'' matched whole stops
  refine tries_leaf ?_ fun _ => ⟨['\x7d'], rfl⟩
  rcases match?_choice_eq_some_iff.mp matched with mapping | ⟨-, set⟩
  · obtain ⟨between, value, others, last, lastStops, rfl⟩ :=
      reads_mappingRest (readsBelow _) (Nat.le_refl _) mapping
    obtain ⟨trail, -⟩ :=
      append_inj_of_startsWithout others.blank_trail lastStops behind.blank stops whole
    simpa [Phrase.text, ← trail] using
      beginsAtom_mapping_append inside key between value (begins_text others)
  · obtain ⟨items, itemsMatched, rfl⟩ := (call?_node_eq_some_iff rfl).mp set
    obtain ⟨others, last, lastStops, rfl⟩ := reads_many
      (fun _ _ _ => reads_comma (readsBelow _)) (Nat.le_refl _) starts' itemsMatched
    obtain ⟨trail, -⟩ :=
      append_inj_of_startsWithout others.blank_trail lastStops behind.blank stops whole
    simpa [Phrase.text, ← trail] using
      beginsAtom_set inside (beginsList_append key (begins_text others))

/-- What an atom may be is tried at the beginning of the atom. -/
theorem tries_atom (bound : input.length ≤ length) :
    Tries BeginsAtom (grammar.trackExpr (.call .atom)) input := by
  have here : BeginsAtom [] := ⟨false, begins_nil (.brackets .none missingExpression .nil)⟩
  have token : ∀ {rule : Rule}, rule.kind = .token →
      Tries BeginsAtom (grammar.trackExpr (.call rule)) input :=
    fun isToken => tries_leaf here fun notToken => absurd isToken notToken
  have literal : Tries BeginsAtom (grammar.trackExpr (.call .literal)) input := by
    refine Tries.call ranking here fun _ => .firstOf ?_
    simp only [List.forall_mem_cons]
    exact ⟨token rfl, token rfl, token rfl, token rfl, token rfl, List.forall_mem_nil _⟩
  refine Tries.call ranking here fun _ => .firstOf ?_
  simp only [List.forall_mem_cons]
  exact ⟨literal, tries_leaf here fun _ => ⟨"...".toList, rfl⟩, token rfl,
    tries_parens below bound, tries_braces below bound, tries_brackets below bound, token rfl,
    List.forall_mem_nil _⟩

/-! ## Operands -/

theorem tries_subscript {reached : List Char → Prop} (bound : input.length ≤ length)
    (here : reached []) (list : ∀ (inside : Blanks) taken, BeginsList taken →
      reached ('[' :: (inside.chars ++ taken))) :
    Tries reached (grammar.trackExpr (.call .subscript)) input := by
  refine Tries.call ranking here fun _ => tries_bracketed below bound list ?_
  intro inside first others rest stops
  refine tries_leaf ?_ fun _ => ⟨[']'], rfl⟩
  rw [List.append_nil]
  exact list inside _ ⟨first, others, List.prefix_rfl⟩

theorem tries_primary (bound : input.length ≤ length) :
    Tries BeginsPrimary (grammar.trackExpr (.call .subscripted)) input := by
  have here : BeginsPrimary [] := ⟨false, begins_nil missingPrimary⟩
  refine Tries.call ranking here fun _ => tries_spaced
    ((tries_atom below bound).mono fun taken _ _ begins => beginsPrimary begins) ?_
  intro position left behind rest matched whole stops
  have lengths := length_add_le_of_match? matched whole
  have shorter : rest.length ≤ length := by omega
  obtain ⟨word, atom, rest', rfl⟩ := reads_atom (readsBelow _) (Nat.le_refl _) matched
  refine .optional (tries_subscript below shorter ?_ fun inside taken begins => ?_)
  · exact ⟨word, .bare atom behind, by simp [body_atom]⟩
  · rw [body_atom]
    exact beginsPrimary_subscript atom behind inside begins

end

/-! ## Keywords in front of an operand -/

theorem tries_wordOp {rule inner : Rule} {input : List Char} (body : rule.body = .call inner)
    (token : inner.kind = .token) :
    Tries (Begins .operand) (grammar.trackExpr (.call rule)) input := by
  have here : Begins .operand [] := begins_nil missingOperand
  refine Tries.call ranking here fun _ => ?_
  change Tries (Begins .operand) (grammar.trackExpr rule.body) input
  rw [body]
  exact tries_leaf here fun notToken => absurd token notToken

/-- The second word of a double keyword is tried behind the first. -/
theorem tries_asyncOp {rule inner : Rule} {input : List Char}
    (body : rule.body = Expr.spaced [.call .kwAsync, .call inner]) (token : inner.kind = .token) :
    Tries (Begins .operand) (grammar.trackExpr (.call rule)) input := by
  have here : Begins .operand [] := begins_nil missingOperand
  refine Tries.call ranking here fun _ => ?_
  change Tries (Begins .operand) (grammar.trackExpr rule.body) input
  rw [body]
  refine tries_spaced (tries_leaf here fun notToken => absurd rfl notToken) ?_
  intro position left behind rest matched whole stops
  refine tries_leaf ?_ fun notToken => absurd token notToken
  obtain ⟨-, rfl⟩ := (call?_onlyWord_eq_some_iff isWordRule_kwAsync rfl).mp matched
  rw [List.append_nil]
  exact begins_operand_async behind

theorem tries_prefixOp (input : List Char) :
    Tries (Begins .operand) (grammar.trackExpr (.call .prefixOp)) input := by
  refine Tries.call ranking (begins_nil missingOperand) fun _ => .firstOf ?_
  simp only [List.forall_mem_cons]
  exact ⟨tries_asyncOp rfl rfl, tries_asyncOp rfl rfl, tries_wordOp rfl rfl, tries_wordOp rfl rfl,
    tries_wordOp rfl rfl, List.forall_mem_nil _⟩

/-- Keywords are tried behind keywords. -/
theorem tries_prefixes {input : List Char} (starts : StartsWithout isBlank input) :
    Tries (Begins .operand) (grammar.trackExpr (Expr.many (.call Rule.prefixOp))) input := by
  refine tries_many (fun input _ _ => tries_prefixOp input) ?_ (Nat.le_refl _) starts
  rintro position input left behind rest taken more matched whole stops later - begins
  obtain ⟨keyword, rest', wordStops, -, rfl⟩ := exists_keyword_of_call? matched
  have whole : rest' = behind.chars ++ rest := whole
  refine begins_operand_keyword keyword behind ?_ begins
  rw [whole, later, ← List.append_assoc] at wordStops
  exact startsWithout_of_append wordStops

section

variable {length : Nat} (below : TriesBelow length) {input : List Char}

include below

theorem tries_prefixed (bound : input.length ≤ length) (starts : StartsWithout isBlank input) :
    Tries (Begins .operand) (grammar.trackExpr (.call .prefixed)) input := by
  refine Tries.call ranking (begins_nil missingOperand) fun _ =>
    tries_spaced (tries_prefixes starts) ?_
  intro position left behind rest matched whole stops
  have lengths := length_add_le_of_match? matched whole
  obtain ⟨others, repeats⟩ := exists_repeats progress_prefixOp position input
  rw [match?_many_of_repeats progress_prefixOp starts repeats] at matched
  cases matched
  obtain ⟨prefixes, behind', rest', stops', apart, -, whole', taken, -⟩ :=
    exists_prefixes_of_repeats repeats (List.nil_append input).symm (by simp) starts
  obtain ⟨same, rfl⟩ := append_inj_of_startsWithout behind'.blank stops' behind.blank stops
    (whole'.symm.trans whole)
  refine (tries_primary below (by omega)).mono fun reached more later begins => ?_
  rw [← List.append_assoc, ← same, taken, List.nil_append]
  rw [later] at apart
  exact begins_operand_prefixes apart begins

theorem tries_operand (bound : input.length ≤ length) (starts : StartsWithout isBlank input) :
    Tries (Begins .operand) (grammar.trackExpr (.call .optionalExpr)) input := by
  refine Tries.call ranking (begins_nil missingOperand) fun _ =>
    tries_spaced (tries_prefixed below bound starts) ?_
  intro position left behind rest matched whole stops
  obtain ⟨word, prefixes, primary, rest', apart, stops', -, rfl⟩ :=
    exists_of_call?_prefixed (readsBelow _) (Nat.le_refl _) starts matched
  obtain ⟨trail, -⟩ :=
    append_inj_of_startsWithout primary.blank_trail stops' behind.blank stops whole
  refine .optional (tries_leaf ⟨.operand prefixes apart primary none, ?_⟩ fun _ => ⟨['?'], rfl⟩)
  rw [text_operand]
  simp [← trail, Phrase.text]

theorem tries_bar (bound : input.length ≤ length) :
    Tries (Begins (.item .bar)) (grammar.trackExpr Repetition.bar.item) input := by
  refine tries_mark (tries_leaf (begins_nil (.bar .none missingOperand)) fun _ => ⟨['|'], rfl⟩)
    (fun position left matched => exists_of_call?_mark isMarkRule_unionOp left matched) ?_
  intro behind rest shorter starts
  exact (tries_operand below (by omega) starts).mono fun taken _ _ begins =>
    begins_bar behind begins

theorem tries_expression_step (bound : input.length ≤ length)
    (starts : StartsWithout isBlank input) :
    Tries (Begins .expression) (grammar.trackExpr (.call .expression)) input := by
  refine Tries.call ranking (begins_nil missingExpression) fun _ => tries_phrase
    ((tries_operand below bound starts).mono fun taken _ _ begins => begins_expression begins)
    (fun position left matched => reads_operand (readsBelow _) (Nat.le_refl _) starts matched) ?_
  intro first rest shorter starts'
  exact (tries_items length (fun _ bound _ => tries_bar below bound) (by omega)
    starts').mono fun taken _ _ begins => begins_expression_append first begins

end

theorem triesBelow (length : Nat) : TriesBelow length := by
  induction length with
  | zero => exact fun _ short => absurd short (Nat.not_lt_zero _)
  | succ length ih =>
      exact fun input short starts => tries_expression_step ih (Nat.le_of_lt_succ short) starts

/-- The beginning of an expression can be completed to a text that the grammar
matches. -/
theorem exists_match_of_begins (before : Blanks) {taken : List Char}
    (begins : Begins .expression taken) :
    ∃ more, (grammar.match? .main ((before.chars ++ taken) ++ more)).isSome = true := by
  obtain ⟨phrase, more, whole⟩ := begins
  refine ⟨more, ?_⟩
  rw [List.append_assoc, whole, match?_main_eq_some_iff.mpr ⟨before, phrase, rfl, rfl⟩]
  rfl

/-- What stands before the place at which a rule of a whole text is tried can be
completed. -/
theorem tries_main (input : List Char) :
    Tries (fun taken => ∃ more, (grammar.match? .main (taken ++ more)).isSome = true)
      (grammar.trackExpr (.call .main)) input := by
  refine Tries.call ranking (exists_match_of_begins .none (begins_nil missingExpression)) fun _ =>
    .seq ranking (.of_snd_eq fun _ _ => rfl) fun position skipped skips => ?_
  obtain ⟨before, rest, starts, rfl⟩ := Blanks.exists_append input
  have skips := (match?_skip_append before.blank starts position).symm.trans skips
  cases skips
  refine tries_phrase ((triesBelow _ rest (Nat.lt_succ_self _) starts).mono
    fun taken _ _ begins => exists_match_of_begins before begins)
    (fun position left matched => reads_expression starts matched) ?_
  intro phrase rest' _ _
  refine Tries.call ranking (exists_match_of_begins before ?_) fun _ => .of_snd_eq fun _ _ => rfl
  rw [List.append_nil]
  exact begins_text phrase

/-! ## Syntax errors -/

/-- Nothing in front of the position of a syntax error is at fault: if the grammar does
not match a text, the text is refused at a position behind an initial part that the
grammar matches with something else behind it. -/
theorem exists_completion_of_unexpectedToken {source : String}
    (fails : grammar.match? .main source.toList = none) :
    ∃ before after, source.toList = before ++ after ∧
      (unexpectedToken source.toList).span = ⟨utf8Length before, utf8Length before⟩ ∧
      (∀ limit, depthError? limit source.toList = none →
        parseWithin limit source = .error (unexpectedToken source.toList)) ∧
      ∃ more, (grammar.match? .main (before ++ more)).isSome = true := by
  have refused : ∀ limit, depthError? limit source.toList = none →
      parseWithin limit source = .error (unexpectedToken source.toList) := by
    intro limit passes
    rw [parseWithin, parseChars, passes]
    simp only [fails]
  have advances := tries_main source.toList 0 .start
  rw [Grammar.trackExpr_call, ← Grammar.furthest_eq_track] at advances
  rcases advances with same | ⟨before, after, whole, completed, place⟩
  · refine ⟨[], source.toList, rfl, ?_, refused,
      exists_match_of_begins .none (begins_nil missingExpression)⟩
    simp only [unexpectedToken, same, Furthest.start, utf8Length_nil]
  · refine ⟨before, after, whole, ?_, refused, completed⟩
    simp only [unexpectedToken, place, Nat.zero_add]

/-- A bracket that is not closed is no fault of what stands before its end. -/
theorem exists_completion_of_unclosed_bracket :
    grammar.match? .main "list[int, (a|b".toList = none ∧
      ∃ before after, "list[int, (a|b".toList = before ++ after ∧
        (unexpectedToken "list[int, (a|b".toList).span =
          ⟨utf8Length before, utf8Length before⟩ ∧
        (∀ limit, depthError? limit "list[int, (a|b".toList = none →
          parseWithin limit "list[int, (a|b" =
            .error (unexpectedToken "list[int, (a|b".toList)) ∧
        ∃ more, (grammar.match? .main (before ++ more)).isSome = true := by
  have fails : grammar.match? .main "list[int, (a|b".toList = none :=
    Option.isNone_iff_eq_none.mp (by decide +kernel)
  exact ⟨fails, exists_completion_of_unexpectedToken fails⟩

end TypeSpelling.Source
