import TypeSpelling.Proofs.Tokens
import TypeSpelling.Source.Tree

/-!
# Phrases

A phrase is a text together with the reason for which the grammar accepts it:
which tokens it has, how they are grouped and which blanks stand between them.
There is one category of phrases for each level of the grammar, so precedence is
part of the type, and a repetition is a list of items of one kind.

The blanks behind a phrase belong to it.  Whether the rule of the phrase takes
them depends on its last part: a rule passes blanks on the way to something that
may follow, as in front of a subscript, whether or not it finds it there.  `body`
is what the rule takes and `trail` the blanks that it leaves.
-/

namespace TypeSpelling.Source

open TypeSpelling.Peg
open TypeSpelling.Text

/-! ## Parts of phrases -/

/-- Blanks between two parts of a text, perhaps none. -/
structure Blanks where
  chars : List Char
  blank : ∀ c ∈ chars, isBlank c = true

namespace Blanks

/-- No blanks at all. -/
def none : Blanks :=
  ⟨[], by simp⟩

/-- One space. -/
def space : Blanks :=
  ⟨[' '], List.forall_mem_singleton.mpr (by decide)⟩

/-- A text begins with blanks, perhaps none, and goes on without one. -/
theorem exists_append (input : List Char) :
    ∃ (blanks : Blanks) (rest : List Char), StartsWithout isBlank rest ∧
      input = blanks.chars ++ rest :=
  ⟨⟨input.takeWhile isBlank, List.all_eq_true.mp List.all_takeWhile⟩, input.dropWhile isBlank,
    startsWithout_dropWhile isBlank input, List.takeWhile_append_dropWhile.symm⟩

end Blanks

/-- What the text of a token looks like, by the rule that takes it. -/
inductive TokenShape : Rule → List Char → Prop where
  | name {text : List Char} (name : IsName text) : TokenShape .name text
  | wildcard : TokenShape .wildcard "_".toList
  | ellipsis : TokenShape .ellipsis "...".toList
  | string {text : List Char} (quoted : IsQuoted text) : TokenShape .string text
  | bytes {text : List Char} (quoted : IsQuoted text) : TokenShape .bytes ('b' :: text)
  | integer {text : List Char} (integer : IsInteger text) : TokenShape .integer text
  | boolean {word : String} (mem : word ∈ wordsOf .boolean) : TokenShape .boolean word.toList
  | null {word : String} (mem : word ∈ wordsOf .null) : TokenShape .null word.toList

theorem TokenShape.ne_nil {rule : Rule} {text : List Char} (shape : TokenShape rule text) :
    text ≠ [] := by
  have booleans : ∀ word ∈ wordsOf .boolean, word.toList ≠ [] := by decide
  have nulls : ∀ word ∈ wordsOf .null, word.toList ≠ [] := by decide
  cases shape with
  | name name =>
      obtain ⟨first, others, rfl, ⟨c, rest, rfl, -⟩, -⟩ := name
      exact List.cons_ne_nil _ _
  | string quoted =>
      obtain ⟨mark, contents, -, -, rfl⟩ := quoted
      exact List.cons_ne_nil _ _
  | integer integer =>
      obtain ⟨digits, nonempty, -, rfl | rfl⟩ := integer
      · exact nonempty
      · exact List.cons_ne_nil _ _
  | boolean mem => exact booleans _ mem
  | null mem => exact nulls _ mem
  | _ => exact List.cons_ne_nil _ _

/-- A token that stands for an expression by itself. -/
structure Token where
  rule : Rule
  text : List Char
  shape : TokenShape rule text

/-- Whether a text begins with a character of words. -/
def beginsWord (text : List Char) : Bool :=
  text.head?.any isWordChar

/-- The node of a punctuation mark. -/
def markNode (rule : Rule) (position : Nat) (mark : Char) : Node Rule :=
  ⟨rule, position, [mark], []⟩

/-- The keywords in front of an operand.  The two words of a double keyword have
blanks between them. -/
inductive Keyword where
  | await
  | iter
  | with
  | asyncIter (between : Blanks) (apart : between.chars ≠ [])
  | asyncWith (between : Blanks) (apart : between.chars ≠ [])

namespace Keyword

def text : Keyword → List Char
  | .await => "await".toList
  | .iter => "iter".toList
  | .with => "with".toList
  | .asyncIter between _ => "async".toList ++ (between.chars ++ "iter".toList)
  | .asyncWith between _ => "async".toList ++ (between.chars ++ "with".toList)

@[simp]
theorem text_asyncIter (between : Blanks) (apart : between.chars ≠ []) :
    (asyncIter between apart).text = "async".toList ++ (between.chars ++ "iter".toList) := rfl

@[simp]
theorem text_asyncWith (between : Blanks) (apart : between.chars ≠ []) :
    (asyncWith between apart).text = "async".toList ++ (between.chars ++ "with".toList) := rfl

def rule : Keyword → Rule
  | .await => .awaitOp
  | .iter => .iterOp
  | .with => .withOp
  | .asyncIter _ _ => .asyncIterOp
  | .asyncWith _ _ => .asyncWithOp

/-- The container that the keyword wraps its operand in. -/
def container : Keyword → Container
  | .await => .awaitable
  | .iter => .iterable
  | .with => .contextManager
  | .asyncIter _ _ => .asyncIterable
  | .asyncWith _ _ => .asyncContextManager

/-- The nodes of the words of the keyword. -/
def words (position : Nat) : Keyword → List (Node Rule)
  | .await => [⟨.kwAwait, position, "await".toList, []⟩]
  | .iter => [⟨.kwIter, position, "iter".toList, []⟩]
  | .with => [⟨.kwWith, position, "with".toList, []⟩]
  | .asyncIter between _ =>
      [⟨.kwAsync, position, "async".toList, []⟩,
        ⟨.kwIter, position + 5 + utf8Length between.chars, "iter".toList, []⟩]
  | .asyncWith between _ =>
      [⟨.kwAsync, position, "async".toList, []⟩,
        ⟨.kwWith, position + 5 + utf8Length between.chars, "with".toList, []⟩]

/-- The node of the keyword. -/
def node (position : Nat) (keyword : Keyword) : Node Rule :=
  ⟨keyword.rule, position, keyword.text, keyword.words position⟩

end Keyword

/-- Keywords in a row, each with the blanks behind it. -/
abbrev Prefixes :=
  List (Keyword × Blanks)

namespace Prefixes

def text (prefixes : Prefixes) : List Char :=
  prefixes.flatMap fun (keyword, behind) => keyword.text ++ behind.chars

/-- The nodes of the keywords. -/
def nodes : Nat → Prefixes → List (Node Rule)
  | _, [] => []
  | position, (keyword, behind) :: others =>
      keyword.node position ::
        nodes (position + utf8Length keyword.text + utf8Length behind.chars) others

/-- Blanks keep a keyword apart from a word behind it, and every keyword begins
with a word. -/
def Apart : Prefixes → Bool → Prop
  | [], _ => True
  | [(_, behind)], wordFollows => wordFollows = true → behind.chars ≠ []
  | (_, behind) :: second :: others, wordFollows =>
      behind.chars ≠ [] ∧ Apart (second :: others) wordFollows

end Prefixes

/-! ## Phrases -/

/-- What a repetition repeats. -/
inductive Repetition where
  /-- A bar and an operand of it. -/
  | bar
  /-- A comma and an expression. -/
  | comma
  /-- A comma, a key, a colon and a value. -/
  | entry
  deriving DecidableEq

/-- The categories of phrases.  An operand of `|` is made of keywords, a primary
and perhaps a question mark, and a primary of an atom and perhaps a subscript. -/
inductive Category where
  | expression
  | operand
  | primary (beginsWord : Bool)
  | atom (beginsWord : Bool)
  | item (repetition : Repetition)
  | items (repetition : Repetition)

/-- The phrases of each category. -/
inductive Phrase : Category → Type where
  | expression (first : Phrase .operand) (others : Phrase (.items .bar)) : Phrase .expression
  | operand {word : Bool} (prefixes : Prefixes) (apart : prefixes.Apart word)
      (primary : Phrase (.primary word)) (mark : Option Blanks) : Phrase .operand
  | bare {word : Bool} (atom : Phrase (.atom word)) (behind : Blanks) : Phrase (.primary word)
  | subscripted {word : Bool} (atom : Phrase (.atom word)) (before inside : Blanks)
      (first : Phrase .expression) (others : Phrase (.items .comma)) (behind : Blanks) :
      Phrase (.primary word)
  | token (token : Token) : Phrase (.atom (beginsWord token.text))
  | parens (inside : Blanks) (first : Phrase .expression) (others : Phrase (.items .comma))
      (comma : Option Blanks) : Phrase (.atom false)
  | mapping (inside : Blanks) (key : Phrase .expression) (between : Blanks)
      (value : Phrase .expression) (others : Phrase (.items .entry)) : Phrase (.atom false)
  | set (inside : Blanks) (first : Phrase .expression) (others : Phrase (.items .comma)) :
      Phrase (.atom false)
  | brackets (inside : Blanks) (first : Phrase .expression) (others : Phrase (.items .comma)) :
      Phrase (.atom false)
  | bar (behind : Blanks) (operand : Phrase .operand) : Phrase (.item .bar)
  | comma (behind : Blanks) (expression : Phrase .expression) : Phrase (.item .comma)
  | entry (behind : Blanks) (key : Phrase .expression) (between : Blanks)
      (value : Phrase .expression) : Phrase (.item .entry)
  | nil {repetition : Repetition} : Phrase (.items repetition)
  | cons {repetition : Repetition} (first : Phrase (.item repetition))
      (others : Phrase (.items repetition)) : Phrase (.items repetition)

namespace Phrase

/-- Whether a list of items is empty. -/
def isNil : {category : Category} → Phrase category → Bool
  | _, .nil => true
  | _, _ => false

/-- The blanks behind a phrase that its rule leaves. -/
def trail : {category : Category} → Phrase category → List Char
  | _, .expression _ others => others.trail
  | _, .operand _ _ _ mark => (mark.map Blanks.chars).getD []
  | _, .subscripted _ _ _ _ _ behind => behind.chars
  | _, .bar _ next => next.trail
  | _, .comma _ next => next.trail
  | _, .entry _ _ _ value => value.trail
  | _, .cons first others => if others.isNil then first.trail else others.trail
  | _, .bare _ _ | _, .token _ | _, .parens _ _ _ _ | _, .mapping _ _ _ _ _
  | _, .set _ _ _ | _, .brackets _ _ _ | _, .nil => []

/-- A comma behind the last expression in parentheses, with the blanks behind it. -/
def closingComma (closing : Option Blanks) : List Char :=
  (closing.map fun behind => ',' :: behind.chars).getD []

/-- The question mark behind an operand. -/
def questionMark (mark : Option Blanks) : List Char :=
  if mark.isSome then ['?'] else []

/-- The characters that the rule of a phrase takes. -/
def body : {category : Category} → Phrase category → List Char
  | _, .expression first others => first.body ++ (first.trail ++ others.body)
  | _, .operand prefixes _ primary mark =>
      prefixes.text ++ (primary.body ++ (primary.trail ++ questionMark mark))
  | _, .bare atom behind => atom.body ++ behind.chars
  | _, .subscripted atom before inside first others _ =>
      atom.body ++ (before.chars ++ ('[' :: (inside.chars ++
        (first.body ++ (first.trail ++ (others.body ++ (others.trail ++ [']'])))))))
  | _, .token own => own.text
  | _, .parens inside first others closing =>
      '(' :: (inside.chars ++ (first.body ++ (first.trail ++ (others.body ++
        (others.trail ++ (closingComma closing ++ [')']))))))
  | _, .mapping inside key between value others =>
      '\x7b' :: (inside.chars ++ (key.body ++ (key.trail ++ (':' :: (between.chars ++
        (value.body ++ (value.trail ++ (others.body ++ (others.trail ++ ['\x7d'])))))))))
  | _, .set inside first others =>
      '\x7b' :: (inside.chars ++ (first.body ++ (first.trail ++ (others.body ++
        (others.trail ++ ['\x7d'])))))
  | _, .brackets inside first others =>
      '[' :: (inside.chars ++ (first.body ++ (first.trail ++ (others.body ++
        (others.trail ++ [']'])))))
  | _, .bar behind next => '|' :: (behind.chars ++ next.body)
  | _, .comma behind next => ',' :: (behind.chars ++ next.body)
  | _, .entry behind key between value =>
      ',' :: (behind.chars ++ (key.body ++ (key.trail ++ (':' :: (between.chars ++ value.body)))))
  | _, .nil => []
  | _, .cons first others =>
      first.body ++ (if others.isNil then [] else first.trail ++ others.body)

/-- A phrase with the blanks behind it. -/
def text {category : Category} (phrase : Phrase category) : List Char :=
  phrase.body ++ phrase.trail

/-! ## Texts -/

/-- The question mark behind an operand with the blanks behind it. -/
def markText (mark : Option Blanks) : List Char :=
  (mark.map fun behind => '?' :: behind.chars).getD []

theorem blank_trail {category : Category} (phrase : Phrase category) :
    ∀ c ∈ phrase.trail, isBlank c = true := by
  induction phrase with
  | operand prefixes apart primary mark =>
      cases mark with
      | none => simp [trail]
      | some behind => exact behind.blank
  | subscripted atom before inside first others behind => exact behind.blank
  | cons first others firstIh othersIh =>
      rw [trail]
      split
      · exact firstIh
      · exact othersIh
  | expression _ _ _ ih => exact ih
  | bar _ _ ih => exact ih
  | comma _ _ ih => exact ih
  | entry _ _ _ _ _ ih => exact ih
  | _ => simp [trail]

theorem trail_atom {word : Bool} (phrase : Phrase (.atom word)) : phrase.trail = [] := by
  cases phrase <;> rfl

theorem body_atom {word : Bool} (phrase : Phrase (.atom word)) : phrase.body = phrase.text := by
  rw [text, trail_atom, List.append_nil]

section

attribute [local simp] body trail

@[simp]
theorem text_expression (first : Phrase .operand) (others : Phrase (.items .bar)) :
    (expression first others).text = first.text ++ others.text := by
  simp [text]

@[simp]
theorem text_operand {word : Bool} (prefixes : Prefixes) (apart : prefixes.Apart word)
    (primary : Phrase (.primary word)) (mark : Option Blanks) :
    (operand prefixes apart primary mark).text =
      prefixes.text ++ (primary.text ++ markText mark) := by
  cases mark <;> simp [text, questionMark, markText]

@[simp]
theorem text_bare {word : Bool} (atom : Phrase (.atom word)) (behind : Blanks) :
    (bare atom behind).text = atom.text ++ behind.chars := by
  simp [text, trail_atom]

@[simp]
theorem text_subscripted {word : Bool} (atom : Phrase (.atom word)) (before inside : Blanks)
    (first : Phrase .expression) (others : Phrase (.items .comma)) (behind : Blanks) :
    (subscripted atom before inside first others behind).text =
      atom.text ++ (before.chars ++ '[' :: (inside.chars ++ (first.text ++ (others.text ++
        ']' :: behind.chars)))) := by
  simp [text, trail_atom]

@[simp]
theorem text_token (own : Token) : (token own).text = own.text := by
  simp [text]

@[simp]
theorem text_parens (inside : Blanks) (first : Phrase .expression)
    (others : Phrase (.items .comma)) (closing : Option Blanks) :
    (parens inside first others closing).text =
      '(' :: (inside.chars ++ (first.text ++ (others.text ++
        (closingComma closing ++ [')'])))) := by
  simp [text]

@[simp]
theorem text_mapping (inside : Blanks) (key : Phrase .expression) (between : Blanks)
    (value : Phrase .expression) (others : Phrase (.items .entry)) :
    (mapping inside key between value others).text =
      '\x7b' :: (inside.chars ++ (key.text ++ ':' :: (between.chars ++ (value.text ++
        (others.text ++ ['\x7d']))))) := by
  simp [text]

@[simp]
theorem text_set (inside : Blanks) (first : Phrase .expression)
    (others : Phrase (.items .comma)) :
    (set inside first others).text =
      '\x7b' :: (inside.chars ++ (first.text ++ (others.text ++ ['\x7d']))) := by
  simp [text]

@[simp]
theorem text_brackets (inside : Blanks) (first : Phrase .expression)
    (others : Phrase (.items .comma)) :
    (brackets inside first others).text =
      '[' :: (inside.chars ++ (first.text ++ (others.text ++ [']']))) := by
  simp [text]

@[simp]
theorem text_bar (behind : Blanks) (next : Phrase .operand) :
    (bar behind next).text = '|' :: (behind.chars ++ next.text) := by
  simp [text]

@[simp]
theorem text_comma (behind : Blanks) (next : Phrase .expression) :
    (comma behind next).text = ',' :: (behind.chars ++ next.text) := by
  simp [text]

@[simp]
theorem text_entry (behind : Blanks) (key : Phrase .expression) (between : Blanks)
    (value : Phrase .expression) :
    (entry behind key between value).text =
      ',' :: (behind.chars ++ (key.text ++ ':' :: (between.chars ++ value.text))) := by
  simp [text]

@[simp]
theorem text_nil {repetition : Repetition} :
    (nil : Phrase (.items repetition)).text = [] := rfl

theorem isNil_eq_true_iff {repetition : Repetition} (phrase : Phrase (.items repetition)) :
    phrase.isNil = true ↔ phrase = .nil := by
  cases phrase <;> simp [isNil]

@[simp]
theorem text_cons {repetition : Repetition} (first : Phrase (.item repetition))
    (others : Phrase (.items repetition)) :
    (cons first others).text = first.text ++ others.text := by
  by_cases last : others.isNil = true
  · rw [(isNil_eq_true_iff others).mp last]
    simp [text, isNil]
  · simp [text, last]

end

/-! ## Beginnings -/

theorem beginsWord_append {text : List Char} (nonempty : text ≠ []) (rest : List Char) :
    beginsWord (text ++ rest) = beginsWord text := by
  cases text with
  | nil => exact absurd rfl nonempty
  | cons c others => rfl

/-- The category of an atom tells whether it begins with a word. -/
theorem beginsWord_atom {word : Bool} (phrase : Phrase (.atom word)) (rest : List Char) :
    beginsWord (phrase.text ++ rest) = word := by
  cases phrase with
  | token own => rw [text_token, beginsWord_append own.shape.ne_nil]
  | _ => rfl

theorem beginsWord_primary {word : Bool} (phrase : Phrase (.primary word)) (rest : List Char) :
    beginsWord (phrase.text ++ rest) = word := by
  cases phrase with
  | bare atom behind => rw [text_bare, List.append_assoc, beginsWord_atom]
  | subscripted atom => rw [text_subscripted, List.append_assoc, beginsWord_atom]

/-! ## Nodes -/

/-- The nodes that the rule of a phrase makes, given where the phrase begins. -/
def nodes : {category : Category} → Phrase category → Nat → List (Node Rule)
  | _, .expression first others, position =>
      [⟨.expression, position, (expression first others).body,
        first.nodes position ++ others.nodes (position + utf8Length first.text)⟩]
  | _, .operand prefixes apart primary mark, position =>
      let operandPosition := position + utf8Length prefixes.text
      [⟨.optionalExpr, position, (operand prefixes apart primary mark).body,
        ⟨.prefixed, position, prefixes.text ++ primary.body,
          prefixes.nodes position ++ primary.nodes operandPosition⟩ ::
        (if mark.isSome then
          [markNode .optionalOp (operandPosition + utf8Length primary.text) '?'] else [])⟩]
  | _, .bare atom behind, position =>
      [⟨.subscripted, position, atom.body ++ behind.chars, atom.nodes position⟩]
  | _, .subscripted atom before inside first others behind, position =>
      let bracket := position + utf8Length atom.body + utf8Length before.chars
      let arguments := bracket + 1 + utf8Length inside.chars
      let others' := arguments + utf8Length first.text
      [⟨.subscripted, position, (subscripted atom before inside first others behind).body,
        atom.nodes position ++
        [⟨.subscript, bracket, '[' :: (inside.chars ++ (first.text ++ (others.text ++ [']']))),
          first.nodes arguments ++ (others.nodes others' ++
            [markNode .rbracket (others' + utf8Length others.text) ']'])⟩]⟩]
  | _, .token own, position => [⟨own.rule, position, own.text, []⟩]
  | _, .parens inside first others closing, position =>
      let arguments := position + 1 + utf8Length inside.chars
      let others' := arguments + utf8Length first.text
      let closing' := others' + utf8Length others.text
      [⟨.parens, position, (parens inside first others closing).body,
        first.nodes arguments ++ (others.nodes others' ++
          ((if closing.isSome then [markNode .comma closing' ','] else []) ++
            [markNode .rparen (closing' + utf8Length (closingComma closing)) ')']))⟩]
  | _, .mapping inside key between value others, position =>
      let key' := position + 1 + utf8Length inside.chars
      let colon := key' + utf8Length key.text
      let value' := colon + 1 + utf8Length between.chars
      let others' := value' + utf8Length value.text
      [⟨.braces, position, (mapping inside key between value others).body,
        key.nodes key' ++
        [⟨.mappingRest, colon, ':' :: (between.chars ++ (value.body ++ (value.trail ++
            others.body))),
          markNode .colon colon ':' :: (value.nodes value' ++ others.nodes others')⟩,
          markNode .rbrace (others' + utf8Length others.text) '\x7d']⟩]
  | _, .set inside first others, position =>
      let first' := position + 1 + utf8Length inside.chars
      let others' := first' + utf8Length first.text
      [⟨.braces, position, (set inside first others).body,
        first.nodes first' ++
        [⟨.setRest, others', others.body, others.nodes others'⟩,
          markNode .rbrace (others' + utf8Length others.text) '\x7d']⟩]
  | _, .brackets inside first others, position =>
      let first' := position + 1 + utf8Length inside.chars
      let others' := first' + utf8Length first.text
      [⟨.brackets, position, (brackets inside first others).body,
        first.nodes first' ++ (others.nodes others' ++
          [markNode .rbracket (others' + utf8Length others.text) ']'])⟩]
  | _, .bar behind next, position =>
      markNode .unionOp position '|' :: next.nodes (position + 1 + utf8Length behind.chars)
  | _, .comma behind next, position =>
      markNode .comma position ',' :: next.nodes (position + 1 + utf8Length behind.chars)
  | _, .entry behind key between value, position =>
      let key' := position + 1 + utf8Length behind.chars
      let colon := key' + utf8Length key.text
      markNode .comma position ',' :: (key.nodes key' ++
        (markNode .colon colon ':' :: value.nodes (colon + 1 + utf8Length between.chars)))
  | _, .nil, _ => []
  | _, .cons first others, position =>
      first.nodes position ++ others.nodes (position + utf8Length first.text)

/-! ## Trees -/

/-- What an expression makes of its operands. -/
def joined : List TypeExpr → List TypeExpr
  | [single] => [single]
  | several => [.union several]

/-- What an atom makes of a subscript, where the atom is a name. -/
def applied : List TypeExpr → List TypeExpr
  | .name base :: args => [.generic base args]
  | others => others

/-- The trees that a phrase stands for: one, or those of all items of a list. -/
def trees : {category : Category} → Phrase category → List TypeExpr
  | _, .expression first others => joined (first.trees ++ others.trees)
  | _, .operand prefixes _ primary mark =>
      let wrapped := primary.trees.map (wrap (prefixes.map fun (keyword, _) => keyword.container))
      if mark.isSome then wrapped.map .optional else wrapped
  | _, .bare atom _ => atom.trees
  | _, .subscripted atom _ _ first others _ =>
      applied (atom.trees ++ (first.trees ++ others.trees))
  | _, .token own => combine own.rule own.text [] []
  | _, .parens _ first others closing =>
      if others.isNil && closing.isNone then first.trees
      else [.tuple (first.trees ++ others.trees)]
  | _, .mapping _ key _ value others =>
      [.container .mapping (key.trees ++ (value.trees ++ others.trees))]
  | _, .set _ first others => [.container .set (first.trees ++ others.trees)]
  | _, .brackets _ first others => [.container .sequence (first.trees ++ others.trees)]
  | _, .bar _ next => next.trees
  | _, .comma _ next => next.trees
  | _, .entry _ key _ value => key.trees ++ value.trees
  | _, .nil => []
  | _, .cons first others => first.trees ++ others.trees

/-- Whether a phrase is a name alone. -/
def isName : {category : Category} → Phrase category → Bool
  | _, .token own => own.rule = .name
  | _, _ => false

/-- No subscript stands behind anything but a name, and 64 bits hold every
integer. -/
def Faultless : {category : Category} → Phrase category → Prop
  | _, .expression first others => first.Faultless ∧ others.Faultless
  | _, .operand _ _ primary _ => primary.Faultless
  | _, .bare atom _ => atom.Faultless
  | _, .subscripted atom _ _ first others _ =>
      atom.isName = true ∧ atom.Faultless ∧ first.Faultless ∧ others.Faultless
  | _, .token own => own.rule = .integer → fitsInt64 (integerValue own.text) = true
  | _, .parens _ first others _ => first.Faultless ∧ others.Faultless
  | _, .mapping _ key _ value others =>
      key.Faultless ∧ value.Faultless ∧ others.Faultless
  | _, .set _ first others => first.Faultless ∧ others.Faultless
  | _, .brackets _ first others => first.Faultless ∧ others.Faultless
  | _, .bar _ next => next.Faultless
  | _, .comma _ next => next.Faultless
  | _, .entry _ key _ value => key.Faultless ∧ value.Faultless
  | _, .nil => True
  | _, .cons first others => first.Faultless ∧ others.Faultless

end Phrase

/-! ## What the nodes contribute -/

theorem typesOfAll_append (left right : List (Node Rule)) :
    typesOfAll (left ++ right) = typesOfAll left ++ typesOfAll right := by
  induction left with
  | nil => rfl
  | cons first rest ih => rw [List.cons_append, typesOfAll, ih, typesOfAll, List.append_assoc]

theorem firstFaultOf?_append (left right : List (Node Rule)) :
    firstFaultOf? (left ++ right) = (firstFaultOf? left).or (firstFaultOf? right) := by
  induction left with
  | nil => rfl
  | cons first rest ih => rw [List.cons_append, firstFaultOf?, ih, firstFaultOf?, Option.or_assoc]

namespace Prefixes

/-- Keywords contribute nothing but their rules. -/
theorem typesOfAll_nodes (prefixes : Prefixes) :
    ∀ position, typesOfAll (prefixes.nodes position) = [] := by
  induction prefixes with
  | nil => exact fun _ => rfl
  | cons first others ih =>
      intro position
      rw [nodes, typesOfAll, ih]
      cases first.1 <;> rfl

theorem firstFaultOf?_nodes (prefixes : Prefixes) :
    ∀ position, firstFaultOf? (prefixes.nodes position) = none := by
  induction prefixes with
  | nil => exact fun _ => rfl
  | cons first others ih =>
      intro position
      rw [nodes, firstFaultOf?, ih]
      cases first.1 <;> rfl

theorem filterMap_wrapper?_nodes (prefixes : Prefixes) :
    ∀ position, ((prefixes.nodes position).map Node.rule).filterMap wrapper? =
      prefixes.map fun (keyword, _) => keyword.container := by
  induction prefixes with
  | nil => exact fun _ => rfl
  | cons first others ih =>
      intro position
      obtain ⟨keyword, behind⟩ := first
      have wraps : wrapper? (keyword.node position).rule = some keyword.container := by
        cases keyword <;> rfl
      rw [nodes, List.map_cons, List.filterMap_cons_some wraps, ih, List.map_cons]

end Prefixes

namespace Phrase

theorem map_rule_expression (phrase : Phrase .expression) (position : Nat) :
    (phrase.nodes position).map Node.rule = [.expression] := by
  cases phrase
  rfl

theorem map_rule_primary {word : Bool} (phrase : Phrase (.primary word)) (position : Nat) :
    (phrase.nodes position).map Node.rule = [.subscripted] := by
  cases phrase <;> rfl

theorem map_rule_atom {word : Bool} (phrase : Phrase (.atom word)) (position : Nat) :
    ∃ rule, (phrase.nodes position).map Node.rule = [rule] ∧ rule ≠ .subscript ∧
      (rule = .name ↔ phrase.isName = true) := by
  cases phrase with
  | token own =>
      obtain ⟨rule, text, shape⟩ := own
      refine ⟨rule, rfl, ?_, by simp [isName]⟩
      rintro rfl
      cases shape
  | _ => exact ⟨_, rfl, Rule.noConfusion, by simp [isName]⟩

theorem comma_mem_map_rule (phrase : Phrase (.items .comma)) (position : Nat) :
    .comma ∈ (phrase.nodes position).map Node.rule ↔ phrase.isNil = false := by
  cases phrase with
  | nil => simp [nodes, isNil]
  | cons first others =>
      cases first
      simp [nodes, isNil, markNode]

theorem combine_subscripted {text : List Char} {parts : List Rule} (types : List TypeExpr)
    (subscript : .subscript ∈ parts) :
    combine .subscripted text parts types = applied types := by
  cases types with
  | nil => rfl
  | cons first others => cases first <;> simp [combine, applied, subscript]

theorem combine_subscripted_bare {text : List Char} {parts : List Rule} (types : List TypeExpr)
    (bare : .subscript ∉ parts) : combine .subscripted text parts types = types := by
  cases types with
  | nil => rfl
  | cons first others => cases first <;> simp [combine, bare]

/-- The nodes of a phrase contribute its trees. -/
theorem typesOfAll_nodes {category : Category} (phrase : Phrase category) :
    ∀ position, typesOfAll (phrase.nodes position) = phrase.trees := by
  induction phrase with
  | expression first others firstIh othersIh =>
      intro position
      simp only [nodes, typesOfAll, typesOf, typesOfAll_append, firstIh, othersIh,
        List.append_nil, trees]
      rfl
  | operand prefixes apart primary mark ih =>
      intro position
      simp only [nodes, typesOfAll, typesOf, List.append_nil, typesOfAll_append,
        Prefixes.typesOfAll_nodes, List.nil_append, ih, combine, List.map_append,
        List.filterMap_append, Prefixes.filterMap_wrapper?_nodes, map_rule_primary]
      have unwrapped : [Rule.subscripted].filterMap wrapper? = [] := rfl
      cases mark <;> simp [trees, markNode, unwrapped, typesOfAll, typesOf, combine]
  | bare atom behind ih =>
      intro position
      obtain ⟨rule, rules, notSubscript, -⟩ := map_rule_atom atom position
      simp only [nodes, typesOfAll, typesOf, List.append_nil, ih, trees]
      exact combine_subscripted_bare _ (by simpa [rules] using notSubscript.symm)
  | subscripted atom before inside first others behind atomIh firstIh othersIh =>
      intro position
      simp only [nodes, typesOfAll, typesOf, typesOfAll_append, List.append_nil, atomIh, firstIh,
        othersIh, trees]
      rw [combine_subscripted _ (by simp)]
      simp [combine, markNode, typesOf]
  | token own =>
      intro position
      simp [nodes, typesOfAll, typesOf, trees]
  | parens inside first others closing firstIh othersIh =>
      intro position
      have commas := comma_mem_map_rule others
      simp only [nodes, typesOfAll, typesOf, typesOfAll_append, List.append_nil, firstIh,
        othersIh, trees, combine, List.map_append, List.mem_append, map_rule_expression, commas]
      cases closing <;> cases nil : others.isNil
      all_goals simp [markNode, typesOfAll, typesOf, combine]
      · cases others with
        | nil => rfl
        | cons => cases nil
  | mapping inside key between value others keyIh valueIh othersIh =>
      intro position
      simp [nodes, typesOfAll, typesOf, typesOfAll_append, keyIh, valueIh, othersIh, trees,
        combine, markNode]
  | set inside first others firstIh othersIh =>
      intro position
      simp [nodes, typesOfAll, typesOf, typesOfAll_append, firstIh, othersIh, trees, combine,
        markNode, map_rule_expression]
  | brackets inside first others firstIh othersIh =>
      intro position
      simp [nodes, typesOfAll, typesOf, typesOfAll_append, firstIh, othersIh, trees, combine,
        markNode]
  | bar behind next ih => exact fun position => ih _
  | comma behind next ih => exact fun position => ih _
  | entry behind key between value keyIh valueIh =>
      intro position
      simp [nodes, typesOfAll, typesOf, typesOfAll_append, keyIh, valueIh, trees, combine,
        markNode]
  | nil => exact fun _ => rfl
  | cons first others firstIh othersIh =>
      intro position
      simp only [nodes, typesOfAll_append, firstIh, othersIh, trees]

/-- The nodes of a phrase have a fault exactly if the phrase has one. -/
theorem firstFaultOf?_nodes_eq_none_iff {category : Category} (phrase : Phrase category) :
    ∀ position, firstFaultOf? (phrase.nodes position) = none ↔ phrase.Faultless := by
  induction phrase with
  | expression first others firstIh othersIh =>
      intro position
      simp [nodes, firstFaultOf?, firstFault?, fault?, firstFaultOf?_append, firstIh, othersIh,
        Faultless]
  | operand prefixes apart primary mark ih =>
      intro position
      cases mark <;>
        simp [nodes, firstFaultOf?, firstFault?, fault?, firstFaultOf?_append,
          Prefixes.firstFaultOf?_nodes, ih, Faultless, markNode]
  | bare atom behind ih =>
      intro position
      obtain ⟨rule, rules, notSubscript, -⟩ := map_rule_atom atom position
      obtain ⟨node, only, rfl⟩ := List.map_eq_singleton_iff.mp rules
      have inner := ih position
      simp only [nodes, firstFaultOf?, firstFault?, Faultless, ← inner, only]
      simp [fault?]
  | subscripted atom before inside first others behind atomIh firstIh othersIh =>
      intro position
      obtain ⟨rule, rules, notSubscript, isName⟩ := map_rule_atom atom position
      obtain ⟨node, only, rfl⟩ := List.map_eq_singleton_iff.mp rules
      have inner := atomIh position
      simp only [nodes, firstFaultOf?, firstFault?, firstFaultOf?_append, Faultless, ← inner, only,
        ← isName]
      by_cases name : node.rule = .name
      · simp [fault?, name, markNode, firstFaultOf?, firstFault?, firstIh, othersIh]
      · simp [fault?, name]
  | token own =>
      intro position
      simp only [nodes, firstFaultOf?, firstFault?, Faultless, Option.or_none]
      obtain ⟨rule, text, shape⟩ := own
      cases shape <;> simp [fault?]
  | parens inside first others closing firstIh othersIh =>
      intro position
      cases closing <;>
        simp [nodes, firstFaultOf?, firstFault?, fault?, firstFaultOf?_append, firstIh, othersIh,
          Faultless, markNode]
  | nil => exact fun _ => by simp [nodes, firstFaultOf?, Faultless]
  | _ =>
      intro position
      simp [nodes, firstFaultOf?, firstFault?, fault?, firstFaultOf?_append, Faultless, markNode,
        *]

/-! ## Single trees -/

theorem exists_trees_expression (phrase : Phrase .expression) :
    ∃ tree, phrase.trees = [tree] := by
  cases phrase with
  | expression first others =>
      rw [trees]
      rcases first.trees ++ others.trees with _ | ⟨single, _ | ⟨second, more⟩⟩ <;>
        exact ⟨_, rfl⟩

theorem exists_name_of_isName {word : Bool} (atom : Phrase (.atom word))
    (isName : atom.isName = true) : ∃ base, atom.trees = [.name base] := by
  cases atom with
  | token own =>
      obtain ⟨rule, text, shape⟩ := own
      cases of_decide_eq_true isName
      exact ⟨_, rfl⟩
  | _ => cases isName

theorem exists_trees_atom {word : Bool} (atom : Phrase (.atom word)) :
    ∃ tree, atom.trees = [tree] := by
  cases atom with
  | token own =>
      obtain ⟨rule, text, shape⟩ := own
      cases shape <;> exact ⟨_, rfl⟩
  | parens inside first others closing =>
      rw [trees]
      split
      · exact first.exists_trees_expression
      · exact ⟨_, rfl⟩
  | _ => exact ⟨_, rfl⟩

/-- Only a name takes a subscript, so a primary without a fault is one tree. -/
theorem exists_trees_primary {word : Bool} (primary : Phrase (.primary word))
    (faultless : primary.Faultless) : ∃ tree, primary.trees = [tree] := by
  cases primary with
  | bare atom behind => exact atom.exists_trees_atom
  | subscripted atom before inside first others behind =>
      obtain ⟨base, name⟩ := atom.exists_name_of_isName faultless.1
      exact ⟨.generic base (first.trees ++ others.trees), by rw [trees, name]; rfl⟩

theorem exists_trees_operand (operand : Phrase .operand) (faultless : operand.Faultless) :
    ∃ tree, operand.trees = [tree] := by
  cases operand with
  | operand prefixes apart primary mark =>
      obtain ⟨tree, single⟩ := primary.exists_trees_primary faultless
      cases mark <;> simp [trees, single]

end Phrase

end TypeSpelling.Source
