import Mathlib.Data.List.Forall2
import TypeSpelling.Proofs.Writable

/-!
# Composing texts

Texts that are put together like the phrases of the grammar, without the phrases
in sight.  A text is read as a tree at one of five levels, and a text of a lower
level is one of every higher level: an atom, an atom with a subscript, that
behind keywords, that in front of a question mark, and operands with bars
between them.  Each way to put texts together is one theorem, which says what is
read from the parts and at which level.
-/

namespace TypeSpelling.Source

open TypeSpelling.Peg
open TypeSpelling.Text

/-! ## Levels -/

/-- A text is a phrase of the category without a fault, and stands for the trees. -/
def Composes (category : Category) (text : List Char) (trees : List TypeExpr) : Prop :=
  ∃ phrase : Phrase category, phrase.text = text ∧ phrase.Faultless ∧ phrase.trees = trees

/-- A token or a text in brackets. -/
def ReadsAsAtom (text : String) (tree : TypeExpr) : Prop :=
  ∃ word, Composes (.atom word) text.toList [tree]

/-- An atom, perhaps with a subscript. -/
def ReadsAsPrimary (text : String) (tree : TypeExpr) : Prop :=
  ∃ word, Composes (.primary word) text.toList [tree]

/-- A primary behind keywords, perhaps none. -/
def ReadsAsPrefixed (text : String) (tree : TypeExpr) : Prop :=
  ∃ (word : Bool) (prefixes : Prefixes) (_ : prefixes.Apart word) (chars : List Char)
    (inner : TypeExpr), Composes (.primary word) chars [inner] ∧
      text.toList = prefixes.text ++ chars ∧
      tree = wrap (prefixes.map fun (keyword, _) => keyword.container) inner

/-- A primary behind keywords, perhaps with a question mark. -/
def ReadsAsOperand (text : String) (tree : TypeExpr) : Prop :=
  Composes .operand text.toList [tree]

/-- Operands with bars between them, perhaps behind blanks. -/
def ReadsAsExpression (text : String) (tree : TypeExpr) : Prop :=
  ∃ (before : Blanks) (chars : List Char), Composes .expression chars [tree] ∧
    text.toList = before.chars ++ chars

theorem ReadsAsAtom.primary {text : String} {tree : TypeExpr} (reads : ReadsAsAtom text tree) :
    ReadsAsPrimary text tree := by
  obtain ⟨word, phrase, chars, faultless, trees⟩ := reads
  exact ⟨word, .bare phrase .none, by simp [chars, Blanks.none], faultless, trees⟩

theorem ReadsAsPrimary.prefixed {text : String} {tree : TypeExpr}
    (reads : ReadsAsPrimary text tree) : ReadsAsPrefixed text tree := by
  obtain ⟨word, composes⟩ := reads
  exact ⟨word, [], trivial, text.toList, tree, composes, rfl, rfl⟩

theorem ReadsAsPrefixed.operand {text : String} {tree : TypeExpr}
    (reads : ReadsAsPrefixed text tree) : ReadsAsOperand text tree := by
  obtain ⟨word, prefixes, apart, _, inner, ⟨phrase, rfl, faultless, trees⟩, chars, rfl⟩ := reads
  refine ⟨.operand prefixes apart phrase none, ?_, faultless, ?_⟩
  · simp [chars, Phrase.markText]
  · simp [Phrase.trees, trees]

theorem ReadsAsOperand.expression {text : String} {tree : TypeExpr}
    (reads : ReadsAsOperand text tree) : ReadsAsExpression text tree := by
  obtain ⟨phrase, chars, faultless, trees⟩ := reads
  refine ⟨.none, text.toList, ⟨.expression phrase .nil, ?_, ⟨faultless, trivial⟩, ?_⟩, rfl⟩
  · simp [chars]
  · simp [Phrase.trees, trees, Phrase.joined]

/-- A text is read as a tree wherever its nesting is allowed. -/
theorem parseWithin_eq_ok_iff {limit : Nat} {text : String} {tree : TypeExpr} :
    parseWithin limit text = .ok tree ↔
      depthError? limit text.toList = none ∧ ReadsAsExpression text tree := by
  rw [parseWithin, parseChars_eq_ok_iff]
  refine and_congr_right fun _ => ⟨?_, ?_⟩
  · rintro ⟨before, phrase, chars, faultless, trees⟩
    exact ⟨before, _, ⟨phrase, rfl, faultless, trees⟩, chars⟩
  · rintro ⟨before, _, ⟨phrase, rfl, faultless, trees⟩, chars⟩
    exact ⟨before, phrase, chars, faultless, trees⟩

/-- A limit that is no smaller than the text allows its nesting. -/
theorem ReadsAsExpression.parseWithin {text : String} {tree : TypeExpr}
    (reads : ReadsAsExpression text tree) {limit : Nat} (fits : text.utf8ByteSize ≤ limit) :
    parseWithin limit text = .ok tree :=
  parseWithin_eq_ok_iff.mpr ⟨depthError?_eq_none (by rwa [utf8Length_toList]), reads⟩

/-- A text is read as one tree at most. -/
theorem ReadsAsExpression.unique {text : String} {tree other : TypeExpr}
    (reads : ReadsAsExpression text tree) (also : ReadsAsExpression text other) :
    tree = other := by
  have parsed := reads.parseWithin (Nat.le_refl _)
  rw [also.parseWithin (Nat.le_refl _)] at parsed
  exact (Except.ok.inj parsed).symm

/-! ## Tokens -/

theorem readsAsAtom_token {text : String} {tree : TypeExpr} {rule : Rule}
    (shape : TokenShape rule text.toList)
    (fits : rule = .integer → fitsInt64 (integerValue text.toList) = true)
    (trees : combine rule text.toList [] [] = [tree]) : ReadsAsAtom text tree :=
  ⟨_, .token ⟨rule, text.toList, shape⟩, Phrase.text_token _, fits, trees⟩

theorem readsAsAtom_name {path : String} (name : IsName path.toList) :
    ReadsAsAtom path (.name path) :=
  readsAsAtom_token (.name name) (by simp) (by simp [combine, String.ofList_toList])

theorem readsAsAtom_wildcard : ReadsAsAtom "_" .wildcard :=
  readsAsAtom_token .wildcard (by simp) rfl

theorem readsAsAtom_ellipsis : ReadsAsAtom "..." .ellipsis :=
  readsAsAtom_token .ellipsis (by simp) rfl

/-! ## Literal values -/

theorem isDigit_of_mem_toDigits {n : Nat} {c : Char} (mem : c ∈ Nat.toDigits 10 n) :
    isDigit c = true := by
  have digit := Nat.isDigit_of_mem_toDigits (by decide) (by decide) mem
  simpa [isDigit, Char.isDigit, Char.le_def] using digit

theorem naturalValue_toDigits (n : Nat) : naturalValue (Nat.toDigits 10 n) = n :=
  Nat.ofDigitChars_ten_toDigits

/-- Writing an integer and reading it back gives the integer. -/
theorem integerValue_repr (value : Int) : integerValue value.repr.toList = value := by
  cases value with
  | ofNat n =>
      rw [Int.repr, Nat.toList_repr]
      have digits : ∀ c ∈ Nat.toDigits 10 n, isDigit c = true := fun _ => isDigit_of_mem_toDigits
      unfold integerValue
      split
      · rename_i others split
        rw [split] at digits
        exact absurd (digits '-' (List.mem_cons_self ..)) (by decide)
      · rw [naturalValue_toDigits]
        rfl
  | negSucc n =>
      rw [Int.repr, String.toList_append, Nat.toList_repr]
      change -(naturalValue (Nat.toDigits 10 (n + 1)) : Int) = _
      rw [naturalValue_toDigits]
      rfl

theorem isInteger_repr (value : Int) : IsInteger value.repr.toList := by
  cases value with
  | ofNat n =>
      refine ⟨Nat.toDigits 10 n, Nat.toDigits_ne_nil, fun _ => isDigit_of_mem_toDigits, .inl ?_⟩
      rw [Int.repr, Nat.toList_repr]
  | negSucc n =>
      refine ⟨Nat.toDigits 10 (n + 1), Nat.toDigits_ne_nil, fun _ => isDigit_of_mem_toDigits,
        .inr ?_⟩
      rw [Int.repr, String.toList_append, Nat.toList_repr]
      rfl

theorem readsAsAtom_int {value : Int} (fits : fitsInt64 value = true) :
    ReadsAsAtom value.repr (.literal [.int value]) :=
  readsAsAtom_token (.integer (isInteger_repr value)) (fun _ => by rwa [integerValue_repr])
    (by simp [combine, integerValue_repr])

theorem readsAsAtom_str {token : String} (quoted : IsQuoted token.toList) :
    ReadsAsAtom token (.literal [.str token]) :=
  readsAsAtom_token (.string quoted) (by simp) (by simp [combine, String.ofList_toList])

theorem readsAsAtom_bytes {token : String}
    (quoted : ∃ rest, token.toList = 'b' :: rest ∧ IsQuoted rest) :
    ReadsAsAtom token (.literal [.bytes token]) := by
  obtain ⟨rest, chars, quoted⟩ := quoted
  have shape : TokenShape .bytes token.toList := by
    rw [chars]
    exact .bytes quoted
  exact readsAsAtom_token shape (by simp) (by simp [combine, String.ofList_toList])

theorem readsAsAtom_bool {word : String} (mem : word ∈ wordsOf .boolean) {value : Bool}
    (means : (word = "true" ∨ word = "True") ↔ value = true) :
    ReadsAsAtom word (.literal [.bool value]) := by
  apply readsAsAtom_token (.boolean mem) (by simp)
  simp only [combine, String.toList_inj]
  cases value <;> simpa using means

theorem readsAsAtom_null {word : String} (mem : word ∈ wordsOf .null) :
    ReadsAsAtom word TypeExpr.null :=
  readsAsAtom_token (.null mem) (by simp) rfl

/-- The canonical spelling of a value is read as its literal. -/
theorem readsAsAtom_canonicalToken {value : LiteralValue} (writable : value.Writable) :
    ReadsAsAtom value.canonicalToken (.literal [value]) := by
  cases value with
  | str token => exact readsAsAtom_str writable
  | bytes token => exact readsAsAtom_bytes writable
  | int value => exact readsAsAtom_int writable
  | bool value => cases value <;> exact readsAsAtom_bool (by decide) (by decide)
  | null => exact readsAsAtom_null (by decide)

/-- The spelling of a value in the shorthand is read as its literal. -/
theorem readsAsAtom_shorthandToken {value : LiteralValue} (writable : value.Writable) :
    ReadsAsAtom value.shorthandToken (.literal [value]) := by
  cases value with
  | str token => exact readsAsAtom_str writable
  | bytes token => exact readsAsAtom_bytes writable
  | int value => exact readsAsAtom_int writable
  | bool value => cases value <;> exact readsAsAtom_bool (by decide) (by decide)
  | null => exact readsAsAtom_null (by decide)

/-! ## Lists -/

theorem intercalate_cons {α : Type} (separator first : List α) (rest : List (List α)) :
    separator.intercalate (first :: rest) =
      first ++ rest.flatMap fun item => separator ++ item := by
  induction rest generalizing first with
  | nil => simp
  | cons second others ih =>
      rw [List.intercalate_cons_cons, ih, List.flatMap_cons, List.append_assoc, List.append_assoc]

/-- The texts of items one behind the other are a list of items. -/
theorem composes_items {repetition : Repetition} (separator : List Char)
    {reads : String → TypeExpr → Prop}
    (item : ∀ text tree, reads text tree →
      Composes (.item repetition) (separator ++ text.toList) [tree])
    {texts : List String} {trees : List TypeExpr} (all : List.Forall₂ reads texts trees) :
    Composes (.items repetition)
      ((texts.map String.toList).flatMap fun text => separator ++ text) trees := by
  induction all with
  | nil => exact ⟨.nil, Phrase.text_nil, trivial, rfl⟩
  | cons first _ ih =>
      obtain ⟨firstPhrase, firstText, firstFaultless, firstTrees⟩ := item _ _ first
      obtain ⟨others, othersText, othersFaultless, othersTrees⟩ := ih
      refine ⟨.cons firstPhrase others, ?_, ⟨firstFaultless, othersFaultless⟩, ?_⟩
      · rw [Phrase.text_cons, firstText, othersText, List.map_cons, List.flatMap_cons]
      · rw [Phrase.trees, firstTrees, othersTrees, List.singleton_append]

/-- Blanks with more blanks behind them. -/
def Blanks.append (left right : Blanks) : Blanks :=
  ⟨left.chars ++ right.chars, List.forall_mem_append.mpr ⟨left.blank, right.blank⟩⟩

theorem composes_comma (gap : Blanks) {text : String} {tree : TypeExpr}
    (reads : ReadsAsExpression text tree) :
    Composes (.item .comma) (',' :: gap.chars ++ text.toList) [tree] := by
  obtain ⟨before, _, ⟨phrase, rfl, faultless, trees⟩, chars⟩ := reads
  refine ⟨.comma (gap.append before) phrase, ?_, faultless, trees⟩
  simp [chars, Blanks.append]

theorem composes_bar {text : String} {tree : TypeExpr} (reads : ReadsAsOperand text tree) :
    Composes (.item .bar) ('|' :: text.toList) [tree] := by
  obtain ⟨phrase, chars, faultless, trees⟩ := reads
  exact ⟨.bar .none phrase, by simp [chars, Blanks.none], faultless, trees⟩

/-- The texts of a list of arguments, with blanks behind the commas. -/
def ReadsAsArguments (text : List Char) (trees : List TypeExpr) : Prop :=
  ∃ (inside : Blanks) (first : Phrase .expression) (others : Phrase (.items .comma)),
    text = inside.chars ++ (first.text ++ others.text) ∧ first.Faultless ∧ others.Faultless ∧
      first.trees ++ others.trees = trees ∧ (others.isNil = true ↔ trees.length = 1)

/-- Expressions with commas between them are arguments. -/
theorem readsAsArguments_intercalate (separator : String) (gap : Blanks)
    (isComma : separator.toList = ',' :: gap.chars) {texts : List String} {trees : List TypeExpr}
    (some : trees ≠ []) (all : List.Forall₂ ReadsAsExpression texts trees) :
    ReadsAsArguments (separator.intercalate texts).toList trees := by
  cases all with
  | nil => exact absurd rfl some
  | @cons firstText firstTree texts trees first rest =>
      obtain ⟨inside, _, ⟨firstPhrase, rfl, firstFaultless, firstTrees⟩, chars⟩ := first
      obtain ⟨others, othersText, othersFaultless, othersTrees⟩ :=
        composes_items (',' :: gap.chars) (fun _ _ => composes_comma gap) rest
      refine ⟨inside, firstPhrase, others, ?_, firstFaultless, othersFaultless, ?_, ?_⟩
      · rw [String.toList_intercalate, isComma, List.map_cons, intercalate_cons, othersText, chars,
          List.append_assoc]
      · rw [firstTrees, othersTrees, List.singleton_append]
      · rw [others.isNil_iff_trees_eq_nil, othersTrees, List.length_cons, Nat.add_eq_right,
          List.length_eq_zero_iff]

/-! ## Brackets -/

/-- A name with arguments in a subscript. -/
theorem readsAsPrimary_subscript {base : String} {arguments : String} {args : List TypeExpr}
    (name : IsName base.toList) (reads : ReadsAsArguments arguments.toList args) :
    ReadsAsPrimary (base ++ "[" ++ arguments ++ "]") (.generic base args) := by
  obtain ⟨inside, first, others, chars, firstFaultless, othersFaultless, rfl, -⟩ := reads
  refine ⟨_, .subscripted (.token ⟨.name, base.toList, .name name⟩) .none inside first others .none,
    ?_, ⟨rfl, by simp [Phrase.Faultless], firstFaultless, othersFaultless⟩, ?_⟩
  · simp [chars, Blanks.none]
  · simp [Phrase.trees, combine, Phrase.applied, String.ofList_toList]

theorem readsAsAtom_parens {text : String} {tree : TypeExpr} (reads : ReadsAsExpression text tree) :
    ReadsAsAtom ("(" ++ text ++ ")") tree := by
  obtain ⟨inside, _, ⟨phrase, rfl, faultless, trees⟩, chars⟩ := reads
  refine ⟨_, .parens inside phrase .nil none, ?_, ⟨faultless, trivial⟩, ?_⟩
  · simp [chars, Phrase.closingComma]
  · simp [Phrase.trees, Phrase.isNil, trees]

/-- A tuple; a comma behind its only element keeps it from being that element. -/
theorem readsAsAtom_tuple {arguments : String} {elements : List TypeExpr}
    (reads : ReadsAsArguments arguments.toList elements) (closing : Bool)
    (several : closing = true ∨ elements.length ≠ 1) :
    ReadsAsAtom ("(" ++ arguments ++ (if closing then "," else "") ++ ")") (.tuple elements) := by
  obtain ⟨inside, first, others, chars, firstFaultless, othersFaultless, rfl, single⟩ := reads
  refine ⟨_, .parens inside first others (if closing then some .none else none), ?_,
    ⟨firstFaultless, othersFaultless⟩, ?_⟩
  · cases closing <;> simp [chars, Phrase.closingComma, Blanks.none]
  · cases closing with
    | true => simp [Phrase.trees]
    | false =>
        have notSingle := mt single.mp (several.resolve_left (by simp))
        simp [Phrase.trees, notSingle]

theorem readsAsAtom_sequence {arguments : String} {args : List TypeExpr}
    (reads : ReadsAsArguments arguments.toList args) :
    ReadsAsAtom ("[" ++ arguments ++ "]") (.container .sequence args) := by
  obtain ⟨inside, first, others, chars, firstFaultless, othersFaultless, rfl, -⟩ := reads
  refine ⟨_, .brackets inside first others, ?_, ⟨firstFaultless, othersFaultless⟩, rfl⟩
  simp [chars]

theorem readsAsAtom_set {arguments : String} {args : List TypeExpr}
    (reads : ReadsAsArguments arguments.toList args) :
    ReadsAsAtom ("\x7b" ++ arguments ++ "\x7d") (.container .set args) := by
  obtain ⟨inside, first, others, chars, firstFaultless, othersFaultless, rfl, -⟩ := reads
  refine ⟨_, .set inside first others, ?_, ⟨firstFaultless, othersFaultless⟩, rfl⟩
  simp [chars]

theorem readsAsAtom_mapping {keyText valueText : String} {key value : TypeExpr}
    (readsKey : ReadsAsExpression keyText key) (readsValue : ReadsAsExpression valueText value) :
    ReadsAsAtom ("\x7b" ++ keyText ++ ":" ++ valueText ++ "\x7d")
      (.container .mapping [key, value]) := by
  obtain ⟨inside, _, ⟨keyPhrase, rfl, keyFaultless, keyTrees⟩, keyChars⟩ := readsKey
  obtain ⟨between, _, ⟨valuePhrase, rfl, valueFaultless, valueTrees⟩, valueChars⟩ := readsValue
  refine ⟨_, .mapping inside keyPhrase between valuePhrase .nil, ?_,
    ⟨keyFaultless, valueFaultless, trivial⟩, ?_⟩
  · simp [keyChars, valueChars]
  · simp [Phrase.trees, keyTrees, valueTrees]

/-! ## Keywords, question marks and bars -/

theorem exists_keyword_of_keyword? {kind : Container} {word : String}
    (keyword? : kind.keyword? = some word) :
    ∃ keyword : Keyword, word.toList = keyword.text ∧ keyword.container = kind := by
  cases kind with
  | mapping | sequence | set => cases keyword?
  | iterable => exact ⟨.iter, by cases keyword?; rfl, rfl⟩
  | awaitable => exact ⟨.await, by cases keyword?; rfl, rfl⟩
  | asyncIterable =>
      exact ⟨.asyncIter .space (List.cons_ne_nil _ _), by cases keyword?; rfl, rfl⟩
  | contextManager => exact ⟨.with, by cases keyword?; rfl, rfl⟩
  | asyncContextManager =>
      exact ⟨.asyncWith .space (List.cons_ne_nil _ _), by cases keyword?; rfl, rfl⟩

/-- A keyword and a space. -/
theorem ReadsAsPrefixed.keyword {text : String} {tree : TypeExpr}
    (reads : ReadsAsPrefixed text tree) {word : String} (keyword : Keyword)
    (chars : word.toList = keyword.text) :
    ReadsAsPrefixed (word ++ " " ++ text) (.container keyword.container [tree]) := by
  obtain ⟨word, prefixes, apart, primary, inner, composes, split, rfl⟩ := reads
  refine ⟨word, (keyword, .space) :: prefixes, ?_, primary, inner, composes, ?_, rfl⟩
  · cases prefixes with
    | nil => exact fun _ => List.cons_ne_nil _ _
    | cons second others => exact ⟨List.cons_ne_nil _ _, apart⟩
  · simp [split, chars, Prefixes.text, Blanks.space]

/-- A question mark. -/
theorem ReadsAsPrefixed.marked {text : String} {tree : TypeExpr}
    (reads : ReadsAsPrefixed text tree) : ReadsAsOperand (text ++ "?") (.optional tree) := by
  obtain ⟨word, prefixes, apart, _, inner, ⟨phrase, rfl, faultless, trees⟩, chars, rfl⟩ := reads
  refine ⟨.operand prefixes apart phrase (some .none), ?_, faultless, ?_⟩
  · simp [chars, Phrase.markText, Blanks.none]
  · simp [Phrase.trees, trees]

theorem Phrase.joined_of_several {parts : List TypeExpr} (several : 2 ≤ parts.length) :
    Phrase.joined parts = [.union parts] := by
  unfold Phrase.joined
  split
  · simp at several
  · rfl

/-- Two or more operands with bars between them. -/
theorem readsAsExpression_union {texts : List String} {trees : List TypeExpr}
    (all : List.Forall₂ ReadsAsOperand texts trees) (several : 2 ≤ trees.length) :
    ReadsAsExpression ("|".intercalate texts) (.union trees) := by
  cases all with
  | nil => cases several
  | cons first rest =>
      obtain ⟨firstPhrase, firstText, firstFaultless, firstTrees⟩ := first
      obtain ⟨others, othersText, othersFaultless, othersTrees⟩ :=
        composes_items ['|'] (fun _ _ => composes_bar) rest
      refine ⟨.none, _, ⟨.expression firstPhrase others, rfl,
        ⟨firstFaultless, othersFaultless⟩, ?_⟩, ?_⟩
      · rw [Phrase.trees, firstTrees, othersTrees, List.singleton_append,
          Phrase.joined_of_several several]
      · rw [String.toList_intercalate, List.map_cons, intercalate_cons, Phrase.text_expression,
          firstText, othersText]
        rfl

end TypeSpelling.Source
