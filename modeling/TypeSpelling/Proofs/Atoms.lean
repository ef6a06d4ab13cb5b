import TypeSpelling.Proofs.Calls

/-!
# Atoms

The alternatives of an atom are tried in order, and the beginning of a text
leaves only one of them, apart from names: a byte string and the wildcard begin
like a name.  A token is therefore taken wherever nothing behind it carries it
on.
-/

namespace TypeSpelling.Source

open TypeSpelling.Peg
open TypeSpelling.Text

/-- The rules of atoms in the order in which they are tried. -/
def atomRules : List Rule :=
  [.bytes, .string, .integer, .boolean, .null, .ellipsis, .wildcard, .parens, .braces, .brackets,
    .name]

theorem call?_atom :
    grammar.call? false .atom =
      (Expr.firstOf (atomRules.map .call)).match? isBlank (grammar.call? false) := by
  have literal : grammar.call? false .literal =
      (Expr.firstOf ([Rule.bytes, .string, .integer, .boolean, .null].map .call)).match? isBlank
        (grammar.call? false) := call?_silent rfl
  have atom : grammar.call? false .atom =
      (Expr.firstOf ([Rule.literal, .ellipsis, .wildcard, .parens, .braces, .brackets, .name].map
        .call)).match? isBlank (grammar.call? false) := call?_silent rfl
  funext position input
  rw [atom]
  simp only [atomRules, List.map_cons, List.map_nil, Expr.firstOf, Expr.match?, literal]
  cases grammar.call? false .bytes position input <;>
    cases grammar.call? false .string position input <;>
      cases grammar.call? false .integer position input <;>
        cases grammar.call? false .boolean position input <;> rfl

/-- The rule of atoms that a word belongs to, or that of keywords. -/
def wordRule (word : List Char) : Rule :=
  if ((wordsOf .boolean).map String.toList).contains word then .boolean
  else if ((wordsOf .null).map String.toList).contains word then .null
  else if word = "_".toList then .wildcard
  else if (Rule.keywords.map String.toList).contains word then .keyword
  else .name

/-- The rule that the beginning of an atom or of a keyword leaves. -/
def leadingRule? (input : List Char) : Option Rule :=
  match firstWord input, input.head? with
  | [], some '"' | [], some '\'' => some .string
  | [], some '-' => some .integer
  | [], some '.' => some .ellipsis
  | [], some '(' => some .parens
  | [], some '\x7b' => some .braces
  | [], some '[' => some .brackets
  | [], _ => none
  | c :: word, _ =>
      if isDigit c then some .integer
      else if c :: word = ['b'] ∧ (behindWord input).head?.any (fun d => d = '"' || d = '\'') then
        some .bytes
      else some (wordRule (c :: word))

theorem isDigit_of_isWordStart {c : Char} (starts : isWordStart c = true) : isDigit c = false := by
  simp only [isWordStart, isLetter, Bool.or_eq_true, Bool.and_eq_true, decide_eq_true_eq] at starts
  simp only [isDigit, Bool.and_eq_false_iff, decide_eq_false_iff_not]
  rcases starts with (⟨low, -⟩ | ⟨low, -⟩) | rfl
  · exact .inr fun high => absurd (Char.le_trans low high) (by decide)
  · exact .inr fun high => absurd (Char.le_trans low high) (by decide)
  · exact .inr (by decide)

theorem leadingRule?_of_segment {input segment : List Char} (first : firstWord input = segment)
    (isSegment : IsSegment segment)
    (notBytes : segment = ['b'] → StartsWithout (fun c => c = '"' || c = '\'') (behindWord input)) :
    leadingRule? input = some (wordRule segment) := by
  obtain ⟨c, rest, rfl, starts, -⟩ := isSegment
  rw [leadingRule?, first]
  simp only [isDigit_of_isWordStart starts, Bool.false_eq_true, if_false]
  rw [if_neg]
  rintro ⟨same, quotes⟩
  obtain ⟨mark, head, isMark⟩ := (Option.any_eq_true _ _).mp quotes
  cases (notBytes same mark head).symm.trans isMark

theorem leadingRule?_of_word {rule : Rule} (isWord : IsWordRule rule)
    (leads : ∀ word ∈ wordsOf rule,
      IsSegment word.toList ∧ word.toList ≠ ['b'] ∧ wordRule word.toList = rule)
    {position : Nat} {input : List Char} {found : Match Rule}
    (matched : grammar.call? false rule position input = some found) :
    leadingRule? input = some rule := by
  obtain ⟨⟨word, mem, first⟩, -⟩ := (call?_word_eq_some_iff isWord).mp matched
  obtain ⟨segment, notBytes, same⟩ := leads word mem
  rw [leadingRule?_of_segment first segment fun single => absurd single notBytes, same]

/-- What a rule takes that begins with a bracket. -/
theorem exists_of_call?_bracket {rule : Rule} (node : rule.kind = .node) {mark : Char}
    {second : Expr Rule} {others : List (Expr Rule)}
    (body : rule.body = Expr.spaced (.text [mark] :: second :: others)) {position : Nat}
    {input : List Char} {found : Match Rule}
    (matched : grammar.call? false rule position input = some found) :
    ∃ rest, input = mark :: rest := by
  obtain ⟨inner, bodyMatched, -⟩ := (call?_node_eq_some_iff node).mp matched
  rw [body] at bodyMatched
  obtain ⟨_, _, markMatched, -⟩ := match?_spaced_cons_eq_some_iff.mp bodyMatched
  obtain ⟨rest, rfl, -⟩ := match?_text_eq_some_iff.mp markMatched
  exact ⟨rest, rfl⟩

/-- A rule of atoms other than that of names matches only behind its own beginning. -/
theorem leadingRule?_of_call? {rule : Rule} (mem : rule ∈ atomRules) (notName : rule ≠ .name)
    {position : Nat} {input : List Char} {found : Match Rule}
    (matched : grammar.call? false rule position input = some found) :
    leadingRule? input = some rule := by
  simp only [atomRules, List.mem_cons, List.not_mem_nil, or_false] at mem
  rcases mem with rfl | rfl | rfl | rfl | rfl | rfl | rfl | rfl | rfl | rfl | rfl
  · obtain ⟨_, rest, ⟨mark, contents, isMark, -, rfl⟩, rfl, -⟩ := call?_bytes_eq_some_iff.mp matched
    rcases isMark with rfl | rfl <;> rfl
  · obtain ⟨_, rest, ⟨mark, contents, isMark, -, rfl⟩, rfl, -⟩ :=
      call?_string_eq_some_iff.mp matched
    rcases isMark with rfl | rfl <;> rfl
  · obtain ⟨chars, rest, ⟨digits, nonempty, areDigits, plain | negative⟩, -, rfl, -⟩ :=
      call?_integer_eq_some_iff.mp matched
    · subst plain
      cases chars with
      | nil => exact absurd rfl nonempty
      | cons c others =>
          have digit := areDigits c (List.mem_cons_self ..)
          simp [leadingRule?, firstWord, isWordChar_of_isDigit digit, digit]
    · subst negative
      rfl
  · exact leadingRule?_of_word isWordRule_boolean (by decide) matched
  · exact leadingRule?_of_word isWordRule_null (by decide) matched
  · obtain ⟨_, matched, -⟩ := (call?_node_eq_some_iff rfl).mp matched
    obtain ⟨rest, rfl, -⟩ := match?_text_eq_some_iff.mp matched
    rfl
  · exact leadingRule?_of_word isWordRule_wildcard (by decide) matched
  · obtain ⟨rest, rfl⟩ := exists_of_call?_bracket rfl rfl matched
    rfl
  · obtain ⟨rest, rfl⟩ := exists_of_call?_bracket rfl rfl matched
    rfl
  · obtain ⟨rest, rfl⟩ := exists_of_call?_bracket rfl rfl matched
    rfl
  · exact absurd rfl notName

/-- An atom is matched by the rule that its beginning leaves. -/
theorem call?_atom_of_call? {rule : Rule} (mem : rule ∈ atomRules) {position : Nat}
    {input : List Char} (leads : leadingRule? input = some rule) {found : Match Rule}
    (matched : grammar.call? false rule position input = some found) :
    grammar.call? false .atom position input = some found := by
  have nameLast : ∀ rule ∈ atomRules, Rule.name ∉ atomRules.takeWhile (· ≠ rule) := by decide
  rw [call?_atom]
  refine match?_firstOf_calls mem (fun other otherMem => ?_) matched
  have isOther : other ≠ rule := by
    simpa using List.all_eq_true.mp List.all_takeWhile other otherMem
  have notName : other ≠ .name := by
    rintro rfl
    exact nameLast rule mem otherMem
  refine Option.eq_none_iff_forall_ne_some.mpr fun found otherMatched => isOther ?_
  have otherLeads := leadingRule?_of_call? ((List.takeWhile_prefix _).subset otherMem) notName
    otherMatched
  rw [leads] at otherLeads
  exact (Option.some.inj otherLeads).symm

/-- What a token cannot have behind it: more of a word or a name, or the marks
that would make a byte string of a name. -/
def carriesOn (c : Char) : Bool :=
  isWordChar c || c = '.' || (c = '"' || c = '\'')

theorem leadingRule?_name {chars rest : List Char} (name : IsName chars)
    (stops : StartsWithout carriesOn rest) : leadingRule? (chars ++ rest) = some .name := by
  obtain ⟨first, others, rfl, isSegment, noKeyword, segments⟩ := name
  have wordStops : StartsWithout isWordChar rest :=
    stops.mono fun c passes => by simp [carriesOn, passes]
  have tailStops := startsWithout_dotted_append others wordStops
  have firstIs := firstWord_append isSegment.wordChars tailStops
  have behindIs := behindWord_append isSegment.wordChars tailStops
  have notOneOf : ∀ words ⊆ "_" :: Rule.keywords,
      ¬(words.map String.toList).contains first = true := by
    intro words among listed
    obtain ⟨word, wordMem, same⟩ := List.mem_map.mp (List.contains_iff_mem.mp listed)
    exact noKeyword word (among wordMem) same.symm
  rw [List.append_assoc, leadingRule?_of_segment firstIs isSegment]
  · rw [wordRule, if_neg (notOneOf _ (by decide)), if_neg (notOneOf _ (by decide)),
      if_neg (noKeyword "_" (List.mem_cons_self ..)), if_neg (notOneOf _ (by decide))]
  · intro _
    rw [behindIs]
    cases others with
    | nil => exact stops.mono fun c quotes => (Bool.or_eq_true _ _).mpr (.inr quotes)
    | cons segment others => exact startsWithout_cons.mpr rfl

theorem TokenShape.rule_mem {rule : Rule} {text : List Char} (shape : TokenShape rule text) :
    rule ∈ atomRules := by
  cases shape <;> decide

theorem call?_token_append (own : Token) {rest : List Char} (stops : StartsWithout carriesOn rest)
    (position : Nat) :
    grammar.call? false own.rule position (own.text ++ rest) =
      some ⟨own.text, rest, [⟨own.rule, position, own.text, []⟩]⟩ := by
  have wordStops : StartsWithout isWordChar rest :=
    stops.mono fun c passes => by simp [carriesOn, passes]
  have noDot : StartsWithout (fun c => c = '.') rest :=
    stops.mono fun c isDot => by simp at isDot; simp [carriesOn, isDot]
  have wordMatched : ∀ {rule : Rule} (isWord : IsWordRule rule), ∀ word ∈ wordsOf rule,
      grammar.call? false rule position (word.toList ++ rest) =
        some ⟨word.toList, rest, [⟨rule, position, word.toList, []⟩]⟩ := by
    intro rule isWord word mem
    have wordChars := isWord.2.1.wordChars word mem
    rw [call?_word_eq_some_iff isWord, firstWord_append wordChars wordStops,
      behindWord_append wordChars wordStops]
    exact ⟨⟨word, mem, rfl⟩, rfl⟩
  obtain ⟨rule, text, shape⟩ := own
  cases shape with
  | name name => exact call?_name_append name wordStops noDot false position
  | wildcard => exact wordMatched isWordRule_wildcard "_" (by decide)
  | ellipsis =>
      exact (call?_node_eq_some_iff rfl).mpr
        ⟨_, match?_text_append "...".toList rest position, rfl⟩
  | string quoted => exact call?_string_eq_some_iff.mpr ⟨text, rest, quoted, rfl, rfl⟩
  | bytes quoted => exact call?_bytes_eq_some_iff.mpr ⟨_, rest, quoted, rfl, rfl⟩
  | integer integer =>
      exact call?_integer_eq_some_iff.mpr ⟨text, rest, integer, wordStops, rfl, rfl⟩
  | boolean wordMem => exact wordMatched isWordRule_boolean _ wordMem
  | null wordMem => exact wordMatched isWordRule_null _ wordMem

theorem leadingRule?_token (own : Token) {rest : List Char}
    (stops : StartsWithout carriesOn rest) :
    leadingRule? (own.text ++ rest) = some own.rule := by
  by_cases isName : own.rule = .name
  · obtain ⟨rule, text, shape⟩ := own
    subst isName
    cases shape with
    | name name => exact leadingRule?_name name stops
  · exact leadingRule?_of_call? own.shape.rule_mem isName (call?_token_append own stops 0)

/-- A token is taken where nothing behind it carries it on. -/
theorem call?_atom_token (own : Token) {rest : List Char} (stops : StartsWithout carriesOn rest)
    (position : Nat) :
    grammar.call? false .atom position (own.text ++ rest) =
      some ⟨own.text, rest, [⟨own.rule, position, own.text, []⟩]⟩ :=
  call?_atom_of_call? own.shape.rule_mem (leadingRule?_token own stops)
    (call?_token_append own stops position)

/-- The rules of atoms that are put in brackets. -/
def bracketRules : List Rule :=
  [.parens, .braces, .brackets]

/-- What a rule of atoms takes that is not put in brackets is a token. -/
theorem exists_token_of_call? {rule : Rule} (mem : rule ∈ atomRules) (token : rule ∉ bracketRules)
    {position : Nat} {input : List Char} (notWildcard : rule = .name → firstWord input ≠ "_".toList)
    {found : Match Rule} (matched : grammar.call? false rule position input = some found) :
    ∃ (own : Token) (rest : List Char),
      found = ⟨own.text, rest, [⟨own.rule, position, own.text, []⟩]⟩ := by
  have word : ∀ {rule : Rule} (isWord : IsWordRule rule)
      (shape : ∀ word ∈ wordsOf rule, TokenShape rule word.toList),
      grammar.call? false rule position input = some found →
        ∃ (own : Token) (rest : List Char),
          found = ⟨own.text, rest, [⟨own.rule, position, own.text, []⟩]⟩ := by
    intro rule isWord shape called
    obtain ⟨⟨word, wordMem, first⟩, rfl⟩ := (call?_word_eq_some_iff isWord).mp called
    exact ⟨⟨rule, firstWord input, first ▸ shape word wordMem⟩, _, rfl⟩
  simp only [atomRules, List.mem_cons, List.not_mem_nil, or_false] at mem
  rcases mem with rfl | rfl | rfl | rfl | rfl | rfl | rfl | rfl | rfl | rfl | rfl
  · obtain ⟨chars, rest, quoted, -, rfl⟩ := call?_bytes_eq_some_iff.mp matched
    exact ⟨⟨.bytes, _, .bytes quoted⟩, rest, rfl⟩
  · obtain ⟨chars, rest, quoted, -, rfl⟩ := call?_string_eq_some_iff.mp matched
    exact ⟨⟨.string, _, .string quoted⟩, rest, rfl⟩
  · obtain ⟨chars, rest, integer, -, -, rfl⟩ := call?_integer_eq_some_iff.mp matched
    exact ⟨⟨.integer, _, .integer integer⟩, rest, rfl⟩
  · exact word isWordRule_boolean (fun _ => .boolean) matched
  · exact word isWordRule_null (fun _ => .null) matched
  · obtain ⟨_, inner, rfl⟩ := (call?_node_eq_some_iff rfl).mp matched
    obtain ⟨rest, -, rfl⟩ := match?_text_eq_some_iff.mp inner
    exact ⟨⟨.ellipsis, _, .ellipsis⟩, rest, rfl⟩
  · refine word isWordRule_wildcard (fun word wordMem => ?_) matched
    cases List.mem_singleton.mp wordMem
    exact .wildcard
  · exact absurd (by decide) token
  · exact absurd (by decide) token
  · exact absurd (by decide) token
  · obtain ⟨name, nodes⟩ := isName_of_call? matched (notWildcard rfl)
    exact ⟨⟨.name, found.text, .name name⟩, found.rest,
      congrArg (Match.mk found.text found.rest) nodes⟩

/-- An atom is a token or is put in brackets. -/
theorem cases_of_call?_atom {position : Nat} {input : List Char} {found : Match Rule}
    (matched : grammar.call? false .atom position input = some found) :
    (∃ (own : Token) (rest : List Char),
        found = ⟨own.text, rest, [⟨own.rule, position, own.text, []⟩]⟩) ∨
      ∃ rule ∈ bracketRules, grammar.call? false rule position input = some found := by
  by_cases wildcard : firstWord input = "_".toList
  · have taken : grammar.call? false .wildcard position input =
        some ⟨firstWord input, behindWord input, [⟨.wildcard, position, firstWord input, []⟩]⟩ :=
      (call?_word_eq_some_iff isWordRule_wildcard).mpr ⟨⟨"_", by decide, wildcard⟩, rfl⟩
    have leads := leadingRule?_of_call? (by decide) (by decide) taken
    rw [call?_atom_of_call? (by decide) leads taken] at matched
    cases matched
    exact .inl ⟨⟨.wildcard, firstWord input, wildcard ▸ .wildcard⟩, _, rfl⟩
  · rw [call?_atom] at matched
    obtain ⟨_, mem, called⟩ := exists_of_match?_firstOf matched
    obtain ⟨rule, ruleMem, rfl⟩ := List.mem_map.mp mem
    by_cases bracket : rule ∈ bracketRules
    · exact .inr ⟨rule, bracket, called⟩
    · exact .inl (exists_token_of_call? ruleMem bracket (fun _ => wildcard) called)

end TypeSpelling.Source
