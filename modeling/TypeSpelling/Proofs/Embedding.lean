import TypeSpelling.Proofs.Composing
import TypeSpelling.Proofs.Levels
import TypeSpelling.Proofs.Writable

/-!
# Texts inside texts

What a text is read as does not depend on what stands around it.  Texts that are
put in brackets, between separators or behind a keyword keep their trees, and the
nesting of the whole is counted from the nesting of the parts: a bracket and a
keyword add a level each, and between separators the deepest part counts.
-/

namespace TypeSpelling.Source

open TypeSpelling.Peg
open TypeSpelling.Text
open Nesting

/-! ## The nesting of lists -/

/-- The nesting of the deepest of some texts. -/
def deepestOf (sources : List String) : Nat :=
  sources.foldr (fun source deepest => max (nestingOf source.toList) deepest) 0

theorem deepestOf_cons (first : String) (rest : List String) :
    deepestOf (first :: rest) = max (nestingOf first.toList) (deepestOf rest) :=
  rfl

theorem deepestOf_le_iff {sources : List String} {limit : Nat} :
    deepestOf sources ≤ limit ↔ ∀ source ∈ sources, nestingOf source.toList ≤ limit := by
  induction sources with
  | nil => simp [deepestOf]
  | cons first rest ih => rw [deepestOf_cons, Nat.max_le, List.forall_mem_cons, ih]

/-- A text that is read as an expression is counted the same wherever it stands. -/
theorem ReadsAsExpression.counts {text : String} {tree : TypeExpr}
    (reads : ReadsAsExpression text tree) :
    Category.expression.Counts (nestingOf text.toList) text.toList := by
  obtain ⟨before, _, ⟨phrase, rfl, -, -⟩, whole⟩ := reads
  intro nesting between
  rw [whole, nestingOf_text]
  exact (Source.counts phrase nesting between).behind_blanks before

/-- What a separator stands in front of does not carry on a word. -/
theorem stops_separated (separator : Char) (isSeparator : separator ∈ ['|', ',', ':'])
    (sources : List String) {rest : List Char} (stops : StartsWithout isNameChar rest) :
    StartsWithout isNameChar
      ((sources.flatMap fun source => separator :: source.toList) ++ rest) := by
  have nowhere : ['|', ',', ':'].any isNameChar = false := by decide
  cases sources with
  | nil => exact stops
  | cons first others =>
      exact startsWithout_cons.mpr
        (Bool.eq_false_iff.mpr (List.any_eq_false.mp nowhere _ isSeparator))

/-- Texts behind separators are counted like items. -/
theorem counts_separated (separator : Char) (isSeparator : separator ∈ ['|', ',', ':'])
    {sources : List String}
    (all : ∀ source ∈ sources,
      Category.expression.Counts (nestingOf source.toList) source.toList) :
    ∀ repetition, (Category.items repetition).Counts (deepestOf sources)
      (sources.flatMap fun source => separator :: source.toList) := by
  intro repetition
  induction sources with
  | nil =>
      intro nesting settled
      have nothing := raises_nil settled
      rwa [← Nat.max_eq_left settled] at nothing
  | cons first rest ih =>
      rw [List.forall_mem_cons] at all
      intro nesting settled
      rw [List.flatMap_cons, deepestOf_cons]
      have separated : nesting.Raises (separator :: first.toList)
          (max nesting.depth (nesting.base + nestingOf first.toList)) :=
        raises_separated separator isSeparator .none (all.1 ⟨nesting.outer, nesting.base⟩ rfl)
      refine separated.append (stops_separated separator isSeparator rest)
        fun depth below atMost => ⟨_, ih all.2 ⟨nesting.outer, depth⟩ below, ?_⟩
      change max _ (max depth (nesting.base + deepestOf rest)) = _
      omega

/-- A list of texts with separators between them nests as deep as the deepest. -/
theorem counts_intercalate {separator : String} {mark : Char} (chars : separator.toList = [mark])
    (isSeparator : mark ∈ ['|', ',', ':']) {sources : List String} (some : sources ≠ [])
    (all : ∀ source ∈ sources,
      Category.expression.Counts (nestingOf source.toList) source.toList) :
    Category.expression.Counts (deepestOf sources) (separator.intercalate sources).toList := by
  obtain ⟨first, rest, rfl⟩ := List.exists_cons_of_ne_nil some
  rw [List.forall_mem_cons] at all
  intro nesting between
  rw [String.toList_intercalate, chars, List.map_cons, intercalate_cons, List.flatMap_map,
    deepestOf_cons]
  exact (all.1 nesting between).before_items between (stops_separated mark isSeparator rest)
    (counts_separated mark isSeparator all.2 .comma)

/-! ## The nesting of brackets and keywords -/

section Brackets

variable {text : List Char} {levels : Nat}

/-- A bracket is a level around what stands in it. -/
theorem counts_bracketed (opening closing : Char) (opens : opening ∈ ['(', '[', '\x7b'])
    (closes : closing ∈ [')', ']', '\x7d'])
    (counts : Category.expression.Counts levels text) :
    (Category.atom false).Counts (levels + 1) (opening :: (text ++ [closing])) := by
  intro nesting rest _
  rw [List.cons_append, List.append_assoc, List.singleton_append,
    reach_bracketed opening closing opens closes (counts (nesting.after .opening) rfl)]

/-- What leaves the depth as it is may stand between separators. -/
theorem counts_expression_of_atom (counts : (Category.atom false).Counts levels text) :
    Category.expression.Counts levels text := by
  intro nesting between
  exact ⟨nesting.depth, Nat.le_of_eq between.symm, Nat.le_add_right _ _,
    fun rest stops => counts nesting stops⟩

theorem nestingOf_bracketed (opening closing : Char) (opens : opening ∈ ['(', '[', '\x7b'])
    (closes : closing ∈ [')', ']', '\x7d'])
    (counts : Category.expression.Counts levels text) :
    nestingOf (opening :: (text ++ [closing])) = levels + 1 :=
  nestingOf_eq_of_counts
    (counts_expression_of_atom (counts_bracketed opening closing opens closes counts))

/-- A name in front of a bracket is no level. -/
theorem nestingOf_subscript {base : List Char} (name : IsName base)
    (counts : Category.expression.Counts levels text) :
    nestingOf (base ++ '[' :: (text ++ [']'])) = levels + 1 := by
  rw [nestingOf, Nesting.start.reach_words name.isWords name.not_mem_levelWords
    (startsWithout_cons.mpr (by decide))]
  exact nestingOf_bracketed '[' ']' (by decide) (by decide) counts

/-- Neither is a question mark. -/
theorem nestingOf_marked (counts : (Category.atom false).Counts levels text) :
    nestingOf (text ++ ['?']) = levels := by
  have stops : StartsWithout isNameChar ['?'] := startsWithout_cons.mpr (by decide)
  have whole := counts Nesting.start stops
  have mark : Nesting.start.reach ['?'] = 0 :=
    (reach_markText Nesting.start (some .none) []).trans (reach_nil _)
  rw [nestingOf, whole, mark]
  change max (0 + levels) 0 = levels
  omega

/-- A keyword is a level. -/
theorem nestingOf_keyword (keyword : Keyword) (counts : (Category.atom false).Counts levels text) :
    nestingOf (keyword.text ++ ' ' :: text) = levels + 1 := by
  have operand := counts (Nesting.start.after .keyword) (startsWithout_nil isNameChar)
  have space : (Nesting.start.after .keyword).reach (' ' :: text) =
      (Nesting.start.after .keyword).reach text :=
    reach_blanks _ .space text
  rw [List.append_nil, reach_nil] at operand
  rw [nestingOf, Nesting.start.reach_keyword keyword (startsWithout_cons.mpr (by decide)), space,
    operand]
  change max (0 + 1 + levels) (0 + 1) = levels + 1
  omega

/-- A comma in front of a closing bracket counts for nothing. -/
theorem counts_closingComma (counts : Category.expression.Counts levels text) :
    Category.expression.Counts levels (text ++ [',']) :=
  fun nesting between => (counts nesting between).before_closingComma (some .none)

end Brackets

/-! ## Single texts -/

/-- A text is read as a tree within the limits that it nests within. -/
theorem parseWithin_eq_ok_iff_nestingOf {limit : Nat} {text : String} {tree : TypeExpr} :
    parseWithin limit text = .ok tree ↔
      nestingOf text.toList ≤ limit ∧ ReadsAsExpression text tree := by
  rw [parseWithin_eq_ok_iff, depthError?_eq_none_iff]

/-- Text in a bracket may nest one level less than the whole. -/
theorem parseWithin_bracketed {limit : Nat} {whole : String} {tree : TypeExpr}
    (reads : ReadsAsAtom whole tree) (opening closing : Char) (opens : opening ∈ ['(', '[', '\x7b'])
    (closes : closing ∈ [')', ']', '\x7d']) {text : List Char}
    (chars : whole.toList = opening :: (text ++ [closing])) {levels : Nat} (fits : levels ≤ limit)
    (counts : Category.expression.Counts levels text) :
    parseWithin (limit + 1) whole = .ok tree := by
  refine parseWithin_eq_ok_iff_nestingOf.mpr ⟨?_, reads.primary.prefixed.operand.expression⟩
  rw [chars, nestingOf_bracketed opening closing opens closes counts]
  exact Nat.succ_le_succ fits

section Single

variable {limit : Nat} {source : String} {tree : TypeExpr}
  (parsed : parseWithin limit source = .ok tree)

include parsed

theorem parseWithin_parens : parseWithin (limit + 1) ("(" ++ source ++ ")") = .ok tree := by
  obtain ⟨fits, reads⟩ := parseWithin_eq_ok_iff_nestingOf.mp parsed
  exact parseWithin_bracketed (readsAsAtom_parens reads) '(' ')' (by decide) (by decide)
    (by simp) fits reads.counts

theorem parseWithin_optional :
    parseWithin (limit + 1) ("(" ++ source ++ ")?") = .ok (.optional tree) := by
  obtain ⟨fits, reads⟩ := parseWithin_eq_ok_iff_nestingOf.mp parsed
  have whole : "(" ++ source ++ ")?" = "(" ++ source ++ ")" ++ "?" := by
    simp [String.append_assoc]
  rw [whole]
  refine parseWithin_eq_ok_iff_nestingOf.mpr
    ⟨?_, (readsAsAtom_parens reads).primary.prefixed.marked.expression⟩
  have nesting :=
    nestingOf_marked (counts_bracketed '(' ')' (by decide) (by decide) reads.counts)
  have chars : ("(" ++ source ++ ")" ++ "?").toList =
      '(' :: (source.toList ++ [')']) ++ ['?'] := by simp
  rw [chars, nesting]
  exact Nat.succ_le_succ fits

theorem parseWithin_keyword (kind : Container) {word : String}
    (keyword? : kind.keyword? = some word) :
    parseWithin (limit + 2) (word ++ " (" ++ source ++ ")") = .ok (.container kind [tree]) := by
  obtain ⟨fits, reads⟩ := parseWithin_eq_ok_iff_nestingOf.mp parsed
  obtain ⟨keyword, wordChars, rfl⟩ := exists_keyword_of_keyword? keyword?
  have whole : word ++ " (" ++ source ++ ")" = word ++ " " ++ ("(" ++ source ++ ")") := by
    simp [String.append_assoc, ← String.toList_inj]
  rw [whole]
  refine parseWithin_eq_ok_iff_nestingOf.mpr
    ⟨?_, ((readsAsAtom_parens reads).primary.prefixed.keyword keyword wordChars).operand.expression⟩
  have nesting := nestingOf_keyword keyword
    (counts_bracketed '(' ')' (by decide) (by decide) reads.counts)
  have chars : (word ++ " " ++ ("(" ++ source ++ ")")).toList =
      keyword.text ++ ' ' :: ('(' :: (source.toList ++ [')'])) := by simp [wordChars]
  rw [chars, nesting]
  exact Nat.succ_le_succ (Nat.succ_le_succ fits)

theorem parseWithin_mapping {value : String} {valueTree : TypeExpr}
    (valueParsed : parseWithin limit value = .ok valueTree) :
    parseWithin (limit + 1) ("\x7b" ++ source ++ ":" ++ value ++ "\x7d") =
      .ok (.container .mapping [tree, valueTree]) := by
  obtain ⟨fits, reads⟩ := parseWithin_eq_ok_iff_nestingOf.mp parsed
  obtain ⟨valueFits, valueReads⟩ := parseWithin_eq_ok_iff_nestingOf.mp valueParsed
  have pair : Category.expression.Counts (max (nestingOf source.toList) (nestingOf value.toList))
      (source.toList ++ ':' :: value.toList) :=
    fun nesting between => raises_pair nesting between .none reads.counts valueReads.counts
  exact parseWithin_bracketed (readsAsAtom_mapping reads valueReads) '\x7b' '\x7d' (by decide)
    (by decide) (by simp) (Nat.max_le.mpr ⟨fits, valueFits⟩) pair

end Single

/-! ## Lists of texts -/

section Several

variable {limit : Nat} {sources : List String} {trees : List TypeExpr}
  (parsed : List.Forall₂ (fun source tree => parseWithin limit source = .ok tree) sources trees)
  (nonempty : sources ≠ [])

include parsed nonempty

/-- Texts that are read within a limit make a list, with any separator, that nests
within it. -/
theorem counts_list (separator : String) {mark : Char} (chars : separator.toList = [mark])
    (isSeparator : mark ∈ ['|', ',', ':']) :
    ∃ levels ≤ limit,
      Category.expression.Counts levels (separator.intercalate sources).toList := by
  obtain ⟨each, -⟩ := (List.forall₂_and_left _ _).mp <| parsed.imp fun source _ read =>
    have ⟨fits, reads⟩ := parseWithin_eq_ok_iff_nestingOf.mp read
    (⟨⟨fits, reads.counts⟩, read⟩ :
      (nestingOf source.toList ≤ limit ∧
        Category.expression.Counts (nestingOf source.toList) source.toList) ∧ _)
  exact ⟨deepestOf sources, deepestOf_le_iff.mpr fun source mem => (each source mem).1,
    counts_intercalate chars isSeparator nonempty fun source mem => (each source mem).2⟩

/-- With commas between them they are arguments. -/
theorem arguments_list : ReadsAsArguments (",".intercalate sources).toList trees := by
  have someTrees : trees ≠ [] := by
    rintro rfl
    exact nonempty (List.forall₂_nil_right_iff.mp parsed)
  exact readsAsArguments_intercalate "," .none rfl someTrees
    (parsed.imp fun _ _ read => (parseWithin_eq_ok_iff_nestingOf.mp read).2)

theorem parseWithin_sequence :
    parseWithin (limit + 1) ("[" ++ ",".intercalate sources ++ "]") =
      .ok (.container .sequence trees) := by
  obtain ⟨_, fits, counts⟩ := counts_list parsed nonempty "," rfl (by decide)
  exact parseWithin_bracketed (readsAsAtom_sequence (arguments_list parsed nonempty)) '[' ']'
    (by decide) (by decide) (by simp) fits counts

theorem parseWithin_set :
    parseWithin (limit + 1) ("\x7b" ++ ",".intercalate sources ++ "\x7d") =
      .ok (.container .set trees) := by
  obtain ⟨_, fits, counts⟩ := counts_list parsed nonempty "," rfl (by decide)
  exact parseWithin_bracketed (readsAsAtom_set (arguments_list parsed nonempty)) '\x7b' '\x7d'
    (by decide) (by decide) (by simp) fits counts

/-- A single element is a tuple only with a comma behind it. -/
theorem parseWithin_tuple (closing : Bool) (several : closing = true ∨ 2 ≤ sources.length) :
    parseWithin (limit + 1)
      ("(" ++ ",".intercalate sources ++ (if closing then "," else "") ++ ")") =
        .ok (.tuple trees) := by
  obtain ⟨levels, fits, counts⟩ := counts_list parsed nonempty "," rfl (by decide)
  have apart : closing = true ∨ trees.length ≠ 1 :=
    several.imp_right fun two => by rw [← parsed.length_eq]; omega
  have closed : Category.expression.Counts levels
      ((",".intercalate sources).toList ++ if closing then [','] else []) := by
    cases closing with
    | false => simpa using counts
    | true => exact counts_closingComma counts
  exact parseWithin_bracketed (readsAsAtom_tuple (arguments_list parsed nonempty) closing apart)
    '(' ')' (by decide) (by decide) (by cases closing <;> simp) fits closed

theorem parseWithin_generic {base : String} (name : IsName base.toList) :
    parseWithin (limit + 1) (base ++ "[" ++ ",".intercalate sources ++ "]") =
      .ok (.generic base trees) := by
  obtain ⟨levels, fits, counts⟩ := counts_list parsed nonempty "," rfl (by decide)
  refine parseWithin_eq_ok_iff_nestingOf.mpr ⟨?_,
    (readsAsPrimary_subscript name (arguments_list parsed nonempty)).prefixed.operand.expression⟩
  have nesting := nestingOf_subscript name counts
  have chars : (base ++ "[" ++ ",".intercalate sources ++ "]").toList =
      base.toList ++ '[' :: ((",".intercalate sources).toList ++ [']']) := by simp
  rw [chars, nesting]
  exact Nat.succ_le_succ fits

theorem parseWithin_union (several : 2 ≤ sources.length) :
    parseWithin (limit + 1) ("|".intercalate (sources.map fun source => "(" ++ source ++ ")")) =
      .ok (.union trees) := by
  have grouped : List.Forall₂ (fun source tree => parseWithin (limit + 1) source = .ok tree)
      (sources.map fun source => "(" ++ source ++ ")") trees :=
    List.forall₂_map_left_iff.mpr (parsed.imp fun _ _ read => parseWithin_parens read)
  have operands : List.Forall₂ ReadsAsOperand
      (sources.map fun source => "(" ++ source ++ ")") trees :=
    List.forall₂_map_left_iff.mpr <| parsed.imp fun _ _ read =>
      (readsAsAtom_parens (parseWithin_eq_ok_iff_nestingOf.mp read).2).primary.prefixed.operand
  obtain ⟨levels, fits, counts⟩ := counts_list grouped (mt List.map_eq_nil_iff.mp nonempty)
    "|" rfl (by decide)
  refine parseWithin_eq_ok_iff_nestingOf.mpr ⟨?_, readsAsExpression_union operands ?_⟩
  · rwa [nestingOf_eq_of_counts counts]
  · rwa [← parsed.length_eq]

/-- What a text is read as and how deep it nests do not depend on what it is put
in.  Every shape of the grammar around parts that are read within a limit is read
as its tree over their trees, within one level more, or two levels behind a
keyword. -/
theorem parseWithin_composed {base : String} (named : parse base = .ok (.name base)) :
    parseWithin (limit + 1) ("[" ++ ",".intercalate sources ++ "]") =
        .ok (.container .sequence trees) ∧
      parseWithin (limit + 1) ("(" ++ ",".intercalate sources ++ ",)") = .ok (.tuple trees) ∧
      (2 ≤ sources.length →
        parseWithin (limit + 1) ("(" ++ ",".intercalate sources ++ ")") = .ok (.tuple trees)) ∧
      parseWithin (limit + 1) ("\x7b" ++ ",".intercalate sources ++ "\x7d") =
        .ok (.container .set trees) ∧
      parseWithin (limit + 1) (base ++ "[" ++ ",".intercalate sources ++ "]") =
        .ok (.generic base trees) ∧
      (2 ≤ sources.length →
        parseWithin (limit + 1)
          ("|".intercalate (sources.map fun source => "(" ++ source ++ ")")) =
            .ok (.union trees)) ∧
      (∀ {source : String} {tree : TypeExpr}, parseWithin limit source = .ok tree →
        parseWithin (limit + 1) ("(" ++ source ++ ")") = .ok tree ∧
          parseWithin (limit + 1) ("(" ++ source ++ ")?") = .ok (.optional tree) ∧
          (∀ {value : String} {valueTree : TypeExpr}, parseWithin limit value = .ok valueTree →
            parseWithin (limit + 1) ("\x7b" ++ source ++ ":" ++ value ++ "\x7d") =
              .ok (.container .mapping [tree, valueTree])) ∧
          (∀ (kind : Container) {word : String}, kind.keyword? = some word →
            parseWithin (limit + 2) (word ++ " (" ++ source ++ ")") =
              .ok (.container kind [tree]))) := by
  have name : IsName base.toList := by
    cases writable_of_parseWithin named with
    | name name => exact name
  refine ⟨parseWithin_sequence parsed nonempty, ?_, fun several => ?_,
    parseWithin_set parsed nonempty, parseWithin_generic parsed nonempty name,
    parseWithin_union parsed nonempty, fun read => ⟨parseWithin_parens read,
      parseWithin_optional read, parseWithin_mapping read, fun kind _ => parseWithin_keyword read kind⟩⟩
  · have closed := parseWithin_tuple parsed nonempty true (.inl rfl)
    have whole : "(" ++ ",".intercalate sources ++ "," ++ ")" =
        "(" ++ ",".intercalate sources ++ ",)" := by simp [String.append_assoc]
    exact whole ▸ closed
  · have opened := parseWithin_tuple parsed nonempty false (.inr several)
    simpa using opened

end Several

/-- A bracket in quotation marks, an ellipsis and a keyword in front of a union
stay what they are in every shape. -/
theorem parseWithin_composed_of_quoted :
    parseWithin 1 "await a|b?" =
        .ok (.union [.container .awaitable [.name "a"], .optional (.name "b")]) ∧
      parseWithin 1 "'('" = .ok (.literal [.str "'('"]) ∧
      parseWithin 1 "..." = .ok .ellipsis ∧
      parse "k" = .ok (.name "k") ∧
      parseWithin 2 "k[await a|b?,'(',...]" =
        .ok (.generic "k" [.union [.container .awaitable [.name "a"], .optional (.name "b")],
          .literal [.str "'('"], .ellipsis]) ∧
      parseWithin 2 "(await a|b?)|('(')|(...)" =
        .ok (.union [.union [.container .awaitable [.name "a"], .optional (.name "b")],
          .literal [.str "'('"], .ellipsis]) ∧
      parseWithin 3 "async with (await a|b?)" =
        .ok (.container .asyncContextManager
          [.union [.container .awaitable [.name "a"], .optional (.name "b")]]) := by
  have first : parseWithin 1 "await a|b?" =
      .ok (.union [.container .awaitable [.name "a"], .optional (.name "b")]) := by decide +kernel
  have second : parseWithin 1 "'('" = .ok (.literal [.str "'('"]) := by decide +kernel
  have third : parseWithin 1 "..." = .ok .ellipsis := by decide +kernel
  have base : parse "k" = .ok (.name "k") := by decide +kernel
  obtain ⟨-, -, -, -, generic, union, single⟩ := parseWithin_composed
    (.cons first (.cons second (.cons third .nil))) (List.cons_ne_nil _ _) base
  exact ⟨first, second, third, base, generic, union (by decide),
    (single first).2.2.2 .asyncContextManager rfl⟩

end TypeSpelling.Source
