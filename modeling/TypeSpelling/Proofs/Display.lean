import TypeSpelling.Proofs.Margins
import TypeSpelling.Proofs.Weights
import TypeSpelling.TypeExpr.Display

/-!
# Reading what messages quote

The text that quotes a tree puts parentheses around a union in front of a question
mark, but around nothing else.  So a union inside a union, an optional inside an
optional and either of them behind a keyword lose the parentheses that they were
written with.  The text of a tree in which no node has lost any is read as that
tree.  In any other case the text is lighter than every text of the tree, blanks
left out of the count, so it is read as another tree or not at all.
-/

namespace TypeSpelling

open TypeSpelling.Source
open TypeSpelling.Text

/-! ## Texts with blanks between their parts -/

namespace Source

/-- Operands with a bar and a space on either side of it between them. -/
theorem exists_operands {texts : List String} {trees : List TypeExpr} (some : trees ≠ [])
    (all : List.Forall₂ ReadsAsOperand texts trees) :
    ∃ (first : Phrase .operand) (others : Phrase (.items .bar)),
      (" | ".intercalate texts).toList = first.text ++ others.text ∧ first.Faultless ∧
        others.Faultless ∧ first.trees ++ others.trees = trees := by
  induction all with
  | nil => exact absurd rfl some
  | @cons text tree texts trees reads rest ih =>
      cases rest with
      | nil =>
          obtain ⟨phrase, whole, faultless, single⟩ := reads
          exact ⟨phrase, .nil, by simp [whole], faultless, trivial, by rw [single]; rfl⟩
      | cons second more =>
          obtain ⟨next, others, whole, nextFaultless, othersFaultless, joined⟩ :=
            ih (List.cons_ne_nil _ _)
          obtain ⟨first, padded, faultless, single⟩ := reads.append_blanks .space
          refine ⟨first, .cons (.bar .space next) others, ?_, faultless,
            ⟨nextFaultless, othersFaultless⟩, ?_⟩
          · rw [String.intercalate_cons_cons, String.toList_append, String.toList_append, whole,
              padded]
            simp [Blanks.space]
          · rw [single, ← joined]
            rfl

theorem readsAsExpression_bars {texts : List String} {trees : List TypeExpr}
    (all : List.Forall₂ ReadsAsOperand texts trees) (several : 2 ≤ trees.length) :
    ReadsAsExpression (" | ".intercalate texts) (.union trees) := by
  have some : trees ≠ [] := List.ne_nil_of_length_pos (Nat.lt_of_lt_of_le Nat.two_pos several)
  obtain ⟨first, others, whole, firstFaultless, othersFaultless, joined⟩ := exists_operands some all
  refine ⟨.none, _, ⟨.expression first others, rfl, ⟨firstFaultless, othersFaultless⟩, ?_⟩, ?_⟩
  · rw [Phrase.trees, joined, Phrase.joined_of_several several]
  · rw [whole, Phrase.text_expression]
    rfl

/-- Keys and values with a colon between them, behind a comma. -/
theorem composes_entries {spelling : TypeExpr → String} {entries : List (TypeExpr × TypeExpr)}
    (keys : ∀ entry ∈ entries, ReadsAsExpression (spelling entry.1) entry.1)
    (values : ∀ entry ∈ entries, ReadsAsExpression (spelling entry.2) entry.2) :
    Composes (.items .entry)
      ((entries.map fun entry => (spelling entry.1 ++ ": " ++ spelling entry.2).toList).flatMap
        fun text => ", ".toList ++ text)
      (entries.flatMap fun entry => [entry.1, entry.2]) := by
  induction entries with
  | nil => exact ⟨.nil, rfl, trivial, rfl⟩
  | cons entry rest ih =>
      obtain ⟨ownKey, otherKeys⟩ := List.forall_mem_cons.mp keys
      obtain ⟨ownValue, otherValues⟩ := List.forall_mem_cons.mp values
      obtain ⟨others, othersText, othersFaultless, othersTrees⟩ := ih otherKeys otherValues
      obtain ⟨inside, _, ⟨key, rfl, keyFaultless, keyTrees⟩, keyChars⟩ := ownKey
      obtain ⟨between, _, ⟨value, rfl, valueFaultless, valueTrees⟩, valueChars⟩ := ownValue
      refine ⟨.cons (.entry (Blanks.space.append inside) key (Blanks.space.append between) value)
        others, ?_, ⟨⟨keyFaultless, valueFaultless⟩, othersFaultless⟩, ?_⟩
      · rw [Phrase.text_cons, othersText]
        simp [keyChars, valueChars, Blanks.append, Blanks.space]
      · simp [Phrase.trees, keyTrees, valueTrees, othersTrees]

theorem readsAsAtom_entries {spelling : TypeExpr → String} {entries : List (TypeExpr × TypeExpr)}
    (some : entries ≠ []) (keys : ∀ entry ∈ entries, ReadsAsExpression (spelling entry.1) entry.1)
    (values : ∀ entry ∈ entries, ReadsAsExpression (spelling entry.2) entry.2) :
    ReadsAsAtom ("\x7b" ++ ", ".intercalate (entries.map fun entry =>
        spelling entry.1 ++ ": " ++ spelling entry.2) ++ "\x7d")
      (.container .mapping (entries.flatMap fun entry => [entry.1, entry.2])) := by
  obtain ⟨entry, rest, rfl⟩ := List.exists_cons_of_ne_nil some
  obtain ⟨ownKey, otherKeys⟩ := List.forall_mem_cons.mp keys
  obtain ⟨ownValue, otherValues⟩ := List.forall_mem_cons.mp values
  obtain ⟨others, othersText, othersFaultless, othersTrees⟩ :=
    composes_entries otherKeys otherValues
  obtain ⟨inside, _, ⟨key, rfl, keyFaultless, keyTrees⟩, keyChars⟩ := ownKey
  obtain ⟨between, _, ⟨value, rfl, valueFaultless, valueTrees⟩, valueChars⟩ := ownValue
  refine ⟨_, .mapping inside key (Blanks.space.append between) value others, ?_,
    ⟨keyFaultless, valueFaultless, othersFaultless⟩, ?_⟩
  · rw [Phrase.text_mapping, othersText]
    simp [keyChars, valueChars, Blanks.append, Blanks.space, String.toList_intercalate,
      intercalate_cons, List.map_map, Function.comp_def]
  · simp [Phrase.trees, keyTrees, valueTrees, othersTrees]

end Source

namespace TypeExpr

/-! ## Parentheses that are lost -/

/-- Whether the text of a node has no parentheses around a child that was written with
some: a union in a union, an optional in an optional, either of them behind a keyword. -/
def losesParentheses : TypeExpr → Bool
  | .container kind args => kind.keyword?.isSome && args.any isLoose
  | .union members => members.any isUnion
  | .optional inner => inner.isLoose && !inner.isUnion
  | .name _ | .wildcard | .generic _ _ | .tuple _ | .literal _ | .ellipsis => false

/-- No node of a tree loses parentheses. -/
def KeepsParentheses (tree : TypeExpr) : Prop :=
  ∀ node ∈ tree.preorder, node.losesParentheses = false

theorem KeepsParentheses.self {tree : TypeExpr} (keeps : KeepsParentheses tree) :
    tree.losesParentheses = false :=
  keeps tree (mem_preorder_self tree)

theorem KeepsParentheses.child {tree child : TypeExpr} (keeps : KeepsParentheses tree)
    (mem : child ∈ tree.children) : KeepsParentheses child :=
  fun node inside => keeps node (mem_preorder_of_child mem inside)

/-! ## Trees that keep their parentheses -/

/-- The text of a tree is read as the tree at the level of the tree: behind keywords and
in front of a question mark unless it is a union or an optional, in front of a bar
unless it is a union. -/
structure ReadsBack (tree : TypeExpr) : Prop where
  expression : ReadsAsExpression tree.display tree
  operand : tree.isUnion = false → ReadsAsOperand tree.display tree
  prefixed : tree.isLoose = false → ReadsAsPrefixed tree.display tree

theorem readsBack_of_prefixed {tree : TypeExpr} (reads : ReadsAsPrefixed tree.display tree) :
    ReadsBack tree :=
  ⟨reads.operand.expression, fun _ => reads.operand, fun _ => reads⟩

theorem readsBack_of_atom {tree : TypeExpr} (reads : ReadsAsAtom tree.display tree) :
    ReadsBack tree :=
  readsBack_of_prefixed reads.primary.prefixed

theorem colonPairs_displayAll (entries : List (TypeExpr × TypeExpr)) :
    colonPairs (displayAll (entries.flatMap fun entry => [entry.1, entry.2])) =
      entries.map fun entry => entry.1.display ++ ": " ++ entry.2.display := by
  induction entries with
  | nil => rfl
  | cons entry rest ih =>
      rw [List.flatMap_cons, List.map_cons, ← ih]
      rfl

theorem display_mapping (entries : List (TypeExpr × TypeExpr)) :
    (container .mapping (entries.flatMap fun entry => [entry.1, entry.2])).display =
      "\x7b" ++ ", ".intercalate (entries.map fun entry =>
        entry.1.display ++ ": " ++ entry.2.display) ++ "\x7d" := by
  rw [← colonPairs_displayAll]
  rfl

theorem display_keyword {kind : Container} {word : String} (keyword? : kind.keyword? = some word)
    (inner : TypeExpr) : (container kind [inner]).display = word ++ " " ++ inner.display := by
  cases kind <;> cases keyword? <;> rfl

/-- Expressions with commas and spaces between them. -/
theorem readsAsArguments_display {trees : List TypeExpr} (some : trees ≠ [])
    (each : ∀ tree ∈ trees, ReadsBack tree) :
    ReadsAsArguments (", ".intercalate (displayAll trees)).toList trees := by
  refine readsAsArguments_intercalate ", " .space rfl some ?_
  rw [displayAll_eq_map, List.forall₂_map_left_iff, List.forall₂_same]
  exact fun tree mem => (each tree mem).expression

/-- The text of a tree that keeps its parentheses is read as the tree. -/
theorem readsBack_display {tree : TypeExpr} (written : Written tree) :
    KeepsParentheses tree → ReadsBack tree := by
  induction written with
  | name name => exact fun _ => readsBack_of_atom (readsAsAtom_name name)
  | wildcard => exact fun _ => readsBack_of_atom readsAsAtom_wildcard
  | ellipsis => exact fun _ => readsBack_of_atom readsAsAtom_ellipsis
  | literal writable => exact fun _ => readsBack_of_atom (readsAsAtom_shorthandToken writable)
  | generic name some _ ih =>
      intro keeps
      exact readsBack_of_prefixed (readsAsPrimary_subscript name (readsAsArguments_display some
        fun arg mem => ih arg mem (keeps.child mem))).prefixed
  | @keyword kind inner isKeyword _ ih =>
      intro keeps
      obtain ⟨word, keyword?⟩ := Option.isSome_iff_exists.mp isKeyword
      obtain ⟨keyword, chars, rfl⟩ := exists_keyword_of_keyword? keyword?
      have tight : inner.isLoose = false := by
        have own := keeps.self
        simpa [losesParentheses, isKeyword] using own
      have reads := (ih (keeps.child (List.mem_singleton_self _))).prefixed tight
      apply readsBack_of_prefixed
      rw [display_keyword keyword?]
      exact reads.keyword keyword chars
  | @mapping entries some _ _ keysIh valuesIh =>
      intro keeps
      have inside : ∀ entry ∈ entries, ∀ arg ∈ [entry.1, entry.2],
          arg ∈ entries.flatMap fun entry => [entry.1, entry.2] :=
        fun entry mem arg argMem => List.mem_flatMap.mpr ⟨entry, mem, argMem⟩
      apply readsBack_of_atom
      rw [display_mapping]
      exact readsAsAtom_entries some
        (fun entry mem =>
          (keysIh entry mem (keeps.child (inside entry mem _ (by simp)))).expression)
        (fun entry mem =>
          (valuesIh entry mem (keeps.child (inside entry mem _ (by simp)))).expression)
  | sequence some _ ih =>
      intro keeps
      exact readsBack_of_atom (readsAsAtom_sequence (readsAsArguments_display some
        fun arg mem => ih arg mem (keeps.child mem)))
  | set some _ ih =>
      intro keeps
      exact readsBack_of_atom (readsAsAtom_set (readsAsArguments_display some
        fun arg mem => ih arg mem (keeps.child mem)))
  | @tuple elements some _ ih =>
      intro keeps
      have whole := readsAsAtom_tuple (readsAsArguments_display some fun element mem =>
        ih element mem (keeps.child mem)) (decide (elements.length = 1)) (by simp [Classical.em])
      simp only [decide_eq_true_eq] at whole
      apply readsBack_of_atom
      rw [display]
      exact whole
  | @union members several _ ih =>
      intro keeps
      have flat : ∀ member ∈ members, member.isUnion = false := by
        have own := keeps.self
        simpa [losesParentheses] using own
      have operands : List.Forall₂ ReadsAsOperand (displayAll members) members := by
        rw [displayAll_eq_map, List.forall₂_map_left_iff, List.forall₂_same]
        exact fun member mem => (ih member mem (keeps.child mem)).operand (flat member mem)
      exact ⟨readsAsExpression_bars operands several, fun notUnion => Bool.noConfusion notUnion,
        fun tight => Bool.noConfusion tight⟩
  | @optional inner _ ih =>
      intro keeps
      have reads := ih (keeps.child (List.mem_singleton_self _))
      have marked : ReadsAsOperand (optional inner).display (.optional inner) := by
        rw [display]
        cases isUnion : inner.isUnion with
        | true =>
            have grouped := (readsAsAtom_parens reads.expression).primary.prefixed.marked
            rwa [String.append_assoc, show ")" ++ "?" = ")?" from rfl] at grouped
        | false =>
            have own := keeps.self
            have tight : inner.isLoose = false := by
              simpa [losesParentheses, isUnion] using own
            exact (reads.prefixed tight).marked
      exact ⟨marked.expression, fun _ => marked, fun tight => Bool.noConfusion tight⟩

/-! ## Trees that do not -/

/-- How many nodes of a tree lose parentheses. -/
def lostParentheses (tree : TypeExpr) : Nat :=
  tree.preorder.countP losesParentheses

theorem lostParentheses_eq (tree : TypeExpr) :
    tree.lostParentheses = (if tree.losesParentheses then 1 else 0) +
      (tree.children.map lostParentheses).sum := by
  rw [lostParentheses, preorder_eq_cons_children, List.countP_cons, List.countP_flatMap,
    Nat.add_comm]
  rfl

theorem keepsParentheses_iff (tree : TypeExpr) :
    KeepsParentheses tree ↔ tree.lostParentheses = 0 := by
  simp [KeepsParentheses, lostParentheses, List.countP_eq_zero]

/-- What a list of trees loses, and what its texts weigh with a separator behind each. -/
theorem sum_display_add_le (margin : TypeExpr → Nat) {trees : List TypeExpr}
    (each : ∀ tree ∈ trees,
      weightOf 0 tree.display.toList + 2 * tree.lostParentheses ≤ tree.leastWeight 0) :
    (trees.map fun tree => weightOf 0 tree.display.toList + margin tree).sum +
      2 * (trees.map lostParentheses).sum ≤ totalWeight 0 margin trees := by
  induction trees with
  | nil => exact Nat.le_refl 0
  | cons first rest ih =>
      obtain ⟨own, others⟩ := List.forall_mem_cons.mp each
      have inside := ih others
      simp only [List.map_cons, List.sum_cons, totalWeight]
      omega

/-- The texts of a list with commas and spaces between them. -/
theorem weightOf_display_list {trees : List TypeExpr} (some : trees ≠ []) :
    weightOf 0 (", ".intercalate (displayAll trees)).toList + 1 =
      (trees.map fun tree => weightOf 0 tree.display.toList + 1).sum := by
  have whole := weightOf_intercalate 0 ", "
    (mt List.map_eq_nil_iff.mp some : trees.map display ≠ [])
  have comma : weightOf 0 ", ".toList = 1 := rfl
  rw [comma, List.map_map] at whole
  rw [displayAll_eq_map]
  exact whole

/-- A union among the members of a union needs parentheses. -/
theorem sum_add_parentheses_le (weight : TypeExpr → Nat) (members : List TypeExpr) :
    (members.map fun member => weight member + 1).sum + parentheses (members.any isUnion) ≤
      (members.map fun member => weight member + memberMargin member).sum := by
  induction members with
  | nil => exact Nat.le_refl 0
  | cons first rest ih =>
      have both : parentheses (first.isUnion || rest.any isUnion) ≤
          parentheses first.isUnion + parentheses (rest.any isUnion) := by
        cases first.isUnion <;> cases rest.any isUnion <;> decide
      have own : memberMargin first = parentheses first.isUnion + 1 := rfl
      simp only [List.map_cons, List.sum_cons, List.any_cons]
      omega

theorem display_mapping_weight {entries : List (TypeExpr × TypeExpr)} (some : entries ≠ []) :
    weightOf 0 (", ".intercalate (entries.map fun entry =>
        entry.1.display ++ ": " ++ entry.2.display)).toList + 1 =
      ((entries.flatMap fun entry => [entry.1, entry.2]).map fun tree =>
        weightOf 0 tree.display.toList + 1).sum := by
  have whole := weightOf_intercalate 0 ", " (mt List.map_eq_nil_iff.mp some :
    (entries.map fun entry => entry.1.display ++ ": " ++ entry.2.display) ≠ [])
  have comma : weightOf 0 ", ".toList = 1 := rfl
  have colon : weightOf 0 ": ".toList = 1 := rfl
  rw [comma, List.map_map] at whole
  rw [whole]
  clear whole some
  induction entries with
  | nil => rfl
  | cons entry rest ih =>
      rw [List.map_cons, List.sum_cons, ih]
      simp only [Function.comp_apply, String.toList_append, weightOf_append, colon,
        List.flatMap_cons, List.cons_append, List.nil_append, List.map_cons, List.sum_cons]
      omega

/-- Brackets and braces keep what is inside them together. -/
theorem weightOf_display_bracketed_add_le {kind : Container} (keyword? : kind.keyword? = none)
    {args : List TypeExpr}
    (text : weightOf 0 (container kind args).display.toList =
      1 + (args.map fun tree => weightOf 0 tree.display.toList + 1).sum)
    (each : ∀ tree ∈ args,
      weightOf 0 tree.display.toList + 2 * tree.lostParentheses ≤ tree.leastWeight 0) :
    weightOf 0 (container kind args).display.toList +
      2 * (container kind args).lostParentheses ≤ (container kind args).leastWeight 0 := by
  have inside := sum_display_add_le (fun _ => 1) each
  rw [lostParentheses_eq, text]
  simp only [losesParentheses, children, keyword?, Option.isSome_none, Bool.false_and,
    Bool.false_eq_true, if_false, leastWeight]
  omega

/-- Every node that loses parentheses makes the text of a tree lighter than any text that
is read as the tree. -/
theorem weightOf_display_add_le {tree : TypeExpr} (written : Written tree) :
    weightOf 0 tree.display.toList + 2 * tree.lostParentheses ≤ tree.leastWeight 0 := by
  have marks : weightOf 0 "[".toList = 1 ∧ weightOf 0 "]".toList = 1 ∧ weightOf 0 "(".toList = 1 ∧
      weightOf 0 ")".toList = 1 ∧ weightOf 0 ")?".toList = 2 ∧ weightOf 0 "?".toList = 1 ∧
      weightOf 0 ",".toList = 1 ∧ weightOf 0 "".toList = 0 ∧ weightOf 0 " ".toList = 0 ∧
      weightOf 0 "\x7b".toList = 1 ∧ weightOf 0 "\x7d".toList = 1 :=
    ⟨rfl, rfl, rfl, rfl, rfl, rfl, rfl, rfl, rfl, rfl, rfl⟩
  induction written with
  | name name => exact Nat.le_refl _
  | wildcard => exact Nat.le_refl 1
  | ellipsis => exact Nat.le_refl 3
  | literal writable => exact Nat.le_refl _
  | @generic base args name some _ ih =>
      have inside := sum_display_add_le (fun _ => 1) ih
      have list := weightOf_display_list some
      rw [lostParentheses_eq]
      simp only [display, String.toList_append, weightOf_append, marks, losesParentheses, children,
        Bool.false_eq_true, if_false, leastWeight]
      omega
  | @keyword kind inner isKeyword _ ih =>
      obtain ⟨word, keyword?⟩ := Option.isSome_iff_exists.mp isKeyword
      rw [lostParentheses_eq, display_keyword keyword?, leastWeight_keyword 0 keyword?]
      simp only [String.toList_append, weightOf_append, marks, losesParentheses, isKeyword,
        Bool.true_and, List.any_cons, List.any_nil, Bool.or_false, children, List.map_cons,
        List.map_nil, List.sum_cons, List.sum_nil, operandMargin]
      split <;> omega
  | @mapping entries some _ _ keysIh valuesIh =>
      have each : ∀ tree ∈ entries.flatMap fun entry => [entry.1, entry.2],
          weightOf 0 tree.display.toList + 2 * tree.lostParentheses ≤ tree.leastWeight 0 := by
        intro tree mem
        obtain ⟨entry, entryMem, own⟩ := List.mem_flatMap.mp mem
        rcases List.mem_pair.mp own with rfl | rfl
        · exact keysIh entry entryMem
        · exact valuesIh entry entryMem
      refine weightOf_display_bracketed_add_le rfl ?_ each
      have list := display_mapping_weight some
      rw [display_mapping]
      simp only [String.toList_append, weightOf_append, marks]
      omega
  | @sequence args some _ ih =>
      refine weightOf_display_bracketed_add_le rfl ?_ ih
      have list := weightOf_display_list some
      simp only [display, Container.keyword?, String.toList_append, weightOf_append, marks]
      omega
  | @set args some _ ih =>
      refine weightOf_display_bracketed_add_le rfl ?_ ih
      have list := weightOf_display_list some
      simp only [display, Container.keyword?, String.toList_append, weightOf_append, marks]
      omega
  | @tuple elements some _ ih =>
      have inside := sum_display_add_le (fun _ => 1) ih
      have list := weightOf_display_list some
      rw [lostParentheses_eq]
      simp only [display, String.toList_append, weightOf_append, marks, losesParentheses, children,
        Bool.false_eq_true, if_false, leastWeight]
      split
      · simp only [marks]
        omega
      · simp only [marks]
        omega
  | @union members several _ ih =>
      have some : members ≠ [] := List.ne_nil_of_length_pos (Nat.lt_of_lt_of_le Nat.two_pos several)
      have inside := sum_display_add_le memberMargin ih
      have bar : weightOf 0 " | ".toList = 1 := rfl
      have list := weightOf_intercalate 0 " | " (mt List.map_eq_nil_iff.mp some :
        members.map display ≠ [])
      rw [bar, List.map_map] at list
      rw [lostParentheses_eq]
      have loose := sum_add_parentheses_le (fun member => weightOf 0 member.display.toList) members
      have lost : 2 * (if (union members).losesParentheses then 1 else 0) =
          parentheses (members.any isUnion) := by
        rw [losesParentheses]
        cases members.any isUnion <;> rfl
      simp only [display, displayAll_eq_map, children, leastWeight, Function.comp_def] at list ⊢
      omega
  | @optional inner _ ih =>
      rw [lostParentheses_eq]
      simp only [display, losesParentheses, children, List.map_cons, List.map_nil, List.sum_cons,
        List.sum_nil, leastWeight, parentheses]
      by_cases isUnion : inner.isUnion = true
      · simp only [isUnion, isLoose_of_isUnion isUnion, if_true, Bool.not_true, Bool.and_false,
          Bool.false_eq_true, if_false, String.toList_append, weightOf_append, marks]
        omega
      · simp only [isUnion, Bool.not_false, Bool.and_true, Bool.false_eq_true, if_false,
          String.toList_append, weightOf_append, marks]
        split <;> omega

/-! ## Reading what was quoted -/

/-- The text that quotes the tree of a text is read as that tree, wherever the limit is no
smaller than it, exactly if no node of the tree has lost parentheses. -/
theorem parseWithin_display_iff {limit : Nat} {source : String} {raw : TypeExpr}
    (parsed : parseWithin limit source = .ok raw) {limit' : Nat}
    (fits : raw.display.utf8ByteSize ≤ limit') :
    parseWithin limit' raw.display = .ok raw ↔
      ∀ node ∈ raw.preorder, node.losesParentheses = false := by
  have written := written_of_parseWithin parsed
  constructor
  · intro again
    have reads := (parseWithin_eq_ok_iff.mp again).2
    have least := reads.leastWeight_le (Nat.zero_le 1)
    have lighter := weightOf_display_add_le written
    exact (keepsParentheses_iff raw).mpr (by omega)
  · exact fun keeps => (readsBack_display written keeps).expression.parseWithin fits

/-- A mapping with two keys and an optional of a union is read from its own text. -/
theorem parseWithin_display_iff_of_mapping :
    let raw : TypeExpr := .container .mapping [.name "k",
      .optional (.union [.name "a", .wildcard]), .literal [.str "'é'"],
      .container .iterable [.ellipsis]]
    parseWithin 2 "\x7bk:(a|_)?,'é':iter...\x7d" = .ok raw ∧ raw.display.utf8ByteSize ≤ 35 ∧
      (parseWithin 35 raw.display = .ok raw ↔
        ∀ node ∈ raw.preorder, node.losesParentheses = false) := by
  intro raw
  have parsed : parseWithin 2 "\x7bk:(a|_)?,'é':iter...\x7d" = .ok raw := by decide +kernel
  have fits : raw.display.utf8ByteSize ≤ 35 := by decide +kernel
  exact ⟨parsed, fits, parseWithin_display_iff parsed fits⟩

/-- A keyword in front of a union is quoted as a union. -/
theorem exists_display_of_other_tree :
    parseWithin 2 "iter (a|b)" = .ok (.container .iterable [.union [.name "a", .name "b"]]) ∧
      (container .iterable [.union [.name "a", .name "b"]]).display = "iter a | b" ∧
      ∀ limit, "iter a | b".utf8ByteSize ≤ limit →
        parseWithin limit "iter a | b" =
            .ok (.union [.container .iterable [.name "a"], .name "b"]) ∧
          parseWithin limit "iter a | b" ≠
            .ok (.container .iterable [.union [.name "a", .name "b"]]) := by
  have read : parseWithin 10 "iter a | b" =
      .ok (.union [.container .iterable [.name "a"], .name "b"]) := by
    decide +kernel
  refine ⟨by decide +kernel, by decide +kernel, fun limit fits => ?_⟩
  have again := (parseWithin_eq_ok_iff.mp read).2.parseWithin fits
  exact ⟨again, by simp [again]⟩

end TypeExpr

end TypeSpelling
