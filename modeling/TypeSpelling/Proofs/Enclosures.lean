import TypeSpelling.Proofs.Levels
import TypeSpelling.Proofs.Refusal

/-!
# What stands around the tokens of a text

A token of a text that the grammar matches stands in pairs of brackets and in the
operands of keywords.  The scan for the nesting goes over the text before the
grammar does, and its count is the largest number of these around one token, but
for one case: it reads a keyword that touches an ellipsis as one word with the
dots, and such a keyword opens no level.
-/

namespace TypeSpelling.Source

open TypeSpelling.Peg
open TypeSpelling.Text

/-! ## Tokens and what encloses them -/

/-- What a token may stand in: a pair of brackets, or the operand of a keyword,
which touches an ellipsis behind it or does not. -/
inductive Enclosure where
  | brackets
  | keyword (touchesEllipsis : Bool)
  deriving DecidableEq

/-- Whether the scan opens a level for an enclosure. -/
def Enclosure.opensLevel : Enclosure → Bool
  | .brackets => true
  | .keyword touchesEllipsis => !touchesEllipsis

/-- A token with everything that it stands in, the innermost first. -/
structure Enclosed where
  text : List Char
  around : List Enclosure
  deriving DecidableEq

/-- Whether a rule takes a pair of brackets and what is in it. -/
def Rule.isBracketed : Rule → Bool
  | .parens | .braces | .brackets | .subscript => true
  | _ => false

/-- Whether the node that begins some nodes is an ellipsis at a position, perhaps
with a subscript. -/
def ellipsisAt (position : Nat) : List (Node Rule) → Bool
  | [] => false
  | next :: _ => next.start = position && "...".toList.isPrefixOf next.text

/-- What a node opens around its later siblings: a keyword takes them as its
operand. -/
def opened (node : Node Rule) (later : List (Node Rule)) : List Enclosure :=
  if (wrapper? node.rule).isSome then [.keyword (ellipsisAt node.stop later)] else []

mutual

/-- The tokens of a node that stands in some enclosures.  Each bracket of a pair
counts as being in it. -/
def tokensOf (around : List Enclosure) : Node Rule → List Enclosed
  | ⟨rule, _, text, children⟩ =>
      if rule.isBracketed then
        ⟨text.take 1, .brackets :: around⟩ :: tokensOfAll (.brackets :: around) children
      else if children.isEmpty then (if text.isEmpty then [] else [⟨text, around⟩])
      else tokensOfAll around children

/-- The tokens of some nodes in a row. -/
def tokensOfAll (around : List Enclosure) : List (Node Rule) → List Enclosed
  | [] => []
  | first :: rest => tokensOf around first ++ tokensOfAll (opened first rest ++ around) rest

end

/-- The largest number of enclosures of a kind around one token. -/
def mostAround (counts : Enclosure → Bool) (tokens : List Enclosed) : Nat :=
  tokens.foldr (fun token most => max (token.around.countP counts) most) 0

/-- The largest number of brackets and keywords around one token of some nodes. -/
def nestingOfNodes (nodes : List (Node Rule)) : Nat :=
  mostAround (fun _ => true) (tokensOfAll [] nodes)

/-- The largest number of levels around one token of some nodes. -/
def levelsOfNodes (around : List Enclosure) (nodes : List (Node Rule)) : Nat :=
  mostAround Enclosure.opensLevel (tokensOfAll around nodes)

/-! ## The largest number -/

section

variable {counts : Enclosure → Bool}

@[simp]
theorem mostAround_nil : mostAround counts [] = 0 := rfl

@[simp]
theorem mostAround_cons (token : Enclosed) (others : List Enclosed) :
    mostAround counts (token :: others) =
      max (token.around.countP counts) (mostAround counts others) := rfl

@[simp]
theorem mostAround_append (left right : List Enclosed) :
    mostAround counts (left ++ right) = max (mostAround counts left) (mostAround counts right) := by
  induction left with
  | nil => simp
  | cons token others ih => simp [ih, Nat.max_assoc]

theorem countP_le_mostAround {token : Enclosed} {tokens : List Enclosed} (mem : token ∈ tokens) :
    token.around.countP counts ≤ mostAround counts tokens := by
  induction tokens with
  | nil => cases mem
  | cons first others ih =>
      rw [mostAround_cons]
      cases mem with
      | head => exact Nat.le_max_left _ _
      | tail _ mem => exact Nat.le_trans (ih mem) (Nat.le_max_right _ _)

theorem exists_countP_eq_mostAround {tokens : List Enclosed} (some : tokens ≠ []) :
    ∃ token ∈ tokens, token.around.countP counts = mostAround counts tokens := by
  induction tokens with
  | nil => exact absurd rfl some
  | cons first others ih =>
      rw [mostAround_cons]
      by_cases deepest : mostAround counts others ≤ first.around.countP counts
      · exact ⟨first, List.mem_cons_self, (Nat.max_eq_left deepest).symm⟩
      · have nonempty : others ≠ [] := by
          rintro rfl
          exact deepest (Nat.zero_le _)
        obtain ⟨token, mem, most⟩ := ih nonempty
        exact ⟨token, List.mem_cons_of_mem _ mem, by omega⟩

end

/-! ## Levels of nodes -/

@[simp]
theorem levelsOfNodes_nil (around : List Enclosure) : levelsOfNodes around [] = 0 := rfl

theorem levelsOfNodes_cons {node : Node Rule} (plain : wrapper? node.rule = none)
    (around : List Enclosure) (later : List (Node Rule)) :
    levelsOfNodes around (node :: later) =
      max (mostAround Enclosure.opensLevel (tokensOf around node))
        (levelsOfNodes around later) := by
  simp [levelsOfNodes, tokensOfAll, opened, plain]

/-- Nodes that are no keywords open nothing around what stands behind them. -/
theorem levelsOfNodes_append {left : List (Node Rule)}
    (plain : ∀ node ∈ left, wrapper? node.rule = none) (around : List Enclosure)
    (right : List (Node Rule)) :
    levelsOfNodes around (left ++ right) =
      max (levelsOfNodes around left) (levelsOfNodes around right) := by
  induction left with
  | nil => simp
  | cons first rest ih =>
      rw [List.forall_mem_cons] at plain
      rw [List.cons_append, levelsOfNodes_cons plain.1, levelsOfNodes_cons plain.1, ih plain.2,
        Nat.max_assoc]

/-- The tokens of a node that is no pair of brackets are those of its children. -/
theorem levelsOfNodes_cons_of_children {rule : Rule} (unbracketed : rule.isBracketed = false)
    (plain : wrapper? rule = none) {text : List Char} {children : List (Node Rule)}
    (empty : children = [] → text = []) (start : Nat) (around : List Enclosure)
    (later : List (Node Rule)) :
    levelsOfNodes around (⟨rule, start, text, children⟩ :: later) =
      max (levelsOfNodes around children) (levelsOfNodes around later) := by
  rw [levelsOfNodes_cons plain]
  cases children with
  | nil => simp [tokensOf, unbracketed, empty rfl]
  | cons first rest => simp [tokensOf, unbracketed, levelsOfNodes]

/-- A token stands in what is around it. -/
theorem levelsOfNodes_cons_of_leaf {rule : Rule} (unbracketed : rule.isBracketed = false)
    (plain : wrapper? rule = none) {text : List Char} (some : text ≠ []) (start : Nat)
    (around : List Enclosure) (later : List (Node Rule)) :
    levelsOfNodes around (⟨rule, start, text, []⟩ :: later) =
      max (around.countP Enclosure.opensLevel) (levelsOfNodes around later) := by
  rw [levelsOfNodes_cons plain]
  simp [tokensOf, unbracketed, some]

theorem levelsOfNodes_markNode_cons {rule : Rule} (unbracketed : rule.isBracketed = false)
    (plain : wrapper? rule = none) (position : Nat) (mark : Char) (around : List Enclosure)
    (later : List (Node Rule)) :
    levelsOfNodes around (markNode rule position mark :: later) =
      max (around.countP Enclosure.opensLevel) (levelsOfNodes around later) :=
  levelsOfNodes_cons_of_leaf unbracketed plain (List.cons_ne_nil _ _) position around later

theorem levelsOfNodes_markNode (rule : Rule) (unbracketed : rule.isBracketed = false)
    (plain : wrapper? rule = none) (position : Nat) (mark : Char) (around : List Enclosure) :
    levelsOfNodes around [markNode rule position mark] =
      around.countP Enclosure.opensLevel := by
  rw [levelsOfNodes_markNode_cons unbracketed plain, levelsOfNodes_nil, Nat.max_zero]

theorem wrapper?_of_isBracketed {rule : Rule} (bracketed : rule.isBracketed = true) :
    wrapper? rule = none := by
  cases rule with
  | parens | braces | brackets | subscript => rfl
  | _ => cases bracketed

/-- A pair of brackets is one level around what is in it. -/
theorem levelsOfNodes_cons_of_bracketed {rule : Rule} (bracketed : rule.isBracketed = true)
    {children : List (Node Rule)} {levels : Nat}
    (inner : ∀ around : List Enclosure, max (around.countP Enclosure.opensLevel)
      (levelsOfNodes around children) = around.countP Enclosure.opensLevel + levels)
    (start : Nat) (text : List Char) (around : List Enclosure) (later : List (Node Rule)) :
    levelsOfNodes around (⟨rule, start, text, children⟩ :: later) =
      max (around.countP Enclosure.opensLevel + (levels + 1)) (levelsOfNodes around later) := by
  have opening : (Enclosure.brackets :: around).countP Enclosure.opensLevel =
      around.countP Enclosure.opensLevel + 1 :=
    List.countP_cons_of_pos rfl
  rw [levelsOfNodes_cons (wrapper?_of_isBracketed bracketed), tokensOf, if_pos bracketed,
    mostAround_cons]
  change max (max _ (levelsOfNodes (.brackets :: around) children)) _ = _
  rw [inner, opening, Nat.add_assoc, Nat.add_comm 1]

/-! ## Keywords -/

namespace Phrase

/-- An atom begins with three dots exactly if it is an ellipsis. -/
theorem isPrefixOf_atom {word : Bool} (atom : Phrase (.atom word)) (rest : List Char) :
    "...".toList.isPrefixOf (atom.text ++ rest) = atom.beginsEllipsis := by
  cases ellipsis : atom.beginsEllipsis with
  | true =>
      rw [atom.text_of_beginsEllipsis ellipsis, List.isPrefixOf_iff_prefix]
      exact List.prefix_append _ _
  | false =>
      have begins := atom.beginsWord_atom rest
      cases whole : atom.text ++ rest with
      | nil => rfl
      | cons c tail =>
          have noDot : c ≠ '.' := by
            rintro rfl
            rw [whole] at begins
            have stops := atom.stops_atom begins.symm ellipsis rest
            rw [whole, startsWithout_cons] at stops
            exact absurd stops (by decide)
          simp [List.isPrefixOf, noDot.symm]

/-- A primary is an ellipsis at its beginning, or at no place. -/
theorem ellipsisAt_primary {word : Bool} (primary : Phrase (.primary word))
    (position start : Nat) :
    ellipsisAt position (primary.nodes start) =
      (decide (start = position) && primary.beginsEllipsis) := by
  cases primary with
  | bare atom behind =>
      simp only [nodes, ellipsisAt, beginsEllipsis, body_atom, atom.isPrefixOf_atom]
  | subscripted atom before inside first others behind =>
      simp only [nodes, ellipsisAt, beginsEllipsis, body, body_atom, atom.isPrefixOf_atom]

end Phrase

/-- A keyword opens a level around what stands behind it, unless that is an ellipsis
which it touches. -/
theorem levelsOfNodes_keyword_cons (keyword : Keyword) (position : Nat) (around : List Enclosure)
    (later : List (Node Rule)) {levels : Nat}
    (inner : ∀ around, levelsOfNodes around later =
      around.countP Enclosure.opensLevel + levels) :
    levelsOfNodes around (keyword.node position :: later) =
      around.countP Enclosure.opensLevel +
        ((if ellipsisAt (position + utf8Length keyword.text) later then 0 else 1) + levels) := by
  have isKeyword : (wrapper? (keyword.node position).rule).isSome = true := by
    cases keyword <;> rfl
  have own : mostAround Enclosure.opensLevel (tokensOf around (keyword.node position)) =
      around.countP Enclosure.opensLevel := by
    cases keyword <;>
      simp [Keyword.node, Keyword.words, Keyword.rule, tokensOf, tokensOfAll, Rule.isBracketed,
        opened, wrapper?]
  have stop : (keyword.node position).stop = position + utf8Length keyword.text := rfl
  rw [levelsOfNodes, tokensOfAll, opened, if_pos isKeyword, stop, List.singleton_append,
    mostAround_append, own]
  change max _ (levelsOfNodes _ later) = _
  rw [inner, List.countP_cons]
  cases ellipsisAt (position + utf8Length keyword.text) later <;>
    simp only [Enclosure.opensLevel, Bool.not_true, Bool.not_false, if_true, if_false,
      Bool.false_eq_true] <;> omega

/-- The keywords in front of a primary open the levels that they have. -/
theorem levelsOfNodes_prefixes {word : Bool} (primary : Phrase (.primary word)) {levels : Nat}
    (inner : ∀ position around, levelsOfNodes around (primary.nodes position) =
      around.countP Enclosure.opensLevel + levels) (prefixes : Prefixes) :
    ∀ (position : Nat) (around : List Enclosure), levelsOfNodes around
      (prefixes.nodes position ++ primary.nodes (position + utf8Length prefixes.text)) =
        around.countP Enclosure.opensLevel +
          (prefixes.levels primary.beginsEllipsis + levels) := by
  induction prefixes with
  | nil =>
      intro position around
      simpa only [Prefixes.levels, Nat.zero_add, Prefixes.nodes, List.nil_append] using inner _ _
  | cons first others ih =>
      obtain ⟨keyword, behind⟩ := first
      intro position around
      have later : position + utf8Length (Prefixes.text ((keyword, behind) :: others)) =
          position + utf8Length keyword.text + utf8Length behind.chars +
            utf8Length (Prefixes.text others) := by
        simp [Prefixes.text, Nat.add_assoc]
      rw [later, Prefixes.nodes, List.cons_append, levelsOfNodes_keyword_cons _ _ _ _ (ih _)]
      cases others with
      | nil =>
          rw [Prefixes.nodes, List.nil_append, primary.ellipsisAt_primary]
          simp [Prefixes.levels, Prefixes.text, utf8Length_eq_zero_iff, and_comm]
      | cons second others =>
          have letters : "...".toList.isPrefixOf second.1.text = false := by
            cases second.1 <;> rfl
          rw [Prefixes.nodes, List.cons_append, ellipsisAt, Keyword.node, letters, Bool.and_false,
            if_neg Bool.false_ne_true, Prefixes.levels]
          omega

/-! ## Levels of phrases -/

namespace Phrase

theorem wrapper?_nodes {category : Category} (phrase : Phrase category) :
    ∀ position, ∀ node ∈ phrase.nodes position, wrapper? node.rule = none := by
  induction phrase with
  | token own =>
      intro position
      obtain ⟨rule, text, shape⟩ := own
      cases shape <;> exact List.forall_mem_singleton.mpr rfl
  | bar behind next ih => exact fun position => List.forall_mem_cons.mpr ⟨rfl, ih _⟩
  | comma behind next ih => exact fun position => List.forall_mem_cons.mpr ⟨rfl, ih _⟩
  | entry behind key between value keyIh valueIh =>
      intro position
      refine List.forall_mem_cons.mpr ⟨rfl, List.forall_mem_append.mpr ⟨keyIh _, ?_⟩⟩
      exact List.forall_mem_cons.mpr ⟨rfl, valueIh _⟩
  | nil => exact fun position => List.forall_mem_nil _
  | cons first others firstIh othersIh =>
      exact fun position => List.forall_mem_append.mpr ⟨firstIh _, othersIh _⟩
  | _ => exact fun position => List.forall_mem_singleton.mpr rfl

theorem nodes_ne_nil {category : Category} (phrase : Phrase category)
    (notItems : ∀ repetition, category ≠ .items repetition) (position : Nat) :
    phrase.nodes position ≠ [] := by
  cases phrase with
  | nil | cons => exact absurd rfl (notItems _)
  | _ => exact List.cons_ne_nil _ _

/-- Items without a node have no text. -/
theorem body_eq_nil_of_nodes {repetition : Repetition} (items : Phrase (.items repetition))
    {position : Nat} (none : items.nodes position = []) : items.body = [] := by
  cases items with
  | nil => rfl
  | cons first others =>
      exact absurd (List.append_eq_nil_iff.mp none).1 (first.nodes_ne_nil (by simp) position)

end Phrase

theorem Token.isBracketed_rule (own : Token) : own.rule.isBracketed = false := by
  obtain ⟨rule, text, shape⟩ := own
  cases shape <;> rfl

/-- How the largest number of levels around one token of a phrase follows from the
levels around the phrase.  A list of items may have no token. -/
def Category.Reaches : Category → Nat → Nat → Nat → Prop
  | .items _, outside, levels, most => max outside most = outside + levels
  | _, outside, levels, most => most = outside + levels

section

variable {first second others closing : List (Node Rule)}
  {firstLevels secondLevels othersLevels : Nat} {around : List Enclosure}
  (firstPlain : ∀ node ∈ first, wrapper? node.rule = none)
  (firstReaches : Category.expression.Reaches (around.countP Enclosure.opensLevel) firstLevels
    (levelsOfNodes around first))

include firstPlain firstReaches

/-- What stands between brackets reaches as deep as the deepest part of it. -/
theorem levelsOfNodes_contents (othersPlain : ∀ node ∈ others, wrapper? node.rule = none)
    (othersReaches : (Category.items .comma).Reaches (around.countP Enclosure.opensLevel)
      othersLevels (levelsOfNodes around others))
    (shallow : levelsOfNodes around closing ≤ around.countP Enclosure.opensLevel) :
    max (around.countP Enclosure.opensLevel)
      (levelsOfNodes around (first ++ (others ++ closing))) =
        around.countP Enclosure.opensLevel + max firstLevels othersLevels := by
  simp only [Category.Reaches] at firstReaches othersReaches
  rw [levelsOfNodes_append firstPlain, levelsOfNodes_append othersPlain, firstReaches]
  omega

/-- The elements of a set are the first and those of the node behind it. -/
theorem levelsOfNodes_set {rest : List Char} (empty : others = [] → rest = [])
    (othersReaches : (Category.items .comma).Reaches (around.countP Enclosure.opensLevel)
      othersLevels (levelsOfNodes around others)) (start stop : Nat) :
    max (around.countP Enclosure.opensLevel) (levelsOfNodes around
      (first ++ [⟨.setRest, start, rest, others⟩, markNode .rbrace stop '\x7d'])) =
        around.countP Enclosure.opensLevel + max firstLevels othersLevels := by
  simp only [Category.Reaches] at firstReaches othersReaches
  rw [levelsOfNodes_append firstPlain, firstReaches,
    levelsOfNodes_cons_of_children rfl rfl empty, levelsOfNodes_markNode_cons rfl rfl,
    levelsOfNodes_nil]
  omega

/-- The parts of a mapping are the first key and those of the node behind it. -/
theorem levelsOfNodes_mapping (secondPlain : ∀ node ∈ second, wrapper? node.rule = none)
    (secondReaches : Category.expression.Reaches (around.countP Enclosure.opensLevel) secondLevels
      (levelsOfNodes around second))
    (othersReaches : (Category.items .entry).Reaches (around.countP Enclosure.opensLevel)
      othersLevels (levelsOfNodes around others)) (rest : List Char) (start stop : Nat) :
    max (around.countP Enclosure.opensLevel) (levelsOfNodes around
      (first ++ [⟨.mappingRest, start, rest, markNode .colon start ':' :: (second ++ others)⟩,
        markNode .rbrace stop '\x7d'])) =
        around.countP Enclosure.opensLevel + max firstLevels (max secondLevels othersLevels) := by
  simp only [Category.Reaches] at firstReaches secondReaches othersReaches
  rw [levelsOfNodes_append firstPlain, firstReaches,
    levelsOfNodes_cons_of_children rfl rfl (by simp), levelsOfNodes_markNode_cons rfl rfl,
    levelsOfNodes_append secondPlain, secondReaches, levelsOfNodes_markNode_cons rfl rfl,
    levelsOfNodes_nil]
  omega

end

/-- The tokens of a phrase stand in as many levels as the phrase has. -/
theorem levelsOfNodes_nodes {category : Category} (phrase : Phrase category) :
    ∀ (position : Nat) (around : List Enclosure),
      category.Reaches (around.countP Enclosure.opensLevel) phrase.levels
        (levelsOfNodes around (phrase.nodes position)) := by
  induction phrase with
  | expression first others firstIh othersIh =>
      intro position around
      have left := firstIh position around
      have right := othersIh (position + utf8Length first.text) around
      have some : first.nodes position ++ others.nodes (position + utf8Length first.text) ≠ [] := by
        simp [first.nodes_ne_nil]
      simp only [Category.Reaches] at left right ⊢
      rw [Phrase.nodes, levelsOfNodes_cons_of_children rfl rfl (absurd · some),
        levelsOfNodes_append (first.wrapper?_nodes _), levelsOfNodes_nil, Phrase.levels]
      omega
  | operand prefixes apart primary mark ih =>
      intro position around
      have inner := levelsOfNodes_prefixes primary ih prefixes position around
      have some : prefixes.nodes position ++
          primary.nodes (position + utf8Length prefixes.text) ≠ [] := by
        simp [primary.nodes_ne_nil]
      simp only [Category.Reaches]
      rw [Phrase.nodes, levelsOfNodes_cons_of_children rfl rfl (by simp),
        levelsOfNodes_cons_of_children rfl rfl (absurd · some), inner, Phrase.levels]
      cases mark with
      | none => simp
      | some behind =>
          simp only [Option.isSome_some, if_true, markNode, levelsOfNodes_nil]
          rw [levelsOfNodes_cons_of_leaf rfl rfl (by simp), levelsOfNodes_nil]
          omega
  | bare atom behind ih =>
      intro position around
      have some := atom.nodes_ne_nil (by simp) position
      have inner := ih position around
      simp only [Category.Reaches] at inner ⊢
      rw [Phrase.nodes, levelsOfNodes_cons_of_children rfl rfl (absurd · some), inner,
        levelsOfNodes_nil, Phrase.levels, Nat.max_zero]
  | subscripted atom before inside first others behind atomIh firstIh othersIh =>
      intro position around
      have left := atomIh position around
      have inner := fun start start' stop around =>
        levelsOfNodes_contents (first.wrapper?_nodes start) (firstIh start around)
          (others.wrapper?_nodes start') (othersIh start' around)
          (Nat.le_of_eq (levelsOfNodes_markNode .rbracket rfl rfl stop ']' around))
      simp only [Category.Reaches] at left ⊢
      rw [Phrase.nodes, levelsOfNodes_cons_of_children rfl rfl (by simp),
        levelsOfNodes_append (atom.wrapper?_nodes _), left,
        levelsOfNodes_cons_of_bracketed rfl (inner _ _ _), Phrase.levels]
      simp only [levelsOfNodes_nil]
      omega
  | token own =>
      intro position around
      have plain := (Phrase.token own).wrapper?_nodes position _ List.mem_cons_self
      simp only [Category.Reaches]
      rw [Phrase.nodes, levelsOfNodes_cons_of_leaf own.isBracketed_rule plain own.shape.ne_nil,
        levelsOfNodes_nil, Phrase.levels, Nat.max_zero, Nat.add_zero]
  | parens inside first others closing firstIh othersIh =>
      intro position around
      have closers : ∀ comma stop around, levelsOfNodes around
          ((if closing.isSome then [markNode .comma comma ','] else []) ++
            [markNode .rparen stop ')']) ≤ around.countP Enclosure.opensLevel := by
        intro comma stop around
        have last := Nat.le_of_eq (levelsOfNodes_markNode .rparen rfl rfl stop ')' around)
        cases closing with
        | none => exact last
        | some behind =>
            rw [Option.isSome_some, if_pos rfl, List.singleton_append,
              levelsOfNodes_markNode_cons rfl rfl]
            exact Nat.max_le.mpr ⟨Nat.le_refl _, last⟩
      have inner := fun start start' comma stop around =>
        levelsOfNodes_contents (first.wrapper?_nodes start) (firstIh start around)
          (others.wrapper?_nodes start') (othersIh start' around) (closers comma stop around)
      simp only [Category.Reaches]
      rw [Phrase.nodes, levelsOfNodes_cons_of_bracketed rfl (inner _ _ _ _), levelsOfNodes_nil,
        Phrase.levels, Nat.max_zero]
  | mapping inside key between value others keyIh valueIh othersIh =>
      intro position around
      have inner := fun start start' start'' rest colon stop around =>
        levelsOfNodes_mapping (key.wrapper?_nodes start) (keyIh start around)
          (value.wrapper?_nodes start') (valueIh start' around) (othersIh start'' around)
          rest colon stop
      simp only [Category.Reaches]
      rw [Phrase.nodes, levelsOfNodes_cons_of_bracketed rfl (inner _ _ _ _ _ _), levelsOfNodes_nil,
        Phrase.levels, Nat.max_zero]
  | set inside first others firstIh othersIh =>
      intro position around
      have inner := fun start start' stop around =>
        levelsOfNodes_set (first.wrapper?_nodes start) (firstIh start around)
          others.body_eq_nil_of_nodes (othersIh start' around) start' stop
      simp only [Category.Reaches]
      rw [Phrase.nodes, levelsOfNodes_cons_of_bracketed rfl (inner _ _ _), levelsOfNodes_nil,
        Phrase.levels, Nat.max_zero]
  | brackets inside first others firstIh othersIh =>
      intro position around
      have inner := fun start start' stop around =>
        levelsOfNodes_contents (first.wrapper?_nodes start) (firstIh start around)
          (others.wrapper?_nodes start') (othersIh start' around)
          (Nat.le_of_eq (levelsOfNodes_markNode .rbracket rfl rfl stop ']' around))
      simp only [Category.Reaches]
      rw [Phrase.nodes, levelsOfNodes_cons_of_bracketed rfl (inner _ _ _), levelsOfNodes_nil,
        Phrase.levels, Nat.max_zero]
  | bar behind next ih =>
      intro position around
      have inner := ih (position + 1 + utf8Length behind.chars) around
      simp only [Category.Reaches] at inner ⊢
      rw [Phrase.nodes, levelsOfNodes_markNode_cons rfl rfl, inner, Phrase.levels]
      omega
  | comma behind next ih =>
      intro position around
      have inner := ih (position + 1 + utf8Length behind.chars) around
      simp only [Category.Reaches] at inner ⊢
      rw [Phrase.nodes, levelsOfNodes_markNode_cons rfl rfl, inner, Phrase.levels]
      omega
  | entry behind key between value keyIh valueIh =>
      intro position around
      have keys := fun start => keyIh start around
      have values := fun start => valueIh start around
      simp only [Category.Reaches] at keys values ⊢
      rw [Phrase.nodes, levelsOfNodes_markNode_cons rfl rfl,
        levelsOfNodes_append (key.wrapper?_nodes _), levelsOfNodes_markNode_cons rfl rfl, keys,
        values, Phrase.levels]
      omega
  | nil => exact fun position around => Nat.max_eq_left (Nat.zero_le _)
  | cons first others firstIh othersIh =>
      intro position around
      have left := firstIh position around
      have right := othersIh (position + utf8Length first.text) around
      simp only [Category.Reaches] at left right ⊢
      rw [Phrase.nodes, levelsOfNodes_append (first.wrapper?_nodes _), Phrase.levels]
      omega

/-! ## Whole texts -/

/-- The tokens of a whole text stand in as many levels as its phrase has. -/
theorem levelsOfNodes_mainNode (before : Blanks) (phrase : Phrase .expression)
    (around : List Enclosure) :
    levelsOfNodes around [mainNode before phrase] =
      around.countP Enclosure.opensLevel + phrase.levels := by
  have inner := levelsOfNodes_nodes phrase (utf8Length before.chars) around
  simp only [Category.Reaches] at inner
  rw [mainNode, levelsOfNodes_cons_of_children rfl rfl (by simp),
    levelsOfNodes_append (phrase.wrapper?_nodes _), inner,
    levelsOfNodes_cons_of_children rfl rfl (fun _ => rfl)]
  simp

mutual

theorem map_text_tokensOf (around other : List Enclosure) : ∀ node : Node Rule,
    (tokensOf around node).map Enclosed.text = (tokensOf other node).map Enclosed.text
  | ⟨rule, start, text, children⟩ => by
      have inner := map_text_tokensOfAll (.brackets :: around) (.brackets :: other) children
      have same := map_text_tokensOfAll around other children
      simp only [tokensOf]
      split
      · rw [List.map_cons, List.map_cons, inner]
      split
      · split <;> rfl
      · exact same

/-- What the tokens are does not depend on what is around all of them. -/
theorem map_text_tokensOfAll (around other : List Enclosure) : ∀ nodes : List (Node Rule),
    (tokensOfAll around nodes).map Enclosed.text = (tokensOfAll other nodes).map Enclosed.text
  | [] => rfl
  | first :: rest => by
      rw [tokensOfAll, tokensOfAll, List.map_append, List.map_append,
        map_text_tokensOf around other first,
        map_text_tokensOfAll (opened first rest ++ around) (opened first rest ++ other) rest]

end

theorem tokensOfAll_ne_nil {input : List Char} {found : Match Rule}
    (matched : grammar.match? .main input = some found) : tokensOfAll [] found.nodes ≠ [] := by
  obtain ⟨before, phrase, -, rfl⟩ := match?_main_eq_some_iff.mp matched
  intro none
  -- Inside a pair of brackets the tokens would be none as well, yet one level is reached.
  have texts := map_text_tokensOfAll [.brackets] [] [mainNode before phrase]
  rw [none, List.map_nil, List.map_eq_nil_iff] at texts
  have levels := levelsOfNodes_mainNode before phrase [.brackets]
  rw [levelsOfNodes, texts, mostAround_nil, List.countP_cons_of_pos rfl] at levels
  omega

/-! ## Exactness of the limit -/

/-- A text is refused because it nests deeper than a limit. -/
def ReportsDepth (limit : Nat) (source : String) : Prop :=
  ∃ depth span, parseWithin limit source = .error ⟨.maxDepthExceeded depth limit, span⟩

/-- The limit refuses the texts that have more levels. -/
theorem reportsDepth_iff_levels {source : String} {found : Match Rule}
    (matched : grammar.match? .main source.toList = some found) {limit : Nat} :
    ReportsDepth limit source ↔ limit < levelsOfNodes [] found.nodes := by
  obtain ⟨before, phrase, whole, nodes⟩ := match?_main_eq_some_iff.mp matched
  have levels : levelsOfNodes [] found.nodes = phrase.levels := by
    rw [nodes, levelsOfNodes_mainNode, List.countP_nil, Nat.zero_add]
  have passes : depthError? limit source.toList = none ↔ phrase.levels ≤ limit := by
    rw [whole, depthError?_eq_none_iff_levels]
  rw [levels, ← Nat.not_le, ← passes, ReportsDepth, parseWithin, parseChars]
  cases scan : depthError? limit source.toList with
  | some error =>
      obtain ⟨-, piece, -, -, rfl⟩ := depthError?_eq_some_iff.mp scan
      simp
  | none =>
      simp only [matched, not_true, iff_false, not_exists]
      intro depth span refused
      obtain ⟨node, -, offends, -⟩ := (treeOf_eq_error_iff matched).mp refused
      cases offends

theorem countP_opensLevel_eq_length_iff {around : List Enclosure} :
    around.countP Enclosure.opensLevel = around.length ↔ .keyword true ∉ around := by
  rw [List.countP_eq_length]
  constructor
  · exact fun all touching => Bool.false_ne_true (all _ touching)
  · intro apart enclosure mem
    cases enclosure with
    | brackets => rfl
    | keyword touches =>
        cases touches with
        | false => rfl
        | true => exact absurd mem apart

theorem length_le_nestingOfNodes {nodes : List (Node Rule)} {token : Enclosed}
    (mem : token ∈ tokensOfAll [] nodes) : token.around.length ≤ nestingOfNodes nodes := by
  have atMost : token.around.countP (fun _ => true) ≤ nestingOfNodes nodes :=
    countP_le_mostAround mem
  rwa [List.countP_true] at atMost

/-- No token stands in more levels than brackets and keywords. -/
theorem levelsOfNodes_le_nestingOfNodes (nodes : List (Node Rule)) :
    levelsOfNodes [] nodes ≤ nestingOfNodes nodes := by
  cases tokens : tokensOfAll [] nodes with
  | nil => simp [levelsOfNodes, tokens]
  | cons first others =>
      have some : tokensOfAll [] nodes ≠ [] := by simp [tokens]
      obtain ⟨token, mem, most⟩ := exists_countP_eq_mostAround some
      rw [levelsOfNodes, ← most]
      exact Nat.le_trans List.countP_le_length (length_le_nestingOfNodes mem)

/-- The levels are as many as the nesting exactly if no keyword that touches an
ellipsis is around some token that stands deepest. -/
theorem levels_eq_nesting_iff {nodes : List (Node Rule)} (some : tokensOfAll [] nodes ≠ []) :
    levelsOfNodes [] nodes = nestingOfNodes nodes ↔
      ∃ token ∈ tokensOfAll [] nodes, token.around.length = nestingOfNodes nodes ∧
        .keyword true ∉ token.around := by
  constructor
  · intro same
    obtain ⟨token, mem, most⟩ := exists_countP_eq_mostAround some
    have most : token.around.countP Enclosure.opensLevel = levelsOfNodes [] nodes := most
    have counted : token.around.countP Enclosure.opensLevel ≤ token.around.length :=
      List.countP_le_length
    have deepest := length_le_nestingOfNodes mem
    exact ⟨token, mem, by omega, countP_opensLevel_eq_length_iff.mp (by omega)⟩
  · rintro ⟨token, mem, deepest, apart⟩
    have counted := countP_opensLevel_eq_length_iff.mpr apart
    have most : token.around.countP Enclosure.opensLevel ≤ levelsOfNodes [] nodes :=
      countP_le_mostAround mem
    have within := levelsOfNodes_le_nestingOfNodes nodes
    omega

/-- A text that the grammar matches is refused at a limit exactly if more brackets
and keywords that open levels are around one of its tokens.  These are all brackets
and all keywords, whatever the limit, exactly if no keyword that touches an ellipsis
is around some token that stands deepest. -/
theorem reportsDepth_iff_nesting {source : String} {found : Match Rule}
    (matched : grammar.match? .main source.toList = some found) :
    (∀ limit, ReportsDepth limit source ↔ limit < levelsOfNodes [] found.nodes) ∧
      ((∀ limit, ReportsDepth limit source ↔ limit < nestingOfNodes found.nodes) ↔
        ∃ token ∈ tokensOfAll [] found.nodes,
          token.around.length = nestingOfNodes found.nodes ∧ .keyword true ∉ token.around) := by
  refine ⟨fun limit => reportsDepth_iff_levels matched, ?_⟩
  rw [← levels_eq_nesting_iff (tokensOfAll_ne_nil matched)]
  simp only [reportsDepth_iff_levels matched]
  constructor
  · intro same
    have above := same (levelsOfNodes [] found.nodes)
    have below := same (nestingOfNodes found.nodes)
    omega
  · intro same limit
    rw [same]

/-- Brackets and keywords that touch no ellipsis are counted, siblings are not. -/
theorem reportsDepth_iff_nesting_of_brackets :
    ∃ found, grammar.match? .main "await{with a: [b, iter(c,)]} | d".toList = some found ∧
      nestingOfNodes found.nodes = 5 ∧
        ∀ limit, ReportsDepth limit "await{with a: [b, iter(c,)]} | d" ↔ limit < 5 := by
  have measured : (grammar.match? .main "await{with a: [b, iter(c,)]} | d".toList).map
      (fun found => (nestingOfNodes found.nodes, levelsOfNodes [] found.nodes)) = some (5, 5) := by
    decide +kernel
  obtain ⟨found, matched, measures⟩ := Option.map_eq_some_iff.mp measured
  obtain ⟨nesting, levels⟩ := Prod.mk.inj measures
  refine ⟨found, matched, nesting, fun limit => ?_⟩
  rw [(reportsDepth_iff_nesting matched).1 limit, levels]

/-- A keyword that touches an ellipsis is around it, but it opens no level. -/
theorem exists_unreported_nesting :
    ∃ (source : String) (found : Match Rule) (limit : Nat),
      grammar.match? .main source.toList = some found ∧ limit < nestingOfNodes found.nodes ∧
        ¬ ReportsDepth limit source := by
  have measured : (grammar.match? .main "with...".toList).map
      (fun found => (nestingOfNodes found.nodes, levelsOfNodes [] found.nodes)) = some (1, 0) := by
    decide +kernel
  obtain ⟨found, matched, measures⟩ := Option.map_eq_some_iff.mp measured
  obtain ⟨nesting, levels⟩ := Prod.mk.inj measures
  refine ⟨"with...", found, 0, matched, by omega, ?_⟩
  rw [reportsDepth_iff_levels matched, levels]
  exact Nat.lt_irrefl 0

end TypeSpelling.Source
