import TypeSpelling.Proofs.Enclosures
import TypeSpelling.Proofs.Margins

/-!
# The tokens of a phrase

The nodes of a phrase end in its tokens: names, literals, the words of keywords,
ellipses, wildcards and marks.  They are listed here from the phrase alone, since where
it begins and what its blanks are makes no difference to them.
-/

namespace TypeSpelling.Source

open TypeSpelling.Peg
open TypeSpelling.Text

/-! ## Tokens from left to right -/

/-- The words of a keyword. -/
def Keyword.tokens : Keyword → List (List Char)
  | .await => ["await".toList]
  | .iter => ["iter".toList]
  | .with => ["with".toList]
  | .asyncIter _ _ => ["async".toList, "iter".toList]
  | .asyncWith _ _ => ["async".toList, "with".toList]

/-- The words of keywords in a row. -/
def Prefixes.tokens (prefixes : Prefixes) : List (List Char) :=
  prefixes.flatMap fun (keyword, _) => keyword.tokens

/-- A mark that may stand at a place of a phrase. -/
def markTokens (mark : Char) (present : Bool) : List (List Char) :=
  if present then [[mark]] else []

/-- The tokens of a phrase in the order of the text. -/
def Phrase.tokens : {category : Category} → Phrase category → List (List Char)
  | _, .expression first others => first.tokens ++ others.tokens
  | _, .operand prefixes _ primary mark =>
      prefixes.tokens ++ (primary.tokens ++ markTokens '?' mark.isSome)
  | _, .bare atom _ => atom.tokens
  | _, .subscripted atom _ _ first others _ =>
      atom.tokens ++ ['['] :: (first.tokens ++ (others.tokens ++ [[']']]))
  | _, .token own => [own.text]
  | _, .parens _ first others closing =>
      ['('] :: (first.tokens ++ (others.tokens ++ (markTokens ',' closing.isSome ++ [[')']])))
  | _, .mapping _ key _ value others =>
      ['\x7b'] :: (key.tokens ++ [':'] :: (value.tokens ++ (others.tokens ++ [['\x7d']])))
  | _, .set _ first others => ['\x7b'] :: (first.tokens ++ (others.tokens ++ [['\x7d']]))
  | _, .brackets _ first others => ['['] :: (first.tokens ++ (others.tokens ++ [[']']]))
  | _, .bar _ next => ['|'] :: next.tokens
  | _, .comma _ next => [','] :: next.tokens
  | _, .entry _ key _ value => [','] :: (key.tokens ++ [':'] :: value.tokens)
  | _, .nil => []
  | _, .cons first others => first.tokens ++ others.tokens

/-! ## The tokens of the nodes -/

/-- The texts of the tokens of some nodes in a row. -/
def tokenTexts (nodes : List (Node Rule)) : List (List Char) :=
  (tokensOfAll [] nodes).map Enclosed.text

@[simp]
theorem tokenTexts_nil : tokenTexts [] = [] := rfl

theorem tokenTexts_cons (node : Node Rule) (later : List (Node Rule)) :
    tokenTexts (node :: later) =
      (tokensOf [] node).map Enclosed.text ++ tokenTexts later := by
  rw [tokenTexts, tokensOfAll, List.map_append, map_text_tokensOfAll _ [], tokenTexts]

theorem tokenTexts_append (left right : List (Node Rule)) :
    tokenTexts (left ++ right) = tokenTexts left ++ tokenTexts right := by
  induction left with
  | nil => rfl
  | cons first rest ih =>
      rw [List.cons_append, tokenTexts_cons, ih, tokenTexts_cons, List.append_assoc]

/-- A pair of brackets has the opening one and the tokens behind it. -/
theorem tokenTexts_cons_of_bracketed {rule : Rule} (bracketed : rule.isBracketed = true)
    (start : Nat) (text : List Char) (children later : List (Node Rule)) :
    tokenTexts (⟨rule, start, text, children⟩ :: later) =
      text.take 1 :: (tokenTexts children ++ tokenTexts later) := by
  rw [tokenTexts_cons, tokensOf, if_pos bracketed, List.map_cons,
    map_text_tokensOfAll _ [] children, List.cons_append]
  rfl

/-- The tokens of a node that is no pair of brackets are those of its children. -/
theorem tokenTexts_cons_of_children {rule : Rule} (unbracketed : rule.isBracketed = false)
    {text : List Char} {children : List (Node Rule)} (empty : children = [] → text = [])
    (start : Nat) (later : List (Node Rule)) :
    tokenTexts (⟨rule, start, text, children⟩ :: later) =
      tokenTexts children ++ tokenTexts later := by
  rw [tokenTexts_cons]
  cases children with
  | nil => simp [tokensOf, unbracketed, empty rfl]
  | cons first rest => simp [tokensOf, unbracketed, tokenTexts]

theorem tokenTexts_cons_of_leaf {rule : Rule} (unbracketed : rule.isBracketed = false)
    {text : List Char} (some : text ≠ []) (start : Nat) (later : List (Node Rule)) :
    tokenTexts (⟨rule, start, text, []⟩ :: later) = text :: tokenTexts later := by
  rw [tokenTexts_cons]
  simp [tokensOf, unbracketed, some]

theorem tokenTexts_markNode_cons {rule : Rule} (unbracketed : rule.isBracketed = false)
    (position : Nat) (mark : Char) (later : List (Node Rule)) :
    tokenTexts (markNode rule position mark :: later) = [mark] :: tokenTexts later :=
  tokenTexts_cons_of_leaf unbracketed (List.cons_ne_nil _ _) position later

theorem Prefixes.tokenTexts_nodes (prefixes : Prefixes) :
    ∀ (position : Nat) (later : List (Node Rule)),
      tokenTexts (prefixes.nodes position ++ later) = prefixes.tokens ++ tokenTexts later := by
  induction prefixes with
  | nil => exact fun _ _ => rfl
  | cons first others ih =>
      obtain ⟨keyword, behind⟩ := first
      intro position later
      have own : ∀ start, (tokensOf [] (keyword.node start)).map Enclosed.text = keyword.tokens :=
        fun start => by cases keyword <;> rfl
      rw [nodes, List.cons_append, tokenTexts_cons, own, ih]
      exact (List.append_assoc ..).symm

theorem tokenTexts_mark (rule : Rule) (unbracketed : rule.isBracketed = false)
    (position : Nat) (mark : Char) (present : Bool) (later : List (Node Rule)) :
    tokenTexts ((if present then [markNode rule position mark] else []) ++ later) =
      markTokens mark present ++ tokenTexts later := by
  cases present with
  | false => rfl
  | true => exact tokenTexts_markNode_cons unbracketed position mark later

namespace Phrase

/-- The tokens of the nodes of a phrase are those of the phrase. -/
theorem tokenTexts_nodes {category : Category} (phrase : Phrase category) :
    ∀ position, tokenTexts (phrase.nodes position) = phrase.tokens := by
  induction phrase with
  | expression first others firstIh othersIh =>
      intro position
      have some := first.nodes_ne_nil (by simp) position
      rw [nodes, tokenTexts_cons_of_children rfl (by simp [some]), tokenTexts_append, firstIh,
        othersIh, tokens]
      simp
  | operand prefixes apart primary mark ih =>
      intro position
      have some := primary.nodes_ne_nil (by simp)
      rw [nodes, tokenTexts_cons_of_children rfl (by simp),
        tokenTexts_cons_of_children rfl (by simp [some]), prefixes.tokenTexts_nodes, ih, tokens]
      have marks := tokenTexts_mark .optionalOp rfl
        (position + utf8Length prefixes.text + utf8Length primary.text) '?' mark.isSome []
      rw [List.append_nil] at marks
      simp [marks]
  | bare atom behind ih =>
      intro position
      have some := atom.nodes_ne_nil (by simp) position
      rw [nodes, tokenTexts_cons_of_children rfl (absurd · some), ih, tokens, tokenTexts_nil,
        List.append_nil]
  | subscripted atom before inside first others behind atomIh firstIh othersIh =>
      intro position
      simp only [nodes]
      rw [tokenTexts_cons_of_children rfl (by simp), tokenTexts_append, atomIh,
        tokenTexts_cons_of_bracketed rfl, tokenTexts_append, firstIh, tokenTexts_append, othersIh,
        tokenTexts_markNode_cons rfl, tokens]
      simp
  | token own =>
      intro position
      rw [nodes, tokenTexts_cons_of_leaf own.isBracketed_rule own.shape.ne_nil, tokens, tokenTexts_nil]
  | parens inside first others closing firstIh othersIh =>
      intro position
      simp only [nodes]
      rw [tokenTexts_cons_of_bracketed rfl, tokenTexts_append, firstIh, tokenTexts_append,
        othersIh, tokenTexts_mark .comma rfl, tokenTexts_markNode_cons rfl, tokens]
      simp [body]
  | mapping inside key between value others keyIh valueIh othersIh =>
      intro position
      simp only [nodes]
      rw [tokenTexts_cons_of_bracketed rfl, tokenTexts_append, keyIh,
        tokenTexts_cons_of_children rfl (by simp), tokenTexts_markNode_cons rfl,
        tokenTexts_append, valueIh, othersIh, tokenTexts_markNode_cons rfl, tokens]
      simp [body]
  | set inside first others firstIh othersIh =>
      intro position
      simp only [nodes]
      rw [tokenTexts_cons_of_bracketed rfl, tokenTexts_append, firstIh,
        tokenTexts_cons_of_children rfl others.body_eq_nil_of_nodes, othersIh, tokenTexts_markNode_cons rfl, tokens]
      simp [body]
  | brackets inside first others firstIh othersIh =>
      intro position
      simp only [nodes]
      rw [tokenTexts_cons_of_bracketed rfl, tokenTexts_append, firstIh, tokenTexts_append,
        othersIh, tokenTexts_markNode_cons rfl, tokens]
      simp [body]
  | bar behind next ih =>
      intro position
      rw [nodes, tokenTexts_markNode_cons rfl, ih, tokens]
  | comma behind next ih =>
      intro position
      rw [nodes, tokenTexts_markNode_cons rfl, ih, tokens]
  | entry behind key between value keyIh valueIh =>
      intro position
      simp only [nodes]
      rw [tokenTexts_markNode_cons rfl, tokenTexts_append, keyIh, tokenTexts_markNode_cons rfl,
        valueIh, tokens]
  | nil => exact fun _ => rfl
  | cons first others firstIh othersIh =>
      intro position
      rw [nodes, tokenTexts_append, firstIh, othersIh, tokens]

end Phrase

theorem tokenTexts_mainNode (before : Blanks) (phrase : Phrase .expression) :
    tokenTexts [mainNode before phrase] = phrase.tokens := by
  rw [mainNode, tokenTexts_cons_of_children rfl (by simp), tokenTexts_append,
    phrase.tokenTexts_nodes, tokenTexts_cons_of_children rfl (fun _ => rfl)]
  simp

/-! ## Beginnings -/

theorem Keyword.solidStart_of_mem_tokens (keyword : Keyword) :
    ∀ token ∈ keyword.tokens, SolidStart token := by
  cases keyword with
  | await | iter | «with» => exact List.forall_mem_singleton.mpr ⟨_, _, rfl, by decide⟩
  | asyncIter | asyncWith =>
      exact List.forall_mem_cons.mpr
        ⟨⟨_, _, rfl, by decide⟩, List.forall_mem_singleton.mpr ⟨_, _, rfl, by decide⟩⟩

theorem solidStart_mark {mark : Char} (solid : isWhiteSpace mark = false) : SolidStart [mark] :=
  ⟨mark, [], rfl, solid⟩

theorem solidStart_of_mem_markTokens (mark : Char) (solid : isWhiteSpace mark = false)
    (present : Bool) : ∀ token ∈ markTokens mark present, SolidStart token := by
  cases present with
  | false => exact List.forall_mem_nil _
  | true => exact List.forall_mem_singleton.mpr (solidStart_mark solid)

/-- No token of a phrase begins with white space. -/
theorem Phrase.solidStart_of_mem_tokens {category : Category} (phrase : Phrase category) :
    ∀ token ∈ phrase.tokens, SolidStart token := by
  induction phrase with
  | operand prefixes apart primary closing ih =>
      refine List.forall_mem_append.mpr ⟨?_, List.forall_mem_append.mpr ⟨ih, ?_⟩⟩
      · intro token mem
        obtain ⟨first, -, own⟩ := List.mem_flatMap.mp mem
        exact first.1.solidStart_of_mem_tokens token own
      · exact solidStart_of_mem_markTokens '?' (by decide) _
  | token own =>
      obtain ⟨c, rest, whole, solid⟩ := own.solid.begins
      rw [String.toList_ofList] at whole
      exact List.forall_mem_singleton.mpr ⟨c, rest, whole, solid⟩
  | parens inside first others closing firstIh othersIh =>
      have comma := solidStart_of_mem_markTokens ',' (by decide) closing.isSome
      simp only [tokens, List.forall_mem_cons, List.forall_mem_append]
      exact ⟨solidStart_mark (by decide), firstIh, othersIh, comma, solidStart_mark (by decide),
        List.forall_mem_nil _⟩
  | nil => exact List.forall_mem_nil _
  | _ =>
      simp (disch := decide) only [tokens, List.forall_mem_cons, List.forall_mem_append,
        List.not_mem_nil, false_imp_iff, implies_true, solidStart_mark, true_and, and_true]
      repeat' apply And.intro
      all_goals assumption

end TypeSpelling.Source
