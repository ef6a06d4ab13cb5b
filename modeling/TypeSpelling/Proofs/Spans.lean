import TypeSpelling.Proofs.Refusal
import TypeSpelling.Proofs.Viable

/-!
# What an error says of a text

An error names a part of the text that begins and ends between two characters.
The scan for the nesting goes from piece to piece, every node of a match has its
text where it says, and rules are tried behind initial parts of the text only.  A
text that the grammar does not match leaves some rule that was tried last, and
every node of a match has the parts that are asked for when it is read.
-/

namespace TypeSpelling.Peg

open TypeSpelling.Text

variable {R : Type}

/-! ## Texts of nodes -/

namespace Node

theorem preorderAll_append (left right : List (Node R)) :
    preorderAll (left ++ right) = preorderAll left ++ preorderAll right := by
  induction left with
  | nil => rfl
  | cons first rest ih => rw [List.cons_append, preorderAll, ih, preorderAll, List.append_assoc]

theorem forall_mem_preorderAll_append {motive : Node R → Prop} {left right : List (Node R)} :
    (∀ node ∈ preorderAll (left ++ right), motive node) ↔
      (∀ node ∈ preorderAll left, motive node) ∧ ∀ node ∈ preorderAll right, motive node := by
  rw [preorderAll_append, List.forall_mem_append]

theorem forall_mem_preorderAll_cons {motive : Node R → Prop} {first : Node R}
    {rest : List (Node R)} :
    (∀ node ∈ preorderAll (first :: rest), motive node) ↔
      motive first ∧ (∀ node ∈ preorderAll first.children, motive node) ∧
        ∀ node ∈ preorderAll rest, motive node := by
  rw [preorderAll_cons, List.forall_mem_cons, List.forall_mem_append]

mutual

theorem mem_preorder_of_mem_children : ∀ (node other inner : Node R), other ∈ preorder node →
    inner ∈ preorderAll other.children → inner ∈ preorder node
  | ⟨rule, start, text, children⟩, other, inner, mem, below => by
      rw [preorder, List.mem_cons] at mem ⊢
      rcases mem with rfl | mem
      · exact .inr below
      · exact .inr (mem_preorderAll_of_mem_children children other inner mem below)

/-- A walk through nodes sees what lies below a node that it sees. -/
theorem mem_preorderAll_of_mem_children : ∀ (nodes : List (Node R)) (other inner : Node R),
    other ∈ preorderAll nodes → inner ∈ preorderAll other.children → inner ∈ preorderAll nodes
  | [], _, _, mem, _ => by simp [preorderAll] at mem
  | first :: rest, other, inner, mem, below => by
      rw [preorderAll, List.mem_append] at mem ⊢
      exact mem.imp (fun mem => mem_preorder_of_mem_children first other inner mem below)
        fun mem => mem_preorderAll_of_mem_children rest other inner mem below

end

/-- The text of a node stands in some characters where the node says, if the
characters begin at the position. -/
def StandsIn (position : Nat) (chars : List Char) (node : Node R) : Prop :=
  ∃ before after, chars = before ++ (node.text ++ after) ∧
    node.start = position + utf8Length before

theorem StandsIn.append_right {position : Nat} {left : List Char} {node : Node R}
    (stands : node.StandsIn position left) (right : List Char) :
    node.StandsIn position (left ++ right) := by
  obtain ⟨before, after, rfl, start⟩ := stands
  exact ⟨before, after ++ right, by simp, start⟩

theorem StandsIn.append_left {position : Nat} {left right : List Char} {node : Node R}
    (stands : node.StandsIn (position + utf8Length left) right) :
    node.StandsIn position (left ++ right) := by
  obtain ⟨before, after, rfl, start⟩ := stands
  exact ⟨left ++ before, after, by simp, by rw [start, utf8Length_append, Nat.add_assoc]⟩

end Node

open Node

/-- Every node of a match has its text where it says. -/
theorem Grammar.standsIn_of_match? {grammar : Grammar R} (ranking : grammar.Ranking) {rule : R}
    {input : List Char} {found : Match R} (matched : grammar.match? rule input = some found) :
    ∀ node ∈ preorderAll found.nodes, node.StandsIn 0 found.text := by
  refine match?_induction ranking
    (motive := fun position found => ∀ node ∈ preorderAll found.nodes,
      node.StandsIn position found.text) ?_ ?_ ?_ matched
  · intro position found none
    simp [none, preorderAll]
  · intro position first second left right
    refine forall_mem_preorderAll_append.mpr ⟨fun node mem => (left node mem).append_right _,
      fun node mem => (right node mem).append_left⟩
  · intro inToken rule position inner _ stands
    have own : ∀ children, (Node.mk rule position inner.text children).StandsIn position
        inner.text :=
      fun children => ⟨[], [], by simp, rfl⟩
    cases inToken with
    | true => simp [Match.ofRule, preorderAll]
    | false =>
        cases grammar.kind rule with
        | silent => exact stands
        | token => exact forall_mem_preorderAll_cons.mpr ⟨own _, by simp [preorderAll]⟩
        | node => exact forall_mem_preorderAll_cons.mpr ⟨own _, stands, by simp [preorderAll]⟩

/-! ## Rules that are tried -/

section

variable {motive : Furthest R → Prop}

theorem trackRepeat_preserves {item : Tracker R}
    (items : ∀ position input seen, motive seen → motive (item position input seen).2) :
    ∀ limit position input seen, motive seen →
      motive (trackRepeat item limit position input seen).2 := by
  intro limit
  induction limit with
  | zero => exact fun _ _ _ before => before
  | succ limit ih =>
      intro position input seen before
      have here := items position input seen before
      unfold trackRepeat
      split
      · rename_i tracked
        rwa [tracked] at here
      · rename_i tracked
        rw [tracked] at here
        split
        · exact here
        · exact ih _ _ _ here

theorem Expr.track_preserves {isBlank : Char → Bool} {call : R → Matcher R}
    {trackCall : R → Tracker R}
    (calls : ∀ rule position input seen, motive seen →
      motive (trackCall rule position input seen).2) (expr : Expr R) :
    ∀ position input seen, motive seen →
      motive (expr.track isBlank call trackCall position input seen).2 := by
  induction expr with
  | char | text | endOfInput | skip | refuse => exact fun _ _ _ before => before
  | call rule => exact calls rule
  | seq first second firstIh secondIh =>
      intro position input seen before
      have here := firstIh position input seen before
      unfold track
      split
      · rename_i tracked
        rwa [tracked] at here
      · rename_i tracked
        rw [tracked] at here
        exact secondIh _ _ _ here
  | choice first second firstIh secondIh =>
      intro position input seen before
      have here := firstIh position input seen before
      unfold track
      split
      · rename_i tracked
        rw [tracked] at here
        exact secondIh _ _ _ here
      · rename_i tracked
        rwa [tracked] at here
  | optional item ih => exact ih
  | repeated item ih => exact fun _ _ _ before => trackRepeat_preserves ih _ _ _ _ before

/-- What is kept whenever a rule is recorded is kept by tracking. -/
theorem Grammar.trackRule_preserves {grammar : Grammar R}
    (record : ∀ seen rule position before, motive seen →
      motive (Furthest.record seen rule position before)) :
    ∀ budget rule position input seen, motive seen →
      motive (grammar.trackRule budget rule position input seen).2 := by
  intro budget
  induction budget with
  | zero => exact fun _ _ _ _ before => before
  | succ budget ih =>
      intro rule position input seen before
      have inner := @Expr.track_preserves R motive grammar.isBlank (grammar.matchRule? budget false)
        _ ih (grammar.body rule) position input seen before
      unfold trackRule
      by_cases token : grammar.kind rule = .token
      · simp only [if_pos token]
        split
        · exact before
        · exact record _ _ _ _ before
      · simp only [if_neg token]
        split
        · exact inner
        · exact record _ _ _ _ inner

end

namespace Furthest

/-- A position behind the beginning of a text is reached only with a rule that was
tried there. -/
def Reached (seen : Furthest R) : Prop :=
  seen.attempts = [] → seen.position = 0

theorem Reached.record {seen : Furthest R} (reached : seen.Reached) (rule : R)
    (position before : Nat) : (seen.record rule position before).Reached := by
  unfold Furthest.record
  split
  · exact reached
  split
  · exact fun none => by simp at none
  split
  · exact fun none => by simp at none
  · exact reached

theorem Reached.attempts_record_ne_nil {seen : Furthest R} (reached : seen.Reached) (rule : R)
    (before : Nat) : (seen.record rule 0 before).attempts ≠ [] := by
  unfold Furthest.record
  split
  · rename_i oneMore
    intro none
    simp [countAt, none] at oneMore
  split
  · simp
  split
  · simp
  · rename_i elsewhere _
    exact fun none => elsewhere (reached none).symm

end Furthest

/-- An ordinary rule that does not match leaves a rule that was tried. -/
theorem Grammar.furthest_attempts_ne_nil {grammar : Grammar R} (ranking : grammar.Ranking)
    {rule : R} (ordinary : grammar.kind rule = .node) {input : List Char}
    (fails : grammar.match? rule input = none) : (grammar.furthest rule input).attempts ≠ [] := by
  have reached : ((grammar.trackExpr (grammar.body rule)) 0 input .start).2.Reached :=
    Expr.track_preserves (fun rule position input seen => trackRule_preserves
      (fun _ rule position before known => known.record rule position before)
      (grammar.budget input) rule position input seen) _ _ _ _ fun _ => rfl
  have notToken : grammar.kind rule ≠ .token := by simp [ordinary]
  have tracked := track_eq ranking notToken 0 input .start
  have matched := grammar.track_fst rule 0 input .start
  rw [← match?_eq_call?, fails, tracked] at matched
  rw [furthest_eq_track, tracked]
  simp only [ordinary, reduceCtorEq, decide_false, Bool.or_false] at matched ⊢
  by_cases found : ((grammar.trackExpr (grammar.body rule) 0 input .start).1.map
      (Match.ofRule .node false rule 0)).isSome = true
  · rw [if_pos found] at matched
    dsimp only at matched
    rw [matched] at found
    cases found
  · rw [if_neg found]
    exact reached.attempts_record_ne_nil rule _

end TypeSpelling.Peg

namespace TypeSpelling.Source

open TypeSpelling.Peg
open TypeSpelling.Peg.Node
open TypeSpelling.Text

/-! ## Parts of nodes -/

/-- A node has the parts that are asked for when it is read. -/
def HasParts (node : Node Rule) : Prop :=
  let parts := node.children.map Node.rule
  match node.rule with
  | .main => .expression ∈ parts
  | .expression => .optionalExpr ∈ parts
  | .optionalExpr => parts = [.prefixed] ∨ parts = [.prefixed, .optionalOp]
  | .prefixed => ∃ operators, parts = operators ++ [.subscripted] ∧
      ∀ operator ∈ operators, (wrapper? operator).isSome = true
  | .subscripted => ∃ first ∈ atomRules, parts = [first] ∨ parts = [first, .subscript]
  | .braces => parts = [.expression, .mappingRest, .rbrace] ∨
      parts = [.expression, .setRest, .rbrace]
  | _ => True

theorem Prefixes.hasParts_nodes (prefixes : Prefixes) :
    ∀ position, (∀ rule ∈ (prefixes.nodes position).map Node.rule,
        (wrapper? rule).isSome = true) ∧
      ∀ node ∈ preorderAll (prefixes.nodes position), HasParts node := by
  induction prefixes with
  | nil => exact fun _ => ⟨by simp [nodes], by simp [nodes, preorderAll]⟩
  | cons first others ih =>
      intro position
      obtain ⟨own, behind⟩ := first
      obtain ⟨rules, parts⟩ := ih (position + utf8Length own.text + utf8Length behind.chars)
      rw [nodes, List.map_cons, List.forall_mem_cons, forall_mem_preorderAll_cons]
      refine ⟨⟨by cases own <;> rfl, rules⟩, by cases own <;> trivial, ?_, parts⟩
      cases own <;> simp [Keyword.node, Keyword.words, preorderAll, preorder, HasParts]

namespace Phrase

theorem map_rule_mem_atomRules {word : Bool} (phrase : Phrase (.atom word)) (position : Nat) :
    ∃ rule ∈ atomRules, (phrase.nodes position).map Node.rule = [rule] := by
  cases phrase with
  | token own => exact ⟨own.rule, own.shape.rule_mem, rfl⟩
  | parens => exact ⟨.parens, by decide, rfl⟩
  | mapping | set => exact ⟨.braces, by decide, rfl⟩
  | brackets => exact ⟨.brackets, by decide, rfl⟩

/-- Every node of a phrase has its parts. -/
theorem hasParts_nodes {category : Category} (phrase : Phrase category) :
    ∀ position, ∀ node ∈ preorderAll (phrase.nodes position), HasParts node := by
  induction phrase with
  | expression first others firstIh othersIh =>
      intro position
      simp only [nodes, forall_mem_preorderAll_cons, forall_mem_preorderAll_append]
      refine ⟨?_, ⟨firstIh _, othersIh _⟩, by simp [preorderAll]⟩
      cases first
      simp [HasParts, nodes]
  | operand prefixes apart primary mark ih =>
      intro position
      obtain ⟨keywords, inside⟩ := prefixes.hasParts_nodes position
      simp only [nodes, forall_mem_preorderAll_cons, forall_mem_preorderAll_append]
      refine ⟨?_, ⟨?_, ⟨inside, ih _⟩, ?_⟩, by simp [preorderAll]⟩
      · cases mark <;> simp [HasParts, markNode]
      · exact ⟨_, by rw [List.map_append, map_rule_primary], keywords⟩
      · cases mark <;> simp [preorderAll, preorder, markNode, HasParts]
  | bare atom behind ih =>
      intro position
      obtain ⟨rule, mem, rules⟩ := atom.map_rule_mem_atomRules position
      simp only [nodes, forall_mem_preorderAll_cons]
      exact ⟨⟨rule, mem, .inl rules⟩, ih _, by simp [preorderAll]⟩
  | subscripted atom before inside first others behind atomIh firstIh othersIh =>
      intro position
      obtain ⟨rule, mem, rules⟩ := atom.map_rule_mem_atomRules position
      simp only [nodes, forall_mem_preorderAll_cons, forall_mem_preorderAll_append]
      refine ⟨⟨rule, mem, .inr (by rw [List.map_append, rules]; rfl)⟩, ⟨atomIh _, ?_⟩,
        by simp [preorderAll]⟩
      exact ⟨trivial, ⟨firstIh _, othersIh _, trivial, by simp [preorderAll, markNode]⟩,
        by simp [preorderAll]⟩
  | token own =>
      intro position
      obtain ⟨rule, text, shape⟩ := own
      simp only [nodes, forall_mem_preorderAll_cons]
      refine ⟨?_, by simp [preorderAll], by simp [preorderAll]⟩
      cases shape <;> trivial
  | parens inside first others closing firstIh othersIh =>
      intro position
      simp only [nodes, forall_mem_preorderAll_cons, forall_mem_preorderAll_append]
      refine ⟨trivial, ⟨firstIh _, othersIh _, ?_⟩, by simp [preorderAll]⟩
      cases closing <;> simp [preorderAll, preorder, markNode, HasParts]
  | mapping inside key between value others keyIh valueIh othersIh =>
      intro position
      have rules := map_rule_expression key
      simp only [nodes, forall_mem_preorderAll_cons, forall_mem_preorderAll_append]
      refine ⟨.inl (by simp [rules, markNode]), ⟨keyIh _, trivial, ?_, ?_⟩, by simp [preorderAll]⟩
      · exact ⟨trivial, by simp [preorderAll, markNode], valueIh _, othersIh _⟩
      · simp [preorderAll, markNode, HasParts]
  | set inside first others firstIh othersIh =>
      intro position
      have rules := map_rule_expression first
      simp only [nodes, forall_mem_preorderAll_cons, forall_mem_preorderAll_append]
      refine ⟨.inr (by simp [rules, markNode]), ⟨firstIh _, trivial, othersIh _, ?_⟩,
        by simp [preorderAll]⟩
      simp [preorderAll, markNode, HasParts]
  | brackets inside first others firstIh othersIh =>
      intro position
      simp only [nodes, forall_mem_preorderAll_cons, forall_mem_preorderAll_append]
      refine ⟨trivial, ⟨firstIh _, othersIh _, ?_⟩, by simp [preorderAll]⟩
      simp [preorderAll, markNode, HasParts]
  | bar behind next ih =>
      exact fun position => forall_mem_preorderAll_cons.mpr
        ⟨trivial, by simp [preorderAll, markNode], ih _⟩
  | comma behind next ih =>
      exact fun position => forall_mem_preorderAll_cons.mpr
        ⟨trivial, by simp [preorderAll, markNode], ih _⟩
  | entry behind key between value keyIh valueIh =>
      intro position
      simp only [nodes, forall_mem_preorderAll_cons, forall_mem_preorderAll_append]
      exact ⟨trivial, by simp [preorderAll, markNode], keyIh _, trivial,
        by simp [preorderAll, markNode], valueIh _⟩
  | nil => exact fun position => by simp [nodes, preorderAll]
  | cons first others firstIh othersIh =>
      exact fun position => forall_mem_preorderAll_append.mpr ⟨firstIh _, othersIh _⟩

end Phrase

/-- Every node of a match of a whole text has its parts. -/
theorem hasParts_of_match? {input : List Char} {found : Match Rule}
    (matched : grammar.match? .main input = some found) :
    ∀ node ∈ preorderAll found.nodes, HasParts node := by
  obtain ⟨before, phrase, -, rfl⟩ := match?_main_eq_some_iff.mp matched
  have rules := phrase.map_rule_expression (utf8Length before.chars)
  simp only [mainNode, forall_mem_preorderAll_cons, forall_mem_preorderAll_append]
  refine ⟨by simp [HasParts, rules], ⟨phrase.hasParts_nodes _, ?_⟩, by simp [preorderAll]⟩
  exact ⟨trivial, by simp [preorderAll], by simp [preorderAll]⟩

/-! ## Parts of texts -/

/-- A span is a part of a text that begins and ends between two characters. -/
structure Span.IsPartOf (span : Span) (source : String) : Prop where
  ordered : span.start ≤ span.stop
  bounded : span.stop ≤ source.utf8ByteSize
  begins : (String.Pos.Raw.mk span.start).IsValid source
  ends : (String.Pos.Raw.mk span.stop).IsValid source

theorem isValid_utf8Length {source : String} {before after : List Char}
    (whole : source.toList = before ++ after) :
    (String.Pos.Raw.mk (utf8Length before)).IsValid source := by
  rw [String.Pos.Raw.isValid_iff_exists_append]
  refine ⟨String.ofList before, String.ofList after, ?_, ?_⟩
  · rw [← String.ofList_append, ← whole, String.ofList_toList]
  · rw [String.Pos.Raw.ext_iff, String.byteIdx_rawEndPos, ← utf8Length_toList,
      String.toList_ofList]

/-- A span between two initial parts of a text is a part of it. -/
theorem isPartOf_of_append {source : String} {before after before' after' : List Char}
    (whole : source.toList = before ++ after) (whole' : source.toList = before' ++ after')
    (ordered : utf8Length before ≤ utf8Length before') :
    Span.IsPartOf ⟨utf8Length before, utf8Length before'⟩ source where
  ordered := ordered
  bounded := by
    rw [← utf8Length_toList, whole', utf8Length_append]
    exact Nat.le_add_right _ _
  begins := isValid_utf8Length whole
  ends := isValid_utf8Length whole'

theorem utf8GetAux?_append (before after : List Char) (position : Nat) :
    String.Pos.Raw.utf8GetAux? (before ++ after) ⟨position⟩ ⟨position + utf8Length before⟩ =
      after.head? := by
  have step : ∀ (c : Char) (rest : List Char) (start sought : Nat),
      String.Pos.Raw.utf8GetAux? (c :: rest) ⟨start⟩ ⟨sought⟩ =
        if String.Pos.Raw.mk start = ⟨sought⟩ then some c
        else String.Pos.Raw.utf8GetAux? rest ⟨start + c.utf8Size⟩ ⟨sought⟩ :=
    fun _ _ _ _ => rfl
  induction before generalizing position with
  | nil =>
      cases after with
      | nil => rfl
      | cons c rest => exact (step c rest position position).trans (if_pos rfl)
  | cons c rest ih =>
      have positive := c.utf8Size_pos
      have apart : (String.Pos.Raw.mk position) ≠ ⟨position + utf8Length (c :: rest)⟩ := by
        rw [ne_eq, String.Pos.Raw.ext_iff, utf8Length_cons]
        simp only
        omega
      have next := ih (position + c.utf8Size)
      rw [Nat.add_assoc, ← utf8Length_cons] at next
      rw [List.cons_append, step, if_neg apart]
      exact next

/-- Behind an initial part of a text stands the first character of what is left. -/
theorem get?_utf8Length {source : String} {before after : List Char}
    (whole : source.toList = before ++ after) :
    (String.Pos.Raw.mk (utf8Length before)).get? source = after.head? := by
  have found := utf8GetAux?_append before after 0
  rw [Nat.zero_add, ← whole] at found
  exact found

/-! ## The three kinds of refusal -/

section

variable {limit : Nat} {source : String} {error : ParseError}

theorem isPartOf_of_depthError? (excess : depthError? limit source.toList = some error) :
    error.span.IsPartOf source := by
  obtain ⟨before, piece, first, -, rfl⟩ := depthError?_eq_some_iff.mp excess
  obtain ⟨others, split⟩ := first.1
  have whole := flatMap_text_pieces source.toList
  rw [← split, List.flatMap_append, List.flatMap_append, List.flatMap_singleton] at whole
  have part := isPartOf_of_append (whole.symm.trans (List.append_assoc _ _ _)) whole.symm
    (by rw [utf8Length_append]; exact Nat.le_add_right _ _)
  rwa [utf8Length_append] at part

/-- What is wrong with a node lies between the beginning of the node, or of its first
part, and the end of the node or of its second part. -/
theorem isPartOf_of_offence {found : Match Rule} {node : Node Rule}
    (matched : grammar.match? .main source.toList = some found)
    (mem : node ∈ preorderAll found.nodes) (offends : Offends node error) :
    error.span.IsPartOf source := by
  have takesAll : found.text = source.toList := by
    obtain ⟨-, -, -, rfl⟩ := match?_main_eq_some_iff.mp matched
    rfl
  have stands := Grammar.standsIn_of_match? ranking matched
  rw [takesAll] at stands
  cases offends with
  | number outside =>
      obtain ⟨before, after, whole, start⟩ := stands _ mem
      rw [Nat.zero_add] at start
      cases start
      have part := isPartOf_of_append whole (whole.trans (List.append_assoc _ _ _).symm)
        (by rw [utf8Length_append]; exact Nat.le_add_right _ _)
      rwa [utf8Length_append] at part
  | @subscript _ _ first second others unnamed =>
      have below := fun inner => mem_preorderAll_of_mem_children _ _ inner mem
      obtain ⟨before, after, whole, start⟩ :=
        stands _ (below first (by simp [preorderAll_cons]))
      obtain ⟨before', after', whole', start'⟩ :=
        stands _ (below second (by simp [preorderAll_cons]))
      have placed := (Grammar.placed_of_match? ranking matched).children mem
      rw [Nat.zero_add] at start start'
      have ordered : first.start ≤ second.stop := by
        cases placed with
        | cons _ _ inside behind =>
            cases behind with
            | cons starts _ inside' _ =>
                exact Nat.le_trans inside.le (Nat.le_trans starts inside'.le)
      rw [Node.stop, start', ← utf8Length_append, start] at ordered ⊢
      exact isPartOf_of_append whole (whole'.trans (List.append_assoc _ _ _).symm) ordered

/-- The furthest position lies behind an initial part of the text. -/
theorem exists_append_of_furthest (input : List Char) :
    ∃ before after, input = before ++ after ∧
      (grammar.furthest .main input).position = utf8Length before := by
  have advances := tries_main input 0 .start
  rw [Grammar.trackExpr_call, ← Grammar.furthest_eq_track] at advances
  rcases advances with same | ⟨before, after, whole, -, place⟩
  · exact ⟨[], input, rfl, same⟩
  · exact ⟨before, after, whole, place.trans (Nat.zero_add _)⟩

theorem expected_ne_nil {seen : Furthest Rule} (tried : seen.attempts ≠ []) :
    grammar.expected seen ≠ [] := by
  obtain ⟨rule, others, split⟩ := List.exists_cons_of_ne_nil tried
  have mem : rule ∈ grammar.expected seen :=
    List.mem_filter.mpr ⟨rule.mem_all, by simp [split]⟩
  exact List.ne_nil_of_mem mem

/-- A text that the grammar does not match is refused between an initial part and what
stands behind it, with some rules that were expected there. -/
theorem exists_unexpectedToken {input : List Char} (fails : grammar.match? .main input = none) :
    ∃ before after expected, input = before ++ after ∧ expected ≠ [] ∧
      unexpectedToken input = ⟨.unexpectedToken expected after.head?,
        ⟨utf8Length before, utf8Length before⟩⟩ := by
  obtain ⟨before, after, whole, place⟩ := exists_append_of_furthest input
  refine ⟨before, after, _, whole,
    expected_ne_nil (Grammar.furthest_attempts_ne_nil ranking rfl fails), ?_⟩
  have here : dropBytes (utf8Length before) input = after := by
    rw [whole, dropBytes_utf8Length_append]
  simp only [unexpectedToken, place, here]

end

/-- A list of alternatives begins as the first of them does. -/
theorem head?_alternatives {first : String} (nonempty : first.toList ≠ []) (rest : List String) :
    (alternatives (first :: rest)).toList.head? = first.toList.head? := by
  obtain ⟨c, others, chars⟩ := List.exists_cons_of_ne_nil nonempty
  match rest with
  | [] => rfl
  | [last] => simp [alternatives, String.toList_append, chars]
  | second :: third :: others => simp [alternatives, String.toList_append, chars]

/-- The words for rules that are expected name one of them. -/
theorem expectedText_ne {expected : List Rule} (nonempty : expected ≠ []) :
    ParseCause.expectedText expected ≠ "something else" := by
  have concepts : ∀ rule ∈ Rule.all, rule.concept.toList ≠ [] ∧
      rule.concept.toList.head? ≠ "something else".toList.head? := by decide
  obtain ⟨rule, others, rfl⟩ := List.exists_cons_of_ne_nil nonempty
  obtain ⟨some, other⟩ := concepts rule rule.mem_all
  intro same
  rw [ParseCause.expectedText, List.map_cons, List.eraseDups_cons] at same
  rw [← same, head?_alternatives some] at other
  exact other rfl

/-- An error of reading names a part of the text between two characters and is never
that of a match without a tree, for every node of a match has its parts.  Where a
token was not expected the part is empty, some rule was expected, and what was found
is the character that stands there, or nothing at the end of the text. -/
theorem parseWithin_error (limit : Nat) (source : String) :
    (∀ found, grammar.match? .main source.toList = some found →
      ∀ node ∈ preorderAll found.nodes, HasParts node) ∧
    ∀ error, parseWithin limit source = .error error →
      error.cause ≠ .malformed ∧ error.span.IsPartOf source ∧
      ∀ expected found, error.cause = .unexpectedToken expected found →
        error.span.stop = error.span.start ∧
        expected ≠ [] ∧ ParseCause.expectedText expected ≠ "something else" ∧
        found = (String.Pos.Raw.mk error.span.start).get? source ∧
        (found = none ↔ error.span.start = source.utf8ByteSize) := by
  refine ⟨fun found => hasParts_of_match?, fun error refused => ?_⟩
  rw [parseWithin, parseChars] at refused
  split at refused
  · rename_i excess depth
    cases refused
    refine ⟨?_, isPartOf_of_depthError? depth, ?_⟩
    · obtain ⟨_, _, -, -, rfl⟩ := depthError?_eq_some_iff.mp depth
      simp
    · obtain ⟨_, _, -, -, rfl⟩ := depthError?_eq_some_iff.mp depth
      simp
  split at refused
  · rename_i fails
    obtain ⟨before, after, expected, whole, nonempty, outcome⟩ := exists_unexpectedToken fails
    have ends : after = [] ↔ utf8Length before = source.utf8ByteSize := by
      rw [← utf8Length_toList, whole, utf8Length_append, Nat.left_eq_add,
        utf8Length_eq_zero_iff]
    rw [outcome, Except.error.injEq] at refused
    subst refused
    refine ⟨by simp, isPartOf_of_append whole whole (Nat.le_refl _), ?_⟩
    intro expected' found same
    obtain ⟨rfl, rfl⟩ := ParseCause.unexpectedToken.inj same
    refine ⟨rfl, nonempty, expectedText_ne nonempty, (get?_utf8Length whole).symm, ?_⟩
    rw [List.head?_eq_none_iff, ends]
  · rename_i found matched
    obtain ⟨node, mem, offends, -⟩ := (treeOf_eq_error_iff matched).mp refused
    refine ⟨?_, isPartOf_of_offence matched mem offends, ?_⟩
    · cases offends <;> simp
    · cases offends <;> simp

/-- Behind a string with a letter of two bytes, a letter that is not expected begins at
byte 5. -/
theorem parseWithin_error_behind_string :
    parseWithin 32 "\"é\" ü" = .error ⟨.unexpectedToken
        [.endOfInput, .subscript, .unionOp, .optionalOp] (some 'ü'), ⟨5, 5⟩⟩ ∧
      (⟨5, 5⟩ : Span).IsPartOf "\"é\" ü" ∧
      some 'ü' = (String.Pos.Raw.mk 5).get? "\"é\" ü" ∧ 5 ≠ "\"é\" ü".utf8ByteSize := by
  have fails : grammar.match? .main "\"é\" ü".toList = none :=
    Option.isNone_iff_eq_none.mp (by decide +kernel)
  have outcome : unexpectedToken "\"é\" ü".toList = ⟨.unexpectedToken
      [.endOfInput, .subscript, .unionOp, .optionalOp] (some 'ü'), ⟨5, 5⟩⟩ := by
    decide +kernel
  have refused : parseWithin 32 "\"é\" ü" = .error ⟨.unexpectedToken
      [.endOfInput, .subscript, .unionOp, .optionalOp] (some 'ü'), ⟨5, 5⟩⟩ := by
    have shallow : depthError? 32 "\"é\" ü".toList = none := by decide +kernel
    rw [parseWithin, parseChars, shallow]
    simp only [fails, outcome]
  obtain ⟨-, part, token⟩ := (parseWithin_error 32 "\"é\" ü").2 _ refused
  obtain ⟨-, -, -, found, ends⟩ := token _ _ rfl
  exact ⟨refused, part, found, fun last => absurd (ends.mpr last) (Option.some_ne_none _)⟩

end TypeSpelling.Source
