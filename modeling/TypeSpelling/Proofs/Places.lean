import TypeSpelling.Peg.Ranked

/-!
# Where the nodes of a match stand

The nodes that a match makes stand one behind the other in the text it takes, and
the nodes of a rule's calls stand within the text of the rule.  So a walk that
sees a node before its children sees the nodes from left to right, and whatever
it sees after a node lies inside the node or behind it.
-/

namespace TypeSpelling.Peg

open TypeSpelling.Text

variable {R : Type}

/-! ## Walking through nodes -/

namespace Node

mutual

/-- A node and every node below it, a node before its children. -/
def preorder : Node R → List (Node R)
  | ⟨rule, start, text, children⟩ => ⟨rule, start, text, children⟩ :: preorderAll children

/-- Every node of a list of nodes, node by node. -/
def preorderAll : List (Node R) → List (Node R)
  | [] => []
  | first :: rest => preorder first ++ preorderAll rest

end

theorem preorderAll_cons (first : Node R) (rest : List (Node R)) :
    preorderAll (first :: rest) = first :: (preorderAll first.children ++ preorderAll rest) := by
  cases first
  rfl

mutual

theorem sizeOf_le_of_mem_preorder : ∀ node other : Node R,
    other ∈ preorder node → sizeOf other ≤ sizeOf node
  | ⟨rule, start, text, children⟩, other, mem => by
      rw [preorder, List.mem_cons] at mem
      rcases mem with rfl | mem
      · exact Nat.le_refl _
      · have smaller := sizeOf_lt_of_mem_preorderAll children other mem
        simp only [mk.sizeOf_spec]
        omega

theorem sizeOf_lt_of_mem_preorderAll : ∀ (nodes : List (Node R)) (other : Node R),
    other ∈ preorderAll nodes → sizeOf other < sizeOf nodes
  | [], other, mem => by simp [preorderAll] at mem
  | first :: rest, other, mem => by
      rw [preorderAll, List.mem_append] at mem
      simp only [List.cons.sizeOf_spec]
      rcases mem with mem | mem
      · have := sizeOf_le_of_mem_preorder first other mem
        omega
      · have := sizeOf_lt_of_mem_preorderAll rest other mem
        omega

end

/-- No two nodes lie below each other. -/
theorem not_mem_below_of_mem_below {node other : Node R}
    (below : other ∈ preorderAll node.children) : node ∉ preorderAll other.children := by
  intro above
  have less := sizeOf_lt_of_mem_preorderAll _ _ below
  have greater := sizeOf_lt_of_mem_preorderAll _ _ above
  cases node
  cases other
  simp only [mk.sizeOf_spec] at less greater
  omega

end Node

open Node

/-! ## Places -/

/-- Nodes stand one behind the other between two positions, and the children of
each stand within it.  A node takes nothing only where its rule may. -/
inductive Placed (mayTakeNothing : R → Bool) : Nat → List (Node R) → Nat → Prop where
  | nil {low high : Nat} (le : low ≤ high) : Placed mayTakeNothing low [] high
  | cons {low high : Nat} {node : Node R} {others : List (Node R)} (starts : low ≤ node.start)
      (takes : node.text = [] → mayTakeNothing node.rule = true)
      (inside : Placed mayTakeNothing node.start node.children node.stop)
      (behind : Placed mayTakeNothing node.stop others high) :
      Placed mayTakeNothing low (node :: others) high

namespace Placed

variable {mayTakeNothing : R → Bool} {low middle high : Nat} {nodes others : List (Node R)}

theorem le (placed : Placed mayTakeNothing low nodes high) : low ≤ high := by
  induction placed with
  | nil le => exact le
  | cons starts _ _ _ insideIh behindIh => omega

theorem append (left : Placed mayTakeNothing low nodes middle)
    (right : Placed mayTakeNothing middle others high) :
    Placed mayTakeNothing low (nodes ++ others) high := by
  induction left with
  | nil le =>
      cases right with
      | nil right => exact .nil (Nat.le_trans le right)
      | cons starts takes inside behind => exact .cons (Nat.le_trans le starts) takes inside behind
  | cons starts takes inside _ _ behindIh => exact .cons starts takes inside (behindIh right)

/-- A node lies between the positions that the nodes stand between. -/
theorem of_mem (placed : Placed mayTakeNothing low nodes high) {node : Node R} :
    node ∈ preorderAll nodes → low ≤ node.start ∧ node.stop ≤ high ∧
      (node.text = [] → mayTakeNothing node.rule = true) := by
  induction placed with
  | nil => simp [preorderAll]
  | @cons low high first others starts takes inside behind insideIh behindIh =>
      intro mem
      have behindLe := behind.le
      have insideLe := inside.le
      rw [preorderAll_cons, List.mem_cons, List.mem_append] at mem
      rcases mem with rfl | mem | mem
      · exact ⟨starts, behindLe, takes⟩
      · obtain ⟨low, high, takes⟩ := insideIh mem
        exact ⟨Nat.le_trans starts low, Nat.le_trans high behindLe, takes⟩
      · obtain ⟨low, high, takes⟩ := behindIh mem
        exact ⟨by omega, high, takes⟩

theorem children (placed : Placed mayTakeNothing low nodes high) {node : Node R} :
    node ∈ preorderAll nodes → Placed mayTakeNothing node.start node.children node.stop := by
  induction placed with
  | nil => simp [preorderAll]
  | cons starts takes inside behind insideIh behindIh =>
      intro mem
      rw [preorderAll_cons, List.mem_cons, List.mem_append] at mem
      rcases mem with rfl | mem | mem
      · exact inside
      · exact insideIh mem
      · exact behindIh mem

/-- What a walk sees after a node lies below the node or behind it. -/
theorem below_or_behind (placed : Placed mayTakeNothing low nodes high) {node other : Node R} :
    ∀ {before after}, preorderAll nodes = before ++ node :: after → other ∈ after →
      other ∈ preorderAll node.children ∨ node.stop ≤ other.start := by
  induction placed with
  | nil => intro before after walk; simp [preorderAll] at walk
  | @cons low high first others starts takes inside behind insideIh behindIh =>
      intro before after walk mem
      rw [preorderAll_cons] at walk
      cases before with
      | nil =>
          obtain ⟨rfl, rfl⟩ := List.cons.inj walk
          rcases List.mem_append.mp mem with mem | mem
          · exact .inl mem
          · exact .inr (behind.of_mem mem).1
      | cons head before =>
          obtain ⟨-, walk⟩ := List.cons.inj walk
          rcases List.append_eq_append_iff.mp walk with ⟨between, -, later⟩ | ⟨between, own, later⟩
          · exact behindIh later mem
          cases between with
          | nil =>
              have walk : preorderAll others = [] ++ node :: after := later.symm
              exact behindIh walk mem
          | cons head between =>
              obtain ⟨rfl, rfl⟩ := List.cons.inj later
              rcases List.mem_append.mp mem with mem | mem
              · exact insideIh own mem
              · have within := (inside.of_mem (own ▸ by simp : node ∈ preorderAll _)).2.1
                exact .inr (Nat.le_trans within (behind.of_mem mem).1)

end Placed

/-! ## Matches -/

/-- The nodes of a match at a position stand in the text that it takes. -/
def Match.PlacedAt (mayTakeNothing : R → Bool) (position : Nat) (found : Match R) : Prop :=
  Placed mayTakeNothing position found.nodes (position + utf8Length found.text)

section

variable {mayTakeNothing : R → Bool}

theorem Match.placedAt_of_nodes_eq_nil {found : Match R} (none : found.nodes = [])
    (position : Nat) : found.PlacedAt mayTakeNothing position := by
  rw [PlacedAt, none]
  exact .nil (Nat.le_add_right _ _)

theorem Match.PlacedAt.append {first second : Match R} {position : Nat}
    (left : first.PlacedAt mayTakeNothing position)
    (right : second.PlacedAt mayTakeNothing (position + utf8Length first.text)) :
    (first.append second).PlacedAt mayTakeNothing position := by
  rw [PlacedAt, Match.append, utf8Length_append, ← Nat.add_assoc]
  exact Placed.append left right

theorem Match.PlacedAt.ofRule {found : Match R} {position : Nat}
    (placed : found.PlacedAt mayTakeNothing position) {rule : R}
    (takes : found.text = [] → mayTakeNothing rule = true) (kind : RuleKind) (inToken : Bool) :
    (Match.ofRule kind inToken rule position found).PlacedAt mayTakeNothing position := by
  have leaf : Placed mayTakeNothing position [⟨rule, position, found.text, []⟩]
      (position + utf8Length found.text) :=
    .cons (Nat.le_refl _) takes (.nil (Nat.le_add_right _ _)) (.nil (Nat.le_refl _))
  have above : Placed mayTakeNothing position [⟨rule, position, found.text, found.nodes⟩]
      (position + utf8Length found.text) :=
    .cons (Nat.le_refl _) takes placed (.nil (Nat.le_refl _))
  cases inToken with
  | true => exact placedAt_of_nodes_eq_nil rfl position
  | false =>
      cases kind with
      | silent => exact placed
      | token => exact leaf
      | node => exact above

end

section

variable {motive : Nat → Match R → Prop}

theorem repeatMatch_induction {item : Matcher R}
    (leaf : ∀ position found, found.nodes = [] → motive position found)
    (append : ∀ position first second, motive position first →
      motive (position + utf8Length first.text) second → motive position (first.append second))
    (items : ∀ position input found, item position input = some found → motive position found) :
    ∀ limit position input, motive position (repeatMatch item limit position input) := by
  intro limit
  induction limit with
  | zero => exact fun position input => leaf _ _ rfl
  | succ limit ih =>
      intro position input
      unfold repeatMatch
      split
      · exact leaf _ _ rfl
      · rename_i first matched
        split
        · exact leaf _ _ rfl
        · exact append _ _ _ (items position input first matched) (ih _ _)

/-- What holds of the matches of rules, of every match without nodes and of two
matches in a row holds of every match of an expression. -/
theorem Expr.match?_induction {isBlank : Char → Bool} {call : R → Matcher R}
    (leaf : ∀ position found, found.nodes = [] → motive position found)
    (append : ∀ position first second, motive position first →
      motive (position + utf8Length first.text) second → motive position (first.append second))
    (calls : ∀ rule position input found, call rule position input = some found →
      motive position found) (expr : Expr R) :
    ∀ position input found, expr.match? isBlank call position input = some found →
      motive position found := by
  induction expr with
  | char accepts =>
      intro position input found matched
      cases input with
      | nil => cases matched
      | cons c rest =>
          simp only [match?] at matched
          split at matched
          · cases matched
            exact leaf _ _ rfl
          · cases matched
  | text expected =>
      intro position input found matched
      obtain ⟨rest, -, rfl⟩ := Option.map_eq_some_iff.mp matched
      exact leaf _ _ rfl
  | endOfInput =>
      intro position input found matched
      simp only [match?] at matched
      split at matched
      · cases matched
        exact leaf _ _ rfl
      · cases matched
  | skip =>
      intro position input found matched
      cases matched
      exact leaf _ _ rfl
  | call rule => exact calls rule
  | seq first second firstIh secondIh =>
      intro position input found matched
      simp only [match?] at matched
      split at matched
      · cases matched
      · rename_i left leftMatched
        obtain ⟨right, rightMatched, rfl⟩ := Option.map_eq_some_iff.mp matched
        exact append _ _ _ (firstIh _ _ _ leftMatched) (secondIh _ _ _ rightMatched)
  | choice first second firstIh secondIh =>
      intro position input found matched
      simp only [match?] at matched
      split at matched
      · exact secondIh _ _ _ matched
      · rename_i left leftMatched
        cases matched
        exact firstIh _ _ _ leftMatched
  | optional item ih =>
      intro position input found matched
      cases matched
      cases itemMatched : item.match? isBlank call position input with
      | none => exact leaf _ _ rfl
      | some inner => exact ih _ _ _ itemMatched
  | repeated item ih =>
      intro position input found matched
      cases matched
      exact repeatMatch_induction leaf append ih _ _ _
  | refuse item ih =>
      intro position input found matched
      simp only [match?] at matched
      split at matched
      · cases matched
        exact leaf _ _ rfl
      · cases matched

end

namespace Grammar

/-- What holds of every match without nodes and of two matches in a row, and holds
of a rule if it holds of its body, holds of every match of a ranked grammar. -/
theorem match?_induction {grammar : Grammar R} (ranking : grammar.Ranking)
    {motive : Nat → Match R → Prop}
    (leaf : ∀ position found, found.nodes = [] → motive position found)
    (append : ∀ position first second, motive position first →
      motive (position + utf8Length first.text) second → motive position (first.append second))
    (ofRule : ∀ inToken rule position inner,
      (inner.text = [] → ranking.mayTakeNothing rule = true) → motive position inner →
        motive position (.ofRule (grammar.kind rule) inToken rule position inner))
    {rule : R} {input : List Char} {found : Match R}
    (matched : grammar.match? rule input = some found) : motive 0 found := by
  have rules : ∀ budget inToken rule position input found,
      grammar.matchRule? budget inToken rule position input = some found →
        motive position found := by
    intro budget
    induction budget with
    | zero => intro inToken rule position input found matched; cases matched
    | succ budget ih =>
        intro inToken rule position input found matched
        have sound := grammar.matchRule?_sound ranking (budget + 1) inToken _ _ _ _ matched
        obtain ⟨inner, bodyMatched, rfl⟩ := Option.map_eq_some_iff.mp matched
        rw [Match.text_ofRule] at sound
        exact ofRule _ _ _ _ sound.2
          (Expr.match?_induction leaf append (ih _) _ _ _ _ bodyMatched)
  exact rules _ _ _ _ _ _ matched

/-- The nodes of a match of a ranked grammar stand in order in the text. -/
theorem placed_of_match? {grammar : Grammar R} (ranking : grammar.Ranking) {rule : R}
    {input : List Char} {found : Match R} (matched : grammar.match? rule input = some found) :
    found.PlacedAt ranking.mayTakeNothing 0 :=
  match?_induction ranking (fun position _ none => Match.placedAt_of_nodes_eq_nil none position)
    (fun _ _ _ left right => left.append right)
    (fun inToken _ _ _ takes placed => placed.ofRule takes _ inToken) matched

end Grammar

end TypeSpelling.Peg
