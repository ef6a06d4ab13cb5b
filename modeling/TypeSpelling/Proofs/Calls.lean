import TypeSpelling.Proofs.Phrase

/-!
# Calls of rules

A call of a rule outside a token finds what the rule's body matches, with a node
above it unless the rule is silent.  Whatever matches splits the text, and takes
something unless its expression may take nothing.
-/

namespace TypeSpelling.Source

open TypeSpelling.Peg
open TypeSpelling.Text

theorem sound_call? (inToken : Bool) :
    Sound Rule.mayTakeNothing (grammar.call? inToken) := by
  intro rule position input found matched
  exact grammar.matchRule?_sound ranking _ inToken rule position input found matched

theorem splits_of_match? {isBlank : Char → Bool} {inToken : Bool} {expr : Expr Rule}
    {position : Nat} {input : List Char} {found : Match Rule}
    (matched : expr.match? isBlank (grammar.call? inToken) position input = some found) :
    found.Splits input :=
  (expr.match?_sound (sound_call? inToken) position input found matched).1

/-- An expression that cannot match nothing takes something. -/
theorem progress_of_nullable {isBlank : Char → Bool} {inToken : Bool} {expr : Expr Rule}
    (taking : expr.nullable Rule.mayTakeNothing = false) :
    Progress (expr.match? isBlank (grammar.call? inToken)) := by
  intro position input found matched
  have sound := expr.match?_sound (sound_call? inToken) position input found matched
  refine ⟨sound.1, fun nothing => ?_⟩
  rw [sound.2 nothing] at taking
  cases taking

theorem call?_node_eq_some_iff {rule : Rule} (node : rule.kind = .node) {position : Nat}
    {input : List Char} {found : Match Rule} :
    grammar.call? false rule position input = some found ↔
      ∃ inner, rule.body.match? isBlank (grammar.call? false) position input = some inner ∧
        found = ⟨inner.text, inner.rest, [⟨rule, position, inner.text, inner.nodes⟩]⟩ := by
  have outside : grammar.entersToken false rule = false := by
    simp [Grammar.entersToken, grammar, node]
  rw [call?_eq_body, outside, Option.map_eq_some_iff, node]
  exact exists_congr fun inner => and_congr_right fun _ => eq_comm

theorem call?_silent {rule : Rule} (silent : rule.kind = .silent) :
    grammar.call? false rule = rule.body.match? isBlank (grammar.call? false) := by
  funext position input
  have outside : grammar.entersToken false rule = false := by
    simp [Grammar.entersToken, grammar, silent]
  rw [call?_eq_body, outside, silent]
  change (rule.body.match? isBlank (grammar.call? false) position input).map _ = _
  cases rule.body.match? isBlank (grammar.call? false) position input <;> rfl

/-! ## Punctuation -/

/-- The rules that take one punctuation mark. -/
def IsMarkRule (rule : Rule) (mark : Char) : Prop :=
  rule.kind = .node ∧ rule.body = .text [mark]

theorem call?_mark_eq_some_iff {rule : Rule} {mark : Char} (isMark : IsMarkRule rule mark)
    {position : Nat} {input : List Char} {found : Match Rule} :
    grammar.call? false rule position input = some found ↔
      ∃ rest, input = mark :: rest ∧ found = ⟨[mark], rest, [markNode rule position mark]⟩ := by
  obtain ⟨node, body⟩ := isMark
  rw [call?_node_eq_some_iff node, body]
  simp only [match?_text_eq_some_iff]
  constructor
  · rintro ⟨_, ⟨rest, rfl, rfl⟩, rfl⟩
    exact ⟨rest, rfl, rfl⟩
  · rintro ⟨rest, rfl, rfl⟩
    exact ⟨_, ⟨rest, rfl, rfl⟩, rfl⟩

theorem call?_mark_eq_none {rule : Rule} {mark : Char} (isMark : IsMarkRule rule mark)
    {position : Nat} {input : List Char} (other : StartsWithout (fun c => c = mark) input) :
    grammar.call? false rule position input = none := by
  apply Option.eq_none_iff_forall_ne_some.mpr
  intro found matched
  obtain ⟨rest, rfl, -⟩ := (call?_mark_eq_some_iff isMark).mp matched
  simp at other

end TypeSpelling.Source
