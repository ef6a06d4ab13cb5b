import TypeSpelling.Peg.Grammar

/-!
# Ranked grammars

The rules of a ranked grammar have levels that fall along every call made before
a character is taken, so no rule comes back to itself at the same position.  In
such a grammar the budget of nested calls is never used up, and
`Grammar.call?_eq` says that a rule matches as its body does, with no budget in
sight.
-/

namespace TypeSpelling.Peg

open TypeSpelling.Text

variable {R : Type}

namespace Expr

/-- Whether the expression may take nothing, given which rules may. -/
def nullable (mayTakeNothing : R → Bool) : Expr R → Bool
  | .char _ => false
  | .text expected => expected.isEmpty
  | .endOfInput | .skip | .optional _ | .repeated _ | .refuse _ => true
  | .call rule => mayTakeNothing rule
  | .seq first second => first.nullable mayTakeNothing && second.nullable mayTakeNothing
  | .choice first second => first.nullable mayTakeNothing || second.nullable mayTakeNothing

/-- The rules that may be called before a character is taken. -/
def leading (mayTakeNothing : R → Bool) : Expr R → List R
  | .char _ | .text _ | .endOfInput | .skip => []
  | .call rule => [rule]
  | .seq first second =>
      first.leading mayTakeNothing ++
        if first.nullable mayTakeNothing then second.leading mayTakeNothing else []
  | .choice first second => first.leading mayTakeNothing ++ second.leading mayTakeNothing
  | .optional item | .repeated item | .refuse item => item.leading mayTakeNothing

section Leading

variable {mayTakeNothing : R → Bool} {first second : Expr R}

theorem leading_seq_first :
    first.leading mayTakeNothing ⊆ (first.seq second).leading mayTakeNothing :=
  List.subset_append_left _ _

theorem leading_seq_second (nothing : first.nullable mayTakeNothing = true) :
    second.leading mayTakeNothing ⊆ (first.seq second).leading mayTakeNothing := by
  rw [leading, if_pos nothing]
  exact List.subset_append_right _ _

theorem leading_choice_first :
    first.leading mayTakeNothing ⊆ (first.choice second).leading mayTakeNothing :=
  List.subset_append_left _ _

theorem leading_choice_second :
    second.leading mayTakeNothing ⊆ (first.choice second).leading mayTakeNothing :=
  List.subset_append_right _ _

end Leading

end Expr

/-- Levels of the rules of a grammar that fall along every call made before a
character is taken. -/
structure Grammar.Ranking (grammar : Grammar R) where
  level : R → Nat
  mayTakeNothing : R → Bool
  level_lt : ∀ rule, level rule < grammar.rules.length
  nullable_body : ∀ rule,
    (grammar.body rule).nullable mayTakeNothing = true → mayTakeNothing rule = true
  leading_lt : ∀ rule, ∀ called ∈ (grammar.body rule).leading mayTakeNothing,
    level called < level rule

/-! ## What a match takes -/

theorem dropExpected?_append {expected input rest : List Char}
    (dropped : dropExpected? expected input = some rest) : expected ++ rest = input := by
  induction expected generalizing input with
  | nil => simpa [dropExpected?] using dropped.symm
  | cons e expected ih =>
      cases input with
      | nil => simp [dropExpected?] at dropped
      | cons c input =>
          simp only [dropExpected?] at dropped
          split at dropped
          · rename_i same
            simp [same, ih dropped]
          · cases dropped

/-- A match at some characters consists of what it takes and what it leaves. -/
def Match.Splits (found : Match R) (input : List Char) : Prop :=
  found.text ++ found.rest = input

theorem Match.splits_empty (input : List Char) : (Match.empty input : Match R).Splits input :=
  rfl

theorem Match.Splits.append {first second : Match R} {input : List Char}
    (left : first.Splits input) (right : second.Splits first.rest) :
    (first.append second).Splits input := by
  simp only [Splits, Match.append] at *
  rw [List.append_assoc, right, left]

theorem Match.splits_ofRule {kind : RuleKind} {inToken : Bool} {rule : R} {position : Nat}
    {found : Match R} {input : List Char} :
    (Match.ofRule kind inToken rule position found).Splits input ↔ found.Splits input := by
  cases inToken <;> cases kind <;> rfl

theorem Match.text_ofRule (kind : RuleKind) (inToken : Bool) (rule : R) (position : Nat)
    (found : Match R) : (Match.ofRule kind inToken rule position found).text = found.text := by
  cases inToken <;> cases kind <;> rfl

theorem Match.Splits.length_rest_lt {found : Match R} {input : List Char}
    (splits : found.Splits input) (taken : found.text ≠ []) :
    found.rest.length < input.length := by
  have whole := congrArg List.length splits
  have positive := List.length_pos_iff.mpr taken
  rw [List.length_append] at whole
  omega

theorem Match.Splits.rest_eq {found : Match R} {input : List Char}
    (splits : found.Splits input) (nothing : found.text = []) : found.rest = input := by
  rwa [Match.Splits, nothing, List.nil_append] at splits

/-- A way to call rules under which matches split the input, and rules that must
take something do. -/
def Sound (mayTakeNothing : R → Bool) (call : R → Matcher R) : Prop :=
  ∀ rule position input found, call rule position input = some found →
    found.Splits input ∧ (found.text = [] → mayTakeNothing rule = true)

theorem splits_repeatMatch {item : Matcher R}
    (sound : ∀ position input found, item position input = some found → found.Splits input) :
    ∀ limit position input, (repeatMatch item limit position input).Splits input := by
  intro limit
  induction limit with
  | zero => intro position input; exact Match.splits_empty input
  | succ limit ih =>
      intro position input
      unfold repeatMatch
      split
      · exact Match.splits_empty input
      · rename_i first matched
        split
        · exact Match.splits_empty input
        · exact (sound position input first matched).append (ih _ _)

theorem Expr.match?_sound {isBlank : Char → Bool} {mayTakeNothing : R → Bool}
    {call : R → Matcher R} (sound : Sound mayTakeNothing call) (expr : Expr R) :
    ∀ position input found, expr.match? isBlank call position input = some found →
      found.Splits input ∧ (found.text = [] → expr.nullable mayTakeNothing = true) := by
  induction expr with
  | char accepts =>
      intro position input found matched
      cases input with
      | nil => simp [match?] at matched
      | cons c rest =>
          simp only [match?] at matched
          split at matched
          · cases matched
            exact ⟨rfl, by simp⟩
          · cases matched
  | text expected =>
      intro position input found matched
      simp only [match?, Option.map_eq_some_iff] at matched
      obtain ⟨rest, dropped, rfl⟩ := matched
      exact ⟨dropExpected?_append dropped, by simp [nullable]⟩
  | endOfInput =>
      intro position input found matched
      simp only [match?] at matched
      split at matched
      · cases matched
        exact ⟨Match.splits_empty input, by simp [nullable]⟩
      · cases matched
  | skip =>
      intro position input found matched
      cases matched
      exact ⟨List.takeWhile_append_dropWhile, by simp [nullable]⟩
  | call rule => exact sound rule
  | seq first second firstIh secondIh =>
      intro position input found matched
      simp only [match?] at matched
      split at matched
      · cases matched
      · rename_i left leftMatched
        obtain ⟨right, rightMatched, rfl⟩ := Option.map_eq_some_iff.mp matched
        have leftSound := firstIh _ _ _ leftMatched
        have rightSound := secondIh _ _ _ rightMatched
        refine ⟨leftSound.1.append rightSound.1, fun nothing => ?_⟩
        simp only [Match.append, List.append_eq_nil_iff] at nothing
        simp [nullable, leftSound.2 nothing.1, rightSound.2 nothing.2]
  | choice first second firstIh secondIh =>
      intro position input found matched
      simp only [match?] at matched
      split at matched
      · have rightSound := secondIh _ _ _ matched
        exact ⟨rightSound.1, fun nothing => by simp [nullable, rightSound.2 nothing]⟩
      · rename_i left leftMatched
        cases matched
        have leftSound := firstIh _ _ _ leftMatched
        exact ⟨leftSound.1, fun nothing => by simp [nullable, leftSound.2 nothing]⟩
  | optional item ih =>
      intro position input found matched
      cases matched
      refine ⟨?_, by simp [nullable]⟩
      cases itemMatched : item.match? isBlank call position input with
      | none => exact Match.splits_empty input
      | some inner => exact (ih _ _ _ itemMatched).1
  | repeated item ih =>
      intro position input found matched
      cases matched
      exact ⟨splits_repeatMatch (fun _ _ _ itemMatched => (ih _ _ _ itemMatched).1) _ _ _,
        by simp [nullable]⟩
  | refuse item ih =>
      intro position input found matched
      simp only [match?] at matched
      split at matched
      · cases matched
        exact ⟨Match.splits_empty input, by simp [nullable]⟩
      · cases matched

theorem Grammar.matchRule?_sound {grammar : Grammar R} (ranking : grammar.Ranking)
    (budget : Nat) (inToken : Bool) :
    Sound ranking.mayTakeNothing (grammar.matchRule? budget inToken) := by
  induction budget generalizing inToken with
  | zero => intro rule position input found matched; cases matched
  | succ budget ih =>
      intro rule position input found matched
      obtain ⟨inner, bodyMatched, rfl⟩ := Option.map_eq_some_iff.mp matched
      have bodySound := Expr.match?_sound (ih _) (grammar.body rule) _ _ _ bodyMatched
      rw [Match.splits_ofRule, Match.text_ofRule]
      exact ⟨bodySound.1, fun nothing => ranking.nullable_body rule (bodySound.2 nothing)⟩

/-! ## The budget suffices -/

/-- Two ways to call rules that agree on shorter texts, and at a length on the
given rules. -/
def AgreeAt (left right : R → Matcher R) (length : Nat) (rules : List R) : Prop :=
  ∀ rule position input,
    input.length < length ∨ (input.length = length ∧ rule ∈ rules) →
      left rule position input = right rule position input

theorem AgreeAt.below {left right : R → Matcher R} {length shorter : Nat} {rules : List R}
    (agree : AgreeAt left right length rules) (lt : shorter < length) (others : List R) :
    AgreeAt left right shorter others :=
  fun rule position input bound => agree rule position input (.inl (by omega))

theorem AgreeAt.weaken {left right : R → Matcher R} {length : Nat} {rules others : List R}
    (agree : AgreeAt left right length rules) (subset : others ⊆ rules) :
    AgreeAt left right length others :=
  fun rule position input bound => agree rule position input
    (bound.imp_right fun at_length => ⟨at_length.1, subset at_length.2⟩)

theorem repeatMatch_congr {left right : Matcher R} :
    ∀ limit position input,
      (∀ position found, left position input = some found → found.Splits input) →
      (∀ position (shorter : List Char), shorter.length < input.length →
        left position shorter = right position shorter ∧
          ∀ found, left position shorter = some found → found.Splits shorter) →
      left position input = right position input →
      repeatMatch left limit position input = repeatMatch right limit position input := by
  intro limit
  induction limit with
  | zero => intros; rfl
  | succ limit ih =>
      intro position input splits below here
      unfold repeatMatch
      rw [here]
      split
      · rfl
      · rename_i first matched
        split
        · rfl
        · rename_i taken
          have shorter := (splits position first (here.trans matched)).length_rest_lt
            (by simpa using taken)
          rw [ih _ _ (fun position found => (below position first.rest shorter).2 found)
            (fun position text lt => below position text (Nat.lt_trans lt shorter))
            (below _ _ shorter).1]

theorem Expr.match?_congr {isBlank : Char → Bool} {mayTakeNothing : R → Bool}
    {left right : R → Matcher R} (sound : Sound mayTakeNothing left) (expr : Expr R) :
    ∀ position input, AgreeAt left right input.length (expr.leading mayTakeNothing) →
      expr.match? isBlank left position input = expr.match? isBlank right position input := by
  induction expr with
  | char | text | endOfInput | skip => intros; rfl
  | call rule =>
      intro position input agree
      exact agree rule position input (.inr ⟨rfl, by simp [leading]⟩)
  | seq first second firstIh secondIh =>
      intro position input agree
      have firstSame := firstIh position input (agree.weaken leading_seq_first)
      simp only [match?, ← firstSame]
      split
      · rfl
      · rename_i found matched
        have foundSound := first.match?_sound sound position input found matched
        by_cases nothing : found.text = []
        · have follows := agree.weaken (leading_seq_second (foundSound.2 nothing))
          rw [secondIh _ _ (foundSound.1.rest_eq nothing ▸ follows)]
        · rw [secondIh _ _ (agree.below (foundSound.1.length_rest_lt nothing) _)]
  | choice first second firstIh secondIh =>
      intro position input agree
      have firstSame := firstIh position input (agree.weaken leading_choice_first)
      have secondSame := secondIh position input (agree.weaken leading_choice_second)
      simp only [match?, firstSame, secondSame]
  | optional item ih =>
      intro position input agree
      simp only [match?, ih position input agree]
  | repeated item ih =>
      intro position input agree
      simp only [match?, Option.some.injEq]
      apply repeatMatch_congr
      · exact fun position found matched => (item.match?_sound sound _ _ _ matched).1
      · exact fun position shorter lt =>
          ⟨ih position shorter (agree.below lt _),
            fun found matched => (item.match?_sound sound _ _ _ matched).1⟩
      · exact ih position input agree
  | refuse item ih =>
      intro position input agree
      simp only [match?, ih position input agree]

/-- Any two budgets give the same match once both allow for the level of the
rule and for every level at each of the characters that are left. -/
theorem Grammar.matchRule?_congr {grammar : Grammar R} (ranking : grammar.Ranking) :
    ∀ (budget other : Nat) (inToken : Bool) (rule : R) (position : Nat) (input : List Char),
      ranking.level rule + grammar.rules.length * input.length < budget →
      ranking.level rule + grammar.rules.length * input.length < other →
      grammar.matchRule? budget inToken rule position input =
        grammar.matchRule? other inToken rule position input := by
  intro budget
  induction budget with
  | zero => intro other inToken rule position input enough; omega
  | succ budget ih =>
      intro other inToken rule position input enough otherEnough
      cases other with
      | zero => omega
      | succ other =>
          simp only [matchRule?]
          rw [Expr.match?_congr (grammar.matchRule?_sound ranking budget _)]
          intro called position text bound
          rcases bound with shorter | ⟨same, leads⟩
          · have fewer : grammar.rules.length * text.length + grammar.rules.length ≤
                grammar.rules.length * input.length := by
              rw [← Nat.mul_succ]
              exact Nat.mul_le_mul_left _ shorter
            have level := ranking.level_lt called
            exact ih _ _ _ _ _ (by omega) (by omega)
          · have level := ranking.leading_lt rule called leads
            rw [← same] at enough otherEnough
            exact ih _ _ _ _ _ (by omega) (by omega)

namespace Grammar

/-- Matches a rule at a byte position of the characters that are left. -/
def call? (grammar : Grammar R) (inToken : Bool) (rule : R) : Matcher R :=
  fun position input => grammar.matchRule? (grammar.budget input) inToken rule position input

theorem match?_eq_call? (grammar : Grammar R) (rule : R) (input : List Char) :
    grammar.match? rule input = grammar.call? false rule 0 input := rfl

/-- Any budget that is large enough answers a call. -/
theorem matchRule?_eq_call? {grammar : Grammar R} (ranking : grammar.Ranking) {budget : Nat}
    {inToken : Bool} {rule : R} {position : Nat} {input : List Char}
    (enough : ranking.level rule + grammar.rules.length * input.length < budget) :
    grammar.matchRule? budget inToken rule position input =
      grammar.call? inToken rule position input := by
  refine grammar.matchRule?_congr ranking _ _ _ _ _ _ enough ?_
  have level := ranking.level_lt rule
  rw [Grammar.budget, Nat.mul_succ]
  omega

/-- In a ranked grammar a rule matches as its body does. -/
theorem call?_eq {grammar : Grammar R} (ranking : grammar.Ranking) (inToken : Bool) (rule : R)
    (position : Nat) (input : List Char) :
    grammar.call? inToken rule position input =
      ((grammar.body rule).match? (grammar.blankIn (grammar.entersToken inToken rule))
        (grammar.call? (grammar.entersToken inToken rule)) position input).map
          (.ofRule (grammar.kind rule) inToken rule position) := by
  have level := ranking.level_lt rule
  rw [← matchRule?_eq_call? ranking
    (Nat.lt_succ_self (ranking.level rule + grammar.rules.length * input.length))]
  simp only [matchRule?]
  rw [Expr.match?_congr (grammar.matchRule?_sound ranking _ _)]
  intro called position text bound
  rcases bound with shorter | ⟨same, leads⟩
  · have fewer : grammar.rules.length * text.length + grammar.rules.length ≤
        grammar.rules.length * input.length := by
      rw [← Nat.mul_succ]
      exact Nat.mul_le_mul_left _ shorter
    have calledLevel := ranking.level_lt called
    exact matchRule?_eq_call? ranking (by omega)
  · have calledLevel := ranking.leading_lt rule called leads
    exact matchRule?_eq_call? ranking (by rw [same]; omega)

end Grammar

end TypeSpelling.Peg
