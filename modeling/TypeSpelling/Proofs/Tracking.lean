import TypeSpelling.Peg.Failure
import TypeSpelling.Peg.Ranked

/-!
# Tracking in ranked grammars

In a ranked grammar the budget of nested calls is used up no more by tracking than
by matching, so `Grammar.track_eq` says how a rule is tracked with no budget in
sight.

Tracking leaves a position at which some rule was tried in vain.  `Tries` says what
is known of the text in front of that position, and there is one lemma for each
form of expression on how this comes about.
-/

namespace TypeSpelling.Peg

open TypeSpelling.Text

variable {R : Type}

/-! ## The budget suffices -/

/-- Two ways to track rules that agree on shorter texts, and at a length on the
given rules. -/
def TrackAgreeAt (left right : R → Tracker R) (length : Nat) (rules : List R) : Prop :=
  ∀ rule position input seen,
    input.length < length ∨ (input.length = length ∧ rule ∈ rules) →
      left rule position input seen = right rule position input seen

theorem TrackAgreeAt.below {left right : R → Tracker R} {length shorter : Nat} {rules : List R}
    (agree : TrackAgreeAt left right length rules) (lt : shorter < length) (others : List R) :
    TrackAgreeAt left right shorter others :=
  fun rule position input seen bound => agree rule position input seen (.inl (by omega))

theorem TrackAgreeAt.weaken {left right : R → Tracker R} {length : Nat} {rules others : List R}
    (agree : TrackAgreeAt left right length rules) (subset : others ⊆ rules) :
    TrackAgreeAt left right length others :=
  fun rule position input seen bound => agree rule position input seen
    (bound.imp_right fun at_length => ⟨at_length.1, subset at_length.2⟩)

theorem trackRepeat_congr {left right : Tracker R} :
    ∀ limit position input seen,
      (∀ position seen found, (left position input seen).1 = some found → found.Splits input) →
      (∀ position (shorter : List Char) seen, shorter.length < input.length →
        left position shorter seen = right position shorter seen ∧
          ∀ found, (left position shorter seen).1 = some found → found.Splits shorter) →
      left position input seen = right position input seen →
      trackRepeat left limit position input seen = trackRepeat right limit position input seen := by
  intro limit
  induction limit with
  | zero => intros; rfl
  | succ limit ih =>
      intro position input seen splits below here
      unfold trackRepeat
      rw [← here]
      cases tracked : left position input seen with
      | mk found next =>
          cases found with
          | none => rfl
          | some first =>
              by_cases nothing : first.text = []
              · simp [nothing]
              · have firstSplits := splits position seen first (by rw [tracked])
                have shorter := firstSplits.length_rest_lt nothing
                have more := ih (position + utf8Length first.text) first.rest next
                  (fun position seen => (below position first.rest seen shorter).2)
                  (fun position text seen lt => below position text seen (Nat.lt_trans lt shorter))
                  (below _ _ _ shorter).1
                simp only [List.isEmpty_iff, nothing, if_false, more]

theorem Expr.track_congr {isBlank : Char → Bool} {mayTakeNothing : R → Bool}
    {left right : R → Matcher R} {leftTrack rightTrack : R → Tracker R}
    (sound : Sound mayTakeNothing left)
    (agrees : ∀ rule position input seen,
      (leftTrack rule position input seen).1 = left rule position input) (expr : Expr R) :
    ∀ position input seen, AgreeAt left right input.length (expr.leading mayTakeNothing) →
      TrackAgreeAt leftTrack rightTrack input.length (expr.leading mayTakeNothing) →
        expr.track isBlank left leftTrack position input seen =
          expr.track isBlank right rightTrack position input seen := by
  induction expr with
  | char | text | endOfInput | skip => intros; rfl
  | call rule =>
      intro position input seen agree trackAgree
      exact trackAgree rule position input seen (.inr ⟨rfl, by simp [leading]⟩)
  | seq first second firstIh secondIh =>
      intro position input seen agree trackAgree
      have firstSame := firstIh position input seen (agree.weaken leading_seq_first)
        (trackAgree.weaken leading_seq_first)
      have matches? : (first.track isBlank left leftTrack position input seen).1 =
          first.match? isBlank left position input := first.track_fst agrees position input seen
      simp only [track, ← firstSame]
      cases tracked : first.track isBlank left leftTrack position input seen with
      | mk found next =>
          cases found with
          | none => rfl
          | some found =>
              rw [tracked] at matches?
              have foundSound := first.match?_sound sound position input found matches?.symm
              have same : second.track isBlank left leftTrack
                  (position + utf8Length found.text) found.rest next =
                    second.track isBlank right rightTrack
                      (position + utf8Length found.text) found.rest next := by
                by_cases nothing : found.text = []
                · have rest := foundSound.1.rest_eq nothing
                  have subset : second.leading mayTakeNothing ⊆
                      (first.seq second).leading mayTakeNothing :=
                    leading_seq_second (foundSound.2 nothing)
                  exact secondIh _ _ _ (rest ▸ agree.weaken subset)
                    (rest ▸ trackAgree.weaken subset)
                · have shorter := foundSound.1.length_rest_lt nothing
                  exact secondIh _ _ _ (agree.below shorter _) (trackAgree.below shorter _)
              simp only [same]
  | choice first second firstIh secondIh =>
      intro position input seen agree trackAgree
      have firstSame := firstIh position input seen (agree.weaken leading_choice_first)
        (trackAgree.weaken leading_choice_first)
      have secondSame := fun seen => secondIh position input seen
        (agree.weaken leading_choice_second) (trackAgree.weaken leading_choice_second)
      simp only [track, firstSame, secondSame]
  | optional item ih =>
      intro position input seen agree trackAgree
      simp only [track, ih position input seen agree trackAgree]
  | repeated item ih =>
      intro position input seen agree trackAgree
      have splits : ∀ position input seen found,
          (item.track isBlank left leftTrack position input seen).1 = some found →
            found.Splits input := by
        intro position input seen found matched
        rw [item.track_fst agrees] at matched
        exact (item.match?_sound sound _ _ _ matched).1
      have same := trackRepeat_congr (input.length + 1) position input seen
        (fun position seen found => splits position input seen found)
        (fun position shorter seen lt =>
          ⟨ih position shorter seen (agree.below lt _) (trackAgree.below lt _),
            fun found => splits position shorter seen found⟩)
        (ih position input seen agree trackAgree)
      simp only [track, same]
  | refuse item ih =>
      intro position input seen agree trackAgree
      simp only [track, (refuse item).match?_congr sound position input agree]

namespace Grammar

/-- Calls of a rule that are to be answered next need less of the budget. -/
theorem Ranking.level_add_lt {grammar : Grammar R} (ranking : grammar.Ranking) {rule called : R}
    {input text : List Char}
    (bound : text.length < input.length ∨ (text.length = input.length ∧
      called ∈ (grammar.body rule).leading ranking.mayTakeNothing)) :
    ranking.level called + grammar.rules.length * text.length <
      ranking.level rule + grammar.rules.length * input.length := by
  rcases bound with shorter | ⟨same, leads⟩
  · have fewer : grammar.rules.length * text.length + grammar.rules.length ≤
        grammar.rules.length * input.length := by
      rw [← Nat.mul_succ]
      exact Nat.mul_le_mul_left _ shorter
    have level := ranking.level_lt called
    omega
  · have level := ranking.leading_lt rule called leads
    rw [same]
    omega

/-- Any two budgets track a rule alike once both allow for the level of the rule and
for every level at each of the characters that are left. -/
theorem trackRule_congr {grammar : Grammar R} (ranking : grammar.Ranking) :
    ∀ (budget other : Nat) (rule : R) (position : Nat) (input : List Char) (seen : Furthest R),
      ranking.level rule + grammar.rules.length * input.length < budget →
      ranking.level rule + grammar.rules.length * input.length < other →
      grammar.trackRule budget rule position input seen =
        grammar.trackRule other rule position input seen := by
  intro budget
  induction budget with
  | zero => intro other rule position input seen enough; omega
  | succ budget ih =>
      intro other rule position input seen enough otherEnough
      cases other with
      | zero => omega
      | succ other =>
          have agree : AgreeAt (grammar.matchRule? budget false) (grammar.matchRule? other false)
              input.length ((grammar.body rule).leading ranking.mayTakeNothing) := by
            intro called position text bound
            have less := ranking.level_add_lt bound
            exact grammar.matchRule?_congr ranking _ _ _ _ _ _ (by omega) (by omega)
          have trackAgree : TrackAgreeAt (grammar.trackRule budget) (grammar.trackRule other)
              input.length ((grammar.body rule).leading ranking.mayTakeNothing) := by
            intro called position text seen bound
            have less := ranking.level_add_lt bound
            exact ih _ _ _ _ _ (by omega) (by omega)
          simp only [trackRule]
          rw [Expr.track_congr (grammar.matchRule?_sound ranking budget false)
              (grammar.trackRule_fst budget) _ _ _ _ agree trackAgree,
            grammar.matchRule?_congr ranking _ _ _ _ _ _ enough otherEnough]

theorem call?_sound {grammar : Grammar R} (ranking : grammar.Ranking) (inToken : Bool) :
    Sound ranking.mayTakeNothing (grammar.call? inToken) :=
  fun rule position input => grammar.matchRule?_sound ranking _ inToken rule position input

/-- Tracks a rule at a byte position of the characters that are left. -/
def track (grammar : Grammar R) (rule : R) : Tracker R :=
  fun position input seen => grammar.trackRule (grammar.budget input) rule position input seen

theorem furthest_eq_track (grammar : Grammar R) (rule : R) (input : List Char) :
    grammar.furthest rule input = (grammar.track rule 0 input .start).2 := rfl

theorem track_fst (grammar : Grammar R) (rule : R) (position : Nat) (input : List Char)
    (seen : Furthest R) :
    (grammar.track rule position input seen).1 = grammar.call? false rule position input :=
  grammar.trackRule_fst _ rule position input seen

/-- Tracks an expression whose rules are those of the grammar. -/
def trackExpr (grammar : Grammar R) (expr : Expr R) : Tracker R :=
  expr.track grammar.isBlank (grammar.call? false) grammar.track

theorem trackExpr_call (grammar : Grammar R) (rule : R) :
    grammar.trackExpr (.call rule) = grammar.track rule := rfl

theorem trackExpr_fst (grammar : Grammar R) (expr : Expr R) (position : Nat) (input : List Char)
    (seen : Furthest R) :
    (grammar.trackExpr expr position input seen).1 =
      expr.match? grammar.isBlank (grammar.call? false) position input :=
  expr.track_fst grammar.track_fst position input seen

/-- In a ranked grammar a rule that is no token is tracked as its body is. -/
theorem track_eq {grammar : Grammar R} (ranking : grammar.Ranking) {rule : R}
    (notToken : grammar.kind rule ≠ .token) (position : Nat) (input : List Char)
    (seen : Furthest R) :
    grammar.track rule position input seen =
      let inner := grammar.trackExpr (grammar.body rule) position input seen
      let found := inner.1.map (.ofRule (grammar.kind rule) false rule position)
      if found.isSome || grammar.kind rule = .silent then (found, inner.2)
      else (none, inner.2.record rule position (seen.countAt position)) := by
  obtain ⟨needed, exact⟩ : ∃ needed,
      needed = ranking.level rule + grammar.rules.length * input.length := ⟨_, rfl⟩
  have large : ∀ called (text : List Char),
      ranking.level called + grammar.rules.length * text.length < grammar.budget text := by
    intro called text
    have level := ranking.level_lt called
    rw [Grammar.budget, Nat.mul_succ]
    omega
  have agree : AgreeAt (grammar.matchRule? needed false) (grammar.call? false) input.length
      ((grammar.body rule).leading ranking.mayTakeNothing) := by
    intro called position text bound
    exact matchRule?_eq_call? ranking (exact ▸ ranking.level_add_lt bound)
  have trackAgree : TrackAgreeAt (grammar.trackRule needed) grammar.track input.length
      ((grammar.body rule).leading ranking.mayTakeNothing) := by
    intro called position text seen bound
    exact grammar.trackRule_congr ranking _ _ _ _ _ _ (exact ▸ ranking.level_add_lt bound)
      (large called text)
  rw [Grammar.track, grammar.trackRule_congr ranking _ (needed + 1) _ _ _ _ (large rule input)
    (by omega)]
  simp only [trackRule, if_neg notToken, trackExpr]
  rw [Expr.track_congr (grammar.matchRule?_sound ranking _ false) (grammar.trackRule_fst _)
    _ _ _ _ agree trackAgree]
  rfl

/-- A token is tried as a whole. -/
theorem track_token {grammar : Grammar R} {rule : R} (token : grammar.kind rule = .token)
    (position : Nat) (input : List Char) (seen : Furthest R) :
    (grammar.track rule position input seen).2 = seen ∨
      (grammar.track rule position input seen).2 =
        seen.record rule position (seen.countAt position) := by
  rw [Grammar.track]
  cases grammar.budget input with
  | zero => exact .inl rfl
  | succ budget =>
      simp only [trackRule, if_pos token]
      split
      · exact .inl rfl
      · exact .inr rfl

end Grammar

/-! ## Positions that are tried -/

theorem Furthest.position_record (seen : Furthest R) (rule : R) (position before : Nat) :
    (seen.record rule position before).position = seen.position ∨
      (seen.record rule position before).position = position := by
  unfold record
  split
  · exact .inl rfl
  split
  · exact .inr rfl
  split
  · exact .inr rfl
  · exact .inl rfl

/-- The furthest position stays where it was, or it comes to be behind an initial part
of the text of a certain kind. -/
def Advances (reached : List Char → Prop) (input : List Char) (position : Nat)
    (before after : Furthest R) : Prop :=
  after.position = before.position ∨ ∃ taken rest, input = taken ++ rest ∧ reached taken ∧
    after.position = position + utf8Length taken

/-- Wherever the tracking of a text begins, the furthest position advances by initial
parts of a certain kind only. -/
def Tries (reached : List Char → Prop) (tracker : Tracker R) (input : List Char) : Prop :=
  ∀ position seen, Advances reached input position seen (tracker position input seen).2

namespace Advances

variable {reached : List Char → Prop} {input : List Char} {position : Nat}
  {before middle after : Furthest R}

theorem trans (first : Advances reached input position before middle)
    (second : Advances reached input position middle after) :
    Advances reached input position before after := by
  rcases second with same | later
  · rwa [Advances, same]
  · exact .inr later

/-- What is reached behind a part counts from the beginning of the part. -/
theorem behind {left rest : List Char} (splits : left ++ rest = input)
    (advances : Advances (fun taken => reached (left ++ taken)) rest (position + utf8Length left)
      before after) : Advances reached input position before after := by
  refine advances.imp_right ?_
  rintro ⟨taken, further, whole, reaches, place⟩
  refine ⟨left ++ taken, further, ?_, reaches, ?_⟩
  · rw [List.append_assoc, ← whole, splits]
  · rw [place, utf8Length_append, Nat.add_assoc]

/-- A rule is recorded where it was called. -/
theorem record (advances : Advances reached input position before after) (here : reached [])
    (rule : R) (count : Nat) :
    Advances reached input position before (after.record rule position count) := by
  rcases after.position_record rule position count with same | own
  · rwa [Advances, same]
  · exact .inr ⟨[], input, rfl, here, own⟩

end Advances

namespace Tries

variable {grammar : Grammar R} {reached weaker : List Char → Prop} {tracker : Tracker R}
  {input : List Char}

theorem mono (tries : Tries reached tracker input)
    (weakens : ∀ taken rest, input = taken ++ rest → reached taken → weaker taken) :
    Tries weaker tracker input := by
  intro position seen
  refine (tries position seen).imp_right ?_
  rintro ⟨taken, rest, whole, reaches, place⟩
  exact ⟨taken, rest, whole, weakens taken rest whole reaches, place⟩

/-- What calls no rule tries none. -/
theorem of_snd_eq (silent : ∀ position seen, (tracker position input seen).2 = seen) :
    Tries reached tracker input :=
  fun position seen => .inl (by rw [silent])

/-- A rule is tried where it is called, and where its body tries rules. -/
theorem call (ranking : grammar.Ranking) {rule : R} (here : reached [])
    (body : grammar.kind rule ≠ .token →
      Tries reached (grammar.trackExpr (grammar.body rule)) input) :
    Tries reached (grammar.trackExpr (.call rule)) input := by
  intro position seen
  change Advances reached input position seen (grammar.track rule position input seen).2
  by_cases token : grammar.kind rule = .token
  · have same : Advances reached input position seen seen := .inl rfl
    rcases Grammar.track_token token position input seen with untouched | recorded
    · rwa [untouched]
    · rw [recorded]
      exact same.record here rule _
  · have inner := body token position seen
    rw [Grammar.track_eq ranking token]
    simp only
    split
    · exact inner
    · exact inner.record here rule _

/-- A second part is tried behind what the first part has taken. -/
theorem seq (ranking : grammar.Ranking) {first second : Expr R}
    (head : Tries reached (grammar.trackExpr first) input)
    (tail : ∀ position left,
      first.match? grammar.isBlank (grammar.call? false) position input = some left →
        Tries (fun taken => reached (left.text ++ taken)) (grammar.trackExpr second) left.rest) :
    Tries reached (grammar.trackExpr (.seq first second)) input := by
  intro position seen
  have here := head position seen
  have matched := grammar.trackExpr_fst first position input seen
  rw [Grammar.trackExpr, Expr.track]
  cases tracked : first.track grammar.isBlank (grammar.call? false) grammar.track position input
      seen with
  | mk found next =>
      rw [Grammar.trackExpr, tracked] at here matched
      cases found with
      | none => exact here
      | some left =>
          have splits := (first.match?_sound (Grammar.call?_sound ranking false) _ _ _
            matched.symm).1
          exact here.trans (.behind splits (tail position left matched.symm _ next))

/-- Of parts in a row the others are tried behind the first one and its blanks. -/
theorem spaced (ranking : grammar.Ranking) {part second : Expr R} {others : List (Expr R)}
    (head : Tries reached (grammar.trackExpr part) input)
    (tail : ∀ position left,
      part.match? grammar.isBlank (grammar.call? false) position input = some left →
        Tries (fun taken => reached (left.text ++ (left.rest.takeWhile grammar.isBlank ++ taken)))
          (grammar.trackExpr (Expr.spaced (second :: others)))
          (left.rest.dropWhile grammar.isBlank)) :
    Tries reached (grammar.trackExpr (Expr.spaced (part :: second :: others))) input := by
  refine seq ranking head fun position left matched => ?_
  refine seq ranking (of_snd_eq fun _ _ => rfl) fun _ _ skipped => ?_
  cases skipped
  exact tail position left matched

theorem choice {first second : Expr R} (left : Tries reached (grammar.trackExpr first) input)
    (right : Tries reached (grammar.trackExpr second) input) :
    Tries reached (grammar.trackExpr (.choice first second)) input := by
  intro position seen
  have here := left position seen
  rw [Grammar.trackExpr, Expr.track]
  cases tracked : first.track grammar.isBlank (grammar.call? false) grammar.track position input
      seen with
  | mk found next =>
      rw [Grammar.trackExpr, tracked] at here
      cases found with
      | none => exact here.trans (right position next)
      | some found => exact here

/-- Alternatives are all tried at one place. -/
theorem firstOf {alternatives : List (Expr R)}
    (tries : ∀ alternative ∈ alternatives,
      Tries reached (grammar.trackExpr alternative) input) :
    Tries reached (grammar.trackExpr (Expr.firstOf alternatives)) input := by
  induction alternatives with
  | nil => exact of_snd_eq fun _ _ => rfl
  | cons first others ih =>
      rw [List.forall_mem_cons] at tries
      cases others with
      | nil => exact tries.1
      | cons second others => exact tries.1.choice (ih tries.2)

theorem optional {item : Expr R} (tries : Tries reached (grammar.trackExpr item) input) :
    Tries reached (grammar.trackExpr (.optional item)) input :=
  tries

/-- A repetition tries its item behind what the item has taken, as long as what is
known of the text that is left stays known. -/
theorem repeated (ranking : grammar.Ranking) {item : Expr R}
    (known : (List Char → Prop) → List Char → Prop)
    (tries : ∀ reached input, known reached input → Tries reached (grammar.trackExpr item) input)
    (next : ∀ reached input position first, known reached input →
      item.match? grammar.isBlank (grammar.call? false) position input = some first →
        known (fun taken => reached (first.text ++ taken)) first.rest)
    (start : known reached input) :
    Tries reached (grammar.trackExpr (.repeated item)) input := by
  have limited : ∀ limit position seen reached input, known reached input →
      Advances reached input position seen
        (trackRepeat (grammar.trackExpr item) limit position input seen).2 := by
    intro limit
    induction limit with
    | zero => exact fun position seen reached input known => .inl rfl
    | succ limit ih =>
        intro position seen reached input known
        have here := tries reached input known position seen
        have matched := grammar.trackExpr_fst item position input seen
        rw [trackRepeat]
        cases tracked : grammar.trackExpr item position input seen with
        | mk found later =>
            rw [tracked] at here matched
            cases found with
            | none => exact here
            | some first =>
                by_cases nothing : first.text = []
                · simpa [nothing] using here
                · have splits := (item.match?_sound (Grammar.call?_sound ranking false) _ _ _
                    matched.symm).1
                  simp only [List.isEmpty_iff, nothing, if_false]
                  exact here.trans (.behind splits
                    (ih _ later _ _ (next reached input position first known matched.symm)))
  exact fun position seen => limited (input.length + 1) position seen reached input start

end Tries

end TypeSpelling.Peg
