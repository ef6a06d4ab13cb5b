import TypeSpelling.Peg.Grammar

/-!
# Where a match fails

When a rule does not match, the useful thing to report is the furthest position
at which some rule was tried in vain, and the rules that were tried there.
`Furthest` collects these attempts in the order in which they fail.  A rule
gives way to the attempts inside it only if exactly one of them failed at the
rule's own position; otherwise the rule stands for all of them.  Rules inside a
token never count, and neither do silent rules or what is looked at ahead.

Tracking goes through the grammar as matching does and finds the same match,
as `Grammar.trackRule_fst` says.
-/

namespace TypeSpelling.Peg

open TypeSpelling.Text

/-- The attempts that failed at the furthest position so far. -/
structure Furthest (R : Type) where
  position : Nat
  attempts : List R

namespace Furthest

variable {R : Type}

/-- Before anything has failed. -/
def start : Furthest R :=
  ⟨0, []⟩

/-- How many attempts are known at a position. -/
def countAt (seen : Furthest R) (position : Nat) : Nat :=
  if seen.position = position then seen.attempts.length else 0

/-- Adds a rule that failed at a position where `before` attempts were known
when it was entered. -/
def record (seen : Furthest R) (rule : R) (position before : Nat) : Furthest R :=
  if seen.countAt position = before + 1 then seen
  else if position = seen.position then
    ⟨position, seen.attempts.take before ++ [rule]⟩
  else if seen.position < position then ⟨position, [rule]⟩
  else seen

end Furthest

/-- A way to match at a byte position of the characters that are left, which
adds the attempts that fail. -/
abbrev Tracker (R : Type) := Nat → List Char → Furthest R → Option (Match R) × Furthest R

/-- Matches the item again and again, adding the attempts of every occurrence
and of the one that fails and so ends the repetition. -/
def trackRepeat {R : Type} (item : Tracker R) :
    Nat → Nat → List Char → Furthest R → Match R × Furthest R
  | 0, _, input, seen => (.empty input, seen)
  | limit + 1, position, input, seen =>
      match item position input seen with
      | (none, seen) => (.empty input, seen)
      | (some first, seen) =>
          if first.text.isEmpty then (.empty input, seen)
          else
            let more := trackRepeat item limit (position + utf8Length first.text) first.rest seen
            (first.append more.1, more.2)

namespace Expr

variable {R : Type}

/-- Matches an expression and adds the attempts that fail, given how the rules
match without and with their attempts. -/
def track (isBlank : Char → Bool) (call : R → Matcher R) (trackCall : R → Tracker R) :
    Expr R → Tracker R
  | .call rule, position, input, seen => trackCall rule position input seen
  | .seq first second, position, input, seen =>
      match first.track isBlank call trackCall position input seen with
      | (none, seen) => (none, seen)
      | (some left, seen) =>
          let right := second.track isBlank call trackCall (position + utf8Length left.text)
            left.rest seen
          (right.1.map left.append, right.2)
  | .choice first second, position, input, seen =>
      match first.track isBlank call trackCall position input seen with
      | (none, seen) => second.track isBlank call trackCall position input seen
      | (some found, seen) => (some found, seen)
  | .optional item, position, input, seen =>
      let found := item.track isBlank call trackCall position input seen
      (some (found.1.getD (.empty input)), found.2)
  | .repeated item, position, input, seen =>
      let found := trackRepeat (item.track isBlank call trackCall) (input.length + 1) position
        input seen
      (some found.1, found.2)
  | .char accepts, position, input, seen =>
      ((Expr.char accepts).match? isBlank call position input, seen)
  | .text expected, position, input, seen =>
      ((Expr.text expected).match? isBlank call position input, seen)
  | .endOfInput, position, input, seen =>
      (Expr.endOfInput.match? isBlank call position input, seen)
  | .skip, position, input, seen => (Expr.skip.match? isBlank call position input, seen)
  | .refuse item, position, input, seen =>
      ((Expr.refuse item).match? isBlank call position input, seen)

end Expr

namespace Grammar

variable {R : Type}

/-- Matches a rule outside tokens with at most the given number of nested calls,
and adds the attempts that fail. -/
def trackRule (grammar : Grammar R) : Nat → R → Tracker R
  | 0, _ => fun _ _ seen => (none, seen)
  | budget + 1, rule => fun position input seen =>
      let found : Option (Match R) × Furthest R :=
        if grammar.kind rule = .token then
          (grammar.matchRule? (budget + 1) false rule position input, seen)
        else
          let inner := (grammar.body rule).track grammar.isBlank
            (grammar.matchRule? budget false) (grammar.trackRule budget) position input seen
          (inner.1.map (.ofRule (grammar.kind rule) false rule position), inner.2)
      if found.1.isSome || grammar.kind rule = .silent then found
      else (none, found.2.record rule position (seen.countAt position))

/-- The furthest attempts of a rule at the beginning of a text. -/
def furthest (grammar : Grammar R) (rule : R) (input : List Char) : Furthest R :=
  (grammar.trackRule (grammar.budget input) rule 0 input .start).2

/-- The rules that would have been accepted at the furthest position, each once
and in the order of the grammar. -/
def expected [BEq R] (grammar : Grammar R) (seen : Furthest R) : List R :=
  grammar.rules.filter seen.attempts.contains

end Grammar

/-! ## Tracking finds the match -/

variable {R : Type}

theorem trackRepeat_fst {item : Tracker R} {plain : Matcher R}
    (agrees : ∀ position input seen, (item position input seen).1 = plain position input) :
    ∀ limit position input seen,
      (trackRepeat item limit position input seen).1 = repeatMatch plain limit position input := by
  intro limit
  induction limit with
  | zero => intros; rfl
  | succ limit ih =>
      intro position input seen
      have same := agrees position input seen
      unfold trackRepeat repeatMatch
      split
      · rename_i next tracked
        rw [tracked] at same
        simp [← same]
      · rename_i first next tracked
        rw [tracked] at same
        simp only [← same]
        split
        · rfl
        · simp [ih]

theorem Expr.track_fst {isBlank : Char → Bool} {call : R → Matcher R}
    {trackCall : R → Tracker R}
    (agrees : ∀ rule position input seen,
      (trackCall rule position input seen).1 = call rule position input)
    (expr : Expr R) : ∀ position input seen,
      (expr.track isBlank call trackCall position input seen).1 =
        expr.match? isBlank call position input := by
  induction expr with
  | char | text | endOfInput | skip | refuse => intros; rfl
  | call rule => exact agrees rule
  | seq first second firstIh secondIh =>
      intro position input seen
      have same := firstIh position input seen
      unfold track match?
      split
      · rename_i next tracked
        rw [tracked] at same
        simp [← same]
      · rename_i left next tracked
        rw [tracked] at same
        simp [← same, secondIh]
  | choice first second firstIh secondIh =>
      intro position input seen
      have same := firstIh position input seen
      unfold track match?
      split
      · rename_i next tracked
        rw [tracked] at same
        simp [← same, secondIh]
      · rename_i found next tracked
        rw [tracked] at same
        simp [← same]
  | optional item ih =>
      intro position input seen
      simp [track, match?, ih]
  | repeated item ih =>
      intro position input seen
      simp [track, match?, trackRepeat_fst ih]

/-- Tracking a rule finds the same match as matching it. -/
theorem Grammar.trackRule_fst (grammar : Grammar R) : ∀ budget rule position input seen,
    (grammar.trackRule budget rule position input seen).1 =
      grammar.matchRule? budget false rule position input := by
  intro budget
  induction budget with
  | zero => intros; rfl
  | succ budget ih =>
      intro rule position input seen
      by_cases token : grammar.kind rule = .token
      · simp only [trackRule, token, if_true]
        split
        · rfl
        · rename_i failed
          simp at failed
          simp [failed]
      · simp only [trackRule, token, if_false]
        have found : (((grammar.body rule).track grammar.isBlank (grammar.matchRule? budget false)
            (grammar.trackRule budget) position input seen).1.map
              (Match.ofRule (grammar.kind rule) false rule position)) =
            grammar.matchRule? (budget + 1) false rule position input := by
          rw [Expr.track_fst ih]
          simp [matchRule?, entersToken, token, blankIn]
        split
        · exact found
        · rename_i failed
          simp only [Bool.or_eq_true, not_or, Option.not_isSome_iff_eq_none] at failed
          exact (failed.1.symm.trans found)

end TypeSpelling.Peg
