import TypeSpelling.Peg.Expr

/-!
# Grammars

A grammar gives every rule a body and a kind.  The kind decides what of a match
is kept: an ordinary rule becomes a node above the nodes of its calls, a silent
rule leaves only the nodes of its calls, and a token becomes a node with nothing
below it.  Nothing is blank inside a token.

Rules call each other, so matching counts down a budget of nested calls.  A
rule that calls itself without taking a character in between would never end;
in a grammar where no rule does so, calls nest at most once per rule at each
position, which is what `Grammar.budget` allows.
-/

namespace TypeSpelling.Peg

/-- What is kept of a match of a rule. -/
inductive RuleKind where
  /-- A node with the nodes of the calls below it. -/
  | node
  /-- The nodes of the calls alone. -/
  | silent
  /-- A node with nothing below it. -/
  | token
  deriving DecidableEq

/-- A grammar over a type of rules. -/
structure Grammar (R : Type) where
  /-- The rules in the order in which they are reported. -/
  rules : List R
  kind : R → RuleKind
  body : R → Expr R
  /-- The characters that may stand between the parts of a sequence. -/
  isBlank : Char → Bool

/-- The match that a rule makes of a match of its body. -/
def Match.ofRule {R : Type} (kind : RuleKind) (inToken : Bool) (rule : R) (position : Nat)
    (found : Match R) : Match R :=
  match inToken, kind with
  | true, _ => { found with nodes := [] }
  | false, .silent => found
  | false, .token => { found with nodes := [⟨rule, position, found.text, []⟩] }
  | false, .node => { found with nodes := [⟨rule, position, found.text, found.nodes⟩] }

namespace Grammar

variable {R : Type}

/-- What is blank in the body of a rule of the given kind. -/
def blankIn (grammar : Grammar R) (inToken : Bool) : Char → Bool :=
  if inToken then fun _ => false else grammar.isBlank

/-- A rule's body is part of a token if the rule is one or is called from one. -/
def entersToken (grammar : Grammar R) (inToken : Bool) (rule : R) : Bool :=
  inToken || grammar.kind rule = .token

/-- Matches a rule with at most the given number of nested calls, inside or
outside a token. -/
def matchRule? (grammar : Grammar R) : Nat → Bool → R → Matcher R
  | 0, _, _ => fun _ _ => none
  | budget + 1, inToken, rule => fun position input =>
      let token := grammar.entersToken inToken rule
      ((grammar.body rule).match? (grammar.blankIn token)
        (grammar.matchRule? budget token) position input).map
          (.ofRule (grammar.kind rule) inToken rule position)

/-- How deeply calls nest on a text: at most once per rule at each position. -/
def budget (grammar : Grammar R) (input : List Char) : Nat :=
  grammar.rules.length * (input.length + 1)

/-- Matches a rule at the beginning of a text. -/
def match? (grammar : Grammar R) (rule : R) (input : List Char) : Option (Match R) :=
  grammar.matchRule? (grammar.budget input) false rule 0 input

end Grammar

end TypeSpelling.Peg
