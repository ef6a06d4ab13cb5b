import TypeSpelling.Peg.Ranked
import TypeSpelling.Source.Grammar

/-!
# Levels of the grammar of type expressions

Before it takes a character every rule calls rules of lower levels only, from
the whole text at the top down to the tokens.  So every rule of the grammar
matches as its body does (`call?_eq_body`).
-/

namespace TypeSpelling.Source

open TypeSpelling.Peg

/-- Level of each rule: above the levels of the rules that it may call before it
takes a character. -/
def Rule.level : Rule → Nat
  | .main => 8
  | .expression => 7
  | .optionalExpr => 6
  | .prefixed => 5
  | .subscripted => 4
  | .atom => 3
  | .literal | .name | .prefixOp => 2
  | .ident | .string | .asyncIterOp | .asyncWithOp | .awaitOp | .iterOp | .withOp
  | .mappingRest | .setRest => 1
  | _ => 0

/-- Whether a rule may take nothing. -/
def Rule.mayTakeNothing : Rule → Bool
  | .endOfInput | .setRest => true
  | _ => false

/-- The levels fall along every call made before a character is taken. -/
def ranking : grammar.Ranking where
  level := Rule.level
  mayTakeNothing := Rule.mayTakeNothing
  level_lt := by intro rule; cases rule <;> decide
  nullable_body := by intro rule; cases rule <;> decide
  leading_lt := by intro rule; cases rule <;> decide

/-- A rule of the grammar matches as its body does. -/
theorem call?_eq_body (inToken : Bool) (rule : Rule) (position : Nat) (input : List Char) :
    grammar.call? inToken rule position input =
      (rule.body.match? (grammar.blankIn (grammar.entersToken inToken rule))
        (grammar.call? (grammar.entersToken inToken rule)) position input).map
          (.ofRule rule.kind inToken rule position) :=
  Grammar.call?_eq ranking inToken rule position input

end TypeSpelling.Source
