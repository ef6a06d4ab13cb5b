import TypeSpelling.CommandLine.Arguments
import TypeSpelling.CommandLine.LogFilter
import TypeSpelling.Pipeline
import TypeSpelling.Report
import TypeSpelling.Text.Split

/-!
# Runs of the command line

A run takes the arguments and the standard input and gives what is printed and
the exit status.  Each expression is processed on its own under the standard
table, and the outcomes are printed in the order of the expressions.
-/

namespace TypeSpelling.CommandLine

/-- What comes of one expression. -/
inductive Outcome where
  | printed (text : String)
  | silent
  /-- The expression has the given shorter spelling. -/
  | notMinimal (text : String)
  | failed (error : SpellingError)

namespace Outcome

/-- Processes one expression. -/
def ofExpression (mode : Mode) (source : String) : Outcome :=
  match mode with
  | .canonicalize =>
      match AliasTable.standard.canonicalize source with
      | .ok text => .printed text
      | .error error => .failed error
  | .shorten =>
      match AliasTable.standard.shorten source with
      | .ok short => .printed short.text
      | .error error => .failed error
  | .check =>
      match AliasTable.standard.shorten source with
      | .ok short => if short.changed then .notMinimal short.text else .silent
      | .error error => .failed error
  | .validate =>
      match AliasTable.standard.validate source with
      | .ok _ => .silent
      | .error error => .failed error

/-- What is printed about an expression. -/
def output (source : String) : Outcome → String
  | .printed text => text ++ "\n"
  | .notMinimal text => Text.trim source ++ ": " ++ text ++ "\n"
  | .silent | .failed _ => ""

/-- What is reported about an expression. -/
def complaint (source : String) : Outcome → String
  | .failed error => String.join ((error.report source).map (· ++ "\n"))
  | _ => ""

/-- Whether the outcome makes the run fail. -/
def isFailure : Outcome → Bool
  | .notMinimal _ | .failed _ => true
  | .printed _ | .silent => false

end Outcome

/-- What a run leaves behind. -/
structure Result where
  exitCode : Nat
  output : String
  complaints : String

/-- The expressions on the lines of the standard input.  Blank lines hold
none. -/
def expressionsOf (input : String) : List String :=
  (Text.lines input).filter fun line => !Text.isBlankLine line

/-- Processes expressions one by one. -/
def processAll (mode : Mode) (sources : List String) : Result :=
  let outcomes := sources.map fun source => (source, Outcome.ofExpression mode source)
  ⟨if outcomes.any fun entry => entry.2.isFailure then 1 else 0,
    String.join (outcomes.map fun entry => entry.2.output entry.1),
    String.join (outcomes.map fun entry => entry.2.complaint entry.1)⟩

/-- The text that explains the arguments. -/
def helpText : String :=
  "Canonicalize or shorten type expressions\n\n" ++
  "Usage: stenotype [OPTIONS] [EXPRESSIONS]...\n\n" ++
  "Arguments:\n" ++
  "  [EXPRESSIONS]...  Expressions to process (if not provided, reads one per line from stdin)\n\n" ++
  "Options:\n" ++
  "      --shorten                Print the shortest form instead of the canonical one\n" ++
  "      --check                  Print expressions that are not already in their shortest form\n" ++
  "      --validate               Only report errors\n" ++
  "      --log-level <LOG_LEVEL>  Log filter, e.g. `debug`\n" ++
  "      --no-color               Disable colors in error reports\n" ++
  "  -h, --help                   Print help\n" ++
  "  -V, --version                Print version\n"

/-- Whether a run takes its expressions from the standard input. -/
def readsInput (arguments : List String) : Bool :=
  match Request.ofArguments arguments with
  | .process _ options => options.expressions.isEmpty
  | _ => false

/-- A run with the given arguments and standard input. -/
def run (arguments : List String) (input : String) : Result :=
  match Request.ofArguments arguments with
  | .usageError => ⟨2, "", "error: invalid arguments, try --help\n"⟩
  | .showVersion => ⟨0, "stenotype 0.1.0\n", ""⟩
  | .showHelp => ⟨0, helpText, ""⟩
  | .process mode options =>
      match options.logFilter?.forM checkLogFilter with
      | .error .malformed => ⟨1, "", "Error: invalid --log-level\n"⟩
      | .error .splitCharacter => ⟨101, "", "a part of --log-level splits a character\n"⟩
      | .ok _ =>
          processAll mode
            (if options.expressions.isEmpty then expressionsOf input else options.expressions)

end TypeSpelling.CommandLine
