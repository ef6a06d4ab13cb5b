/-!
# Arguments of the command line

Options and expressions may come in any order; behind `--` everything is an
expression, and so is a lone hyphen.  An option may be given once.  Asking for
the version or for help ends the reading at once, so only errors in front of it
count.  That two options exclude each other is seen when everything is read.
-/

namespace TypeSpelling.CommandLine

/-- What is done with each expression. -/
inductive Mode where
  /-- Print the canonical spelling. -/
  | canonicalize
  /-- Print the shorthand. -/
  | shorten
  /-- Print the expressions that are not in shorthand already. -/
  | check
  /-- Print nothing. -/
  | validate
  deriving DecidableEq

/-- The options and expressions read so far. -/
structure Options where
  /-- The modes asked for. -/
  modes : List Mode
  plainReports : Bool
  logFilter? : Option String
  expressions : List String

/-- What the arguments ask for. -/
inductive Request where
  | process (mode : Mode) (options : Options)
  | showVersion
  | showHelp
  /-- The arguments make no sense. -/
  | usageError

/-- The kinds of arguments. -/
inductive Argument where
  | mode (mode : Mode)
  | plainReports
  /-- The option of the log filter, perhaps with its value attached. -/
  | logFilter (attached? : Option String)
  | version
  | help
  /-- Everything behind is an expression. -/
  | expressionsFollow
  | expression
  | unknown

/-- The kind of an option, given its name behind the two hyphens and the value
behind an equals sign. -/
def Argument.ofOption (name : String) (attached? : Option String) : Argument :=
  match name, attached? with
  | "shorten", none => .mode .shorten
  | "check", none => .mode .check
  | "validate", none => .mode .validate
  | "no-color", none => .plainReports
  | "log-level", _ => .logFilter attached?
  | "version", none => .version
  | "help", none => .help
  | _, _ => .unknown

/-- The kind of an argument. -/
def Argument.classify (argument : String) : Argument :=
  match argument.toList with
  | ['-', '-'] => .expressionsFollow
  | '-' :: '-' :: option =>
      let name := option.takeWhile (· ≠ '=')
      let attached? :=
        match option.dropWhile (· ≠ '=') with
        | [] => none
        | _ :: value => some (String.ofList value)
      .ofOption (String.ofList name) attached?
  | '-' :: 'V' :: _ => .version
  | '-' :: 'h' :: _ => .help
  | '-' :: _ :: _ => .unknown
  | _ => .expression

/-- An option cannot be the value of another option. -/
def isOptionLike (argument : String) : Bool :=
  match argument.toList with
  | '-' :: _ :: _ => true
  | _ => false

namespace Options

/-- Nothing has been asked for. -/
def initial : Options :=
  ⟨[], false, none, []⟩

/-- The request that complete options make.  At most one mode may be asked
for. -/
def finish (options : Options) : Request :=
  match options.modes with
  | [] => .process .canonicalize options
  | [mode] => .process mode options
  | _ => .usageError

/-- Reads the arguments behind the options read so far. -/
def read (options : Options) : List String → Request
  | [] => options.finish
  | argument :: rest =>
      match Argument.classify argument with
      | .mode mode =>
          if mode ∈ options.modes then .usageError
          else read { options with modes := options.modes ++ [mode] } rest
      | .plainReports =>
          if options.plainReports then .usageError
          else read { options with plainReports := true } rest
      | .logFilter (some value) =>
          if options.logFilter?.isSome then .usageError
          else read { options with logFilter? := some value } rest
      | .logFilter none =>
          match rest with
          | [] => .usageError
          | value :: rest =>
              if options.logFilter?.isSome || isOptionLike value then .usageError
              else read { options with logFilter? := some value } rest
      | .version => .showVersion
      | .help => .showHelp
      | .expressionsFollow =>
          finish { options with expressions := options.expressions ++ rest }
      | .expression =>
          read { options with expressions := options.expressions ++ [argument] } rest
      | .unknown => .usageError

end Options

/-- What a list of arguments asks for. -/
def Request.ofArguments (arguments : List String) : Request :=
  Options.initial.read arguments

end TypeSpelling.CommandLine
