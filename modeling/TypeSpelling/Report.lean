import TypeSpelling.Diagnostic
import TypeSpelling.Text.Blank
import TypeSpelling.Text.Bytes

/-!
# Reports

A report shows an error beside the source it comes from: a headline with code
and message, the source on a line of its own, the part that is to blame marked
below it and joined to the message, and advice if there is any.  The source has
one line, and columns are counted in characters; white space of any kind is
drawn as a blank.
-/

namespace TypeSpelling

open TypeSpelling.Text

namespace Report

/-- A run of one character. -/
def fill (count : Nat) (c : Char) : String :=
  String.ofList (List.replicate count c)

/-- A source as it is drawn. -/
def drawn (source : String) : String :=
  String.ofList (source.toList.map fun c => if isWhiteSpace c then ' ' else c)

/-- The row of marks under the columns from `start` up to `stop`, with the arm
that leads to the message at column `arm`.  An empty part is marked by the arm
alone. -/
def markRow (start stop arm : Nat) : String :=
  if start = stop then fill start ' ' ++ "│"
  else fill start ' ' ++ fill (arm - start) '─' ++ "┬" ++ fill (stop - arm - 1) '─'

/-- The row that leads from the arm to the message, two columns beyond the part
that is marked. -/
def messageRow (stop arm : Nat) (message : String) : String :=
  fill arm ' ' ++ "╰" ++ fill (stop + 1 - arm) '─' ++ " " ++ message

/-- The lines that show a diagnostic beside its source. -/
def lines (source : String) (diagnostic : Diagnostic) : List String :=
  let start := columnOf diagnostic.span.start source.toList
  let stop := columnOf diagnostic.span.stop source.toList
  let arm := (start + stop) / 2
  let help :=
    match diagnostic.help? with
    | none => []
    | some help => ["   │", "   │ Help: " ++ help]
  (["[" ++ diagnostic.code ++ "] Error: " ++ diagnostic.message,
      "   ╭─[ <expr>:1:" ++ (start + 1).repr ++ " ]",
      "   │",
      " 1 │ " ++ drawn source,
      "   │ " ++ markRow start stop arm,
      "   │ " ++ messageRow stop arm diagnostic.message] ++
    help ++ ["───╯"]).map trimEnd

end Report

/-- The report of an error of a source text. -/
def SpellingError.report (source : String) (error : SpellingError) : List String :=
  let diagnostic := error.diagnose source
  Report.lines source
    (if error.isInternal then
      { diagnostic with message := "internal error: " ++ diagnostic.message }
    else diagnostic)

end TypeSpelling
