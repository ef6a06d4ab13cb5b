import TypeSpelling.CommandLine.Directive
import TypeSpelling.Text.Split

/-!
# Log filters

A log filter is a list of directives between commas.  Empty directives are
passed over, and the first fault is the one that counts.
-/

namespace TypeSpelling.CommandLine

/-- Checks a log filter. -/
def checkLogFilter (text : String) : Except FilterFault Unit :=
  (Text.splitChars ',' text.toList).forM fun directive =>
    if directive.isEmpty then .ok () else checkDirective directive

end TypeSpelling.CommandLine
