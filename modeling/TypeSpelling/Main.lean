import TypeSpelling.CommandLine.Run

/-!
# The program

Reads the standard input where the arguments give no expressions, and prints
what the run leaves behind.
-/

open TypeSpelling.CommandLine

/-- Reads lines until the input ends. -/
partial def readAll (input : IO.FS.Stream) (text : String) : IO String := do
  let line ← input.getLine
  if line.isEmpty then return text else readAll input (text ++ line)

def main (arguments : List String) : IO UInt32 := do
  let input ← if readsInput arguments then readAll (← IO.getStdin) "" else pure ""
  let result := run arguments input
  IO.print result.output
  IO.eprint result.complaints
  return result.exitCode.toUInt32
