/-
  JsonPath.Main — the command, on the terminal.
-/

import JsonPath.CommandLine

namespace JsonPath.CommandLine

/-- A text for the terminal, with `?` for a surrogate that stands alone. -/
def onTerminal (t : Text) : String :=
  String.ofList (t.map fun c => if c.isHighSurrogate || c.isLowSurrogate then '?' else .ofNat c.val)

partial def readAll (stream : IO.FS.Stream) (read : String) : IO String := do
  let line ← stream.getLine
  if line.isEmpty then return read else readAll stream (read ++ line)

/-- Whether the arguments leave the expression to the standard input. -/
def needsInput (arguments : List Text) : Bool :=
  match Request.ofArguments arguments with
  | .ok (.run options) => options.expression.isNone
  | _ => false

end JsonPath.CommandLine

open JsonPath CommandLine

def main (arguments : List String) : IO UInt32 := do
  let backend ← IO.getEnv "JSONPATH_SYNTAX_BACKEND"
  let debug ← IO.getEnv "JSONPATH_SYNTAX_DEBUG"
  let arguments := arguments.map Text.ofString
  let input ← if needsInput arguments then readAll (← IO.getStdin) "" else pure ""
  let report := run ⟨backend.map .ofString, debug.map .ofString⟩ arguments (.ofString input)
  IO.print (onTerminal report.out)
  IO.eprint (onTerminal report.err)
  return report.exit.toUInt32
