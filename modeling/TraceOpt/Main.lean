import TraceOpt.CommandLine.Command

/-!
# The program

Reads the files that the arguments name, answers the request and sets the exit code.
-/

namespace TraceOpt

namespace CommandLine

/-- The text of a file, if it can be read. -/
def readText (path : String) : IO (Option String) := do
  try
    return some (← IO.FS.readFile path)
  catch _ => return none

/-- Answers the request that the arguments make. -/
def serve (args : List String) : IO UInt32 := do
  match Command.parse? args with
  | none =>
    IO.eprintln Failure.badUsage.message
    return Failure.badUsage.exitCode.toUInt32
  | some command =>
    let texts ← command.files.mapM fun path => return (path, ← readText path)
    let answer := command.run fun path => (texts.lookup path).join
    for e in answer.log do
      IO.eprintln ("[" ++ e.line ++ "]")
    match answer.result with
    | .error e =>
      IO.eprintln e.message
      return e.exitCode.toUInt32
    | .ok (out, err) =>
      IO.print out
      IO.eprint err
      return 0

end CommandLine

end TraceOpt

/-- The program: its arguments make a request, and its exit code says how that went. -/
def main (args : List String) : IO UInt32 := TraceOpt.CommandLine.serve args
