import Formula.Command.Arguments

/-! The program: reads the command line and the file it names, runs the request, and prints. -/

namespace Formula.Command

def readText (path : String) : IO (Option String) := do
  try
    return some (← IO.FS.readFile path)
  catch _ =>
    return none

/-- A report in one line. -/
def Report.brief : Report → String
  | .unreadable error => error.cause.code ++ ": " ++ error.cause.message
  | .unresolvable error => error.code ++ ": " ++ error.message
  | .usage _ => "For more information, try '--help'."
  | .missingFile => "the file cannot be read"

def print (outcome : Outcome) (filter : Option LogFilter) : IO UInt32 := do
  let err ← IO.getStderr
  if let some filter := filter then
    for line in outcome.logLines filter do
      err.putStrLn line
  IO.print outcome.stdout
  err.putStr (outcome.written Report.brief)
  return UInt32.ofNat outcome.status

def start (words : List String) : IO UInt32 := do
  match Arguments.ofWords words with
  | .error message =>
    IO.eprintln message
    return 2
  | .ok arguments =>
    let text ← match arguments.path? with
      | some path => readText path
      | none => pure none
    let filter ← IO.getEnv "RUST_LOG"
    print (arguments.toRequest fun _ => text).run (filter.map LogFilter.ofString)

end Formula.Command

def main (words : List String) : IO UInt32 := Formula.Command.start words
