import Peephole.Cli.Run

/-!
# The command line

Reads the files that the arguments name, prints what the run prints and writes the code that it writes.
-/

namespace Peephole.Cli

/-- The contents of the arguments that name files that can be read. -/
def readable (args : List String) : IO (List (String × String)) := do
  let mut found := []
  for name in args do
    try
      let text ← IO.FS.readFile name
      found := (name, text) :: found
    catch _ => pure ()
  return found

def wordsOf (text : String) : List String := (text.splitOn " ").filter fun w => !w.isEmpty

/-- Run the command line; answer its exit code. -/
def runMain (args : List String) : IO UInt32 := do
  let args := wordsOf ((← IO.getEnv "ALIVE_EXTRA_ARGS").getD "") ++ args
  let found ← readable args
  match readArguments ⟨fun n => found.any fun e => e.1 == n, fun n => !n.isEmpty⟩ args with
  | .error _ => return 2
  | .ok r =>
    let input ← if r.files.contains "-" then (← IO.getStdin).readToEnd else pure ""
    match run r input fun n => ((found.find? fun e => e.1 == n).map (·.2)).getD "" with
    | .error e =>
      IO.eprintln (match e with
        | .rejected message token => Error.rejectionText message token
        | .unsupported message => message
        | .fault _ => "unexpected situation")
      return 1
    | .ok o =>
      IO.print o.printed
      match r.output, o.written with
      | some name, some code => IO.FS.writeFile name code
      | _, _ => pure ()
      return if o.exit == 0 then 0 else 255

end Peephole.Cli

def main (args : List String) : IO UInt32 := Peephole.Cli.runMain args
