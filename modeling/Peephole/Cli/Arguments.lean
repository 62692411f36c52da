import Peephole.Encode.State

/-!
# Arguments of the command line

An argument is an option or a file.  A long option may be cut short as long as only one option starts that way,
a value may stand in the same argument as its option (`--match=x`, `-mx`), options of one letter may share a
dash, and after `--` every argument is a file.  The files stand next to each other: files after a later option
are refused once files were given.
-/

namespace Peephole.Cli

/-- What an option asks for. -/
inductive Switch where
  | help
  | only
  | inferFlags
  | hideProgress
  | verify
  | trust
  | output
  | anyMemory
  | newShift
  deriving Inhabited, Repr, DecidableEq

namespace Switch

def names : List (String × Switch) :=
  [("-h", help), ("--help", help), ("-m", only), ("--match", only), ("--infer-flags", inferFlags),
    ("--hide-progress", hideProgress), ("-V", verify), ("--verify", verify), ("--no-verify", trust),
    ("-o", output), ("--output", output), ("--use-array-th", anyMemory), ("--new-sema", newShift)]

def takesValue : Switch → Bool
  | only | output => true
  | _ => false

def named (name : String) : Option Switch := (names.find? fun e => e.1 == name).map (·.2)

end Switch

/-- What the arguments ask for. -/
structure Request where
  /-- Handle only optimizations whose name contains one of these words, or all if there are none. -/
  only : List String := []
  inferFlags : Bool := false
  hideProgress : Bool := false
  verify : Bool := true
  /-- The file that generated code is written to. -/
  output : Option String := none
  anyMemory : Bool := false
  newShift : Bool := false
  files : List String := ["-"]
  deriving Inhabited, Repr

namespace Request

def encoding (r : Request) : Encode.Options := ⟨r.anyMemory, r.newShift, r.inferFlags⟩

def wants (r : Request) (name : String) : Bool :=
  r.only.isEmpty || r.only.any fun word =>
    (List.range (name.length + 1)).any fun i => word.toList.isPrefixOf (name.toList.drop i)

end Request

/-- Why arguments are refused. -/
inductive Refusal where
  /-- They are no request, or they name a file that cannot be opened. -/
  | badUsage
  /-- They ask for something that cannot be answered, such as the help text. -/
  | unanswerable
  deriving Inhabited, Repr, DecidableEq

/-- An argument by its form. -/
inductive Word where
  | plain (text : String)
  | dashes
  /-- An option, if there is one of this name, and the value that stands in the same argument. -/
  | option (text : String) (switch : Option Switch) (name : String) (value : Option String)
  deriving Inhabited, Repr

namespace Word

def text : Word → String
  | plain t => t
  | dashes => "--"
  | option t _ _ _ => t

end Word

/-- The text in front of the first equals sign and the text after it. -/
def splitValue (arg : String) : String × Option String :=
  let cs := arg.toList
  match cs.dropWhile (· != '=') with
  | _ :: value => (String.ofList (cs.takeWhile (· != '=')), some (String.ofList value))
  | [] => (arg, none)

/-- Whether an argument is a negative number, which is no option. -/
def isNegativeNumber (arg : String) : Bool :=
  match arg.toList with
  | '-' :: cs =>
    let rest := cs.dropWhile Char.isDigit
    match rest with
    | [] => !cs.isEmpty
    | '.' :: fraction => !fraction.isEmpty && fraction.all Char.isDigit
    | _ => false
  | _ => false

/-- The options that an argument may be short for, each with the value that stands in the argument. -/
def candidates (arg : String) : List Word :=
  if arg.startsWith "--" then
    let (start, value) := splitValue arg
    (Switch.names.filter fun e => e.1.startsWith start).map fun e => .option arg (some e.2) e.1 value
  else
    let letter := String.ofList (arg.toList.take 2)
    Switch.names.filterMap fun e =>
      if e.1 == letter then some (.option arg (some e.2) e.1 (some (String.ofList (arg.toList.drop 2))))
      else none

/-- The form of an argument in front of any `--`. -/
def classify (arg : String) : Except Refusal Word :=
  if !arg.startsWith "-" then return .plain arg
  else if let some s := Switch.named arg then return .option arg (some s) arg none
  else if arg == "-" then return .plain arg
  else
    let (name, value) := splitValue arg
    match value, Switch.named name with
    | some v, some s => return .option arg (some s) name (some v)
    | _, _ =>
      match candidates arg with
      | [w] => return w
      | [] =>
        if isNegativeNumber arg || arg.any (· == ' ') then return .plain arg
        else return .option arg none arg none
      | _ => throw .badUsage

def classifyAll : List String → Except Refusal (List Word)
  | [] => return []
  | "--" :: args => return .dashes :: args.map .plain
  | arg :: args => do
    let w ← classify arg
    return w :: (← classifyAll args)

/-- The files that can be opened. -/
structure Files where
  readable : String → Bool
  writable : String → Bool

def apply (files : Files) (s : Switch) (value : String) (r : Request) : Except Refusal Request :=
  match s with
  | .help => throw .unanswerable
  | .only => if value == "--" then throw .unanswerable else return { r with only := r.only ++ [value] }
  | .inferFlags => return { r with inferFlags := true }
  | .hideProgress => return { r with hideProgress := true }
  | .verify => return { r with verify := true }
  | .trust => return { r with verify := false }
  | .output =>
    if value == "--" then throw .unanswerable
    else if value == "-" || files.writable value then return { r with output := some value }
    else throw .badUsage
  | .anyMemory => return { r with anyMemory := true }
  | .newShift => return { r with newShift := true }

/-- The options of one letter in an argument, where `name` was the last of them and `value` is the text after it. -/
def letters (s : Switch) (name : String) : List Char → Except Refusal (List (Switch × Option String))
  | [] => if s.takesValue then return [(s, some "")] else throw .badUsage
  | c :: cs =>
    if s.takesValue then return [(s, some (String.ofList (c :: cs)))]
    else if name.startsWith "--" then throw .badUsage
    else
      let next := String.ofList ['-', c]
      match Switch.named next, cs with
      | some t, [] => return [(s, none), (t, none)]
      | some t, cs => return (s, none) :: (← letters t next cs)
      | none, _ => throw .badUsage

structure Reading where
  request : Request := {}
  filesGiven : Bool := false
  /-- An argument was met that means nothing. -/
  stray : Bool := false
  deriving Inhabited

/-- Take arguments that are no options as the files, unless files were given before. -/
def takeFiles (files : Files) (run : List Word) (g : Reading) : Except Refusal Reading :=
  if g.filesGiven then return { g with stray := g.stray || !run.isEmpty }
  else
    let names := (run.map Word.text).erase "--"
    if names.all fun n => n == "-" || files.readable n then
      return { g with
        filesGiven := true
        request := if names.isEmpty then g.request else { g.request with files := names } }
    else throw .badUsage

/-- Take options in order; the last may have its value in the next argument.  Answer whether it has. -/
def takeOptions (files : Files) (next : Option Word) :
    List (Switch × Option String) → Reading → Except Refusal (Reading × Bool)
  | [], g => return (g, false)
  | (s, value) :: more, g => do
    match value, s.takesValue, next with
    | none, true, some (.plain v) => return ({ g with request := ← apply files s v g.request }, true)
    | none, true, _ => throw .badUsage
    | v, _, _ => takeOptions files next more { g with request := ← apply files s (v.getD "") g.request }

/-- Whether the last of some options needs its value from the next argument, which then has to be no option. -/
def checkValue (next : Option Word) (os : List (Switch × Option String)) : Except Refusal Unit :=
  match os.getLast?, next with
  | some (_, none), some (.plain _) => return ()
  | some (s, none), _ => if s.takesValue then throw .badUsage else return ()
  | _, _ => return ()

/-- Read words: a run of files, then an option, and so on.  `run` is the run that was started. -/
def readWords (files : Files) : List Word → List Word → Reading → Except Refusal Reading
  | [], run, g => takeFiles files run.reverse g
  | .option _ s name value :: ws, run, g => do
    let g ← if run.isEmpty then pure g else takeFiles files run.reverse g
    match s with
    | none => readWords files ws [] { g with stray := true }
    | some s => do
      let os ← match value with
        | some v => letters s name v.toList
        | none => pure [(s, none)]
      checkValue ws.head? os
      let (g, skip) ← takeOptions files ws.head? os g
      match skip, ws with
      | true, _ :: ws => readWords files ws [] g
      | _, ws => readWords files ws [] g
  | w :: ws, run, g => readWords files ws (w :: run) g

def readArguments (files : Files) (args : List String) : Except Refusal Request := do
  let g ← readWords files (← classifyAll args) [] {}
  if g.stray then throw .badUsage
  return g.request

end Peephole.Cli
