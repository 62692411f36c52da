import Peephole.Cli.Arguments
import Peephole.Emit.Suite
import Peephole.Verify.Report

/-!
# A run of the command line

A run reads the files in order.  It verifies or lists the optimizations that are asked for as it meets them, and
stops at the first file that cannot be read and at the first optimization that is not verified.  Code is written
at the end, for all the optimizations together.
-/

namespace Peephole.Cli

open Elaborate (Optimization ReadError readNumbered)
open Verify (verify heading)

structure Outcome where
  exit : Int
  printed : String
  written : Option String := none
  deriving Inhabited, Repr

structure Progress where
  printed : String := ""
  chosen : List Optimization := []
  next : Nat := 1
  deriving Inhabited

/-- What one part of a run comes to: it goes on, or it ends with an exit code. -/
inductive Step where
  | goOn (p : Progress)
  | stop (exit : Int) (printed : String)

/-- Why a file cannot be read: a message to print, or an error of the run. -/
def refuse (printed : String) : ReadError → Except Error Step
  | .refused _ _ e@(.unsupported _) | .refused _ _ e@(.fault _) => .error e
  | e => .ok (.stop (-1) (printed ++ e.printed))

def handle (r : Request) : List Optimization → Progress → Except Error Step
  | [], p => return .goOn p
  | o :: os, p => do
    if !r.wants o.name then handle r os p
    else
      let p := if r.output.isSome then { p with chosen := p.chosen ++ [o] } else p
      if r.verify then
        let v ← verify Verify.builtin o r.encoding
        let printed := p.printed ++ heading o ++ v.text r.hideProgress r.inferFlags
        if v.goesOn then handle r os { p with printed := printed } else return .stop (-1) printed
      else if r.output.isNone then handle r os { p with printed := p.printed ++ o.name ++ "\n" }
      else handle r os p

def handleAll (r : Request) : List String → Progress → Except Error Step
  | [], p => return .goOn p
  | text :: texts, p => do
    match readNumbered p.next text with
    | .error e => refuse p.printed e
    | .ok os =>
      match ← handle r os { p with next := p.next + os.length } with
      | .goOn p => handleAll r texts p
      | .stop exit printed => return .stop exit printed

/-- The texts of the files: the standard input can be read only once. -/
def textsOf (input : String) (contents : String → String) : List String → List String
  | [] => []
  | "-" :: names => input :: textsOf "" contents names
  | name :: names => contents name :: textsOf input contents names

/-- Do what is asked for, with the given standard input and contents of files. -/
def run (r : Request) (input : String) (contents : String → String) : Except Error Outcome := do
  match ← handleAll r (textsOf input contents r.files) {} with
  | .stop exit printed => return { exit := exit, printed := printed }
  | .goOn p =>
    match r.output with
    | none => return { exit := 0, printed := p.printed }
    | some name =>
      let code ← Emit.switchedText {} p.chosen
      if name == "-" then return { exit := 0, printed := p.printed ++ code }
      else return { exit := 0, printed := p.printed, written := some code }

/-- Write code for all the optimizations of a text. -/
def generate (input : String) : Except Error Outcome := do
  match readNumbered 1 input with
  | .error e =>
    match ← refuse "" e with
    | .stop exit printed => return { exit := exit, printed := printed }
    | .goOn p => return { exit := 0, printed := p.printed }
  | .ok os => return { exit := 0, printed := ← Emit.switchedText {} os }

end Peephole.Cli
