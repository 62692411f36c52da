import Peephole.Verify.Verdict

/-!
# Reports

What is printed about the verification of an optimization, and whether the run goes on after it.
-/

namespace Peephole.Verify

open Program (listing)
open Elaborate (Optimization)

def linesText (lines : List String) : String := String.join (lines.map (· ++ "\n"))

def heading (o : Optimization) : String :=
  linesText (["----------------------------------------", "Optimization: " ++ o.name,
      "Precondition: " ++ o.pre.text o.table] ++ listing o.table o.source [] ++ ["=>"] ++
    listing o.table o.target o.targetSkipped ++ [""])

def Rejection.line : Rejection → String
  | preconditionType => "Precondition does not type check"
  | sourceType => "Source program does not type check"
  | targetType => "Source and Target programs do not type check"
  | unusedSource r => "ERROR: Temporary register " ++ r ++ " unused and not overwritten"
  | unusedTarget r =>
    "ERROR: Temporary register " ++ r ++ " unused and does not overwrite any Source register"

/-- What is printed when the solver does not know the answer. -/
def gaveUpText (reason : String) : String :=
  linesText ["", "WARNING: The SMT solver gave up. Verification incomplete.", "Solver says: " ++ reason]

def Trouble.text : Trouble → String
  | wrong concern summary lines =>
    let ending := match concern with
      | .memory _ => []
      | _ => [""]
    linesText (["", "ERROR: " ++ summary] ++ ending ++ ["Example:"] ++ lines)
  | gaveUp reason => gaveUpText reason
  | strangeVar name => linesText ["Unknown smt var: " ++ name]

def progress (hidden : Bool) (typings : Nat) : String :=
  if hidden then "" else String.join ((List.range typings).map fun i => "\rDone: " ++ toString (i + 1))

def Verdict.text (hideProgress inferFlags : Bool) : Verdict → String
  | rejected r => linesText [r.line]
  | correct n =>
    progress hideProgress n ++
      linesText (["", "Optimization is correct!"] ++ (if inferFlags then ["Flags: True"] else []) ++ [""])
  | stopped n t => progress hideProgress n ++ t.text
  | unfinished n =>
    progress hideProgress n ++ linesText ["", "Verification incomplete; did not check all bit widths", ""]

def Verdict.goesOn : Verdict → Bool
  | correct _ | unfinished _ => true
  | rejected _ | stopped _ _ => false

end Peephole.Verify
