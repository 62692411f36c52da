import Peephole.Verify.Flags
import Peephole.Verify.Typings

/-!
# Verdicts

`verify` decides whether an optimization is correct under all typings.  It is rejected before that if it does
not type check, or if it leaves a register without use.
-/

namespace Peephole.Verify

open Logic Encode Typing
open Program (Dict)
open Elaborate (Optimization)

/-- Why an optimization is not checked at all. -/
inductive Rejection where
  | preconditionType
  | sourceType
  | targetType
  /-- A register of the source is neither used nor overwritten. -/
  | unusedSource (register : String)
  /-- A register of the target is not used and does not overwrite one of the source. -/
  | unusedTarget (register : String)
  deriving Inhabited, Repr, DecidableEq

/-- Why the typings are not checked any further. -/
inductive Trouble where
  /-- A check failed: what it is about, with types, and the lines of a counterexample. -/
  | wrong (concern : Concern) (summary : String) (lines : List String)
  | gaveUp (reason : String)
  /-- A variable has no role in the query about flags. -/
  | strangeVar (name : String)

/-- The outcome of a verification. -/
inductive Verdict where
  | rejected (r : Rejection)
  /-- All typings were checked. -/
  | correct (typings : Nat)
  /-- The search stopped after some typings. -/
  | stopped (typings : Nat) (t : Trouble)
  /-- There are more typings than were checked. -/
  | unfinished (typings : Nat)

/-- The solvers that a verification uses, and the most typings it checks. -/
structure Solvers where
  types : TypeSolver
  terms : Decide.Solver
  limit : Nat

def builtin : Solvers := ⟨Typing.find?, Decide.satisfy, 100000⟩

def typeIn (m : Model) (key : String) : Except Error String :=
  match (Shape.ofModel m).typeText? (fun v => (m.lookup v).isSome) (m.length + 1) key with
  | some t => .ok t
  | none => .error (.fault .noSuchPart)

def Concern.summary (m : Model) (env : Env) : Concern → Except Error String
  | .block label => return "Mismatch in preconditions for BB '" ++ label ++ "'"
  | .definedness k => return "Domain of definedness of Target is smaller than Source's for " ++ (← typeIn m k) ++
      " " ++ k
  | .poison k => return "Domain of poisoness of Target is smaller than Source's for " ++ (← typeIn m k) ++ " " ++ k
  | .value k => return "Mismatch in values of " ++ (← typeIn m k) ++ " " ++ k
  | .memory idx => return "Mismatch in final memory state in ptr " ++ valueText (idx.eval env)

/-- The values before the one that a check is about, in source and target. -/
def shownValues (p : Problem) (c : Concern) : List (String × Encoded) :=
  let upTo (d : Dict Encoded) : List (String × Encoded) := List.takeWhile (fun e => some e.1 != c.key?) d
  let source := upTo p.source.items
  source ++ (upTo p.target.items).filter fun e => !source.any fun f => f.1 == e.1

def exampleLines (m : Model) (p : Problem) (c : Check) (env : Env) : Except Error (List String) := do
  let values ← (shownValues p c.concern).mapM fun (k, e) => do
    let t ← typeIn m k
    match e.value with
    | some x => return k ++ " " ++ t ++ " = " ++ valueText (x.eval env)
    | none => throw (.fault .noSuchPart)
  return values ++ ["Source value: " ++ c.source.text env, "Target value: " ++ c.target.text env]

/-- What checks have found, with the lines of a counterexample. -/
def Findings.trouble? (m : Model) (p : Problem) : Findings → Except Error (Option Trouble)
  | .clean => return none
  | .unknown reason => return some (.gaveUp reason)
  | .failed c env => do
    return some (.wrong c.concern (← c.concern.summary m env) (← exampleLines m p c env))

/-- Run checks in order until one does not pass. -/
def troubleIn (solvers : Solvers) (m : Model) (p : Problem) (cs : List Check) : Except Error (Option Trouble) :=
  (runChecks solvers.terms cs).trouble? m p

/-- The checks of values, where flags are to be inferred. -/
def inferFlags (solvers : Solvers) (m : Model) (p : Problem) (users : Dict (List Formula)) :
    Except Error (Option Trouble) := do
  match flagQuery p users [] with
  | .error name => return some (.strangeVar name)
  | .ok q =>
    match solvers.terms (.allOf q.parts) with
    | .unknown reason => return some (.gaveUp reason)
    | .satisfied _ => if q.flags.isEmpty then return none else throw (.fault .badOperands)
    | .unsatisfiable =>
      match ← troubleIn solvers m p (registerChecks p users) with
      | some t => return some t
      | none => throw (.fault .brokenInvariant)

def checkTyping (solvers : Solvers) (o : Optimization) (options : Options) (m : Model) :
    Except Error (Option Trouble) := do
  let p ← encodeOptimization o (Shape.ofModel m) options
  let users := userConditions o
  if let some t ← troubleIn solvers m p (blockChecks p) then return some t
  let values ←
    if options.inferFlags then inferFlags solvers m p users
    else troubleIn solvers m p (registerChecks p users)
  if let some t := values then return some t
  troubleIn solvers m p (memoryChecks p)

def unusedRegister? (o : Optimization) : Option Rejection :=
  let isRegister (k : String) : Bool := k.startsWith "%"
  let unreachable := o.targetNames.keys.any (·.startsWith "unreachable")
  let source := o.sourceNames.keys.find? fun k =>
    isRegister k && !o.sourceUsed.contains k && !o.targetUsed.contains k && o.targetSkipped.contains k &&
      !unreachable
  let target := o.targetNames.keys.find? fun k =>
    isRegister k && !o.targetUsed.contains k && !o.sourceNames.has k
  source.map .unusedSource <|> target.map .unusedTarget

def rejection? (solve : TypeSolver) (o : Optimization) (p : TypeProblem) : Option Rejection :=
  if (solve [p.pre]).isNone then some .preconditionType
  else if (solve (p.pre :: p.source)).isNone then some .sourceType
  else if (solve p.all).isNone then some .targetType
  else unusedRegister? o

def verify (solvers : Solvers) (o : Optimization) (options : Options) : Except Error Verdict := do
  let p ← typeProblem o
  match rejection? solvers.types o p with
  | some r => return .rejected r
  | none =>
    match ← forAllTypings solvers.types p solvers.limit (checkTyping solvers o options) with
    | .exhausted n => return .correct n
    | .stopped n t => return .stopped n t
    | .unfinished n => return .unfinished n

end Peephole.Verify
