import Peephole.Decide.Blast
import Peephole.Encode.Program
import Peephole.Logic.Show

/-!
# Checks of an optimization

Under one typing, an optimization is correct if the target refines the source: a basic block is reached in the
target exactly if it is in the source, each value of the source that the target also has is defined, not poison
and the same in the target where it is defined and not poison in the source, and the final memories agree.

Each of these is a `Check`: a formula that must not be satisfiable.  The arbitrary choices of the source are
quantified in it, so that a satisfying environment is a counterexample for every choice.
-/

namespace Peephole.Verify

open Logic Encode
open Program (Dict Table userCounts)
open Elaborate (Optimization)

/-- What a check is about. -/
inductive Concern where
  /-- When a basic block is reached. -/
  | block (label : String)
  | definedness (key : String)
  | poison (key : String)
  | value (key : String)
  | memory (address : Term)

def Concern.key? : Concern → Option String
  | definedness k | poison k | value k => some k
  | block _ | memory _ => none

/-- What is shown of one side in a counterexample. -/
inductive Shown where
  | term (t : Term)
  | truth (p : Formula)
  | word (s : String)

def Shown.text (env : Env) : Shown → String
  | term t => valueText (t.eval env)
  | truth p => if p.eval env then "true" else "false"
  | word s => s

/-- A check: the arbitrary choices of the source, and what must not hold together for all of them. -/
structure Check where
  concern : Concern
  vars : List Var
  parts : List Formula
  source : Shown
  target : Shown

/-- For each name of the source, the condition on the number of its users: it is not the number that can be
seen, if there are any. -/
def userConditions (o : Optimization) : Dict (List Formula) :=
  let counts := userCounts o.table o.source
  List.map (fun (e : String × Nat) =>
    (e.1, match counts.get? e.1 with
      | some n => if n = 0 then [] else [.cmp .ne (usersVar e.1) (.const n 8)]
      | none => [])) o.sourceNames

/-- What the precondition and the allocations give for all checks. -/
def assumptions (p : Problem) : List Formula :=
  p.pre.given ++ p.pre.asked ++ p.source.allocaConstraints ++ p.target.allocaConstraints

def query (vars : List Var) (ps : List Formula) : Formula := .forAll vars (.allOf ps)

/-- The optimization fails the check if this can be satisfied. -/
abbrev Check.query (c : Check) : Formula := Verify.query c.vars c.parts

/-- The check of a label with these incoming edges in the source and in the target. -/
def blockCheck (p : Problem) (label : String) (es fs : List (Formula × Memory)) : Check :=
  { concern := .block label
    vars := []
    parts := .distinct [.allOf (es.map (·.1)), .allOf (fs.map (·.1))] :: assumptions p
    source := .truth (.allOf (es.map (·.1)))
    target := .truth (.allOf (fs.map (·.1))) }

/-- Both programs reach each basic block under the same condition. -/
def blockChecks (p : Problem) : List Check :=
  p.source.entries.filterMap fun (label, es) => (p.target.entries.get? label).map (blockCheck p label es)

/-- The values that are compared: key, and encodings in source and target. -/
def compared (p : Problem) : List (String × Encoded × Encoded) :=
  p.source.items.filterMap fun (k, a) =>
    if k.startsWith "C" then none else (p.target.vars.get? k).map fun b => (k, a, b)

def valueChecks (p : Problem) (users : Dict (List Formula)) (k : String) (a b : Encoded) : List Check :=
  match a.value, b.value with
  | some x, some y =>
    let base := a.conds.defined ++ a.conds.poison ++ assumptions p ++ (users.get? k).getD []
    let check (c : Concern) (violated : Formula) (target : Shown) : Check :=
      ⟨c, a.conds.free, base ++ [violated], .term x, target⟩
    [check (.definedness k) (.negate (.allOf b.conds.defined)) (.word "undef"),
      check (.poison k) (.negate (.allOf b.conds.poison)) (.word "poison"),
      check (.value k) (.cmp .ne x y) (.term y)]
  | _, _ => []

def registerChecks (p : Problem) (users : Dict (List Formula)) : List Check :=
  (compared p).flatMap fun (k, a, b) => valueChecks p users k a b

/-- The final memories agree at every address. -/
def memoryChecks (p : Problem) : List Check :=
  match p.source.memory, p.target.memory with
  | some m, some n =>
    let idx : Term := .var "idx" p.shape.ptrWidth
    [{ concern := .memory idx
       vars := p.source.memoryFree
       parts := assumptions p ++ [.cmp .ne (m.read idx) (n.read idx)]
       source := .term (m.read idx)
       target := .term (n.read idx) }]
  | _, _ => []

/-- The outcome of checks: all passed, one failed in an environment, or the solver does not know. -/
inductive Findings where
  | clean
  | failed (c : Check) (env : Env)
  | unknown (reason : String)

def runChecks (solve : Decide.Solver) : List Check → Findings
  | [] => .clean
  | c :: cs =>
    match solve c.query with
    | .unsatisfiable => runChecks solve cs
    | .satisfied env => .failed c env
    | .unknown reason => .unknown reason

end Peephole.Verify
