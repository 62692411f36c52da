import Peephole.Elaborate.Optimization
import Peephole.Typing.Condition
import Peephole.Typing.Solve

/-!
# Typing of optimizations

The typing constraints of the source, the target and the precondition of an optimization, in this order.  The
optimization type checks if they can be satisfied together; the three are added one after another, so that the
first that does not fit can be named.
-/

namespace Peephole.Typing

open Program
open Elaborate (Optimization)

structure TypeProblem where
  source : List Constraint
  target : List Constraint
  pre : Constraint
  /-- The values with the types as the constraints have left them. -/
  table : Table
  deriving Inhabited

def typeProblem (o : Optimization) : Except Error TypeProblem := do
  let ((source, target, pre), table) ← StateT.run (s := o.table) do
    let source ← constraints o.sourceNames
    let target ← constraints o.targetNames
    let pre ← conditionConstraint o.pre
    return (source, target, pre)
  return ⟨source, target, pre, table⟩

namespace TypeProblem

def all (p : TypeProblem) : List Constraint := p.pre :: p.source ++ p.target

/-- Whether the precondition, then with the source, then with the target, can be typed; later ones are not
asked after a failure. -/
def verdicts (p : TypeProblem) : List Bool :=
  if !satisfiable [p.pre] then [false]
  else if !satisfiable (p.pre :: p.source) then [true, false]
  else [true, true, satisfiable p.all]

end TypeProblem

end Peephole.Typing
