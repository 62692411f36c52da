import Peephole.Program.Condition
import Peephole.Typing.Generate

/-!
# Constraints of preconditions

Compared constants have the same type, and the arguments of a predicate have types that the predicate is about.
-/

namespace Peephole.Typing

open Program

/-- The condition that a predicate asks of the types of its arguments. -/
def testConstraint : Test → List ValueId → TableM (List Constraint)
  | .equivalentAddresses, args => allEqual .ptr args
  | .hasOneUse, _ => return []
  | _, args => allEqual .int args

mutual

def conditionConstraint : Condition → TableM Constraint
  | .always => return .lit true
  | .not c => conditionConstraint c
  | .both cs => return .allOf (← conditionConstraints cs)
  | .either cs => return .allOf (← conditionConstraints cs)
  | .compare _ a b => do
    let e ← equal (own a) (own b)
    return .allOf [e, ← constraint a, ← constraint b]
  | .test t args => do
    let cs ← testConstraint t args
    return .allOf (cs ++ (← args.mapM constraint))

/-- The conditions on the types of the values of several preconditions. -/
def conditionConstraints : List Condition → TableM (List Constraint)
  | [] => return []
  | c :: cs => return (← conditionConstraint c) :: (← conditionConstraints cs)

end

end Peephole.Typing
