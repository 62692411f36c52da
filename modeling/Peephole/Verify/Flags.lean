import Peephole.Logic.Same
import Peephole.Verify.Check

/-!
# Inferring flags

When flags are inferred, one query asks for values of the flag variables under which each value of the source is
refined by the target for all inputs.
-/

namespace Peephole.Verify

open Logic Encode
open Program (Dict)

/-- What a variable of a query stands for. -/
inductive VarRole where
  | input
  | flag
  /-- A number of users or an arbitrary choice. -/
  | other

def varRole? (name : String) : Option VarRole :=
  let starts (p : String) : Bool := name.startsWith p
  if starts "%" || starts "C" || starts "icmp_" || starts "alloca" || starts "mem_" || starts "ana_" then
    some .input
  else if starts "f_" then some .flag
  else if starts "u_" || starts "undef" then some .other
  else none

/-- The query about flags, or the name of a variable that has no role in it. -/
structure FlagQuery where
  parts : List Formula
  flags : List String

/-- The part of the query for one value; none if it is plainly true. -/
def flagPart (p : Problem) (users : Dict (List Formula)) (known : List Formula) (k : String) (a b : Encoded) :
    Option Formula :=
  match a.value, b.value with
  | some x, some y =>
    let pre := Formula.allOf (a.conds.defined ++ a.conds.poison ++ known ++ assumptions p)
    let equal := if x.same y then [] else [Formula.cmp .eq x y]
    let q := Formula.imp pre (.allOf (b.conds.defined ++ b.conds.poison ++ equal))
    if q.isTrue then none else some (.allOf ((users.get? k).getD [] ++ [q]))
  | _, _ => none

/-- Close a part of the query: arbitrary choices of the source are made after the inputs are given. -/
def closePart (free : List Var) (q : Formula) : Except String (Formula × List String) := do
  let roles ← q.vars.mapM fun v =>
    match varRole? v.name with
    | some r => .ok (v, r)
    | none => .error v.name
  let inputs := roles.filterMap fun
    | (v, .input) => some v
    | _ => none
  let flags := roles.filterMap fun
    | (v, .flag) => some v.name
    | _ => none
  return (.forAll inputs (.thereIs free q), flags)

/-- The query about flags; an error names a variable that has no role in it. -/
def flagQuery (p : Problem) (users : Dict (List Formula)) (known : List Formula) : Except String FlagQuery := do
  let parts ← (compared p).filterMapM fun (k, a, b) =>
    match flagPart p users known k a b with
    | some q => return some (← closePart a.conds.free q)
    | none => return none
  return ⟨parts.map (·.1), parts.flatMap (·.2)⟩

end Peephole.Verify
