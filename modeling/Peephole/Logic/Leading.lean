import Peephole.Logic.Term

/-!
# Terms that start with a constant symbol

Constant symbols are variables whose names start with the letter `C`.  `Term.startsWithC` says whether a term,
written out with infix operators and the least parentheses, starts with this letter: its leftmost leaf is a
constant symbol that no parenthesis, sign or function name hides.  A concatenation is written as a function
that starts with this letter itself.
-/

namespace Peephole.Logic

/-- How loosely an operator binds when it is written between its operands; the others are written as
functions. -/
def BitOp.level? : BitOp → Option Nat
  | .mul | .sdiv => some 2
  | .add | .sub => some 3
  | .ashr | .shl => some 4
  | .and => some 5
  | .xor => some 6
  | .or => some 7
  | .udiv | .urem | .srem | .lshr => none

/-- Whether a chain of the operator is written without parentheses on the left. -/
def BitOp.chains : BitOp → Bool
  | .or | .xor | .and | .add | .sub | .mul => true
  | _ => false

/-- Whether `inner` as the left operand of `outer` is written without parentheses. -/
def BitOp.bare (outer inner : BitOp) : Bool :=
  (outer == inner && outer.chains) ||
    match outer.level?, inner.level? with
    | some p, some q => q < p || (outer == .add && inner == .sub) || (outer == .sub && inner == .add)
    | _, _ => true

def Term.startsWithC : Term → Bool
  | .var n _ => n.startsWith "C"
  | .op o a _ =>
    match o.level?, a with
    | none, _ => false
    | some _, .op i _ _ => o.bare i && a.startsWithC
    | some _, _ => a.startsWithC
  | .concat _ _ => true
  | _ => false

end Peephole.Logic
