import Peephole.Encode.Value
import Peephole.Logic.Leading

/-!
# Encoding preconditions

A precondition becomes two lists of formulas: what holds in any case, and what the precondition asks for.
A compiler answers a predicate on registers by an analysis, which may fail to see what is true.  The answer is
then a variable of one bit: if it is set, the predicate is true.  On constant symbols an analysis is precise.
-/

namespace Peephole.Encode

open Logic Program

/-- A precondition as formulas. -/
structure Requirement where
  /-- What holds in any case. -/
  given : List Formula
  /-- What the precondition asks for. -/
  asked : List Formula
  deriving Inhabited

/-- Encode with no conditions at the start, and give the conditions that were added. -/
def apart {α : Type} (x : EncodeM α) : EncodeM (α × Conditions) := do
  let before := (← get).conds
  modify fun w => { w with conds := .none }
  let a ← x
  let added := (← get).conds
  modify fun w => { w with conds := before }
  return (a, added)

/-- The terms of the arguments of a predicate or comparison, and what holds of them. -/
def argTerms (args : List ValueId) : EncodeM (List Term × List Formula) := do
  let (ts, conds) ← apart (args.mapM (subTerm encode))
  return (ts, conds.defined)

def comparison : CompareOp → Comparison
  | .eq => .eq | .ne => .ne
  | .slt => .slt | .sle => .sle | .sgt => .sgt | .sge => .sge
  | .ult => .ult | .ule => .ule | .ugt => .ugt | .uge => .uge

/-- The variable for the number of users of a value. -/
def usersVar (key : String) : Term := .var ("u_" ++ key) 8

/-- No two bits of the term are set. -/
def atMostOneBit (a : Term) : Formula :=
  .cmp .eq (.op .and a (.op .sub a (numberLike 1 a))) (numberLike 0 a)

def analysed (call : String) (given : List Formula) (terms : List Term) (truth : Formula) : Requirement :=
  if terms.all Term.startsWithC then ⟨given, [truth]⟩
  else
    let found : Formula := .cmp .eq (.var ("ana_" ++ call) 1) (.const 1 1)
    ⟨given ++ [.implies found truth], [found]⟩

/-- A predicate on encoded arguments; `call` is how it is written, `key` the key of its first argument. -/
def testRequirement (t : Test) (call key : String) (given : List Formula) : List Term → Except Error Requirement
  | [a] =>
    match t with
    | .isPowerOf2 => .ok (analysed call given [a] (.and [.cmp .ne a (numberLike 0 a), atMostOneBit a]))
    | .isPowerOf2OrZero => .ok (analysed call given [a] (atMostOneBit a))
    | .isShiftedMask => .ok ⟨given, Formula.shiftedMask a⟩
    | .isSignBit => .ok ⟨given, [.cmp .eq a (numberLike (1 <<< (a.width - 1) : Nat) a)]⟩
    | .hasOneUse => .ok ⟨given, [.cmp .eq (usersVar key) (.const 1 8)]⟩
    | _ => .error (.fault .badOperands)
  | [a, b] =>
    match t with
    | .equivalentAddresses => .ok (analysed call given [a, b] (.cmp .eq a b))
    | .maskedIsZero => .ok (analysed call given [a] (.cmp .eq (.op .and a b) (numberLike 0 a)))
    | .noSignedAdd => .ok (analysed call given [a, b] (.noSignedOverflow .add a b))
    | .noUnsignedAdd => .ok (analysed call given [a, b] (.noUnsignedOverflow .add a b))
    | .noSignedSub => .ok (analysed call given [a, b] (.noSignedOverflow .sub a b))
    | .noUnsignedSub => .ok (analysed call given [a, b] (.noUnsignedOverflow .sub a b))
    | .noSignedMul => .ok (analysed call given [a, b] (.noSignedMulOverflow a b))
    | .noUnsignedMul => .ok (analysed call given [a, b] (.noUnsignedMulOverflow a b))
    | .noUnsignedShl => .ok ⟨given, [shiftsBack .shl .lshr a b]⟩
    | _ => .error (.fault .badOperands)
  | _ => .error (.fault .badOperands)

mutual

def encodeCondition : Condition → EncodeM Requirement
  | .always => return ⟨[], []⟩
  | .not c => do
    let r ← encodeCondition c
    return ⟨r.given, [.negate (.allOf r.asked)]⟩
  | .both cs => do
    let rs ← encodeConditions cs
    return ⟨rs.flatMap (·.given), rs.flatMap (·.asked)⟩
  | .either cs => do
    let rs ← encodeConditions cs
    return ⟨rs.flatMap (·.given), [.anyOf (rs.map fun r => .allOf r.asked)]⟩
  | .compare op x y => do
    let (ts, given) ← argTerms [x, y]
    match ts with
    | [a, b] => return ⟨given, [.cmp (comparison op) a b]⟩
    | _ => stop .badOperands
  | .test t args => do
    let (ts, given) ← argTerms args
    let table := (← read).table
    let key := (args.head?.map fun i => (table.get i).key).getD ""
    check (testRequirement t ((Condition.test t args).text table) key given ts)

def encodeConditions : List Condition → EncodeM (List Requirement)
  | [] => return []
  | c :: cs => do
    let r ← encodeCondition c
    return r :: (← encodeConditions cs)

end

end Peephole.Encode
