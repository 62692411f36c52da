import Peephole.Emit.Expression
import Peephole.Emit.Match

/-!
# Building the target

The statements that create the instructions of the target.  Instructions that are not the root are inserted by a
builder.
-/

namespace Peephole.Emit

open Program Cpp

/-- The instruction, inserted by the builder if it is not the root. -/
def inserted (isRoot : Bool) (e : Expr) : Expr :=
  if isRoot then e else .method true (.var "Builder") "Insert" [e]

def flagSetter : Flag → String
  | .nsw => "setHasNoSignedWrap"
  | .nuw => "setHasNoUnsignedWrap"
  | .exact => "setIsExact"

/-- The class of a conversion, if it can be created. -/
def convertClass? : ConvertOp → Option String
  | .trunc => some "TruncInst"
  | .zext => some "ZExtInst"
  | .sext => some "SExtInst"
  | .ptrToInt => some "PtrToIntInst"
  | .intToPtr => some "IntToPtrInst"
  | .bitcast => some "BitCastInst"
  | .zextOrTrunc => none

def definition (cls : String) (i : ValueId) (e : Expr) : EmitM Stmt := do
  return .init (pointerTo cls) (← nameExpr i) e

def construct (isRoot : Bool) (i : ValueId) : EmitM (List Stmt) := do
  let v ← valueAt i
  match v.op with
  | .copy x =>
    let e ← operandExpr x
    return [← definition (if (← valueAt x).op.isInstr then "Instruction" else "Value") i e]
  | .arith op x y flags =>
    let a ← operandExpr x
    let b ← operandExpr y
    let first ← definition "BinaryOperator" i
      (inserted isRoot (.call ("BinaryOperator::Create" ++ arithName op) [a, b]))
    let setters ← flags.mapM fun f =>
      return Stmt.expr (.method true (← nameExpr i) (flagSetter f) [.var "true"])
    return first :: setters
  | .convert op _ x =>
    match convertClass? op with
    | none =>
      ensure !isRoot
      let a ← operandExpr x
      let t ← typeExpr i
      return [← definition "Value" i (.method true (.var "Builder") "CreateZExtOrTrunc" [a, t])]
    | some c =>
      let a ← operandExpr x
      let t ← typeExpr i
      return [← definition "Instruction" i (inserted isRoot (.call ("new " ++ c) [a, t]))]
  | .icmp pred _ x y =>
    let p ← match pred with
      | .any name =>
        let p ← keyName (predicateKey name v.name)
        ensure (← isBoundName p)
        pure p
      | .known c => pure (predicateName c)
    let a ← operandExpr x
    let b ← operandExpr y
    return [← definition "Instruction" i (inserted isRoot (.call "new ICmpInst" [.var p, a, b]))]
  | .select c x y =>
    let p ← operandExpr c
    let a ← operandExpr x
    let b ← operandExpr y
    return [← definition "Instruction" i (inserted isRoot (.call "SelectInst::Create" [p, a, b]))]
  | _ => fail .noSuchPart

end Peephole.Emit
