import Peephole.Emit.Generator
import Peephole.Program.Condition

/-!
# Expressions for values and preconditions

A value of the target stands in generated code as an operand, as a number of the width of its type, or as a number
that may also be a plain integer.  Constant expressions are computed by the generated code.
-/

namespace Peephole.Emit

open Program Cpp

/-- What an expression is needed for. -/
inductive Use where
  | operand
  /-- As a number of the width of the value's type. -/
  | wide
  /-- As a number; a plain integer will do. -/
  | number
  deriving Inhabited, Repr, DecidableEq

def constantOf (i : ValueId) (number : EmitM Expr) : EmitM Expr := do
  let t ← typeExpr i
  return .call "ConstantInt::get" [t, ← number]

def wideOf (i : ValueId) (number : EmitM Expr) : EmitM Expr := do
  let w ← widthExpr i
  return .call "APInt" [w, ← number]

/-- A constant expression in a use, where its number is a plain integer. -/
def plainIn (use : Use) (i : ValueId) (number : EmitM Expr) : EmitM Expr :=
  match use with
  | .operand => constantOf i number
  | .wide => wideOf i number
  | .number => number

def onNumber (e : Expr) (name : String) (args : List Expr) : Expr := .method false e name args

def binaryExpr (op : BinaryConst) (a b : Expr) : Expr :=
  match op with
  | .and => .binary .bitAnd a b
  | .or => .binary .bitOr a b
  | .xor => .binary .bitXor a b
  | .add => .binary .add a b
  | .sub => .binary .sub a b
  | .mul => .binary .mul a b
  | .shl => .binary .shiftLeft a b
  | .sdiv => onNumber a "sdiv" [b]
  | .udiv => onNumber a "udiv" [b]
  | .srem => onNumber a "srem" [b]
  | .urem => onNumber a "urem" [b]
  | .ashr => onNumber a "ashr" [b]
  | .lshr => onNumber a "lshr" [b]

/-- Whether the second operand may be a plain integer. -/
def plainSecond : BinaryConst → Bool
  | .add | .sub | .ashr | .lshr | .shl => true
  | _ => false

/-- Whether the result of a function is a plain integer. -/
def isPlainResult : ConstFn → Bool
  | .signBits | .leadingZeros | .trailingZeros | .log2 | .width => true
  | _ => false

section Uses

variable (sub : Use → ValueId → EmitM Expr)

def callExpr (i : ValueId) (fn : ConstFn) (args : List ValueId) : EmitM Expr := do
  match fn, args with
  | .abs, [x] => return onNumber (← sub .wide x) "abs" []
  | .signBits, [x] => return .call "ComputeNumSignBits" [← sub .operand x]
  | .knownOnes, [x] => return .call "computeKnownOneBits" [← sub .operand x, .var "I"]
  | .knownZeros, [x] => return .call "computeKnownZeroBits" [← sub .operand x, .var "I"]
  | .leadingZeros, [x] => return onNumber (← sub .wide x) "countLeadingZeros" []
  | .trailingZeros, [x] => return onNumber (← sub .wide x) "countTrailingZeros" []
  | .log2, [x] => return onNumber (← sub .wide x) "logBase2" []
  | .lshr, [x, y] =>
    let a ← sub .wide x
    return onNumber a "lshr" [← sub .number y]
  | .max, [x, y] =>
    let a ← sub .wide x
    return .call "APIntOps::smax" [a, ← sub .wide y]
  | .umax, [x, y] =>
    let a ← sub .wide x
    return .call "APIntOps::umax" [a, ← sub .wide y]
  | .sext, [x] =>
    let a ← sub .wide x
    return onNumber a "sext" [← widthExpr i]
  | .zext, [x] =>
    let a ← sub .wide x
    return onNumber a "zext" [← widthExpr i]
  | .trunc, [x] =>
    let a ← sub .wide x
    return onNumber a "trunc" [← widthExpr i]
  | .width, [x] => widthExpr x
  | _, _ => fail .badOperands

/-- The expression of a value in a use; `sub` gives those of the operands of constant expressions. -/
def exprWith (use : Use) (i : ValueId) : EmitM Expr := do
  let v ← valueAt i
  match v.op with
  | .input =>
    match use with
    | .operand => nameExpr i
    | .wide | .number =>
      if v.name.startsWith "C" then return .method true (← nameExpr i) "getValue" []
      else unsupported ("Input " ++ v.name ++ " used in an expression")
  | .literal n => plainIn use i (return .var (toString n))
  | .undefined =>
    match use with
    | .operand => return .call "UndefValue::get" [← typeExpr i]
    | .wide | .number => plainIn use i (unsupported "undef cannot be an APInt")
  | .unary op x =>
    match use with
    | .wide => return .unary op.text (← sub .wide x)
    | .operand | .number => plainIn use i (return .unary op.text (← sub .number x))
  | .binary op x y =>
    let number : EmitM Expr := do
      let a ← sub .wide x
      return binaryExpr op a (← sub (if plainSecond op then .number else .wide) y)
    match use with
    | .operand => constantOf i number
    | .wide | .number => number
  | .call fn args =>
    match use with
    | .operand => constantOf i (callExpr sub i fn args)
    | .number => callExpr sub i fn args
    | .wide =>
      let e ← callExpr sub i fn args
      if isPlainResult fn then wideOf i (return e) else return e
  | .count _ _ _ _ => fail .noSuchPart
  | _ =>
    match use with
    | .operand => nameExpr i
    | .wide | .number => fail .noSuchPart

end Uses

def exprFor (use : Use) (i : ValueId) : EmitM Expr :=
  exprWith (fun u j => if _h : j < i then exprFor u j else fail .noSuchEntry) use i
termination_by i

def operandExpr (i : ValueId) : EmitM Expr := exprFor .operand i

/-! ### Preconditions -/

/-- Whether a value of a precondition is a plain integer in generated code. -/
def isPlain (v : Value) : Bool :=
  match v.op with
  | .literal _ => true
  | .call fn _ =>
    match fn with
    | .leadingZeros | .trailingZeros | .log2 | .width => true
    | _ => false
  | _ => false

def plainCompare : CompareOp → BinaryOp
  | .eq => .eq | .ne => .ne
  | .slt | .ult => .lt
  | .sle | .ule => .le
  | .sgt | .ugt => .gt
  | .sge | .uge => .ge

def compareExpr (op : CompareOp) (a b : Expr) : Expr :=
  match op with
  | .eq => .binary .eq a b
  | .ne => .binary .ne a b
  | .slt => onNumber a "slt" [b]
  | .sle => onNumber a "sle" [b]
  | .sgt => onNumber a "sgt" [b]
  | .sge => onNumber a "sge" [b]
  | .ult => onNumber a "ult" [b]
  | .ule => onNumber a "ule" [b]
  | .ugt => onNumber a "ugt" [b]
  | .uge => onNumber a "uge" [b]

def argExprs : List ArgKind → List ValueId → EmitM (List Expr)
  | k :: ks, i :: is => do
    let e ← exprFor (if k = .constant then .wide else .operand) i
    return e :: (← argExprs ks is)
  | _, _ => return []

/-- Whether a sum or product of the operands never overflows. -/
def neverOverflows (fn : String) (args : List ValueId) : EmitM Expr := do
  let es ← args.mapM operandExpr
  return .binary .eq (.call fn (es ++ [.var "I"])) (.var "OverflowResult::NeverOverflows")

def testExpr (t : Test) (args : List ValueId) : EmitM Expr := do
  match t, args with
  | .equivalentAddresses, _ => unsupported "eqptrs not currently supported"
  | .isPowerOf2, [x] =>
    if (← valueAt x).op.isConstant then return onNumber (← exprFor .wide x) "isPowerOf2" []
    else return .call "isKnownToBeAPowerOfTwo" [← operandExpr x, .var "DL"]
  | .isPowerOf2OrZero, [x] =>
    return .call "isKnownToBeAPowerOfTwo" [← operandExpr x, .var "DL", .var "true"]
  | .noUnsignedAdd, _ => neverOverflows "computeOverflowForUnsignedAdd" args
  | .noUnsignedMul, _ => neverOverflows "computeOverflowForUnsignedMul" args
  | .noSignedMul, _ => return .call t.text ((← args.mapM operandExpr) ++ [.var "*I"])
  | _, _ =>
    let es ← argExprs t.params args
    match t, es with
    | .isShiftedMask, [a] => return onNumber a t.text []
    | .isSignBit, [a] => return onNumber a "isSignMask" []
    | .hasOneUse, [a] => return .method true a "hasOneUse" []
    | .noSignedAdd, _ | .noSignedSub, _ | .noUnsignedSub, _ => return .call t.text (es ++ [.var "*I"])
    | _, _ => return .call t.text es

def joinedExpr (op : BinaryOp) (es : List Expr) : EmitM Expr :=
  match Expr.joined? op es with
  | some e => return e
  | none => fail .badOperands

mutual

def conditionExpr : Condition → EmitM Expr
  | .always => return .var "true"
  | .not c => return .unary "!" (← conditionExpr c)
  | .both cs => do joinedExpr .and (← conditionExprs cs)
  | .either cs => do joinedExpr .or (← conditionExprs cs)
  | .compare op x y => do
    if isPlain (← valueAt x) && isPlain (← valueAt y) then
      let a ← exprFor .number x
      return .binary (plainCompare op) a (← exprFor .number y)
    else
      let a ← exprFor .wide x
      return compareExpr op a (← exprFor .number y)
  | .test t args => testExpr t args

def conditionExprs : List Condition → EmitM (List Expr)
  | [] => return []
  | c :: cs => do
    let e ← conditionExpr c
    return e :: (← conditionExprs cs)

end

end Peephole.Emit
