import Peephole.Program.Value

/-!
# Preconditions

A precondition says when an optimization may be used: it compares constants, or tests values with predicates
that a compiler can answer, and combines these with `!`, `&&` and `||`.
-/

namespace Peephole.Program

inductive CompareOp where
  | eq | ne | slt | sle | sgt | sge | ult | ule | ugt | uge
  deriving Inhabited, Repr, DecidableEq

namespace CompareOp

def text : CompareOp → String
  | eq => "==" | ne => "!="
  | slt => "<" | sle => "<=" | sgt => ">" | sge => ">="
  | ult => "u<" | ule => "u<=" | ugt => "u>" | uge => "u>="

def all : List CompareOp := [eq, ne, slt, sle, sgt, sge, ult, ule, ugt, uge]

end CompareOp

inductive Test where
  | equivalentAddresses | isPowerOf2 | isPowerOf2OrZero | isShiftedMask | isSignBit | maskedIsZero
  | noSignedAdd | noUnsignedAdd | noSignedSub | noUnsignedSub | noSignedMul | noUnsignedMul
  | noUnsignedShl | hasOneUse
  deriving Inhabited, Repr, DecidableEq

/-- What an argument of a predicate may be. -/
inductive ArgKind where
  | any
  /-- An input or a constant. -/
  | input
  /-- Anything but a constant. -/
  | register
  /-- A constant or a constant symbol. -/
  | constant
  deriving Inhabited, Repr, DecidableEq

def ArgKind.text : ArgKind → String
  | any => "any value"
  | input => "constant or input var"
  | register => "register"
  | constant => "constant"

def ArgKind.accepts (v : Value) : ArgKind → Bool
  | any => true
  | input => v.op.isInput || v.op.isConstant
  | register => !v.op.isConstant
  | constant => if v.op.isInput then v.name.startsWith "C" else v.op.isConstant

namespace Test

def text : Test → String
  | equivalentAddresses => "equivalentAddressValues"
  | isPowerOf2 => "isPowerOf2"
  | isPowerOf2OrZero => "isPowerOf2OrZero"
  | isShiftedMask => "isShiftedMask"
  | isSignBit => "isSignBit"
  | maskedIsZero => "MaskedValueIsZero"
  | noSignedAdd => "WillNotOverflowSignedAdd"
  | noUnsignedAdd => "WillNotOverflowUnsignedAdd"
  | noSignedSub => "WillNotOverflowSignedSub"
  | noUnsignedSub => "WillNotOverflowUnsignedSub"
  | noSignedMul => "WillNotOverflowSignedMul"
  | noUnsignedMul => "WillNotOverflowUnsignedMul"
  | noUnsignedShl => "WillNotOverflowUnsignedShl"
  | hasOneUse => "hasOneUse"

def all : List Test :=
  [equivalentAddresses, isPowerOf2, isPowerOf2OrZero, isShiftedMask, isSignBit, maskedIsZero,
    noSignedAdd, noUnsignedAdd, noSignedSub, noUnsignedSub, noSignedMul, noUnsignedMul, noUnsignedShl,
    hasOneUse]

def ofText? (s : String) : Option Test := all.find? fun t => t.text == s

def params : Test → List ArgKind
  | equivalentAddresses => [.register, .register]
  | isPowerOf2 | isPowerOf2OrZero => [.any]
  | isShiftedMask | isSignBit => [.constant]
  | maskedIsZero => [.input, .constant]
  | noSignedAdd | noUnsignedAdd | noSignedSub | noUnsignedSub | noSignedMul | noUnsignedMul =>
    [.input, .input]
  | noUnsignedShl => [.constant, .constant]
  | hasOneUse => [.register]

end Test

inductive Condition where
  | always
  | not (c : Condition)
  | both (cs : List Condition)
  | either (cs : List Condition)
  | compare (op : CompareOp) (v1 v2 : ValueId)
  | test (t : Test) (args : List ValueId)
  deriving Inhabited, Repr

def Condition.text (table : Table) : Condition → String
  | always => "true"
  | not c => "!" ++ c.text table
  | both cs => "(" ++ " && ".intercalate (texts cs) ++ ")"
  | either cs => "(" ++ " || ".intercalate (texts cs) ++ ")"
  | compare op a b => "(" ++ table.text a ++ " " ++ op.text ++ " " ++ table.text b ++ ")"
  | test t args => t.text ++ "(" ++ ", ".intercalate (args.map table.name) ++ ")"
where
  texts : List Condition → List String
    | [] => []
    | c :: cs => c.text table :: texts cs

end Peephole.Program
