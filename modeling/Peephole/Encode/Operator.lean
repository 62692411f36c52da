import Peephole.Logic.Bits
import Peephole.Program.Value

/-!
# Operators as terms

The terms of arithmetic, comparison and constant operators, and the conditions under which arithmetic is
defined and keeps the promises of its flags.
-/

namespace Peephole.Encode

open Logic Program

def bitOp : ArithOp → BitOp
  | .add => .add | .sub => .sub | .mul => .mul
  | .udiv => .udiv | .sdiv => .sdiv | .urem => .urem | .srem => .srem
  | .shl => .shl | .ashr => .ashr | .lshr => .lshr
  | .and => .and | .or => .or | .xor => .xor

def constOp : BinaryConst → BitOp
  | .and => .and | .or => .or | .xor => .xor
  | .add => .add | .sub => .sub | .mul => .mul
  | .sdiv => .sdiv | .udiv => .udiv | .srem => .srem | .urem => .urem
  | .ashr => .ashr | .lshr => .lshr | .shl => .shl

def numberLike (n : Int) (t : Term) : Term := .const n t.width

/-- A signed division is defined: the divisor is not zero, and the quotient can be written. -/
def divisionDefined (bits : Nat) (a b : Term) : List Formula :=
  [.cmp .ne b (numberLike 0 b),
    .or [.cmp .ne a (numberLike (1 <<< (bits - 1) : Nat) a), .cmp .ne b (numberLike (-1) b)]]

def arithDefined (bits : Nat) (op : ArithOp) (a b : Term) : List Formula :=
  match op with
  | .udiv | .urem => [.cmp .ne b (numberLike 0 b)]
  | .sdiv | .srem => divisionDefined bits a b
  | .shl | .ashr | .lshr => [.cmp .ult b (numberLike bits b)]
  | .add | .sub | .mul | .and | .or | .xor => []

/-- Shifting back gives the first operand again. -/
def shiftsBack (there back : BitOp) (a b : Term) : Formula := .cmp .eq (.op back (.op there a b) b) a

/-- What a flag promises of an arithmetic instruction of `bits` bits; `newShift` lets a one be moved into the
sign bit. -/
def flagHolds (newShift : Bool) (bits : Nat) (op : ArithOp) (flag : Flag) (a b : Term) : Formula :=
  match op, flag with
  | .add, .nsw => .noSignedOverflow .add a b
  | .add, .nuw => .noUnsignedOverflow .add a b
  | .sub, .nsw => .noSignedOverflow .sub a b
  | .sub, .nuw => .noUnsignedOverflow .sub a b
  | .mul, .nsw => .noSignedMulOverflow a b
  | .mul, .nuw => .noUnsignedMulOverflow a b
  | .shl, .nsw =>
    if newShift then
      .or [shiftsBack .shl .ashr a b,
        .and [.cmp .eq a (numberLike 1 a), .cmp .eq b (numberLike (bits - 1 : Nat) b)]]
    else shiftsBack .shl .ashr a b
  | .shl, .nuw => shiftsBack .shl .lshr a b
  | .udiv, .exact => .cmp .eq (.op .mul (.op .udiv a b) b) a
  | .sdiv, .exact => .cmp .eq (.op .mul (.op .sdiv a b) b) a
  | .ashr, .exact => shiftsBack .ashr .shl a b
  | .lshr, .exact => shiftsBack .lshr .shl a b
  | _, _ => .lit true

/-- The comparison that a predicate asks for: an unknown predicate is chosen by a variable. -/
def comparisonTerm (register : String) (pred : Predicate) (a b : Term) : Term :=
  match pred with
  | .known c => .ofFormula (.cmp c a b)
  | .any name => choose (if name.isEmpty then register else name) comparisons 0
where
  choose (name : String) : List Comparison → Int → Term
    | [], _ => .const 0 1
    | [c], _ => .ofFormula (.cmp c a b)
    | c :: cs, i =>
      .ite (.cmp .eq (.var ("icmp_" ++ name) 4) (.const i 4)) (.ofFormula (.cmp c a b))
        (choose name cs (i + 1))

end Peephole.Encode
