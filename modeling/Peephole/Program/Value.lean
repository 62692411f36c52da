import Peephole.Logic.Term
import Peephole.Program.Ordered
import Peephole.Program.Ty

/-!
# Values and programs

A program is made of values: inputs, constants, constant expressions and instructions.  All values of an
optimization stand in one `Table`, and a value names its operands by their numbers in it, so that both
programs of an optimization and its precondition can speak of the same value.  An operand always has a smaller
number than the value that uses it.

`Code` lists the instructions of each block in order.
-/

namespace Peephole.Program

inductive ArithOp where
  | add | sub | mul
  | udiv | sdiv | urem | srem
  | shl | ashr | lshr
  | and | or | xor
  deriving Inhabited, Repr, DecidableEq

/-- Promises that an arithmetic instruction can carry. -/
inductive Flag where
  | nsw | nuw | exact
  deriving Inhabited, Repr, DecidableEq

inductive ConvertOp where
  | trunc | zext | sext | zextOrTrunc | ptrToInt | intToPtr | bitcast
  deriving Inhabited, Repr, DecidableEq

/-- The comparison of an `icmp`: a known one, or any, under a name that may be empty. -/
inductive Predicate where
  | known (c : Logic.Comparison)
  | any (name : String)
  deriving Inhabited, Repr, DecidableEq

inductive UnaryConst where
  | not | neg
  deriving Inhabited, Repr, DecidableEq

inductive BinaryConst where
  | and | or | xor | add | sub | mul | sdiv | udiv | srem | urem | ashr | lshr | shl
  deriving Inhabited, Repr, DecidableEq

inductive ConstFn where
  | abs | signBits | knownOnes | knownZeros | leadingZeros | trailingZeros | log2 | lshr | max
  | sext | trunc | umax | width | zext
  deriving Inhabited, Repr, DecidableEq

/-- A type and the name of its place, from which its type variables are named. -/
structure PlacedTy where
  place : String
  ty : Ty
  deriving Inhabited, Repr, DecidableEq

inductive Op where
  | input
  | literal (value : Int)
  | undefined
  | unary (op : UnaryConst) (v : ValueId)
  | binary (op : BinaryConst) (v1 v2 : ValueId)
  | call (fn : ConstFn) (args : List ValueId)
  /-- A number that the typing fixes: `v`, between `lo` and `hi`, as the variable `var`. -/
  | count (v : ValueId) (lo hi : Int) (var : String)
  | copy (v : ValueId)
  | arith (op : ArithOp) (v1 v2 : ValueId) (flags : List Flag)
  | convert (op : ConvertOp) (source : PlacedTy) (v : ValueId)
  | icmp (pred : Predicate) (operand : PlacedTy) (v1 v2 : ValueId)
  | select (c v1 v2 : ValueId)
  | alloca (countTy : PlacedTy) (count : ValueId) (align : Nat)
  | gep (ptr : ValueId) (indices : List ValueId) (inbounds : Bool)
  | load (pointer : PlacedTy) (v : ValueId) (align : Nat)
  | store (stored : PlacedTy) (src dst : ValueId) (align : Nat)
  | skip
  | unreachable
  | br (cond : ValueId) (thenLabel elseLabel : String)
  | ret (v : ValueId)
  deriving Inhabited, Repr, DecidableEq

/-- A value: its name, the key under which it stands in tables, its type, and what it is. -/
structure Value where
  name : String
  key : String
  type : Option PlacedTy
  op : Op
  deriving Inhabited, Repr, DecidableEq

namespace Op

/-- Whether the value is a constant: a literal, `undef`, or a constant expression. -/
def isConstant : Op → Bool
  | literal _ | undefined | unary _ _ | binary _ _ _ | call _ _ => true
  | _ => false

def isInput : Op → Bool
  | input => true
  | _ => false

def isInstr : Op → Bool
  | input | literal _ | undefined | unary _ _ | binary _ _ _ | call _ _ | count _ _ _ _ => false
  | _ => true

/-- The operand positions of the value that hold one value each. -/
def operands : Op → List ValueId
  | unary _ v | copy v | convert _ _ v | load _ v _ | br v _ _ | ret v => [v]
  | binary _ v1 v2 | arith _ v1 v2 _ | icmp _ _ v1 v2 => [v1, v2]
  | select c v1 v2 => [c, v1, v2]
  | alloca _ n _ => [n]
  | gep p _ _ => [p]
  | store _ src dst _ => [src, dst]
  | _ => []

end Op

/-! ### Spelling -/

def ArithOp.text : ArithOp → String
  | add => "add" | sub => "sub" | mul => "mul"
  | udiv => "udiv" | sdiv => "sdiv" | urem => "urem" | srem => "srem"
  | shl => "shl" | ashr => "ashr" | lshr => "lshr"
  | and => "and" | or => "or" | xor => "xor"

def ArithOp.all : List ArithOp :=
  [add, sub, mul, udiv, sdiv, urem, srem, shl, ashr, lshr, and, or, xor]

def ArithOp.flags : ArithOp → List Flag
  | add | sub | mul | shl => [.nsw, .nuw]
  | udiv | sdiv | ashr | lshr => [.exact]
  | urem | srem | and | or | xor => []

def Flag.text : Flag → String
  | nsw => "nsw" | nuw => "nuw" | exact => "exact"

def ConvertOp.text : ConvertOp → String
  | trunc => "trunc" | zext => "zext" | sext => "sext" | zextOrTrunc => "ZExtOrTrunc"
  | ptrToInt => "ptrtoint" | intToPtr => "inttoptr" | bitcast => "bitcast"

def ConvertOp.all : List ConvertOp :=
  [trunc, zext, sext, zextOrTrunc, ptrToInt, intToPtr, bitcast]

def ConvertOp.fromInt : ConvertOp → Bool
  | trunc | zext | sext | zextOrTrunc | intToPtr => true
  | _ => false

def ConvertOp.fromPtr : ConvertOp → Bool
  | ptrToInt => true
  | _ => false

def ConvertOp.toInt : ConvertOp → Bool
  | trunc | zext | sext | zextOrTrunc | ptrToInt => true
  | _ => false

def ConvertOp.toPtr : ConvertOp → Bool
  | intToPtr => true
  | _ => false

/-- The comparisons in the order in which an unknown predicate numbers them. -/
def comparisons : List Logic.Comparison :=
  [.eq, .ne, .ugt, .uge, .ult, .ule, .sgt, .sge, .slt, .sle]

def comparisonText : Logic.Comparison → String
  | .eq => "eq" | .ne => "ne"
  | .ugt => "ugt" | .uge => "uge" | .ult => "ult" | .ule => "ule"
  | .sgt => "sgt" | .sge => "sge" | .slt => "slt" | .sle => "sle"

def Predicate.text : Predicate → String
  | known c => comparisonText c
  | any name => name

def Predicate.ofText (s : String) : Predicate :=
  match comparisons.find? fun c => comparisonText c == s with
  | some c => known c
  | none => any s

def UnaryConst.text : UnaryConst → String
  | not => "~" | neg => "-"

def BinaryConst.text : BinaryConst → String
  | and => "&" | or => "|" | xor => "^"
  | add => "+" | sub => "-" | mul => "*"
  | sdiv => "/" | udiv => "/u" | srem => "%" | urem => "%u"
  | ashr => ">>" | lshr => "u>>" | shl => "<<"

def BinaryConst.all : List BinaryConst :=
  [and, or, xor, add, sub, mul, sdiv, udiv, srem, urem, ashr, lshr, shl]

def ConstFn.text : ConstFn → String
  | abs => "abs" | signBits => "ComputeNumSignBits"
  | knownOnes => "computeKnownOneBits" | knownZeros => "computeKnownZeroBits"
  | leadingZeros => "countLeadingZeros" | trailingZeros => "countTrailingZeros"
  | log2 => "log2" | lshr => "lshr" | max => "max" | sext => "sext" | trunc => "trunc"
  | umax => "umax" | width => "width" | zext => "zext"

def ConstFn.all : List ConstFn :=
  [abs, signBits, knownOnes, knownZeros, leadingZeros, trailingZeros, log2, lshr, max, sext, trunc,
    umax, width, zext]

def ConstFn.arity : ConstFn → Nat
  | lshr | max | umax => 2
  | _ => 1

/-! ### Tables -/

/-- All values of an optimization, and the next number for fresh names. -/
structure Table where
  values : Array Value
  fresh : Nat
  deriving Inhabited

namespace Table

def empty : Table := ⟨#[], 0⟩

def get (t : Table) (i : ValueId) : Value := t.values.getD i default

def push (t : Table) (v : Value) : ValueId × Table :=
  (t.values.size, { t with values := t.values.push v })

def freshNumber (t : Table) : Nat × Table := (t.fresh, { t with fresh := t.fresh + 1 })

def modify (t : Table) (i : ValueId) (f : Value → Value) : Table :=
  { t with values := t.values.modify i f }

def name (t : Table) (i : ValueId) : String := (t.get i).name

/-- The written type of a value, empty if it has none. -/
def typeText (t : Table) (i : ValueId) : String :=
  match (t.get i).type with
  | some p => p.ty.text
  | none => ""

end Table

/-- The text with a blank behind it, unless it is empty. -/
def spaced (s : String) : String := if s.isEmpty then "" else s ++ " "

/-- The text with a blank in front of it, unless it is empty. -/
def spacedBefore (s : String) : String := if s.isEmpty then "" else " " ++ s

def alignText (align : Nat) : String := if align = 0 then "" else ", align " ++ toString align

/-- The value as it is written: an instruction without the register that it defines. -/
def Table.text (t : Table) (i : ValueId) : String :=
  let v := t.get i
  let type := t.typeText i
  match v.op with
  | .input | .literal _ | .undefined | .unary _ _ | .binary _ _ _ | .call _ _ => v.name
  | .count n _ _ _ => t.name n
  | .copy x => spaced type ++ t.name x
  | .arith op a b flags =>
    op.text ++ spacedBefore (" ".intercalate (flags.map Flag.text)) ++ spacedBefore type ++ " " ++
      t.name a ++ ", " ++ t.name b
  | .convert op source x =>
    op.text ++ spacedBefore source.ty.text ++ " " ++ t.name x ++
      (if type.isEmpty then "" else " to " ++ type)
  | .icmp pred operand a b =>
    "icmp" ++ spacedBefore pred.text ++ spacedBefore operand.ty.text ++ " " ++ t.name a ++ ", " ++
      t.name b
  | .select c a b =>
    "select i1 " ++ t.name c ++ ", " ++ spaced type ++ t.name a ++ ", " ++ spaced type ++ t.name b
  | .alloca countTy n align =>
    let pointee := match v.type with
      | some ⟨_, .ptr p⟩ => p.text
      | _ => ""
    let count := t.name n
    "alloca " ++ pointee ++
      (if count = "1" then "" else ", " ++ spaced countTy.ty.text ++ count) ++ alignText align
  | .gep p indices inbounds =>
    "getelementptr " ++ (if inbounds then "inbounds " else "") ++ type ++ " " ++ t.name p ++
      String.join (indices.map fun j => ", " ++ spaced (t.typeText j) ++ t.name j)
  | .load pointer x align => "load " ++ pointer.ty.text ++ " " ++ t.name x ++ alignText align
  | .store stored src dst align =>
    "store " ++ spaced stored.ty.text ++ t.name src ++ ", " ++ type ++ " " ++ t.name dst ++
      alignText align
  | .skip => "skip"
  | .unreachable => "unreachable"
  | .br c a b => "br i1 " ++ t.name c ++ ", label " ++ a ++ ", label " ++ b
  | .ret x => "ret " ++ spaced type ++ t.name x

/-! ### Programs -/

/-- The instructions of each block, by label; the label of the first block may be empty. -/
abbrev Code := Dict (Dict ValueId)

def instrLine (t : Table) (key : String) (i : ValueId) : String :=
  if key.startsWith "%" then "  " ++ key ++ " = " ++ t.text i else "  " ++ t.text i

/-- The lines of a program without the instructions under the keys `skip`. -/
def listing (t : Table) (p : Code) (skip : List String) : List String :=
  p.flatMap fun b =>
    (if b.1.isEmpty then [] else [b.1 ++ ":"]) ++
      (b.2.filter fun e => !skip.contains e.1).map fun e => instrLine t e.1 e.2

/-- How often each key stands in an operand position. -/
def userCounts (t : Table) (p : Code) : Dict Nat :=
  let keys := p.flatMap fun b => b.2.flatMap fun e =>
    ((t.get e.2).op.operands).map fun j => (t.get j).key
  keys.foldl (fun d k => d.put k ((d.get? k).getD 0 + 1)) []

end Peephole.Program
