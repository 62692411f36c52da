import Peephole.Decide.Diagram
import Peephole.Logic.Term

/-!
# Bit-vector operators on diagrams

A bit-vector is the array of the functions of its bits, the lowest one first.  The operators are the usual
circuits: addition with carry, multiplication by shifted sums, division by repeated subtraction, and shifts by
powers of two.
-/

namespace Peephole.Decide

open Logic (BitOp Comparison)

/-- A bit-vector, the lowest bit first. -/
abbrev Bits := List Ref

namespace Bits

def ofInt (n : Int) (w : Nat) : Bits :=
  let v := (n % (1 <<< w : Nat)).toNat
  (List.range w).map fun i => Ref.ofBool (v.testBit i)

/-- The low `w` bits, with zeros in front if there are fewer. -/
def resize (a : Bits) (w : Nat) : Bits := a.take w ++ List.replicate (w - a.length) Ref.no

def sign (a : Bits) : Ref := a.getLastD Ref.no

/-- The bits with copies of the highest one in front. -/
def signExtend (a : Bits) (extra : Nat) : Bits := a ++ List.replicate extra a.sign

def zipBits (f : Ref → Ref → DiagramM Ref) (a b : Bits) : DiagramM Bits :=
  (a.zip b).mapM fun (x, y) => f x y

def complement (a : Bits) : DiagramM Bits := a.mapM negation

/-- The sum with a carry, and the carry out of it. -/
def addCarry : Bits → Bits → Ref → DiagramM (Bits × Ref)
  | x :: a, y :: b, c => do
    let d ← differ x y
    let s ← differ d c
    let carry ← choose d c x
    let (rest, out) ← addCarry a b carry
    return (s :: rest, out)
  | _, _, c => return ([], c)

def add (a b : Bits) : DiagramM Bits := return (← addCarry a b Ref.no).1

/-- The difference, and whether there was no borrow. -/
def subBorrow (a b : Bits) : DiagramM (Bits × Ref) := do addCarry a (← complement b) Ref.yes

def sub (a b : Bits) : DiagramM Bits := return (← subBorrow a b).1

def negative (a : Bits) : DiagramM Bits := sub (List.replicate a.length Ref.no) a

def select (c : Ref) (a b : Bits) : DiagramM Bits := zipBits (choose c) a b

/-- The product, with the width of the first factor. -/
def mul (a b : Bits) : DiagramM Bits := go a b (List.replicate a.length Ref.no)
where
  go (a : Bits) : Bits → Bits → DiagramM Bits
    | [], sum => return sum
    | y :: b, sum => do
      let sum ← if y = Ref.no then pure sum else add sum (← a.mapM (both y))
      go ((Ref.no :: a).take a.length) b sum

/-! ### Comparisons -/

def equal (a b : Bits) : DiagramM Ref := do allTrue (← zipBits agree a b)

/-- The first number is not less than the second, without signs. -/
def notBelow (a b : Bits) : DiagramM Ref := return (← subBorrow a b).2

/-- The bits with the highest one inverted, which turns the order with signs into that without. -/
def flipSign (a : Bits) : DiagramM Bits := do
  return a.dropLast ++ (← (a.drop (a.length - 1)).mapM negation)

def compare (c : Comparison) (a b : Bits) : DiagramM Ref := do
  match c with
  | .eq => equal a b
  | .ne => negation (← equal a b)
  | .uge => notBelow a b
  | .ult => negation (← notBelow a b)
  | .ule => notBelow b a
  | .ugt => negation (← notBelow b a)
  | .sge => notBelow (← flipSign a) (← flipSign b)
  | .slt => negation (← notBelow (← flipSign a) (← flipSign b))
  | .sle => notBelow (← flipSign b) (← flipSign a)
  | .sgt => negation (← notBelow (← flipSign b) (← flipSign a))

/-! ### Division -/

/-- Quotient and remainder without signs.  The dividend is taken in from its highest bit; `rest` is the
remainder so far.  Division by zero gives all ones and the dividend. -/
def divideFrom (b : Bits) : Bits → Bits → Bits → DiagramM (Bits × Bits)
  | [], rest, quotient => return (quotient, rest)
  | x :: high, rest, quotient => do
    let shifted := x :: rest
    let (diff, fits) ← subBorrow shifted (b ++ [Ref.no])
    let rest ← select fits diff shifted
    divideFrom b high (rest.take b.length) (fits :: quotient)

/-- Quotient and remainder without signs. -/
def divide (a b : Bits) : DiagramM (Bits × Bits) :=
  divideFrom b a.reverse (List.replicate b.length Ref.no) []

/-- The absolute value. -/
def magnitude (a : Bits) : DiagramM Bits := do select a.sign (← negative a) a

/-- Quotient and remainder with signs: the quotient is rounded towards zero. -/
def divideSigned (a b : Bits) : DiagramM (Bits × Bits) := do
  let (q, r) ← divide (← magnitude a) (← magnitude b)
  let q ← select (← differ a.sign b.sign) (← negative q) q
  let r ← select a.sign (← negative r) r
  return (q, r)

/-! ### Shifts -/

/-- The bits moved by a fixed distance; `fill` comes in. -/
def moved (left : Bool) (fill : Ref) (n : Nat) (a : Bits) : Bits :=
  let pad := List.replicate (min n a.length) fill
  if left then (pad ++ a).take a.length else a.drop n ++ pad

/-- Shift by the distance `b`, whose bits stand for `1 <<< i` and above. -/
def shiftFrom (left : Bool) (fill : Ref) : Bits → Nat → Bits → DiagramM Bits
  | [], _, a => return a
  | x :: b, i, a => do
    let far := if i < a.length then 2 ^ i else a.length
    let a ← if x = Ref.no then pure a else select x (moved left fill far a) a
    shiftFrom left fill b (i + 1) a

/-- Shift by a variable distance; all bits go out if it is the width or more. -/
def shift (left : Bool) (fill : Ref) (a b : Bits) : DiagramM Bits := shiftFrom left fill b 0 a

def apply (o : BitOp) (a b : Bits) : DiagramM Bits := do
  match o with
  | .add => add a b
  | .sub => sub a b
  | .mul => mul a b
  | .udiv => return (← divide a b).1
  | .urem => return (← divide a b).2
  | .sdiv => return (← divideSigned a b).1
  | .srem => return (← divideSigned a b).2
  | .shl => shift true Ref.no a b
  | .lshr => shift false Ref.no a b
  | .ashr => shift false a.sign a b
  | .and => zipBits both a b
  | .or => zipBits either a b
  | .xor => zipBits differ a b

end Bits

end Peephole.Decide
