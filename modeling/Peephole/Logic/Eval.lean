import Peephole.Logic.Term

/-!
# Values of terms

An environment gives each variable a value; `Term.eval` and `Formula.eval` compute the value of a term
and the truth of a formula in it.  The operators are those of the theory of bit-vectors at every point:
`udiv` by zero is all ones, `urem` by zero is the dividend, and a shift by the width or more leaves zeros
or copies of the sign bit.

The second operand of an operator is brought to the width of the first, which changes nothing in a
well-sorted term.
-/

namespace Peephole.Logic

/-- Values for all variables.  A bit-vector variable of width `w` has the value of its number modulo
`2 ^ w`. -/
structure Env where
  bits : String → Int
  truth : String → Bool
  byte : String → Nat → Int
  deriving Inhabited

namespace Env

/-- The environment with another number for one bit-vector variable. -/
def setBits (env : Env) (name : String) (value : Int) : Env :=
  { env with bits := fun n => if n = name then value else env.bits n }

def setTruth (env : Env) (name : String) (value : Bool) : Env :=
  { env with truth := fun n => if n = name then value else env.truth n }

/-- The environments that differ from `env` in one variable only.  A memory is not varied. -/
def variants (env : Env) (v : Var) : List Env :=
  match v.kind with
  | .bits w => (List.range (1 <<< w)).map fun n : Nat => env.setBits v.name n
  | .truth => [env.setTruth v.name false, env.setTruth v.name true]
  | .bytes => [env]

def forAll (p : Env → Bool) : List Var → Env → Bool
  | [], env => p env
  | v :: vs, env => (env.variants v).all (forAll p vs)

def thereIs (p : Env → Bool) : List Var → Env → Bool
  | [], env => p env
  | v :: vs, env => (env.variants v).any (thereIs p vs)

end Env

/-- Shift to the left; zero if the distance is the width or more. -/
def shiftLeft {w : Nat} (a b : BitVec w) : BitVec w :=
  if b.toNat < w then a <<< b.toNat else 0#w

/-- Shift to the right with zeros; zero if the distance is the width or more. -/
def shiftRight {w : Nat} (a b : BitVec w) : BitVec w :=
  if b.toNat < w then a >>> b.toNat else 0#w

def shiftRightSigned {w : Nat} (a b : BitVec w) : BitVec w :=
  a.sshiftRight (min b.toNat w)

def BitOp.apply {w : Nat} : BitOp → BitVec w → BitVec w → BitVec w
  | add, a, b => a + b
  | sub, a, b => a - b
  | mul, a, b => a * b
  | udiv, a, b => a.smtUDiv b
  | sdiv, a, b => a.smtSDiv b
  | urem, a, b => a % b
  | srem, a, b => a.srem b
  | shl, a, b => shiftLeft a b
  | lshr, a, b => shiftRight a b
  | ashr, a, b => shiftRightSigned a b
  | and, a, b => a &&& b
  | or, a, b => a ||| b
  | xor, a, b => a ^^^ b

def Comparison.apply {w : Nat} : Comparison → BitVec w → BitVec w → Bool
  | eq, a, b => a == b
  | ne, a, b => a != b
  | ugt, a, b => b.ult a
  | uge, a, b => b.ule a
  | ult, a, b => a.ult b
  | ule, a, b => a.ule b
  | sgt, a, b => b.slt a
  | sge, a, b => b.sle a
  | slt, a, b => a.slt b
  | sle, a, b => a.sle b

def pairwiseDistinct {α : Type} [BEq α] : List α → Bool
  | [] => true
  | x :: xs => !xs.contains x && pairwiseDistinct xs

mutual

def Term.eval (env : Env) : (t : Term) → BitVec t.width
  | .var n w => BitVec.ofInt w (env.bits n)
  | .const v w => BitVec.ofInt w v
  | .not a => ~~~(a.eval env)
  | .neg a => -(a.eval env)
  | .op o a b => o.apply (a.eval env) ((b.eval env).setWidth a.width)
  | .extract hi lo a => (a.eval env).extractLsb hi lo
  | .zeroExt n a => (a.eval env).setWidth (a.width + n)
  | .signExt n a => (a.eval env).signExtend (a.width + n)
  | .concat a b => a.eval env ++ b.eval env
  | .ite c a b => if c.eval env then a.eval env else (b.eval env).setWidth a.width
  | .read m a => m.byteAt env (a.eval env).toNat

def Formula.eval (env : Env) : Formula → Bool
  | .lit b => b
  | .var n => env.truth n
  | .cmp c a b => c.apply (a.eval env) ((b.eval env).setWidth a.width)
  | .not p => !p.eval env
  | .and ps => Formula.evalAll env ps
  | .or ps => Formula.evalAny env ps
  | .implies p q => !p.eval env || q.eval env
  | .ite c p q => if c.eval env then p.eval env else q.eval env
  | .distinct ps => pairwiseDistinct (Formula.values env ps)
  | .distinctTerms ts => pairwiseDistinct (Term.values env ts)
  | .all vars p => Env.forAll (fun env => p.eval env) vars env
  | .ex vars p => Env.thereIs (fun env => p.eval env) vars env

def ArrayTerm.byteAt (env : Env) (address : Nat) : ArrayTerm → BitVec 8
  | .var n => BitVec.ofInt 8 (env.byte n address)
  | .write c a v m =>
    if (a.eval env).toNat = address ∧ c.eval env = true then (v.eval env).setWidth 8
    else m.byteAt env address
  | .ite c a b => if c.eval env then a.byteAt env address else b.byteAt env address

def Formula.evalAll (env : Env) : List Formula → Bool
  | [] => true
  | p :: ps => p.eval env && Formula.evalAll env ps

def Formula.evalAny (env : Env) : List Formula → Bool
  | [] => false
  | p :: ps => p.eval env || Formula.evalAny env ps

def Formula.values (env : Env) : List Formula → List Bool
  | [] => []
  | p :: ps => p.eval env :: Formula.values env ps

def Term.values (env : Env) : List Term → List Nat
  | [] => []
  | t :: ts => (t.eval env).toNat :: Term.values env ts

end

end Peephole.Logic
