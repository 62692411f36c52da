/-!
# Bit-vector terms and formulas

`Term` is the language in which programs are encoded: bit-vectors of any width, with the operators of
the theory of fixed-width bit-vectors, and bytes read from an array.  `Formula` holds the conditions on
them, and `ArrayTerm` the arrays: an initial one, changed by guarded writes of single bytes.

Terms carry widths only at their leaves; `Term.width` computes the width of any term.  Nothing forces the
two operands of an operator to agree in width.
-/

namespace Peephole.Logic

/-- Binary operators on bit-vectors of one width. -/
inductive BitOp where
  | add | sub | mul
  | udiv | sdiv | urem | srem
  | shl | lshr | ashr
  | and | or | xor
  deriving Inhabited, Repr, DecidableEq

inductive Comparison where
  | eq | ne
  | ugt | uge | ult | ule
  | sgt | sge | slt | sle
  deriving Inhabited, Repr, DecidableEq

inductive Kind where
  | bits (width : Nat)
  | truth
  /-- Arrays: a byte for each address. -/
  | bytes
  deriving Inhabited, Repr, DecidableEq

structure Var where
  name : String
  kind : Kind
  deriving Inhabited, Repr, DecidableEq

mutual

/-- A bit-vector. -/
inductive Term where
  | var (name : String) (width : Nat)
  /-- The number modulo `2 ^ width`. -/
  | const (value : Int) (width : Nat)
  | not (a : Term)
  | neg (a : Term)
  | op (o : BitOp) (a b : Term)
  /-- The bits `lo` to `hi`. -/
  | extract (hi lo : Nat) (a : Term)
  /-- `extra` zero bits in front. -/
  | zeroExt (extra : Nat) (a : Term)
  /-- `extra` copies of the sign bit in front. -/
  | signExt (extra : Nat) (a : Term)
  | concat (a b : Term)
  | ite (c : Formula) (a b : Term)
  | read (m : ArrayTerm) (address : Term)

/-- A condition. -/
inductive Formula where
  | lit (b : Bool)
  | var (name : String)
  | cmp (c : Comparison) (a b : Term)
  | not (p : Formula)
  | and (ps : List Formula)
  | or (ps : List Formula)
  | implies (p q : Formula)
  | ite (c p q : Formula)
  /-- The formulas have pairwise different truth values. -/
  | distinct (ps : List Formula)
  | distinctTerms (ts : List Term)
  | all (vars : List Var) (p : Formula)
  | ex (vars : List Var) (p : Formula)

/-- An array: a byte for each address. -/
inductive ArrayTerm where
  /-- Any contents. -/
  | var (name : String)
  /-- The byte at one address is replaced if the condition holds. -/
  | write (guard : Formula) (address value : Term) (m : ArrayTerm)
  | ite (c : Formula) (a b : ArrayTerm)

end

instance : Inhabited Term := ⟨.const 0 0⟩
instance : Inhabited Formula := ⟨.lit true⟩
instance : Inhabited ArrayTerm := ⟨.var default⟩

namespace Term

def width : Term → Nat
  | var _ w => w
  | const _ w => w
  | not a => a.width
  | neg a => a.width
  | op _ a _ => a.width
  | extract hi lo _ => hi - lo + 1
  | zeroExt n a => a.width + n
  | signExt n a => a.width + n
  | concat a b => a.width + b.width
  | ite _ a _ => a.width
  | read _ _ => 8

end Term

/-! ### Building formulas

These leave out what is plainly true or false. -/

namespace Formula

def isTrue : Formula → Bool
  | lit true => true
  | _ => false

def isFalse : Formula → Bool
  | lit false => true
  | _ => false

def allOf (ps : List Formula) : Formula :=
  match ps.filter fun p => !p.isTrue with
  | [] => lit true
  | [p] => p
  | ps => and ps

def anyOf (ps : List Formula) : Formula :=
  match ps.filter fun p => !p.isFalse with
  | [] => lit false
  | [p] => p
  | ps => or ps

def negate (p : Formula) : Formula :=
  if p.isFalse then lit true else if p.isTrue then lit false else not p

def imp (p q : Formula) : Formula :=
  if p.isTrue then q
  else if p.isFalse || q.isTrue then lit true
  else if q.isFalse then not p
  else implies p q

def choose (c p q : Formula) : Formula :=
  if c.isTrue then p else if c.isFalse then q else ite c p q

def allDistinct (ps : List Formula) : Formula :=
  if ps.length < 2 then lit true else distinct ps

def termsDistinct (ts : List Term) : Formula :=
  if ts.length < 2 then lit true else distinctTerms ts

def forAll (vars : List Var) (p : Formula) : Formula :=
  if vars.isEmpty then p else all vars p

def thereIs (vars : List Var) (p : Formula) : Formula :=
  if vars.isEmpty then p else ex vars p

/-- The first of the formulas whose condition holds; the last one if none does. -/
def firstOf : List (Formula × Formula) → Option Formula
  | [] => none
  | [(_, p)] => some p
  | (c, p) :: rest => (firstOf rest).map (ite c p)

end Formula

namespace Term

def choose (c : Formula) (a b : Term) : Term :=
  if c.isTrue then a else if c.isFalse then b else ite c a b

/-- The terms one after another, the first at the high end. -/
def concatAll : List Term → Option Term
  | [] => none
  | t :: ts => some (ts.foldl concat t)

/-- The bit that tells whether the formula holds. -/
def ofFormula (p : Formula) : Term := ite p (const 1 1) (const 0 1)

/-- The first of the terms whose condition holds; the last one if none does. -/
def firstOf : List (Formula × Term) → Option Term
  | [] => none
  | [(_, t)] => some t
  | (c, t) :: rest => (firstOf rest).map (ite c t)

end Term

/-! ### Free variables -/

/-- Names in the first list, then those of the second that are new. -/
def Var.merge (xs ys : List Var) : List Var :=
  ys.foldl (fun acc v => if acc.any fun u => u.name == v.name then acc else acc ++ [v]) xs

mutual

/-- The free variables of a term that are no truth values, in order of appearance. -/
def Term.vars : Term → List Var
  | .var n w => [⟨n, .bits w⟩]
  | .const _ _ => []
  | .not a => a.vars
  | .neg a => a.vars
  | .op _ a b => Var.merge a.vars b.vars
  | .extract _ _ a => a.vars
  | .zeroExt _ a => a.vars
  | .signExt _ a => a.vars
  | .concat a b => Var.merge a.vars b.vars
  | .ite c a b => Var.merge (Var.merge c.vars a.vars) b.vars
  | .read m a => Var.merge m.vars a.vars

/-- The free variables of a formula that are no truth values, in order of appearance. -/
def Formula.vars : Formula → List Var
  | .lit _ => []
  | .var _ => []
  | .cmp _ a b => Var.merge a.vars b.vars
  | .not p => p.vars
  | .and ps => Formula.varsOf ps
  | .or ps => Formula.varsOf ps
  | .implies p q => Var.merge p.vars q.vars
  | .ite c p q => Var.merge (Var.merge c.vars p.vars) q.vars
  | .distinct ps => Formula.varsOf ps
  | .distinctTerms ts => Term.varsOf ts
  | .all bound p => p.vars.filter fun v => !bound.any fun u => u.name == v.name
  | .ex bound p => p.vars.filter fun v => !bound.any fun u => u.name == v.name

/-- The free variables of an array, in order of appearance. -/
def ArrayTerm.vars : ArrayTerm → List Var
  | .var n => [⟨n, .bytes⟩]
  | .write c a v m => Var.merge (Var.merge (Var.merge c.vars a.vars) v.vars) m.vars
  | .ite c a b => Var.merge (Var.merge c.vars a.vars) b.vars

def Formula.varsOf : List Formula → List Var
  | [] => []
  | p :: ps => Var.merge p.vars (Formula.varsOf ps)

def Term.varsOf : List Term → List Var
  | [] => []
  | t :: ts => Var.merge t.vars (Term.varsOf ts)

end

end Peephole.Logic
