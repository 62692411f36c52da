/-!
# Typing constraints

Types are described by integer variables: for a place named `n`, `t_n` is the kind of its type, `size_n` the
width if it is an integer, and `val_n_elems` the element count if it is an array.  A `Constraint` is a
condition on such variables.  `ptrsize` is the width of pointers.
-/

namespace Peephole.Typing

/-- An integer expression over type variables. -/
inductive IntExpr where
  | var (name : String)
  | const (n : Int)
  | mul (a b : IntExpr)
  /-- The first expression if the variable has the given value, else the second. -/
  | ite (name : String) (n : Int) (a b : IntExpr)
  deriving Inhabited, Repr, DecidableEq

inductive Relation where
  | eq | ne | lt | le | gt | ge
  deriving Inhabited, Repr, DecidableEq

inductive Constraint where
  | lit (b : Bool)
  | rel (r : Relation) (a b : IntExpr)
  | and (cs : List Constraint)
  | or (cs : List Constraint)
  deriving Inhabited

abbrev Assignment := String → Int

namespace IntExpr

def eval (σ : Assignment) : IntExpr → Int
  | var n => σ n
  | const n => n
  | mul a b => a.eval σ * b.eval σ
  | ite v n a b => if σ v = n then a.eval σ else b.eval σ

def vars : IntExpr → List String
  | var n => [n]
  | const _ => []
  | mul a b => a.vars ++ b.vars
  | ite v _ a b => v :: (a.vars ++ b.vars)

end IntExpr

namespace Relation

def holds : Relation → Int → Int → Bool
  | eq, a, b => a = b
  | ne, a, b => a ≠ b
  | lt, a, b => a < b
  | le, a, b => a ≤ b
  | gt, a, b => a > b
  | ge, a, b => a ≥ b

/-- The relation that holds exactly where this one does not. -/
def negate : Relation → Relation
  | eq => ne | ne => eq
  | lt => ge | ge => lt
  | le => gt | gt => le

end Relation

namespace Constraint

mutual

def holds (σ : Assignment) : Constraint → Bool
  | lit b => b
  | rel r a b => r.holds (a.eval σ) (b.eval σ)
  | and cs => holdsAll σ cs
  | or cs => holdsAny σ cs

def holdsAll (σ : Assignment) : List Constraint → Bool
  | [] => true
  | c :: cs => holds σ c && holdsAll σ cs

def holdsAny (σ : Assignment) : List Constraint → Bool
  | [] => false
  | c :: cs => holds σ c || holdsAny σ cs

end

mutual

def vars : Constraint → List String
  | lit _ => []
  | rel _ a b => a.vars ++ b.vars
  | and cs => varsOf cs
  | or cs => varsOf cs

def varsOf : List Constraint → List String
  | [] => []
  | c :: cs => vars c ++ varsOf cs

end

mutual

def negate : Constraint → Constraint
  | lit b => lit (!b)
  | rel r a b => rel r.negate a b
  | and cs => or (negateAll cs)
  | or cs => and (negateAll cs)

def negateAll : List Constraint → List Constraint
  | [] => []
  | c :: cs => negate c :: negateAll cs

end

def isTrue : Constraint → Bool
  | lit b => b
  | _ => false

def varIs (name : String) (n : Int) : Constraint := rel .eq (.var name) (.const n)

/-- The conjunction, without what is plainly true. -/
def allOf (cs : List Constraint) : Constraint :=
  match cs.filter fun c => !c.isTrue with
  | [] => lit true
  | [c] => c
  | cs => and cs

end Constraint

end Peephole.Typing
