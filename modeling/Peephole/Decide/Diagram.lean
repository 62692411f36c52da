import Std.Data.HashMap

/-!
# Decision diagrams

Truth functions of numbered variables as reduced ordered decision diagrams.  A `Store` holds the nodes; a node
tests one variable and leads to two other nodes, which test later variables only.  Equal functions have equal
references, so a function is unsatisfiable exactly if its reference is that of `false`.

A store has a budget of nodes.  When it is used up, `Store.full` is set and the results mean nothing.
-/

namespace Peephole.Decide

/-- A function in a store: the number of its node. -/
abbrev Ref := Nat

def Ref.no : Ref := 0

def Ref.yes : Ref := 1

def Ref.ofBool (b : Bool) : Ref := if b then Ref.yes else Ref.no

/-- A test of the variable `level`: `low` where it is false, `high` where it is true. -/
structure Node where
  level : Nat
  low : Ref
  high : Ref
  deriving Inhabited, BEq, Hashable

/-- The nodes, the number of variables, and what has been computed. -/
structure Store where
  nodes : Array Node
  levels : Nat
  unique : Std.HashMap Node Ref
  known : Std.HashMap (Nat × Nat × Nat) Ref
  budget : Nat
  full : Bool
  deriving Inhabited

abbrev DiagramM := StateM Store

namespace Store

/-- A store without variables.  The first two nodes stand for the constant functions. -/
def empty (budget : Nat) : Store := ⟨#[default, default], 0, ∅, ∅, budget, false⟩

/-- The variable that a function tests first; all variables come before the constants. -/
def level (s : Store) (r : Ref) : Nat :=
  if r < 2 then s.levels else (s.nodes.getD r default).level

/-- The function where the variable `level`, which is not after its first one, has a value. -/
def fix (s : Store) (r : Ref) (level : Nat) (value : Bool) : Ref :=
  if r < 2 then r
  else
    let n := s.nodes.getD r default
    if n.level = level then (if value then n.high else n.low) else r

end Store

/-- A new variable, after all others. -/
def newLevel : DiagramM Nat := modifyGet fun s => (s.levels, { s with levels := s.levels + 1 })

def test (level : Nat) (low high : Ref) : DiagramM Ref := do
  if low = high then return low
  else
    modifyGet fun s =>
      let n : Node := ⟨level, low, high⟩
      match s.unique[n]? with
      | some r => (r, s)
      | none =>
        if s.nodes.size ≥ s.budget then (Ref.no, { s with full := true })
        else
          let r := s.nodes.size
          (r, { s with nodes := s.nodes.push n, unique := s.unique.insert n r })

def bit (level : Nat) : DiagramM Ref := test level Ref.no Ref.yes

/-- `g` where `f` is true, `h` elsewhere; `fuel` is at least the number of variables. -/
def chooseFrom : Nat → Ref → Ref → Ref → DiagramM Ref
  | 0, _, _, _ => return Ref.no
  | fuel + 1, f, g, h => do
    if f = Ref.yes then return g
    else if f = Ref.no then return h
    else if g = h then return g
    else if g = Ref.yes && h = Ref.no then return f
    else
      match (← get).known[(f, g, h)]? with
      | some r => return r
      | none =>
        let (l, f0, g0, h0, f1, g1, h1) ← modifyGet fun s =>
          let l := min (s.level f) (min (s.level g) (s.level h))
          ((l, s.fix f l false, s.fix g l false, s.fix h l false,
            s.fix f l true, s.fix g l true, s.fix h l true), s)
        let low ← chooseFrom fuel f0 g0 h0
        let high ← chooseFrom fuel f1 g1 h1
        let r ← test l low high
        modify fun s => { s with known := s.known.insert (f, g, h) r }
        return r

/-- `g` where `f` is true, `h` elsewhere. -/
def choose (f g h : Ref) : DiagramM Ref := do chooseFrom ((← get).levels + 1) f g h

def negation (f : Ref) : DiagramM Ref := choose f Ref.no Ref.yes

def both (f g : Ref) : DiagramM Ref := choose f g Ref.no

def either (f g : Ref) : DiagramM Ref := choose f Ref.yes g

def differ (f g : Ref) : DiagramM Ref := do choose f (← negation g) g

def agree (f g : Ref) : DiagramM Ref := do choose f g (← negation g)

def allTrue (fs : List Ref) : DiagramM Ref := fs.foldlM both Ref.yes

def anyTrue (fs : List Ref) : DiagramM Ref := fs.foldlM either Ref.no

/-! ### Quantifiers -/

/-- The function with the variables of `bound` quantified: for all their values, or for some. -/
def quantifyFrom (forAll : Bool) (bound : Nat → Bool) :
    Nat → Ref → StateT (Std.HashMap Ref Ref) DiagramM Ref
  | 0, _ => return Ref.no
  | fuel + 1, f => do
    if f < 2 then return f
    match (← get)[f]? with
    | some r => return r
    | none =>
      let n := (← (StateT.lift get : StateT _ DiagramM Store)).nodes.getD f default
      let low ← quantifyFrom forAll bound fuel n.low
      let high ← quantifyFrom forAll bound fuel n.high
      let r ←
        if bound n.level then
          (StateT.lift (if forAll then both low high else either low high) : StateT _ DiagramM Ref)
        else (StateT.lift (test n.level low high) : StateT _ DiagramM Ref)
      modify fun m => m.insert f r
      return r

def quantify (forAll : Bool) (bound : Nat → Bool) (f : Ref) : DiagramM Ref := do
  let fuel := (← get).levels + 1
  let (r, _) ← (quantifyFrom forAll bound fuel f).run ∅
  return r

/-! ### Solutions -/

/-- The variables that are true in some solution; the other ones are false in it. -/
def Store.solutionFrom (s : Store) : Nat → Ref → Option (List Nat)
  | 0, _ => none
  | fuel + 1, f =>
    if f = Ref.no then none
    else if f = Ref.yes then some []
    else
      let n := s.nodes.getD f default
      if n.low = Ref.no then (s.solutionFrom fuel n.high).map (n.level :: ·)
      else s.solutionFrom fuel n.low

def Store.solution? (s : Store) (f : Ref) : Option (List Nat) := s.solutionFrom (s.levels + 1) f

end Peephole.Decide
