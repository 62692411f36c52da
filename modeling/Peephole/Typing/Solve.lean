import Std.Data.HashMap
import Std.Data.HashSet
import Peephole.Typing.Constraint

/-!
# Solving typing constraints

A search for assignments that satisfy constraints.  A `State` holds bounds for the variables, differences of
variables that are bounded, and what is still undecided: disjunctions, and relations that are neither bounds
nor bounded differences.  Bounds are propagated along the differences; when nothing more follows, the search
splits a disjunction or the range of a variable.

A branch in which nothing is undecided is a system of bounded differences, which has a solution unless
propagation has found a contradiction; `leaves` collects these branches.

The answer of `find?` is checked against the constraints themselves.
-/

namespace Peephole.Typing

namespace Search

/-- The least and the greatest value a variable can have, where there is one. -/
structure Range where
  lo : Option Int
  hi : Option Int
  deriving Inhabited, Repr, DecidableEq

namespace Range

def all : Range := ⟨none, none⟩

def one (n : Int) : Range := ⟨some n, some n⟩

/-- The only integer of a range. -/
def value? (r : Range) : Option Int :=
  match r.lo, r.hi with
  | some a, some b => if a = b then some a else none
  | _, _ => none

def isEmpty (r : Range) : Bool :=
  match r.lo, r.hi with
  | some a, some b => b < a
  | _, _ => false

def meet (r s : Range) : Range :=
  ⟨match r.lo, s.lo with
    | some a, some b => some (max a b)
    | a, none => a
    | none, b => b,
   match r.hi, s.hi with
    | some a, some b => some (min a b)
    | a, none => a
    | none, b => b⟩

/-- The number of integers in a range, where it is finite. -/
def size? (r : Range) : Option Nat :=
  match r.lo, r.hi with
  | some a, some b => some (b - a + 1).toNat
  | _, _ => none

def mul (r s : Range) : Range :=
  match r.lo, r.hi, s.lo, s.hi with
  | some a, some b, some c, some d =>
    let ps := [a * c, a * d, b * c, b * d]
    ⟨ps.min?, ps.max?⟩
  | some a, _, some c, _ => if 0 ≤ a ∧ 0 ≤ c then ⟨some (a * c), none⟩ else all
  | _, _, _, _ => all

/-- The integers in one of two ranges, and those between them. -/
def hull (r s : Range) : Range :=
  ⟨match r.lo, s.lo with
    | some a, some b => some (min a b)
    | _, _ => none,
   match r.hi, s.hi with
    | some a, some b => some (max a b)
    | _, _ => none⟩

end Range

/-- The variable `x` exceeds the variable `y` by at most `c`. -/
structure Difference where
  x : String
  y : String
  c : Int
  deriving Inhabited, Repr, DecidableEq

/-- What is known, and what is undecided. -/
structure State where
  ranges : Std.HashMap String Range
  names : List String
  diffs : List Difference
  /-- Disjunctions. -/
  clauses : List (List Constraint)
  /-- Relations that are neither bounds nor bounded differences. -/
  rels : List (Relation × IntExpr × IntExpr)

namespace State

def start (names : List String) : State := ⟨∅, names, [], [], []⟩

def range (s : State) (v : String) : Range := s.ranges.getD v .all

/-- Narrow the range of a variable; `none` if nothing is left of it. -/
def narrow (s : State) (v : String) (r : Range) : Option State :=
  let r := (s.range v).meet r
  if r.isEmpty then none else some { s with ranges := s.ranges.insert v r }

def rangeOf (s : State) : IntExpr → Range
  | .var v => s.range v
  | .const n => .one n
  | .mul a b => (s.rangeOf a).mul (s.rangeOf b)
  | .ite v n a b =>
    let r := s.range v
    if r.value? = some n then s.rangeOf a
    else if (r.meet (.one n)).isEmpty then s.rangeOf b
    else (s.rangeOf a).hull (s.rangeOf b)

/-- Whether a relation is certain between values from two ranges: `some true` if it always holds, `some false`
if it never does. -/
def certain (r : Relation) (a b : Range) : Option Bool :=
  let below (x y : Option Int) : Bool :=
    match x, y with
    | some m, some n => m < n
    | _, _ => false
  let atMost (x y : Option Int) : Bool :=
    match x, y with
    | some m, some n => m ≤ n
    | _, _ => false
  let apart := below a.hi b.lo || below b.hi a.lo
  let same := a.value?.isSome && a.value? == b.value?
  let decide (yes no : Bool) : Option Bool := if yes then some true else if no then some false else none
  match r with
  | .eq => decide same apart
  | .ne => decide apart same
  | .lt => decide (below a.hi b.lo) (atMost b.hi a.lo)
  | .le => decide (atMost a.hi b.lo) (below b.hi a.lo)
  | .gt => decide (below b.hi a.lo) (atMost a.hi b.lo)
  | .ge => decide (atMost b.hi a.lo) (below a.hi b.lo)

mutual

/-- Whether the ranges settle a constraint. -/
def verdict (s : State) : Constraint → Option Bool
  | .lit b => some b
  | .rel r a b => certain r (s.rangeOf a) (s.rangeOf b)
  | .and cs => verdictAll s cs
  | .or cs => verdictAny s cs

def verdictAll (s : State) : List Constraint → Option Bool
  | [] => some true
  | c :: cs =>
    match verdict s c with
    | some false => some false
    | v =>
      match v, verdictAll s cs with
      | _, some false => some false
      | some true, some true => some true
      | _, _ => none

def verdictAny (s : State) : List Constraint → Option Bool
  | [] => some false
  | c :: cs =>
    match verdict s c with
    | some true => some true
    | v =>
      match v, verdictAny s cs with
      | _, some true => some true
      | some false, some false => some false
      | _, _ => none

end

/-- The largest quotient not above `n / k`, and the smallest not below it, for positive `k`. -/
def quotients (n k : Int) : Int × Int := (n / k, -((-n) / k))

/-- An expression as a multiple of at most one variable. -/
def monomial? (s : State) : IntExpr → Option (Int × Option String)
  | .const n => some (n, none)
  | .var v =>
    match (s.range v).value? with
    | some n => some (n, none)
    | none => some (1, some v)
  | .mul a b =>
    match s.monomial? a, s.monomial? b with
    | some (m, none), some (n, v) => some (m * n, v)
    | some (m, v), some (n, none) => some (m * n, v)
    | _, _ => none
  | .ite v n a b =>
    let r := s.range v
    if r.value? = some n then s.monomial? a
    else if (r.meet (.one n)).isEmpty then s.monomial? b
    else none

/-- Add that `x` exceeds `y` by at most `c`. -/
def addDiff (s : State) (x y : String) (c : Int) : Option State :=
  if x = y then if 0 ≤ c then some s else none
  else some { s with diffs := ⟨x, y, c⟩ :: s.diffs }

/-- Add a relation between a positive multiple of a variable and a number. -/
def addBound (s : State) (r : Relation) (k : Int) (v : String) (n : Int) : Option State :=
  let (down, up) := quotients n k
  match r with
  | .eq => if down = up then s.narrow v (.one down) else none
  | .ne =>
    if down = up then
      some { s with clauses := [.rel .lt (.var v) (.const down), .rel .gt (.var v) (.const down)] ::
        s.clauses }
    else some s
  | .lt => s.narrow v ⟨none, some (up - 1)⟩
  | .le => s.narrow v ⟨none, some down⟩
  | .gt => s.narrow v ⟨some (down + 1), none⟩
  | .ge => s.narrow v ⟨some up, none⟩

def swap : Relation → Relation
  | .lt => .gt | .gt => .lt | .le => .ge | .ge => .le | r => r

def addRel (s : State) (r : Relation) (a b : IntExpr) : Option State :=
  match certain r (s.rangeOf a) (s.rangeOf b) with
  | some true => some s
  | some false => none
  | none =>
    let later : Option State := some { s with rels := (r, a, b) :: s.rels }
    match s.monomial? a, s.monomial? b with
    | some (m, none), some (n, none) => if r.holds m n then some s else none
    | some (k, some v), some (n, none) => if 0 < k then s.addBound r k v n else later
    | some (n, none), some (k, some v) => if 0 < k then s.addBound (swap r) k v n else later
    | some (j, some v), some (k, some w) =>
      if j = k ∧ 0 < k then
        match r with
        | .eq => do (← s.addDiff v w 0).addDiff w v 0
        | .ne =>
          some { s with clauses := [.rel .lt (.var v) (.var w), .rel .gt (.var v) (.var w)] ::
            s.clauses }
        | .lt => s.addDiff v w (-1)
        | .le => s.addDiff v w 0
        | .gt => s.addDiff w v (-1)
        | .ge => s.addDiff w v 0
      else later
    | _, _ => later

mutual

/-- Add a constraint; `none` if it contradicts what is known. -/
def add (s : State) : Constraint → Option State
  | .lit b => if b then some s else none
  | .rel r a b => s.addRel r a b
  | .and cs => addAll s cs
  | .or cs => some { s with clauses := cs :: s.clauses }

def addAll (s : State) : List Constraint → Option State
  | [] => some s
  | c :: cs =>
    match add s c with
    | some s => addAll s cs
    | none => none

end

/-- One round of propagation along the differences: the state, and whether it changed. -/
def propagateOnce (s : State) : Option (State × Bool) :=
  s.diffs.foldlM (fun (s, changed) d => do
    let x := s.range d.x
    let y := s.range d.y
    let s' ← s.narrow d.x ⟨none, y.hi.map (· + d.c)⟩
    let s' ← s'.narrow d.y ⟨x.lo.map (· - d.c), none⟩
    return (s', changed || decide (s'.range d.x ≠ x) || decide (s'.range d.y ≠ y))) (s, false)

/-- Propagation until nothing changes.  A change after more rounds than there are variables comes from
differences around a circle that have no solution. -/
def propagate (s : State) : Option State :=
  go (s.names.length + 2) s
where
  go : Nat → State → Option State
    | 0, _ => none
    | n + 1, s =>
      match s.propagateOnce with
      | none => none
      | some (s, false) => some s
      | some (s, true) => go n s

/-- Drop what the ranges settle; add what is the last way left. -/
def simplify (s : State) : Option (State × Bool) := do
  let clauses := s.clauses
  let rels := s.rels
  let s := { s with clauses := [], rels := [] }
  let (s, changed) ← clauses.foldlM (fun (s, changed) (clause : List Constraint) =>
    if clause.any fun c => s.verdict c == some true then some (s, changed)
    else
      match clause.filter fun c => s.verdict c != some false with
      | [] => none
      | [c] => (s.add c).map fun s => (s, true)
      | cs => some ({ s with clauses := cs :: s.clauses }, changed)) (s, false)
  let before := rels.length
  let s ← rels.foldlM (fun s (r, a, b) => addRel s r a b) s
  return (s, changed || s.rels.length < before)

/-- Propagate and simplify until nothing changes. -/
def settle : Nat → State → Option State
  | 0, s => some s
  | n + 1, s => do
    let s ← s.propagate
    let (s, changed) ← s.simplify
    if changed then settle n s else s.propagate

/-- The variable of an undecided relation that has the fewest values. -/
def narrowest (s : State) : Option (String × Int × Nat) :=
  let vars := (s.rels.flatMap fun (_, a, b) => a.vars ++ b.vars).eraseDups
  vars.foldl (fun best v =>
    let r := s.range v
    match r.lo, r.size? with
    | some lo, some n =>
      if n ≤ 1 then best
      else match best with
        | some (_, _, m) => if n < m then some (v, lo, n) else best
        | none => some (v, lo, n)
    | _, _ => best) none

def consistent (s : State) : Bool :=
  let zero := { s with ranges := s.names.foldl (fun m v => m.insert v ⟨some 0, none⟩) ∅ }
  zero.propagate.isSome

end State

def pickShortest {α : Type} : List (List α) → Option (List α × List (List α))
  | [] => none
  | xs :: rest =>
    match pickShortest rest with
    | none => some (xs, [])
    | some (ys, others) => if ys.length < xs.length then some (ys, xs :: others) else some (xs, rest)

/-- The results of the branches in turn, up to the first result if only one is wanted. -/
def collect (single : Bool) (branch : State → List State) : List (Option State) → List State
  | [] => []
  | none :: rest => collect single branch rest
  | some s :: rest =>
    let found := branch s
    if single && !found.isEmpty then found else found ++ collect single branch rest

/-- One branch for each way to satisfy a clause.  A branch takes up where those before it end: it assumes that
their relations do not hold. -/
def splitClause (s : State) : List Constraint → List (Option State)
  | [] => []
  | c :: cs =>
    s.add c ::
      match c with
      | .rel r a b =>
        match s.addRel r.negate a b with
        | some s => splitClause s cs
        | none => []
      | _ => splitClause s cs

/-- The branches of the search in which nothing is undecided, or only the first of them. -/
def leaves (single : Bool) : Nat → State → List State
  | 0, _ => []
  | fuel + 1, s =>
    match s.settle (fuel + 1) with
    | none => []
    | some s =>
      match pickShortest s.clauses with
      | some (clause, others) =>
        collect single (leaves single fuel) (splitClause { s with clauses := others } clause)
      | none =>
        if s.rels.isEmpty then if s.consistent then [s] else []
        else
          match s.narrowest with
          | none => []
          | some (v, lo, n) =>
            collect single (leaves single fuel)
              ((List.range n).map fun i : Nat => s.narrow v (.one (lo + i)))

/-! ### Components -/

def conjuncts : List Constraint → List Constraint
  | [] => []
  | .and cs :: rest => cs ++ conjuncts rest
  | c :: rest => c :: conjuncts rest

/-- Constraints and the variables they share. -/
structure Component where
  vars : Std.HashSet String
  constraints : List Constraint

/-- Put a constraint to the components with which it shares variables, and make them one. -/
def joinComponents (comps : List Component) (c : Constraint) : List Component :=
  let vs := c.vars
  let (touched, others) := comps.partition fun comp => vs.any comp.vars.contains
  let base : Component := match touched with
    | [] => ⟨∅, []⟩
    | t :: ts => ts.foldl (fun a b =>
        ⟨b.vars.fold (fun s v => s.insert v) a.vars, b.constraints ++ a.constraints⟩) t
  ⟨vs.foldl (fun s v => s.insert v) base.vars, c :: base.constraints⟩ :: others

/-- The constraints, split so that no two components share a variable. -/
def components (cs : List Constraint) : List Component :=
  (conjuncts (conjuncts cs)).foldl joinComponents []

mutual

def parts : Constraint → Nat
  | .lit _ => 1
  | .rel _ a b => 3 + a.vars.length + b.vars.length
  | .and cs => partsOf cs
  | .or cs => 1 + partsOf cs

def partsOf : List Constraint → Nat
  | [] => 1
  | c :: cs => parts c + partsOf cs

end

def branches (single : Bool) (comp : Component) (extra : List Constraint) : List State :=
  let cs := comp.constraints.reverse ++ extra
  let names := (extra.foldl (fun s c => c.vars.foldl (fun s v => s.insert v) s) comp.vars).toList
  match (State.start names).addAll cs with
  | none => []
  | some s => leaves single (3 * partsOf cs + 2) s

end Search

open Search

/-- Values for finitely many type variables. -/
abbrev Model := List (String × Int)

/-- The assignment of a model; other variables are zero. -/
def Model.assignment (m : Model) : Assignment := fun v => (m.lookup v).getD 0

def satisfiable (cs : List Constraint) : Bool :=
  (components cs).all fun comp => !(branches true comp []).isEmpty

/-- Values for the variables of a branch: the least ones, and zero where there is no least one and zero is
possible. -/
def leastValues (s : State) : Model :=
  let low (n : Int) : State := s.names.foldl (fun s v =>
    match (s.range v).lo with
    | some _ => s
    | none =>
      let lo := match (s.range v).hi with
        | some hi => min n hi
        | none => n
      (s.narrow v ⟨some lo, none⟩).getD s) s
  let total : Nat := s.diffs.foldl (fun n d => n + d.c.natAbs) 1000000
  let s := ((low 0).propagate <|> (low (-(total : Int))).propagate).getD s
  s.names.map fun v => (v, ((s.range v).lo).getD 0)

def find? (cs : List Constraint) : Option Model := do
  let found ← (components cs).mapM fun comp => (branches true comp []).head?
  let m : Model := found.flatMap leastValues
  if Constraint.holdsAll m.assignment cs then some m else none

/-! ### Ranges -/

/-- The values that a variable can have under the constraints and an assumption; none if there is no
solution.  The constraints without the variable are assumed to be satisfiable. -/
def rangeIn (cs : List Component) (assumed : List Constraint) (v : String) : Option Range :=
  let needed := v :: assumed.flatMap Constraint.vars
  let touched := cs.filter fun comp => needed.any comp.vars.contains
  let comp : Component :=
    ⟨touched.foldl (fun s c => c.vars.fold (fun s v => s.insert v) s) (Std.HashSet.ofList needed),
      touched.flatMap (·.constraints)⟩
  match (branches false comp assumed).map (·.range v) with
  | [] => none
  | r :: rs => some (rs.foldl Range.hull r)

/-- What the constraints allow for the type at a place. -/
inductive Possible where
  /-- Anything, even what is no type at all. -/
  | any
  /-- The kinds that are possible: integers with the range of widths, pointers, arrays with the range of
  counts. -/
  | kinds (int : Option Range) (ptr : Option Possible) (array : Option (Range × Possible))
  deriving Inhabited

/-- What the constraints and an assumption allow for the type at a place. -/
def possible (cs : List Component) : Nat → List Constraint → String → Possible
  | 0, _, _ => .any
  | fuel + 1, assumed, place =>
    let kindVar := "t_" ++ place
    let under (k : Int) := assumed ++ [Constraint.varIs kindVar k]
    if (rangeIn cs (under 3) kindVar).isSome then .any
    else
      let ptr := if (rangeIn cs (under 1) kindVar).isSome
        then some (possible cs fuel (under 1) ("*" ++ place)) else none
      let array := (rangeIn cs (under 2) ("val_" ++ place ++ "_elems")).map fun r =>
        (r, possible cs fuel (under 2) ("[" ++ place ++ "]"))
      .kinds (rangeIn cs (under 0) ("size_" ++ place)) ptr array

def describe (cs : List Constraint) (places : List String) : List (String × Possible) :=
  let comps := components cs
  let fuel := comps.foldl (fun n c => n + c.vars.size) 1
  places.map fun p => (p, possible comps fuel [] p)

end Peephole.Typing
