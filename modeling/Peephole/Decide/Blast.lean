import Peephole.Decide.Circuit
import Peephole.Logic.Eval

/-!
# Terms as diagrams

Each bit of a variable is a variable of the diagrams.  Variables of few bits are tested first and those of many
bits last; those by which a term is shifted come before all others.  The bits of variables of one width are
tested in turns, from the highest to the lowest.

A read from a memory of any contents is a byte of its own for each address; equal addresses give equal bytes,
which `consistent` states.  `satisfy` decides whether a formula can be satisfied.
-/

namespace Peephole.Decide

open Logic

/-- A byte of a memory of any contents: where it was read, and its bits. -/
structure Cell where
  memory : String
  address : Bits
  byte : List Nat
  deriving Inhabited

/-- The levels of the bits of variables, lowest bit first, and the bytes that were read. -/
structure Layout where
  levels : List (Var × List Nat)
  cells : List Cell
  deriving Inhabited

abbrev BlastM := StateT Layout DiagramM

def onDiagrams {α : Type} (x : DiagramM α) : BlastM α := StateT.lift x

/-! ### The order of variables -/

mutual

/-- The variables by which a term shifts. -/
def Term.distances : Term → List String
  | .op o a b =>
    let inner := Term.distances a ++ Term.distances b
    match o with
    | .shl | .lshr | .ashr => b.vars.map (·.name) ++ inner
    | _ => inner
  | .not a | .neg a | .extract _ _ a | .zeroExt _ a | .signExt _ a => Term.distances a
  | .concat a b => Term.distances a ++ Term.distances b
  | .ite c a b => Formula.distances c ++ Term.distances a ++ Term.distances b
  | .read m a => ArrayTerm.distances m ++ Term.distances a
  | .var _ _ | .const _ _ => []

def Formula.distances : Formula → List String
  | .cmp _ a b => Term.distances a ++ Term.distances b
  | .not p => Formula.distances p
  | .and ps | .or ps | .distinct ps => Formula.distancesOf ps
  | .implies p q => Formula.distances p ++ Formula.distances q
  | .ite c p q => Formula.distances c ++ Formula.distances p ++ Formula.distances q
  | .all _ p | .ex _ p => Formula.distances p
  | .lit _ | .var _ | .distinctTerms _ => []

def ArrayTerm.distances : ArrayTerm → List String
  | .var _ => []
  | .write c a v m => Formula.distances c ++ Term.distances a ++ Term.distances v ++ ArrayTerm.distances m
  | .ite c a b => Formula.distances c ++ ArrayTerm.distances a ++ ArrayTerm.distances b

def Formula.distancesOf : List Formula → List String
  | [] => []
  | p :: ps => Formula.distances p ++ Formula.distancesOf ps

end

def bitCount (v : Var) : Nat :=
  match v.kind with
  | .bits w => w
  | .truth => 1
  | .bytes => 0

/-- Levels for the bits of variables of width `w`, in turns from the highest bit. -/
def placeTurns (vars : List Var) (w : Nat) : DiagramM (List (Var × List Nat)) := do
  let rounds ← (List.range w).mapM fun _ => vars.mapM fun _ => newLevel
  return vars.zipIdx.map fun (v, i) => (v, (rounds.map fun r => r.getD i 0).reverse)

/-- Levels for the bits of variables, narrow ones first. -/
def placeByWidth (vars : List Var) : DiagramM (List (Var × List Nat)) := do
  let widths := ((vars.map bitCount).mergeSort fun a b => a ≤ b).eraseDups
  let groups ← widths.mapM fun w => placeTurns (vars.filter fun v => bitCount v == w) w
  return groups.flatten

/-- Levels for the bits of variables; those in `first` come first. -/
def place (vars : List Var) (first : List String) : DiagramM (List (Var × List Nat)) := do
  let (a, b) := vars.partition fun v => first.contains v.name
  return (← placeByWidth a) ++ (← placeByWidth b)

/-! ### Diagrams of terms -/

/-- The levels of a variable; a variable that has none yet gets them now. -/
def levelsOf (v : Var) : BlastM (List Nat) := do
  match (← get).levels.find? fun e => e.1 == v with
  | some e => return e.2
  | none =>
    let ls ← onDiagrams (List.range (bitCount v) |>.mapM fun _ => newLevel)
    modify fun l => { l with levels := (v, ls) :: l.levels }
    return ls

def bitsOf (v : Var) : BlastM Bits := do
  let ls ← levelsOf v
  onDiagrams (ls.mapM bit)

/-- The byte of a memory of any contents. -/
def cellAt (memory : String) (address : Bits) : BlastM Bits := do
  match (← get).cells.find? fun c => c.memory == memory && c.address == address with
  | some c => onDiagrams (c.byte.mapM bit)
  | none =>
    let byte ← onDiagrams (List.range 8 |>.mapM fun _ => newLevel)
    modify fun l => { l with cells := ⟨memory, address, byte⟩ :: l.cells }
    onDiagrams (byte.mapM bit)

/-- The values are pairwise different; `same` compares two of them. -/
def pairwiseDifferent {α : Type} (same : α → α → DiagramM Ref) : List α → DiagramM Ref
  | [] => return Ref.yes
  | x :: xs => do
    let here ← xs.mapM fun y => do negation (← same x y)
    both (← allTrue here) (← pairwiseDifferent same xs)

mutual

def blastTerm : Term → BlastM Bits
  | .var n w => bitsOf ⟨n, .bits w⟩
  | .const n w => return .ofInt n w
  | .not a => do onDiagrams (← blastTerm a).complement
  | .neg a => do onDiagrams (← blastTerm a).negative
  | .op o a b => do
    let x ← blastTerm a
    let y ← blastTerm b
    onDiagrams (x.apply o (y.resize x.length))
  | .extract hi lo a => return Bits.resize ((← blastTerm a).drop lo) (hi - lo + 1)
  | .zeroExt n a => do
    let x ← blastTerm a
    return x.resize (x.length + n)
  | .signExt n a => return (← blastTerm a).signExtend n
  | .concat a b => do
    let x ← blastTerm a
    return (← blastTerm b) ++ x
  | .ite c a b => do
    let p ← blastFormula c
    let x ← blastTerm a
    let y ← blastTerm b
    onDiagrams (Bits.select p x (y.resize x.length))
  | .read m a => do
    let x ← blastTerm a
    blastByte x m

def blastFormula : Formula → BlastM Ref
  | .lit b => return Ref.ofBool b
  | .var n => return (← bitsOf ⟨n, .truth⟩).headD Ref.no
  | .cmp c a b => do
    let x ← blastTerm a
    let y ← blastTerm b
    onDiagrams (Bits.compare c x (y.resize x.length))
  | .not p => do
    let x ← blastFormula p
    onDiagrams (negation x)
  | .and ps => blastAll ps
  | .or ps => do
    let xs ← blastFormulas ps
    onDiagrams (anyTrue xs)
  | .implies p q => do
    let x ← blastFormula p
    let y ← blastFormula q
    onDiagrams (choose x y Ref.yes)
  | .ite c p q => do
    let x ← blastFormula c
    let y ← blastFormula p
    let z ← blastFormula q
    onDiagrams (choose x y z)
  | .distinct ps => do
    let xs ← blastFormulas ps
    onDiagrams (pairwiseDifferent agree xs)
  | .distinctTerms ts => do
    let xs ← blastTerms ts
    onDiagrams (pairwiseDifferent Bits.equal xs)
  | .all vars p => do
    let x ← blastFormula p
    let ls := (← vars.mapM levelsOf).flatten
    onDiagrams (quantify true ls.contains x)
  | .ex vars p => do
    let x ← blastFormula p
    let ls := (← vars.mapM levelsOf).flatten
    onDiagrams (quantify false ls.contains x)

def blastByte (address : Bits) : ArrayTerm → BlastM Bits
  | .var n => cellAt n address
  | .write c a v m => do
    let x ← blastTerm a
    let p ← blastFormula c
    let here ← onDiagrams (do both p (← Bits.equal x address))
    let byte ← blastTerm v
    let old ← blastByte address m
    onDiagrams (Bits.select here (byte.resize 8) old)
  | .ite c a b => do
    let p ← blastFormula c
    let x ← blastByte address a
    let y ← blastByte address b
    onDiagrams (Bits.select p x y)

def blastAll : List Formula → BlastM Ref
  | [] => return Ref.yes
  | p :: ps => do
    let x ← blastFormula p
    if x = Ref.no then return x
    let y ← blastAll ps
    onDiagrams (both x y)

def blastFormulas : List Formula → BlastM (List Ref)
  | [] => return []
  | p :: ps => do
    let x ← blastFormula p
    return x :: (← blastFormulas ps)

def blastTerms : List Term → BlastM (List Bits)
  | [] => return []
  | t :: ts => do
    let x ← blastTerm t
    return x :: (← blastTerms ts)

end

/-- Bytes at equal addresses of one memory are equal. -/
def consistent : List Cell → DiagramM Ref
  | [] => return Ref.yes
  | c :: cs => do
    let here ← (cs.filter fun d => d.memory == c.memory).mapM fun d => do
      let same ← Bits.equal c.address d.address
      let bytes ← Bits.equal (← c.byte.mapM bit) (← d.byte.mapM bit)
      choose same bytes Ref.yes
    both (← allTrue here) (← consistent cs)

/-! ### Deciding -/

inductive Answer where
  | unsatisfiable
  | satisfied (env : Env)
  /-- It is not known whether some environment satisfies it. -/
  | unknown (reason : String)

instance : Inhabited Answer := ⟨.unsatisfiable⟩

abbrev Solver := Formula → Answer

/-- The number whose set bits are those at the levels in `ones`. -/
def numberAt (ones : List Nat) (levels : List Nat) : Nat :=
  levels.reverse.foldl (fun n l => 2 * n + if ones.contains l then 1 else 0) 0

/-- The environment in which exactly the given levels are true. -/
def envOf (layout : Layout) (store : Store) (ones : List Nat) : Env :=
  let numbers := layout.levels.map fun e => (e.1.name, numberAt ones e.2)
  let cells := layout.cells.map fun c =>
    let bits := c.address.map fun r => holds r
    (c.memory, bits.reverse.foldl (fun n b => 2 * n + if b then 1 else 0) 0, numberAt ones c.byte)
  { bits := fun n => ((numbers.lookup n).map Int.ofNat).getD 0
    truth := fun n => (numbers.lookup n).getD 0 == 1
    byte := fun m a =>
      ((cells.find? fun c => c.1 == m && c.2.1 == a).map fun c => (c.2.2 : Int)).getD 0 }
where
  holds (r : Ref) : Bool := go (store.levels + 1) r
  go : Nat → Ref → Bool
    | 0, _ => false
    | fuel + 1, r =>
      if r < 2 then r == Ref.yes
      else
        let n := store.nodes.getD r default
        go fuel (if ones.contains n.level then n.high else n.low)

/-- The most nodes that are made for one formula. -/
def nodeBudget : Nat := 4000000

/-- The variables of a formula, and those that it quantifies at the front. -/
def varsToPlace : Formula → List Var
  | .all vars p | .ex vars p => Var.merge p.vars vars
  | p => p.vars

def satisfy : Solver := fun p =>
  let work : BlastM Ref := do
    let ls ← onDiagrams (place (varsToPlace p) (Formula.distances p))
    modify fun l => { l with levels := ls }
    let x ← blastFormula p
    let y ← onDiagrams (consistent (← get).cells)
    onDiagrams (both x y)
  let ((r, layout), store) := (work.run ⟨[], []⟩).run (Store.empty nodeBudget)
  if store.full then .unknown "out of nodes"
  else
    match store.solution? r with
    | none => .unsatisfiable
    | some ones => .satisfied (envOf layout store ones)

end Peephole.Decide
