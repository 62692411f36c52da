import Peephole.Encode.Condition
import Peephole.Typing.Optimization

/-!
# Encoding programs

A program is encoded value by value: first its inputs and constants, then the instructions of its blocks in
order.  A branch adds to the conditions under which its two targets are reached.
-/

namespace Peephole.Encode

open Logic Program
open Elaborate (Optimization)

def labelOf (target : String) : String := String.ofList (target.toList.drop 1)

/-- Record that a block is reached under a condition with a memory. -/
def addEntry (entries : Dict (List (Formula × Memory))) (target : String) (p : Formula) (m : Memory) :
    Dict (List (Formula × Memory)) :=
  let label := labelOf target
  entries.put label ((entries.get? label).getD [] ++ [(p, m)])

/-- The entries with those of a branch: the condition of the first target is `p`, that of the second `q`. -/
def branchEntries (entries : Dict (List (Formula × Memory))) (l₁ l₂ : String) (p q : Formula) (m : Memory) :
    Dict (List (Formula × Memory)) :=
  addEntry (addEntry entries l₁ p m) l₂ q m

/-- The condition under which a branch on a value goes to its target: the value is defined, not poison, and compares
with zero as it should. -/
def Conditions.taken (c : Conditions) (t : Term) (r : Comparison) : Formula :=
  .allOf (.cmp r t (numberLike 0 t) :: (c.defined ++ c.poison))

/-- The work with a value recorded: the conditions of the basic block stand in front of its own. -/
def Work.record (w : Work) (key : String) (t : Option Term) (c : Conditions) : Work :=
  { w with state.vars := w.state.vars.put key ⟨t, { c with defined := w.state.defined ++ c.defined }⟩ }

def addBranch (c : ValueId) (thenTarget elseTarget : String) : EncodeM Unit := do
  let (t, conds) ← apart (operand c)
  if !conds.free.isEmpty then stop .brokenInvariant
  let m ← memory
  modifyState fun s =>
    { s with entries := branchEntries s.entries thenTarget elseTarget (conds.taken t .ne) (conds.taken t .eq) m }

def addValue (i : ValueId) : EncodeM Unit := do
  let v ← valueAt i
  let (t, conds) ← apart (encode i)
  modify (·.record v.key t conds)
  match v.op with
  | .br c a b => addBranch c a b
  | _ => return

/-- Encode an input or a constant, which must not bring conditions with it. -/
def addLeaf (i : ValueId) : EncodeM Unit := do
  let v ← valueAt i
  let (t, conds) ← apart (encode i)
  if !(conds.defined.isEmpty && conds.poison.isEmpty) then stop .brokenInvariant
  modify (·.record v.key t conds)

/-- Whether a value is encoded before all instructions. -/
def isLeaf (t : Table) (i : ValueId) : Bool := (t.get i).op.isInput || (t.get i).op.isConstant

/-- The inputs and constants under names. -/
def leavesOf (t : Table) (names : Dict ValueId) : List ValueId :=
  (List.filter (fun e => isLeaf t e.2) names).map Prod.snd

/-- Start a basic block and encode its instructions. -/
def encodeBlock (o : Options) (b : String × Dict ValueId) : EncodeM Unit := do
  modifyState (State.enter o b.1)
  b.2.forM fun e => addValue e.2

def encodeProgram (names : Dict ValueId) (p : Code) : EncodeM Unit := do
  let s ← read
  (leavesOf s.table names).forM addLeaf
  p.forM (encodeBlock s.options)

def ptrWidthIs (w : Int) : Typing.Constraint := .varIs "ptrsize" w

def Shape.ofModel (m : Typing.Model) : Shape := ⟨m.assignment, (m.assignment "ptrsize").toNat⟩

/-- Both programs of an optimization and its precondition under one typing. -/
structure Problem where
  source : State
  target : State
  pre : Requirement
  shape : Shape
  deriving Inhabited

/-- Encode an optimization under a typing: the source, the target, then the precondition over the source. -/
def encodeOptimization (o : Optimization) (shape : Shape) (options : Options) : Except Error Problem := do
  let setting (inSource : Bool) : Setting := ⟨o.table, shape, options, inSource⟩
  let start (fresh : Nat) : Work := ⟨.start, .none, fresh⟩
  let (_, src) ← (encodeProgram o.sourceNames o.source).run (setting true) |>.run (start 0)
  let (_, tgt) ← (encodeProgram o.targetNames o.target).run (setting false) |>.run (start src.fresh)
  let (pre, src) ← (encodeCondition o.pre).run (setting false) |>.run ⟨src.state, .none, tgt.fresh⟩
  return ⟨src.state, tgt.state, pre, shape⟩

end Peephole.Encode
