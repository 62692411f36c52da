import Peephole.Cpp.Format
import Peephole.Elaborate.Optimization
import Peephole.Emit.Construct
import Peephole.Emit.Register

/-!
# Rules

The rule of an optimization is a block of C++: declarations of the variables that the match binds, and an `if`
whose condition matches the source, tests types and the precondition, and whose body creates the target.
-/

namespace Peephole.Emit

open Program Cpp
open Elaborate (Optimization)
open Layout (Doc)

/-- How rules are generated. -/
structure Settings where
  /-- Count how often each rule is used. -/
  stats : Bool := true
  /-- Try the built-in simplification first. -/
  simplify : Bool := true
  /-- Use each rule a limited number of times; this needs the counts. -/
  limiter : Bool := false
  deriving Inhabited, Repr

/-- The last instruction of the source. -/
def root? (o : Optimization) : Option ValueId :=
  (o.sourceNames.reverse.find? fun e => (o.table.get e.2).op.isInstr).map (·.2)

/-- The last instruction of the source, which there must be. -/
def root (o : Optimization) : Except Error ValueId :=
  match root? o with
  | some i => .ok i
  | none => .error (.fault .outOfRange)

/-- Match values and what they bind, those that were bound last first; the tests of the matches. -/
def matchAll : Nat → List ValueId → EmitM (List Expr)
  | 0, _ => return []
  | _, [] => return []
  | fuel + 1, i :: todo => do
    if (← valueAt i).op.isInstr then
      let (e, bound) ← matchValue i
      register i
      return e :: (← matchAll fuel (bound ++ todo))
    else
      register i
      matchAll fuel todo

/-- Match the source from its last instruction, which is known as `I`; that instruction and the tests. -/
def matchSource (o : Optimization) : EmitM (ValueId × List Expr) := do
  let r ← outcome (root o)
  modify fun g => { g with valueNames := g.valueNames.put r "I" }
  bindValue r
  let found ← matchAll (2 * o.table.values.size * (o.table.values.size + 1) + 1) [r]
  return (r, found)

/-- The tests on types that the source does not guarantee. -/
def typeTests : EmitM (List Expr) := do
  let entries := (← get).guaranteed
  let tests ← entries.mapM fun (i, t) => do
    if ← isBound i then
      let e ← typeExpr i
      match (← get).required.get? i with
      | some r => outcome (checks e r t)
      | none => fail .noSuchEntry
    else return []
  return tests.flatten

def counter (rule : Nat) : Expr := .var ("Rule" ++ toString rule)

/-- The variables, the condition and the body of a rule, and the name that is shown with it. -/
structure Rule where
  name : String
  vars : List (CType × Expr)
  cond : Expr
  body : List Stmt
  deriving Inhabited

def addedValues (o : Optimization) : List ValueId :=
  (o.targetNames.filter fun e => !((o.table.get e.2).op.isInput || o.targetSkipped.contains e.1)).map (·.2)

/-- The body of a rule: counting, the new instructions, and the new root. -/
def ruleBody (settings : Settings) (rule : Nat) (added : List ValueId) (newRoot : ValueId) :
    EmitM (List Stmt) := do
  let count := if settings.stats then [Stmt.expr (.unary "++" (counter rule))] else []
  let others ← added.mapM fun i => do
    if (← valueAt i).op.isInstr && i ≠ newRoot then construct false i else return []
  let last ← match (← valueAt newRoot).op with
    | .copy x =>
      let target ← nameExpr newRoot
      let e ← operandExpr x
      pure [Stmt.init (pointerTo "Instruction") target (.call "replaceInstUsesWith" [.var "*I", e])]
    | _ => construct true newRoot
  return count ++ others.flatten ++ last ++ [.ret (some (← operandExpr newRoot))]

def buildRule (settings : Settings) (rule : Nat) (o : Optimization) : EmitM Rule := do
  if o.source.length ≠ 1 || o.target.length ≠ 1 then
    unsupported ("codegen can't handle multiple basic blocks: " ++ o.name)
  let (r, found) ← matchSource o
  modify fun g => { g with inSource := false }
  registerCondition o.pre
  let named := (← get).namedTypes
  named.forM fun e => unify e.2
  let added := addedValues o
  added.forM register
  let newRoot ← match o.targetNames.get? (o.table.name r) with
    | some i => pure i
    | none => fail .noSuchEntry
  unify [r, newRoot]
  let equalities := (← get).clauses
  let types ← typeTests
  let pre ← match o.pre with
    | .always => pure []
    | c => do pure [← conditionExpr c]
  let limit := if settings.stats && settings.limiter then [Expr.binary .lt (counter rule) (.var "10000")] else []
  let body ← ruleBody settings rule added newRoot
  let cond ← joinedExpr .and (found ++ equalities ++ types ++ pre ++ limit)
  let bound := (← get).bound
  return {
    name := ((named.getLast?).map (·.1)).getD o.name
    vars := (bound.filter fun e => e.1 != "I").map fun e => (e.2, .var e.1)
    cond := cond
    body := body }

def Rule.doc (r : Rule) : Doc :=
  let decls := (Stmt.defineAll r.vars).map fun s => Doc.line ++ s.doc
  .nest 2 (Doc.cat [.line, .text "\x7b // ", .text r.name,
    .nest 2 (Doc.cat (decls ++ [.line, .line, (Stmt.ite r.cond r.body []).doc])), .line, .text "\x7d"])

def ruleText (settings : Settings) (rule : Nat) (o : Optimization) : Except Error String := do
  let r ← (((buildRule settings rule o).run o.table).run Generator.start).1
  let d := r.doc
  require d.wellFormed
  return d.render Layout.defaultWidth 0

end Peephole.Emit
