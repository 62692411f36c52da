import Peephole.Elaborate.Condition
import Peephole.Elaborate.Instruction
import Peephole.Reader.Condition
import Peephole.Reader.File

/-!
# Optimizations

The parts of an optimization are read in the order source, target, precondition.  The target starts with the
values of the source, which its own definitions replace; what the target keeps and does not use is moved to the
end of its block.

A text that cannot be read ends in a `ReadError`, which knows the part of the text and the place in it.
-/

namespace Peephole.Elaborate

open Peephole.Program
open Peephole.Reader

def Act.perform : Act → SessionM Meaning
  | .note => return .nothing
  | .call name args => return .value (← call name args)
  | .negation op arg => return .value (← negation op arg)
  | .chain first rest => return .value (← chain first rest)
  | .intType width stars => return .type (starred (.int (some width)) stars)
  | .arrayType count elem stars => do
    let n ← build (newCount (← constant count) 1 7)
    return .type (starred (.array n (← typeOf elem)) stars)
  | .namedType name stars => do return .type (starred (← build (newNamed name)) stars)
  | .optionalType (some m) => return .type (← typeOf m)
  | .optionalType none => return .type (← build newUnknown)
  | .boolType => return .type (.int (some 1))
  | .operand need type o => do
    let (t, v) ← typedOperand need type o
    return .typed t v
  | .elemCount (some m) => meaning m
  | .elemCount none => do
    let (v, t) ← wordOperand "1" (.int none)
    return .typed t v
  | .copy type o => return .draft (← copy type o)
  | .icmp pred first second => return .draft (← icmp pred first second)
  | .select c t1 o1 t2 o2 => return .draft (← select c t1 o1 t2 o2)
  | .alloca type count align => return .draft (← alloca type count align)
  | .gep inbounds ptr indices => return .draft (← gep inbounds ptr indices)
  | .load ptr align => return .draft (← load ptr align)
  | .arith op flags type o1 o2 => return .draft (← arith op flags type o1 o2)
  | .convert op type o target => return .draft (← convert op type o target)
  | .define reg instr => do
    define reg instr
    return .nothing
  | .store source ptr align => do
    store source ptr align
    return .nothing
  | .unreachable => do
    bare "unreachable" .unreachable
    return .nothing
  | .label name => do
    startBlock name
    return .nothing
  | .br c l1 l2 => do
    br c l1 l2
    return .nothing
  | .ret v => do
    ret v
    return .nothing
  | .skip => do
    bare "skip" .skip
    return .nothing
  | .test name args => return .condition (← test name args)
  | .always => return .condition .always
  | .comparison first rest => return .condition (← comparison first rest)
  | .not c => return .condition (.not (← conditionOf c))
  | .both cs => return .condition (.both (← cs.mapM conditionOf))
  | .either cs => return .condition (.either (← cs.mapM conditionOf))

def Act.endsLine : Act → Bool
  | .define _ _ | .store _ _ _ | .unreachable | .label _ | .br _ _ _ | .ret _ | .skip => true
  | _ => false

/-- Do a step, unless it was done before.  What the other steps of a line found is not needed behind it. -/
def Step.perform (s : Step) : SessionM Unit := do
  if (← get).done.any fun d => d.1 == s.mark then return
  if let some p := s.noted then note p
  let m ← Act.perform s.act
  modify fun e => { e with done := (s.mark, m) :: if Act.endsLine s.act then [] else e.done }

/-- A part of a text: its characters and the number of lines in front of it. -/
structure Part where
  text : Text.Chars
  linesBefore : Nat
  deriving Inhabited

inductive ReadError where
  /-- The grammar has no such text; `inside` says whether the failure is inside an optimization. -/
  | unreadable (inside : Bool) (part : Part) (place : Nat) (message : String)
  /-- A phrase was read but cannot be what it says. -/
  | refused (part : Part) (place : Nat) (error : Error)
  deriving Inhabited

/-- Read a part: do the steps, and fail if the part could not be read to its end. -/
def readPart {α : Type} (part : Part) (r : Reply Step α) (s : Session) : Except ReadError (α × Session) :=
  match (r.steps.forM Step.perform).run.run { s with done := [] } with
  | (.error e, s) => .error (.refused part s.place e)
  | (.ok (), s) =>
    match r.outcome with
    | .matched a _ => .ok (a, s)
    | .failed p message => .error (.unreadable true part p message)
    | .overrun => .error (.unreadable true part part.text.size "")

structure Optimization where
  name : String
  pre : Condition
  table : Table
  source : Code
  target : Code
  sourceNames : Dict ValueId
  targetNames : Dict ValueId
  sourceUsed : List String
  targetUsed : List String
  /-- The names of the target that stand for values of the source. -/
  targetSkipped : List String
  deriving Inhabited

def startSource (s : Session) : Session :=
  { s with
    phase := .source, table := .empty, names := [], used := [], skipped := [], labels := []
    label := "", blocks := [("", [])] }

/-- Whether a value of the source stays there when the target is read. -/
def staysBehind (v : Value) : Bool :=
  match v.op with
  | .store _ _ _ _ | .unreachable => true
  | _ => false

/-- Whether a value of the source may be replaced in the target. -/
def isReplaceable (v : Value) : Bool :=
  match v.op with
  | .input | .ret _ => false
  | _ => true

def startTarget (s : Session) : Session :=
  let kept (d : Dict ValueId) : Dict ValueId := d.filter fun e => !staysBehind (s.table.get e.2)
  let names := kept s.names
  { s with
    phase := .target, names := names, used := [], labels := [], label := ""
    skipped := Dict.keys (names.filter fun e => isReplaceable (s.table.get e.2))
    blocks := s.blocks.map fun b => (b.1, kept b.2) }

/-- The instructions of a block with those that are not used at the end. -/
def unusedLast (used : List String) (b : Dict ValueId) : Dict ValueId :=
  (b.filter fun e => used.contains e.1) ++ b.filter fun e => !used.contains e.1

def partOf (t : Text.Chars) (e : Excerpt) : Part := ⟨Text.chars e.text, Text.lineNumber t e.place - 1⟩

/-- Read an optimization from its parts in the text `t`; `number` is its name if it has none, and `place` the
place that was noted last before it. -/
def readOptimization (t : Text.Chars) (number place : Nat) (p : Parts) :
    Except ReadError (Optimization × Nat) := do
  let part := partOf t p.source
  let (_, s) ← readPart part (readProgram part.text) (startSource { (default : Session) with place := place })
  let source := s
  let part := partOf t p.target
  let (_, s) ← readPart part (readProgram part.text) (startTarget s)
  let target := s
  let part := partOf t (p.pre.getD ⟨0, ""⟩)
  let (m, s) ← readPart part (readCondition part.text)
    { s with phase := .condition, names := source.names }
  let pre := match s.done.find? fun d => d.1 == m with
    | some (_, .condition c) => c
    | _ => .always
  return (
    { name := p.name.getD (toString number)
      pre := pre
      table := s.table
      source := source.blocks
      target := target.blocks.map fun b => (b.1, unusedLast target.used b.2)
      sourceNames := s.names
      targetNames := target.names
      sourceUsed := source.used
      targetUsed := s.used
      targetSkipped := target.skipped }, s.place)

def readAll (t : Text.Chars) : Nat → Nat → List Parts → Except ReadError (List Optimization)
  | _, _, [] => return []
  | number, place, p :: ps => do
    let (o, place) ← readOptimization t number place p
    return o :: (← readAll t (number + 1) place ps)

/-- Read a file of optimizations, numbered from `first` on. -/
def readNumbered (first : Nat) (text : String) : Except ReadError (List Optimization) := do
  let t := Text.expandTabs (Text.chars text)
  let r := readFile t
  let os ← readAll t first 0 r.steps
  match r.outcome with
  | .matched _ _ => return os
  | .failed p message => throw (.unreadable false ⟨t, 0⟩ p message)
  | .overrun => throw (.unreadable false ⟨t, 0⟩ t.size "")

def readOptimizations (text : String) : Except ReadError (List Optimization) := readNumbered 1 text

/-- Cut a file into the texts of its optimizations.  The cuts are where the optimizations start once tabs are
expanded. -/
def splitOptimizations (text : String) : Except ReadError (List String) := do
  let t := Text.chars text
  let expanded := Text.expandTabs t
  let r := readFile expanded
  match r.outcome with
  | .matched _ _ =>
    let starts := r.steps.map (·.start)
    return (starts.zip (starts.drop 1 ++ [t.size])).map fun (a, b) => Text.slice t a b
  | .failed p message => throw (.unreadable false ⟨expanded, 0⟩ p message)
  | .overrun => throw (.unreadable false ⟨expanded, 0⟩ expanded.size "")

/-! ### Error texts -/

/-- The number of characters in front of a word in a line, searched from `start` on. -/
def findFrom (line word : List Char) (start : Nat) : Option Nat :=
  (List.range' start (line.length + 1 - start)).find? fun i => word.isPrefixOf (line.drop i)

def ReadError.excerpt : ReadError → String
  | unreadable _ part p message =>
    Text.excerpt message (Text.lineAt part.text p) (part.linesBefore + Text.lineNumber part.text p)
      (Text.column part.text p)
  | refused part p e =>
    let line := Text.lineAt part.text p
    let col := p - Text.lineStart part.text p
    let (message, token) := match e with
      | .rejected message token => (message, token.getD "")
      | .unsupported message => (message, "")
      | .fault _ => ("", "")
    let col := if token.isEmpty then col else (findFrom line.toList token.toList col).getD col
    Text.excerpt message line (part.linesBefore + Text.lineNumber part.text p) col

def ReadError.printed : ReadError → String
  | e@(unreadable _ _ _ _) => e.excerpt ++ "\n"
  | refused _ _ (.rejected message token) => Error.rejectionText message token ++ "\n"
  | refused _ _ _ => ""

end Peephole.Elaborate
