import Peephole.Elaborate.Session
import Peephole.Text.CharClass

/-!
# Operands and constant expressions

A name that is not known yet is an input; only a source program may have new ones.  Constants and constant
expressions become values of their own each time they are read.
-/

namespace Peephole.Elaborate

open Peephole.Program
open Peephole.Reader (Mark Operand)

/-- The type of a place after an operand there made it an integer type: an open type is left as it is, as the
operand has a type of its own. -/
def keepOpen (before after : Ty) : Ty :=
  match before with
  | .unknown _ => before
  | _ => after

def numeral (s : String) : SessionM Int :=
  match Text.integer? s.toList with
  | some n => return n
  | none => stop .badNumeral

/-- A name: the value that it stands for, or a new input. -/
def nameOperand (name : String) (ty : Ty) : SessionM (ValueId × Ty) := do
  match ← useName? name with
  | some v => return (v, ty)
  | none =>
    match (← get).phase with
    | .target => reject "Cannot declare new input variables or constants in Target"
    | .condition => reject "Cannot declare new input variables or constants in the precondition"
    | .source =>
      let t ← if name.startsWith "C" then check (ty.ensureInt none) else pure ty
      let v ← build (newInput name t)
      putName name v
      return (v, if name.startsWith "C" then keepOpen ty t else ty)

/-- A literal of the type that the place takes on for it. -/
def literalOperand (n : Int) (ty narrowed : Ty) : SessionM (ValueId × Ty) := do
  let v ← build (newLiteral n narrowed)
  putValue v
  return (v, keepOpen ty narrowed)

/-- The value of a word at a place of the given type, and the type that the place has then. -/
def wordOperand (s : String) (ty : Ty) : SessionM (ValueId × Ty) := do
  if s.startsWith "%" || s.startsWith "C" then
    nameOperand s ty
  else if s = "undef" then
    let v ← build (newUndefined ty)
    putValue v
    return (v, ty)
  else if s = "true" then literalOperand 1 ty (← check (ty.ensureInt (some 1)))
  else if s = "false" then literalOperand 0 ty (← check (ty.ensureInt (some 1)))
  else if s = "null" then literalOperand 0 ty (← check ty.ensurePtr)
  else
    let n ← numeral s
    literalOperand n ty (← check (ty.ensureInt none))

/-- The value of an operand at a place of the given type, and the type that the place has then. -/
def operand (o : Operand) (ty : Ty) : SessionM (ValueId × Ty) := do
  match o with
  | .word p s =>
    note p
    wordOperand s ty
  | .call p m =>
    note p
    let v ← valueOf m
    putValue v
    return (v, ty)
  | .expr m =>
    let v ← valueOf m
    putValue v
    return (v, ty)
  | .undefined => wordOperand "undef" ty

def isNumber (s : String) : Bool :=
  match s.toList with
  | c :: _ => c == '-' || Text.isDigit c
  | [] => false

def constant (o : Operand) : SessionM ValueId := do
  match o with
  | .expr m => valueOf m
  | .call _ m => valueOf m
  | .undefined => return (← operand o (.int none)).1
  | .word p s =>
    if isNumber s then
      build (newLiteral (← numeral s) (.int none))
    else
      note p
      if s.startsWith "%" then reject "Only constants allowed in expressions"
      match ← useName? s with
      | some v => return v
      | none =>
        if (← get).phase = .condition then reject "Identifier used in precondition was not defined"
        return (← operand o (.int none)).1

/-- Expressions are not allowed in a source program. -/
def notInSource : SessionM Unit := do
  if (← get).phase = .source then reject "Expressions not allowed in Source"

def call (name : String) (args : List Operand) : SessionM ValueId := do
  notInSource
  match ConstFn.all.find? fun f => f.text == name with
  | none => reject "Unknown function:"
  | some fn =>
    let values ← args.mapM fun a => do return (← operand a (← build newUnknown)).1
    build (newCall fn values)

def negation (op : String) (arg : Operand) : SessionM ValueId := do
  notInSource
  let v ← constant arg
  build (newUnary (if op = "~" then .not else .neg) v)

/-- Operators of one level from left to right. -/
def chain (first : Operand) (rest : List (String × Operand)) : SessionM ValueId := do
  let v ← constant first
  rest.foldlM (fun v (s, o) => do
    notInSource
    let w ← constant o
    match BinaryConst.all.find? fun b => b.text == s with
    | some op => build (newBinary op v w)
    | none => stop .brokenInvariant) v

def starred (t : Ty) : Nat → Ty
  | 0 => t
  | n + 1 => starred (.ptr t) n

end Peephole.Elaborate
