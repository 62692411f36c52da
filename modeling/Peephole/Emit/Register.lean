import Peephole.Emit.Generator
import Peephole.Program.Condition

/-!
# What values require of types

Each value requires something of its own type and of the types of its operands, and some of these types have to
be equal.
-/

namespace Peephole.Emit

open Program

def anyType : Ty := .unknown (.full default)

/-- Any type that is no array. -/
def scalarType : Ty := .unknown { Choice.full default with array := none }

def anyPointer : Ty := .ptr (.int none)

def anyInt : Ty := .int none

def typeOf (v : Value) : EmitM Ty :=
  match v.type with
  | some t => return t.ty
  | none => fail .noSuchPart

/-- What a value requires; `sub` registers what the operands of a constant expression require. -/
def registerWith (sub : ValueId → EmitM Unit) (i : ValueId) : EmitM Unit := do
  let v ← valueAt i
  match v.op with
  | .input =>
    registerType i (← typeOf v) (if v.name.startsWith "C" then anyInt else anyType)
  | .literal _ =>
    let t ← typeOf v
    registerType i t (if t.isPtr then anyPointer else anyInt)
  | .undefined => registerType i (← typeOf v) anyType
  | .unary _ x =>
    sub x
    registerType i (← typeOf v) anyInt
    unify [i, x]
  | .binary _ x y =>
    sub x
    sub y
    registerType i (← typeOf v) anyInt
    unify [i, x, y]
  | .call fn args =>
    args.forM sub
    registerType i (← typeOf v) anyInt
    match fn with
    | .abs | .knownOnes | .knownZeros => unify (i :: args.take 1)
    | .lshr | .max | .umax => unify (i :: args)
    | _ => return
  | .copy x =>
    registerType i (← typeOf v) anyType
    unify [i, x]
  | .arith _ x y _ =>
    registerType i (← typeOf v) anyInt
    unify [i, x, y]
  | .convert op source x =>
    registerType x source.ty (if op.fromInt then anyInt else if op.fromPtr then anyPointer else anyType)
    registerType i (← typeOf v) (if op.toInt then anyInt else if op.toPtr then anyPointer else anyType)
  | .icmp _ operand x y =>
    registerType i (← typeOf v) (.int (some 1))
    registerType x operand.ty scalarType
    unify [x, y]
  | .select c x y =>
    registerType i (← typeOf v) scalarType
    registerType c (← typeOf (← valueAt c)) (.int (some 1))
    unify [i, x, y]
  | _ => fail .noSuchPart

def register (i : ValueId) : EmitM Unit :=
  registerWith (fun j => if _h : j < i then register j else fail .noSuchEntry) i
termination_by i

mutual

def registerCondition : Condition → EmitM Unit
  | .always => return
  | .not c => registerCondition c
  | .both cs | .either cs => registerConditions cs
  | .compare _ x y => do
    register x
    register y
    unify [x, y]
  | .test t args => do
    args.forM register
    match t with
    | .maskedIsZero | .noSignedAdd => unify args
    | _ => return

/-- What the values of several preconditions require. -/
def registerConditions : List Condition → EmitM Unit
  | [] => return
  | c :: cs => do
    registerCondition c
    registerConditions cs

end

end Peephole.Emit
