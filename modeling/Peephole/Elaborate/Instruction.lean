import Peephole.Elaborate.Operand

/-!
# Instructions

An instruction is drafted when its phrase has been read, and becomes a value when the register that it defines
is known.
-/

namespace Peephole.Elaborate

open Peephole.Program
open Peephole.Reader (Mark Operand Need)

def typedOperand (need : Need) (type : Mark) (o : Operand) : SessionM (Ty × ValueId) := do
  let t ← typeOf type
  let t ← check <| match need with
    | .any => .ok t
    | .int => t.ensureInt none
    | .bool => t.ensureInt (some 1)
    | .ptr => t.ensurePtr
  let (v, t) ← operand o t
  return (t, v)

/-- The place holder for the type of an operand before it has a place. -/
def unplaced : PlacedTy := ⟨"", .int none⟩

/-- The pointer type, without which the instruction cannot be built. -/
def pointer (t : Ty) : SessionM Ty :=
  match t with
  | .ptr p => return p
  | _ => stop .brokenInvariant

def copy (type : Mark) (o : Operand) : SessionM Draft := do
  let (v, t) ← operand o (← typeOf type)
  return ⟨some t, none, .copy v⟩

def icmp (pred : String) (first : Mark) (second : Operand) : SessionM Draft := do
  let (t, v1) ← typedOf first
  let (v2, t) ← operand second t
  let t ← check t.ensureComparable
  return ⟨some (.int (some 1)), some t, .icmp (.ofText pred) unplaced v1 v2⟩

def select (cond type1 : Mark) (o1 : Operand) (type2 : Mark) (o2 : Operand) : SessionM Draft := do
  let t ← check (Ty.mostSpecific (← typeOf type1) (← typeOf type2))
  let (v1, t) ← operand o1 t
  let (v2, t) ← operand o2 t
  let c := (← typedOf cond).2
  match (← valueAt c).type with
  | some ⟨_, .int _⟩ => return ⟨some (← check t.ensureFirstClass), none, .select c v1 v2⟩
  | some _ => stop .brokenInvariant
  | none => stop .noSuchPart

def alloca (type count : Mark) (align : Nat) : SessionM Draft := do
  let t ← typeOf type
  let (countTy, n) ← typedOf count
  if !countTy.isInt then stop .brokenInvariant
  let n ← build (newCount n 1 16)
  return ⟨some (.ptr t), some countTy, .alloca unplaced n.id align⟩

/-- An address computation. -/
def gep (inbounds : Bool) (ptr : Mark) (indices : List Mark) : SessionM Draft := do
  let (t, v) ← typedOf ptr
  let _ ← pointer t
  let is ← indices.mapM typedOf
  if !is.all fun i => i.1.isInt then stop .brokenInvariant
  return ⟨some t, none, .gep v (is.map (·.2)) inbounds⟩

def load (ptr : Mark) (align : Nat) : SessionM Draft := do
  let (t, v) ← typedOf ptr
  let p ← check (← pointer t).ensureFirstClass
  return ⟨some p, some (.ptr p), .load unplaced v align⟩

def arith (op : String) (flags : List String) (type : Mark) (o1 o2 : Operand) : SessionM Draft := do
  let t ← check ((← typeOf type).ensureInt none)
  match ArithOp.all.find? fun a => a.text == op with
  | none => reject "Unknown binary instruction"
  | some a =>
    let (v1, t) ← operand o1 t
    let (v2, t) ← operand o2 t
    let flags ← flags.mapM fun f =>
      match a.flags.find? fun g => g.text == f with
      | some g => pure g
      | none => throw (.rejected ("Flag not supported by " ++ a.text) (some f))
    return ⟨some t, none, .arith a v1 v2 flags⟩

def convert (op : String) (type : Mark) (o : Operand) (target : Mark) : SessionM Draft := do
  match ConvertOp.all.find? fun c => c.text == op with
  | none => reject "Unknown conversion instruction"
  | some c =>
    let s ← typeOf type
    let s ← check <| if c.fromInt then s.ensureInt none else if c.fromPtr then s.ensurePtr else .ok s
    let t ← typeOf target
    let t ← check <| if c.toInt then t.ensureInt none else if c.toPtr then t.ensurePtr else .ok t
    let (v, s) ← operand o s
    return ⟨some t, some s, .convert c unplaced v⟩

/-- Define a register.  A register of the source may be defined again in the target. -/
def define (reg : String) (instr : Mark) : SessionM Unit := do
  let s ← get
  if s.names.has reg then
    if s.skipped.contains reg then
      set { s with
        skipped := s.skipped.filter (· != reg)
        blocks := List.map (fun (b : String × Dict ValueId) => (b.1, Dict.erase b.2 reg)) s.blocks
        names := Dict.erase s.names reg }
    else reject "Redefinition of register"
  let v ← build (newInstr reg (← draftOf instr))
  putInstr reg v

def store (source ptr : Mark) (align : Nat) : SessionM Unit := do
  let (t, src) ← typedOf source
  let (p, dst) ← typedOf ptr
  let _ ← pointer p
  let t ← check t.ensureFirstClass
  let v ← build (newStore ⟨some p, some t, .store unplaced src dst align⟩)
  putInstr (← valueAt v).key v

def bare (name : String) (op : Op) : SessionM Unit := do
  let v ← build (newBare name op)
  putInstr (← valueAt v).key v

/-- The start of a block; what the block held before is lost. -/
def startBlock (name : String) : SessionM Unit := do
  let s ← get
  if s.labels.contains name then reject "Redefinition of BB label"
  set { s with label := name, blocks := s.blocks.put name [], labels := name :: s.labels }

def terminator (name : String) (type : Option Ty) (op : Op) : SessionM Unit := do
  let name := name ++ "_" ++ (← get).label
  putInstr name (← build (newInstr name ⟨type, none, op⟩))

def br (cond : Mark) (l1 l2 : String) : SessionM Unit := do
  terminator "br" none (.br (← typedOf cond).2 l1 l2)

def ret (value : Mark) : SessionM Unit := do
  let (t, v) ← typedOf value
  terminator "ret" (some t) (.ret v)

end Peephole.Elaborate
