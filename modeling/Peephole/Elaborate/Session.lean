import Peephole.Program.Build
import Peephole.Program.Condition
import Peephole.Reader.Step

/-!
# Sessions

The steps of reading an optimization are done one by one in a session, which holds the values found so far,
the names that stand for them, and the blocks of the program that is being read.  What a step found is kept
under its mark until its line has been read, and a step with a mark that was done before is left out.
-/

namespace Peephole.Elaborate

open Peephole.Program
open Peephole.Reader (Mark)

/-- The part of an optimization that is being read. -/
inductive Phase where
  | source | target | condition
  deriving Inhabited, Repr, DecidableEq

/-- What a step found. -/
inductive Meaning where
  | nothing
  | value (v : ValueId)
  | type (t : Ty)
  | typed (t : Ty) (v : ValueId)
  | draft (d : Draft)
  | condition (c : Condition)
  deriving Inhabited

structure Session where
  phase : Phase
  table : Table
  /-- The values by their names, or by the keys of those that have no name. -/
  names : Dict ValueId
  /-- The names that were used as operands. -/
  used : List String
  /-- The names of a target program that still stand for the source's values. -/
  skipped : List String
  labels : List String
  label : String
  blocks : Code
  place : Nat
  done : List (Mark × Meaning)
  deriving Inhabited

/-- A computation in a session; after an error the session is still there. -/
abbrev SessionM := ExceptT Error (StateM Session)

def reject {α : Type} (message : String) : SessionM α := throw (.reject message)

def stop {α : Type} (f : Fault) : SessionM α := throw (.fault f)

def build {α : Type} (m : BuildM α) : SessionM α := do
  match m.run (← get).table with
  | .ok (a, t) =>
    modify fun s => { s with table := t }
    return a
  | .error e => throw e

def check {α : Type} (r : Except Error α) : SessionM α :=
  match r with
  | .ok a => return a
  | .error e => throw e

def note (p : Nat) : SessionM Unit := modify fun s => { s with place := p }

def valueAt (v : ValueId) : SessionM Value := return (← get).table.get v

def putName (name : String) (v : ValueId) : SessionM Unit :=
  modify fun s => { s with names := s.names.put name v }

def putValue (v : ValueId) : SessionM Unit := do putName (← valueAt v).key v

/-- The value that a name stands for, which is then a used name. -/
def useName? (name : String) : SessionM (Option ValueId) := do
  let s ← get
  match s.names.get? name with
  | some v =>
    set { s with used := if s.used.contains name then s.used else name :: s.used }
    return some v
  | none => return none

def putInstr (key : String) (v : ValueId) : SessionM Unit := do
  putName key v
  modify fun s => { s with blocks := s.blocks.modify s.label fun b => b.put key v }

/-! ### Results of earlier steps -/

def meaning (m : Mark) : SessionM Meaning := do
  return (((← get).done.find? fun d => d.1 == m).map (·.2)).getD .nothing

def valueOf (m : Mark) : SessionM ValueId := do
  match ← meaning m with
  | .value v => return v
  | _ => stop .brokenInvariant

def typeOf (m : Mark) : SessionM Ty := do
  match ← meaning m with
  | .type t => return t
  | _ => stop .brokenInvariant

def typedOf (m : Mark) : SessionM (Ty × ValueId) := do
  match ← meaning m with
  | .typed t v => return (t, v)
  | _ => stop .brokenInvariant

def draftOf (m : Mark) : SessionM Draft := do
  match ← meaning m with
  | .draft d => return d
  | _ => stop .brokenInvariant

def conditionOf (m : Mark) : SessionM Condition := do
  match ← meaning m with
  | .condition c => return c
  | _ => stop .brokenInvariant

end Peephole.Elaborate
