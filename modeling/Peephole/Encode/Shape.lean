import Peephole.Encode.Size
import Peephole.Program.Value
import Peephole.Typing.Relate

/-!
# Sizes under a typing

A typing gives a number to each type variable.  It settles what an open type is, and with the width of pointers
it gives each type its size in bits.
-/

namespace Peephole.Encode

open Program
open Typing (Assignment kindVar sizeVar pointeePlace elemPlace)

/-- A typing of the values of a table: numbers for the type variables, and the width of pointers. -/
structure Shape where
  values : Assignment
  ptrWidth : Nat

instance : Inhabited Shape := ⟨⟨fun _ => 0, 32⟩⟩

namespace Shape

def kindOfCode? (n : Int) : Option TyKind := TyKind.all.find? fun k => k.code == n

/-- The type that an open type at a place has, with its place. -/
def settleChoice (s : Shape) (p : String) (c : Choice) : Except Error (String × Ty) :=
  match kindOfCode? (s.values (kindVar p)) with
  | none => .error (.fault .noSuchEntry)
  | some k =>
    match c.get? k with
    | none => .error (.fault .noSuchEntry)
    | some t => .ok (p, t)

/-- The type at a place that is no longer open, with its place. -/
def settle (s : Shape) (p : String) : Ty → Except Error (String × Ty)
  | .unknown c => s.settleChoice p c
  | .named name c _ => s.settleChoice name c
  | t => .ok (p, t)

/-- The size of a type that is not open; `countVar` gives the variables of element counts. -/
def sizeOfClosed (s : Shape) (countVar : ValueId → String) (p : String) : Ty → Except Error Nat
  | .int (some w) => .ok w
  | .int none => .ok (s.values (sizeVar p)).toNat
  | .ptr _ => .ok s.ptrWidth
  | .array n t => do
    return (s.values (countVar n.id)).toNat * (← s.sizeOfClosed countVar (elemPlace p) t)
  | .unknown c => openSize p c
  | .named name c _ => openSize name c
where
  openSize (p : String) (c : Choice) : Except Error Nat :=
    match kindOfCode? (s.values (kindVar p)) with
    | some .int =>
      match c.int with
      | some (some w) => .ok w
      | some none => .ok (s.values (sizeVar p)).toNat
      | none => .error (.fault .noSuchEntry)
    | some .ptr => if c.ptr then .ok s.ptrWidth else .error (.fault .noSuchEntry)
    | some .array =>
      match c.array with
      | some n => .ok ((s.values (countVar n.id)).toNat * (s.values (sizeVar (elemPlace p))).toNat)
      | none => .error (.fault .noSuchEntry)
    | none => .error (.fault .noSuchEntry)

/-- What a settled pointer type points to, with its place. -/
def pointee (s : Shape) (p : String) (t : Ty) : Except Error (String × Ty) := do
  let isOpen := t.isOpen
  let (p, t) ← s.settle p t
  match t with
  | .ptr t => return (pointeePlace p, t)
  | _ => throw (.fault (if isOpen then .brokenInvariant else .noSuchPart))

/-- What a settled pointer or array type is made of, with its place. -/
def underlying (s : Shape) (p : String) (t : Ty) : Except Error (String × Ty) := do
  let isOpen := t.isOpen
  let (p, t) ← s.settle p t
  match t with
  | .ptr t => return (pointeePlace p, t)
  | .array _ t => return (elemPlace p, t)
  | _ => throw (.fault (if isOpen then .brokenInvariant else .noSuchPart))

/-- The type at a place as it is shown.  A number that the typing leaves open is shown as `None`; there is no
text if it leaves a kind open. -/
def typeText? (s : Shape) (known : String → Bool) : Nat → String → Option String
  | 0, _ => none
  | depth + 1, p =>
    let number (v : String) : String := if known v then toString (s.values v) else "None"
    if !known (kindVar p) then none
    else match kindOfCode? (s.values (kindVar p)) with
      | some .int => some ("i" ++ number (sizeVar p))
      | some .ptr => do return (← s.typeText? known depth (pointeePlace p)) ++ "*"
      | some .array => do
        let elem ← s.typeText? known depth (elemPlace p)
        return "[" ++ number ("val_" ++ p ++ "_elems") ++ " x " ++ elem ++ "]"
      | none => none

end Shape

end Peephole.Encode
