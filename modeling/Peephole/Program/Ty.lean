import Peephole.Error

/-!
# Types

The types of values: integers of a given or an open width, pointers, arrays, and types that are still to be
found.  An open type offers a `Choice` of kinds, one of which may have been chosen; a named type is an open
type that all places with the same name share.

The `ensure` functions narrow a type to what a place needs, or reject it.  `mostSpecific` picks the one of
two types that says more.
-/

namespace Peephole.Program

/-- The number of a value in the table of all values. -/
abbrev ValueId := Nat

inductive TyKind where
  | int | ptr | array
  deriving Inhabited, Repr, DecidableEq

namespace TyKind

/-- The number of the kind in constraints. -/
def code : TyKind → Int
  | int => 0
  | ptr => 1
  | array => 2

def all : List TyKind := [int, ptr, array]

end TyKind

/-- The element count of an array type: the value that holds it, and how that is written. -/
structure ElemCount where
  id : ValueId
  text : String
  deriving Inhabited, Repr, DecidableEq

/-- The kinds that an open type offers, and the one that was chosen.  The integers are of a given or an open
width; pointers and array elements are of integers of open width. -/
structure Choice where
  int : Option (Option Nat)
  ptr : Bool
  array : Option ElemCount
  chosen : Option TyKind
  deriving Inhabited, Repr, DecidableEq

inductive Ty where
  /-- Integers; the width may be open. -/
  | int (width : Option Nat)
  | ptr (pointee : Ty)
  | array (count : ElemCount) (elem : Ty)
  | unknown (choice : Choice)
  /-- An open type shared by all places with this name, and the type at this place. -/
  | named (name : String) (choice : Choice) (here : Ty)
  deriving Inhabited, Repr, DecidableEq

namespace Choice

/-- All kinds are possible; the array has the given count. -/
def full (count : ElemCount) : Choice := ⟨some none, true, some count, none⟩

def get? (c : Choice) : TyKind → Option Ty
  | .int => c.int.map .int
  | .ptr => if c.ptr then some (.ptr (.int none)) else none
  | .array => c.array.map fun n => .array n (.int none)

def offers (c : Choice) (k : TyKind) : Bool := (c.get? k).isSome

def kinds (c : Choice) : List TyKind := TyKind.all.filter c.offers

def types (c : Choice) : List Ty := TyKind.all.filterMap c.get?

def withoutArrays (c : Choice) : Except Error Choice :=
  if c.array.isSome then .ok { c with array := none } else .error (.fault .noSuchEntry)

end Choice

namespace Ty

/-- The type as it is written; open widths and open types are not written. -/
def text : Ty → String
  | int none => ""
  | int (some w) => "i" ++ toString w
  | ptr t => t.text ++ "*"
  | array n t => "[" ++ n.text ++ " x " ++ t.text ++ "]"
  | unknown _ => ""
  | named name _ _ => name

def kind? : Ty → Option TyKind
  | int _ => some .int
  | ptr _ => some .ptr
  | array _ _ => some .array
  | _ => none

def isOpen : Ty → Bool
  | unknown _ => true
  | named _ _ _ => true
  | _ => false

/-- Whether the type is an integer type, of any width. -/
def isInt : Ty → Bool
  | int _ => true
  | _ => false

def isPtr : Ty → Bool
  | ptr _ => true
  | _ => false

def mismatch {α : Type} (t : Ty) (expected : String) : Except Error α :=
  .error (.rejected (expected ++ " type required") (some t.text))

def ensureInt (t : Ty) (width : Option Nat) : Except Error Ty :=
  match t with
  | int w =>
    match w, width with
    | some a, some b => if a = b then .ok t else .error (.fault .brokenInvariant)
    | none, some b => .ok (int (some b))
    | _, none => .ok t
  | unknown _ => .ok (int width)
  | named name c here => do
    let c := { c with chosen := some .int }
    let c := if width.isSome then { c with int := some width } else c
    return named name c (← ensureInt here width)
  | t => t.mismatch "int"

def ensurePtr : Ty → Except Error Ty
  | ptr t => .ok (ptr t)
  | unknown _ => .ok (ptr (int none))
  | named name c here => do
    return named name { c with chosen := some .ptr } (← here.ensurePtr)
  | t => t.mismatch "pointer"

/-- The type as one without arrays; `expected` says so in a rejection. -/
def ensureNoArray (expected : String) : Ty → Except Error Ty
  | unknown c => do return unknown (← c.withoutArrays)
  | named name c here => do return named name (← c.withoutArrays) here
  | array n t => (array n t).mismatch expected
  | t => .ok t

def ensureFirstClass : Ty → Except Error Ty := ensureNoArray "first class"

def ensureComparable : Ty → Except Error Ty := ensureNoArray "int/ptr/vector"

/-- Whether the first of two types is the one that says more, where it is not the second; an error if they
contradict each other. -/
def preferFirst : Ty → Ty → Except Error Bool
  | unknown _, _ => .ok false
  | named _ _ _, _ => .ok false
  | _, unknown _ => .ok true
  | _, named _ _ _ => .ok true
  | int a, int b =>
    if a.isSome ∧ b.isSome ∧ a ≠ b then contradiction (int a) (int b) else .ok a.isSome
  | ptr a, ptr b => preferFirst a b
  | array _ _, array _ _ => .error (.fault .brokenInvariant)
  | a, b => contradiction a b
where
  contradiction (a b : Ty) : Except Error Bool :=
    .error (.reject ("Type mismatch: " ++ a.text ++ " vs " ++ b.text))

/-- The one of two types that says more. -/
def mostSpecific (a b : Ty) : Except Error Ty := do
  return if ← preferFirst a b then a else b

end Ty

end Peephole.Program
