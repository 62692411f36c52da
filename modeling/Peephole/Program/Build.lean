import Peephole.Program.Value

/-!
# Building values

Values are put into a table one by one.  A value takes a copy of its type, whose variables are named from the
place where the value stands.  The count of an array type is a value of its own that all copies of the type
share; its variable is named from the place that took a copy last.
-/

namespace Peephole.Program

abbrev BuildM := StateT Table (Except Error)

def freshText : BuildM String := do
  let (n, t) := (← get).freshNumber
  set t
  return toString n

def pushValue (v : Value) : BuildM ValueId := do
  let (i, t) := (← get).push v
  set t
  return i

def valueAt (i : ValueId) : BuildM Value := return (← get).get i

/-! ### Types -/

def nameCount (i : ValueId) (var : String) : BuildM Unit :=
  modify fun t => t.modify i fun v =>
    match v.op with
    | .count n lo hi _ => { v with op := .count n lo hi var }
    | _ => v

def elemsVar (place : String) : String := "val_" ++ place ++ "_elems"

/-- Name the variables of the counts in an open type. -/
def nameChoice (place : String) (c : Choice) : BuildM Unit :=
  match c.array with
  | some n => nameCount n.id (elemsVar place)
  | none => return ()

def nameCounts (place : String) : Ty → BuildM Unit
  | .int _ => return ()
  | .ptr t => nameCounts ("*" ++ place) t
  | .array n t => do
    nameCounts ("[" ++ place ++ "]") t
    nameCount n.id (elemsVar place)
  | .unknown c => nameChoice place c
  | .named name c here => do
    nameChoice name c
    nameCounts place here

def placed (place : String) (ty : Ty) : BuildM PlacedTy := do
  nameCounts place ty
  return ⟨place, ty⟩

def newInput (name : String) (ty : Ty) : BuildM ValueId := do
  pushValue ⟨name, name, some (← placed name ty), .input⟩

/-- A number that the typing fixes, given by the value `v`, which must be an integer. -/
def newCount (v : ValueId) (lo hi : Int) : BuildM ElemCount := do
  let value ← valueAt v
  match value.type with
  | some ⟨_, .int _⟩ =>
    let i ← pushValue ⟨value.name, value.name, none, .count v lo hi ""⟩
    return ⟨i, value.name⟩
  | some _ => throw (.fault .brokenInvariant)
  | none => throw (.fault .noSuchPart)

def newOpenCount : BuildM ElemCount := do
  let v ← newInput ("#" ++ (← freshText)) (.int (some 4))
  newCount v 1 7

def newUnknown : BuildM Ty := return .unknown (.full (← newOpenCount))

def newArray : BuildM Ty := return .array (← newOpenCount) (.int none)

def newNamed (name : String) : BuildM Ty := do
  let c ← newOpenCount
  return .named name (.full c) (← newUnknown)

/-! ### Constants -/

def newConstant (text : String) (ty : Ty) (op : Op) : BuildM ValueId := do
  nameCounts text ty
  let key := text ++ "_" ++ (← freshText)
  pushValue ⟨text, key, some (← placed key ty), op⟩

def literalText (n : Int) : Ty → String
  | .ptr _ => if n = 0 then "null" else toString n
  | .int (some 1) => if n = 1 then "true" else "false"
  | _ => toString n

def newLiteral (n : Int) (ty : Ty) : BuildM ValueId := newConstant (literalText n ty) ty (.literal n)

def newUndefined (ty : Ty) : BuildM ValueId := newConstant "undef" ty .undefined

def newUnary (op : UnaryConst) (v : ValueId) : BuildM ValueId := do
  newConstant (op.text ++ (← valueAt v).name) (.int none) (.unary op v)

def newBinary (op : BinaryConst) (a b : ValueId) : BuildM ValueId := do
  let text := "(" ++ (← valueAt a).name ++ " " ++ op.text ++ " " ++ (← valueAt b).name ++ ")"
  newConstant text (.int none) (.binary op a b)

/-- The rejection of a call with a wrong number of arguments. -/
def wrongArity (got expected : Nat) : Error :=
  .reject ("Wrong number of arguments (got " ++ toString got ++ ", expected " ++ toString expected ++ ")")

def newCall (fn : ConstFn) (args : List ValueId) : BuildM ValueId := do
  let names ← args.mapM fun i => return (← valueAt i).name
  let i ← newConstant (fn.text ++ "(" ++ ", ".intercalate names ++ ")") (.int none) (.call fn args)
  if args.length ≠ fn.arity then throw (wrongArity args.length fn.arity)
  return i

/-! ### Instructions -/

/-- An instruction before it has a register: its type, the type of its operand, and what it is. -/
structure Draft where
  type : Option Ty
  operandTy : Option Ty
  op : Op
  deriving Inhabited

def operandTyName : Op → String
  | .alloca _ _ _ => "elemsType"
  | _ => "stype"

def withOperandTy (p : PlacedTy) : Op → Op
  | .convert op _ v => .convert op p v
  | .icmp pred _ a b => .icmp pred p a b
  | .alloca _ n a => .alloca p n a
  | .load _ v a => .load p v a
  | .store _ s d a => .store p s d a
  | op => op

def Op.isLoad : Op → Bool
  | load _ _ _ => true
  | _ => false

def nameAllocated (name : String) : Op → BuildM Unit
  | .alloca _ n _ => nameCount n ("val_" ++ name ++ "_numElems")
  | _ => return ()

/-- Put the types of a drafted instruction at their places.  The pointer type of a `load` is made from the type that
is read, and names the counts that they share. -/
def placeDraft (name : String) (d : Draft) : BuildM (Option PlacedTy × Op) := do
  nameAllocated name d.op
  match d.operandTy with
  | none => return (← d.type.mapM (placed name), d.op)
  | some t =>
    let place := name ++ "_" ++ operandTyName d.op ++ "_" ++ (← freshText)
    if d.op.isLoad then
      let type ← d.type.mapM (placed name)
      return (type, withOperandTy (← placed place t) d.op)
    else
      let operand ← placed place t
      return (← d.type.mapM (placed name), withOperandTy operand d.op)

def newInstr (name : String) (d : Draft) : BuildM ValueId := do
  let (type, op) ← placeDraft name d
  pushValue ⟨name, name, type, op⟩

def newStore (d : Draft) : BuildM ValueId := do
  let (type, op) ← placeDraft "store" d
  let key := "store_" ++ (← freshText)
  let type ← type.mapM fun t => placed key t.ty
  pushValue ⟨"store", key, type, op⟩

def newBare (name : String) (op : Op) : BuildM ValueId := do
  pushValue ⟨name, name ++ "_" ++ (← freshText), none, op⟩

end Peephole.Program
