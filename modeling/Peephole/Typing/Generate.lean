import Peephole.Program.Value
import Peephole.Typing.Relate

/-!
# Constraints of programs

The typing constraints of the values of a table.  Relating two types can settle open types, so the table is
carried along: the constraints of later values see the types as earlier ones have left them.
-/

namespace Peephole.Typing

open Program

abbrev TableM := StateT Table (Except Error)

/-- The two places for types in a value: its own type, and the type of its operand. -/
inductive Slot where
  | result | operand
  deriving Inhabited, Repr, DecidableEq

structure Place where
  value : ValueId
  slot : Slot
  deriving Inhabited, Repr, DecidableEq

namespace Place

def operandTy? : Op → Option PlacedTy
  | .convert _ s _ => some s
  | .icmp _ s _ _ => some s
  | .alloca s _ _ => some s
  | .load s _ _ => some s
  | .store s _ _ _ => some s
  | _ => none

def setOperandTy (t : PlacedTy) : Op → Op
  | .convert op _ v => .convert op t v
  | .icmp p _ a b => .icmp p t a b
  | .alloca _ n a => .alloca t n a
  | .load _ v a => .load t v a
  | .store _ s d a => .store t s d a
  | op => op

def read (p : Place) : TableM PlacedTy := do
  let v := (← get).get p.value
  let t := match p.slot with
    | .result => v.type
    | .operand => operandTy? v.op
  match t with
  | some t => return t
  | none => throw (.fault .noSuchPart)

def write (p : Place) (t : Ty) : TableM Unit :=
  modify fun table => table.modify p.value fun v =>
    match p.slot with
    | .result => { v with type := v.type.map fun old => { old with ty := t } }
    | .operand =>
      let op := match operandTy? v.op with
        | some old => setOperandTy { old with ty := t } v.op
        | none => v.op
      { v with op := op }

end Place

def own (i : ValueId) : Place := ⟨i, .result⟩

def ofOperand (i : ValueId) : Place := ⟨i, .operand⟩

/-- The variable of a number that the typing fixes. -/
def countVarIn (table : Table) (i : ValueId) : String :=
  match (table.get i).op with
  | .count _ _ _ var => var
  | _ => ""

def equal (p q : Place) : TableM Constraint := do
  let s ← p.read
  let t ← q.read
  let (c, s', t') ← (equate (countVarIn (← get)) s.place t.place s.ty t.ty : Except Error _)
  p.write s'
  q.write t'
  return c

/-- The condition that the type at `p` equals what the type at `q` points to. -/
def equalPointee (p q : Place) : TableM Constraint := do
  let t ← q.read
  let (place, target, rebuild) ← (pointee t.place t.ty : Except Error _)
  q.write (rebuild target)
  let s ← p.read
  let (c, s', target') ← (equate (countVarIn (← get)) s.place place s.ty target : Except Error _)
  p.write s'
  q.write (rebuild target')
  return c

/-- The condition that the width at `p` is in relation to the width at `q`. -/
def related (r : Relation) (p q : Place) : TableM Constraint := do
  let s ← p.read
  let t ← q.read
  let (c, s', t') ← (compareWidths r s.place t.place s.ty t.ty : Except Error _)
  p.write s'
  q.write t'
  return c

def relatedTo (r : Relation) (p : Place) (n : Int) : TableM Constraint := do
  let s ← p.read
  let (c, s') ← (compareWidth r s.place n s.ty : Except Error _)
  p.write s'
  return c

/-- The condition that the type at `p` is the integer type of the given width. -/
def hasWidth (p : Place) (n : Int) : TableM Constraint := do
  let s ← p.read
  (equateWidth s.place n s.ty : Except Error _)

def hasKind (p : Place) (k : TyKind) : TableM Constraint := do
  let s ← p.read
  return kindIs (ownPlace s.place s.ty) k

/-- The kind at the first place is `k`, and the types at all places are equal. -/
def allEqual (k : TyKind) : List ValueId → TableM (List Constraint)
  | [] => return []
  | i :: is => do
    let c ← hasKind (own i) k
    let cs ← is.mapM fun j => equal (own i) (own j)
    return c :: cs

/-! ### Constraints of types -/

def widthRange (p : String) : Constraint :=
  .and [.rel .gt (.var (sizeVar p)) (.const 0), .rel .le (.var (sizeVar p)) (.const 64)]

/-- The condition on the variables of an integer type. -/
def intConstraint (p : String) : Option Nat → Constraint
  | some w => .and [kindIs p .int, .varIs (sizeVar p) w]
  | none => .and [kindIs p .int, widthRange p]

section Types

variable (count : ValueId → TableM Constraint)

/-- The condition on the variables of the alternative of one kind of an open type. -/
def kindConstraint (p : String) (c : Choice) : TyKind → TableM Constraint
  | .int =>
    match c.int with
    | some w => return intConstraint p w
    | none => throw (.fault .noSuchEntry)
  | .ptr =>
    if c.ptr then return .and [kindIs p .ptr, intConstraint (pointeePlace p) none]
    else throw (.fault .noSuchEntry)
  | .array =>
    match c.array with
    | some n => do
      return .and [kindIs p .array, ← count n.id, intConstraint (elemPlace p) none]
    | none => throw (.fault .noSuchEntry)

def openConstraint (p : String) (c : Choice) : TableM Constraint := do
  match c.chosen with
  | some k => kindConstraint count p c k
  | none => return anyOf (← c.kinds.mapM (kindConstraint count p c))

/-- The condition on the variables of a type that has no name in it. -/
def plainConstraint (p : String) : Ty → TableM Constraint
  | .int w => return intConstraint p w
  | .ptr t => do return .and [kindIs p .ptr, ← plainConstraint (pointeePlace p) t]
  | .array n t => do
    return .and [kindIs p .array, ← count n.id, ← plainConstraint (elemPlace p) t]
  | .unknown c => openConstraint count p c
  | .named _ _ _ => throw (.fault .noSuchPart)

/-- The condition on the variables of a type, and the type afterwards; `count` gives the condition on an
element count. -/
def tyConstraint (p : String) : Ty → TableM (Constraint × Ty)
  | .int w => return (intConstraint p w, .int w)
  | .ptr t => do
    let (c, t) ← tyConstraint (pointeePlace p) t
    return (.and [kindIs p .ptr, c], .ptr t)
  | .array n t => do
    let e ← count n.id
    let (c, t) ← tyConstraint (elemPlace p) t
    return (.and [kindIs p .array, e, c], .array n t)
  | .unknown c => do return (← openConstraint count p c, .unknown c)
  | .named name c here => do
    let (e, c, here) ← (equateOpen (countVarIn (← get)) c name p here : Except Error _)
    let e1 ← openConstraint count name c
    let e2 ← plainConstraint count p here
    return (.and [e, e1, e2], .named name c here)

end Types

/-- The bits of a number, with a sign bit in front of those that are not negative. -/
def signedBits (n : Int) : Int :=
  (if n = 0 then 0 else (n.natAbs.log2 + 1 : Int)) + (if 0 ≤ n then 1 else 0)

/-! ### Constraints of values -/

section Values

variable (sub : ValueId → TableM Constraint)

/-- The condition on the variables of the type at a place; `sub` gives the conditions on other values. -/
def placeConstraint (p : Place) : TableM Constraint := do
  let t ← p.read
  let (c, t') ← tyConstraint sub t.place t.ty
  p.write t'
  return c

/-- The type of a value that must be an integer type by its form: the width, if it is given. -/
def definedWidth (i : ValueId) : TableM (Option Nat) := do
  match (← (own i).read).ty with
  | .int w => return w
  | _ => throw (.fault .noSuchPart)

/-- The condition that a function asks of the types of its arguments and its result. -/
def callConstraint (i : ValueId) : ConstFn → List ValueId → TableM (List Constraint)
  | .abs, [a] | .knownOnes, [a] | .knownZeros, [a] => allEqual .int [a, i]
  | .signBits, [a] | .leadingZeros, [a] | .trailingZeros, [a] | .log2, [a] => allEqual .int [a]
  | .lshr, [a, b] | .max, [a, b] | .umax, [a, b] => allEqual .int [a, b, i]
  | .sext, [a] => return [← related .lt (own a) (own i)]
  | .trunc, [a] => return [← related .lt (own i) (own a)]
  | .zext, [a] => return [← related .gt (own i) (own a)]
  | .width, [_] => return []
  | _, _ => throw (.fault .badOperands)

def convertConstraint (i : ValueId) : ConvertOp → TableM Constraint
  | .trunc => related .gt (ofOperand i) (own i)
  | .zext | .sext => related .lt (ofOperand i) (own i)
  | .zextOrTrunc | .ptrToInt | .intToPtr => return .lit true
  | .bitcast => do
    let s ← (ofOperand i).read
    let t ← (own i).read
    let countVar := countVarIn (← get)
    let a ← (sizeExpr countVar s.place s.ty : Except Error _)
    let b ← (sizeExpr countVar t.place t.ty : Except Error _)
    return .rel .eq a b

/-- The condition on a number that the typing fixes. -/
def countConstraint (v : ValueId) (lo hi : Int) (var : String) : TableM Constraint := do
  let c ← sub v
  match (← get).get v with
  | { op := .literal n, .. } =>
    let value := Constraint.varIs var n
    match ← definedWidth v with
    | none => return .allOf [c, value, ← hasWidth (own v) (signedBits hi)]
    | some _ => return .allOf [c, value]
  | _ =>
    let range (lo hi : Int) : List Constraint :=
      [.rel .ge (.var var) (.const lo), .rel .le (.var var) (.const hi)]
    match ← definedWidth v with
    | some w =>
      let top : Int := (1 <<< w : Nat) - 1
      return .allOf (c :: range (min lo top) (min hi top))
    | none => return .allOf ((c :: range lo hi) ++ [← relatedTo .ge (own v) (signedBits hi)])

/-- The condition on the types of a value and, for constants, on those of its operands. -/
def valueConstraint (i : ValueId) : TableM Constraint := do
  let type := placeConstraint sub (own i)
  let operandType := placeConstraint sub (ofOperand i)
  match ((← get).get i).op with
  | .input | .undefined => type
  | .literal n =>
    let c ← type
    if n ≠ 0 then
      match ← definedWidth i with
      | none => return .and [c, ← relatedTo .ge (own i) (signedBits n)]
      | some _ => return c
    else return c
  | .unary _ v =>
    let e ← equal (own i) (own v)
    let c ← sub v
    return .allOf [e, c, ← type]
  | .binary _ a b =>
    let e1 ← equal (own i) (own a)
    let e2 ← equal (own i) (own b)
    let c1 ← sub a
    let c2 ← sub b
    return .allOf [e1, e2, c1, c2, ← type]
  | .call fn args =>
    let cs ← callConstraint i fn args
    let as ← args.mapM sub
    let t ← type
    return .allOf (as ++ [t] ++ cs)
  | .count v lo hi var => countConstraint sub v lo hi var
  | .copy v => return .and [← equal (own i) (own v), ← type]
  | .arith _ a b _ => return .and [← equal (own i) (own a), ← equal (own i) (own b), ← type]
  | .convert op _ v =>
    let c ← convertConstraint i op
    let e ← equal (ofOperand i) (own v)
    return .and [e, ← type, ← operandType, c]
  | .icmp _ _ a b =>
    let e1 ← equal (ofOperand i) (own a)
    let e2 ← equal (ofOperand i) (own b)
    return .and [e1, e2, ← type, ← operandType]
  | .select c a b =>
    let e1 ← equal (own i) (own a)
    let e2 ← equal (own i) (own b)
    let e3 ← hasWidth (own c) 1
    return .and [e1, e2, e3, ← type]
  | .alloca _ n _ =>
    match ((← get).get n).op with
    | .count v _ _ _ =>
      let e ← equal (own v) (ofOperand i)
      return .and [e, ← type, ← operandType, ← sub n]
    | _ => throw (.fault .noSuchPart)
  | .gep p indices _ =>
    let t ← (own i).read
    let d ← (depthIs t.place t.ty indices.length : Except Error _)
    let cs ← indices.mapM sub
    let c ← sub p
    return .and [d, .allOf (cs ++ [c, ← type])]
  | .load _ v _ =>
    let e1 ← equal (ofOperand i) (own v)
    let e2 ← equalPointee (own i) (own v)
    return .and [e1, e2, ← type]
  | .store _ src dst _ =>
    let e1 ← equalPointee (ofOperand i) (own i)
    let e2 ← equal (own src) (ofOperand i)
    let e3 ← equal (own dst) (own i)
    return .and [e1, e2, e3, ← operandType, ← type]
  | .skip | .unreachable => return .lit true
  | .br c _ _ => sub c
  | .ret v => return .and [← equal (own i) (own v), ← type]

end Values

def constraint (i : ValueId) : TableM Constraint :=
  valueConstraint (fun j => if _h : j < i then constraint j else throw (.fault .noSuchEntry)) i
termination_by i

/-- The conditions on the types of the values under the names of a table; returned values have the same
type. -/
def constraints (names : Dict ValueId) : TableM (List Constraint) := do
  let cs ← names.mapM fun e => constraint e.2
  let table ← get
  let returns := (names.map (·.2)).filter fun i =>
    match (table.get i).op with
    | .ret _ => true
    | _ => false
  match returns with
  | [] => return cs
  | r :: rs => return cs ++ (← rs.mapM fun j => equal (own r) (own j))

end Peephole.Typing
