import Peephole.Program.Ty
import Peephole.Typing.Constraint

/-!
# Relations between types

The conditions under which two types are equal, or one is wider than the other, as constraints on their type
variables.  A relation can settle the kind of an open type, so each function gives back the types as they
are afterwards.

A type stands at a place with a name.  The variables of a pointee are named from `*` and the name, those of an
array element from the name between brackets, and those of a named type from its own name.
-/

namespace Peephole.Typing

open Program

def kindVar (place : String) : String := "t_" ++ place

/-- The variable for the width of an integer type at a place. -/
def sizeVar (place : String) : String := "size_" ++ place

def pointeePlace (place : String) : String := "*" ++ place

def elemPlace (place : String) : String := "[" ++ place ++ "]"

/-- The place from whose name the variables of a type are named. -/
def ownPlace (place : String) : Ty → String
  | .named name _ _ => name
  | _ => place

/-- Both kinds of variables of a type are settled: the kind at the place is `k`. -/
def kindIs (place : String) (k : TyKind) : Constraint := .varIs (kindVar place) k.code

/-- The disjunction, without what is plainly false. -/
def anyOf (cs : List Constraint) : Constraint :=
  match cs.filter fun | .lit b => b | _ => true with
  | [] => .lit false
  | [c] => c
  | cs => .or cs

def choice? : Ty → Option Choice
  | .unknown c => some c
  | .named _ c _ => some c
  | _ => none

def setChoice (t : Ty) (c : Choice) : Ty :=
  match t with
  | .unknown _ => .unknown c
  | .named name _ here => .named name c here
  | t => t

/-! ### Equality

An alternative of an open type is at most one step deep, so it is compared with another type without going
further. -/

section Equality

variable (countVar : ValueId → String)

def sizesEqual (p q : String) : Constraint := .rel .eq (.var (sizeVar p)) (.var (sizeVar q))

/-- The counts of two arrays are equal; `none` where one of the types is no array. -/
def countsEqual : Option ElemCount → Option ElemCount → Constraint
  | some m, some n => .rel .eq (.var (countVar m.id)) (.var (countVar n.id))
  | _, _ => .lit false

/-- The condition that the alternatives of kind `k` of two open types are equal. -/
def alternativesEqual (c d : Choice) (p q : String) : TyKind → Constraint
  | .int => sizesEqual p q
  | .ptr => sizesEqual (pointeePlace p) (pointeePlace q)
  | .array => .and [sizesEqual (elemPlace p) (elemPlace q), countsEqual countVar c.array d.array]

/-- The condition that an open type at `q` equals the alternative of kind `k` of an open type at `p`, and the
choice at `q` afterwards. -/
def equateAlternative (c : Choice) (k : TyKind) (p q : String) (d : Choice) :
    Except Error (Constraint × Choice) :=
  match d.chosen with
  | some l =>
    if d.offers l then
      .ok (.and [kindIs q l, if l = k then alternativesEqual countVar c d p q k else .lit false], d)
    else .error (.fault .noSuchEntry)
  | none =>
    if d.offers k then
      .ok (.and [kindIs q k, alternativesEqual countVar c d p q k], { d with chosen := some k })
    else .error (.fault .brokenInvariant)

/-- An open type that has only the alternative `int`. -/
def Choice.onlyInt : Choice := ⟨some none, false, none, none⟩

/-- The condition that an integer type at `p` equals the type `t` at `q`, and `t` afterwards. -/
def equateInt (p q : String) (t : Ty) : Except Error (Constraint × Ty) :=
  match t with
  | .int w => .ok (sizesEqual p q, .int w)
  | .ptr _ | .array _ _ => .ok (.lit false, t)
  | .unknown d | .named _ d _ => do
    let (e, d) ← equateAlternative countVar Choice.onlyInt .int p (ownPlace q t) d
    return (e, setChoice t d)

/-- The condition that the alternative of kind `k` of an open type at `p` equals the type `t` at `q`, and `t`
afterwards. -/
def equateKind (c : Choice) (k : TyKind) (p q : String) (t : Ty) : Except Error (Constraint × Ty) :=
  match k, t with
  | .int, t => equateInt countVar p q t
  | .ptr, .ptr u => do
    let (e, u) ← equateInt countVar (pointeePlace p) (pointeePlace q) u
    return (e, .ptr u)
  | .array, .array n u => do
    let (e, u) ← equateInt countVar (elemPlace p) (elemPlace q) u
    return (.and [e, countsEqual countVar c.array (some n)], .array n u)
  | k, t =>
    match choice? t with
    | some d => do
      let (e, d) ← equateAlternative countVar c k p (ownPlace q t) d
      return (e, setChoice t d)
    | none => .ok (.lit false, t)

/-- The condition that an open type at `p` equals the type `t` at `q`; the choice at `p` and the type `t`
afterwards. -/
def equateOpen (c : Choice) (p q : String) (t : Ty) : Except Error (Constraint × Choice × Ty) :=
  match c.chosen with
  | some k =>
    if c.offers k then do
      let (e, t) ← equateKind countVar c k p q t
      return (.and [kindIs p k, e], c, t)
    else .error (.fault .noSuchEntry)
  | none =>
    match t.kind?, choice? t with
    | some k, _ =>
      if c.offers k then do
        let (e, t) ← equateKind countVar c k p q t
        return (.and [kindIs p k, e], { c with chosen := some k }, t)
      else .error (.fault .brokenInvariant)
    | none, some d =>
      let q := ownPlace q t
      let both := c.kinds.filter d.offers
      .ok (anyOf (both.map fun k =>
        .and [kindIs p k, kindIs q k, alternativesEqual countVar c d p q k]), c, t)
    | none, none => .error (.fault .brokenInvariant)

/-- The condition that two types are equal, and both types afterwards.  A named type leads where it meets an
open type without a name. -/
def equate (p q : String) : Ty → Ty → Except Error (Constraint × Ty × Ty)
  | .unknown c, .named name d here => do
    let (e, d, s) ← equateOpen countVar d name p (.unknown c)
    return (e, s, .named name d here)
  | .unknown c, t => do
    let (e, c, t) ← equateOpen countVar c p q t
    return (e, .unknown c, t)
  | .named name c here, t => do
    let (e, c, t) ← equateOpen countVar c name q t
    return (e, .named name c here, t)
  | s, .unknown d => do
    let (e, d, s) ← equateOpen countVar d q p s
    return (e, s, .unknown d)
  | s, .named name d here => do
    let (e, d, s) ← equateOpen countVar d name p s
    return (e, s, .named name d here)
  | .int v, .int w => .ok (sizesEqual p q, .int v, .int w)
  | .ptr s, .ptr t => do
    let (e, s, t) ← equate (pointeePlace p) (pointeePlace q) s t
    return (e, .ptr s, .ptr t)
  | .array m s, .array n t => do
    let (e, s, t) ← equate (elemPlace p) (elemPlace q) s t
    return (.and [e, countsEqual countVar (some m) (some n)], .array m s, .array n t)
  | s, t => .ok (.lit false, s, t)

/-- The condition that a type is the integer type of the given width. -/
def equateWidth (p : String) (w : Int) : Ty → Except Error Constraint
  | .int _ => .ok (widthIs p)
  | .ptr _ | .array _ _ => .ok (.lit false)
  | .unknown c => openWidth p c
  | .named name c _ => openWidth name c
where
  widthIs (p : String) : Constraint := .varIs (sizeVar p) w
  openWidth (p : String) (c : Choice) : Except Error Constraint :=
    match c.chosen with
    | some k =>
      if c.offers k then .ok (.and [kindIs p k, if k = .int then widthIs p else .lit false])
      else .error (.fault .noSuchEntry)
    | none => .error (.fault .brokenInvariant)

end Equality

/-! ### Order by width -/

/-- Make an open type an integer type, if it can be one: the condition for it, and the choice afterwards. -/
def asInteger (p : String) (c : Choice) : Option (List Constraint × Choice) :=
  match c.chosen with
  | none => if c.offers .int then some ([kindIs p .int], { c with chosen := some .int }) else none
  | some .int => some ([], c)
  | some _ => none

/-- The condition that the width of an integer type at `p` is in relation to the type `t` at `q`, and `t`
afterwards. -/
def compareInt (r : Relation) (p q : String) (t : Ty) : Except Error (Constraint × Ty) :=
  match t with
  | .int w => .ok (.rel r (.var (sizeVar p)) (.var (sizeVar q)), .int w)
  | .ptr _ | .array _ _ => .error (.fault .brokenInvariant)
  | .unknown d | .named _ d _ =>
    let q := ownPlace q t
    match asInteger q d with
    | some (cs, d) =>
      .ok (.allOf (cs ++ [.rel r (.var (sizeVar p)) (.var (sizeVar q))]), setChoice t d)
    | none => .error (.fault .noSuchPart)

/-- The condition that an open type is an integer type whose width is in relation to the type `t` at `q`; the
choice and `t` afterwards. -/
def compareOpen (r : Relation) (p q : String) (c : Choice) (t : Ty) :
    Except Error (Constraint × Choice × Ty) :=
  match asInteger p c with
  | none => .ok (.lit false, c, t)
  | some (cs, c) =>
    if c.offers .int then do
      let (e, t) ← compareInt r p q t
      return (.allOf (cs ++ [e]), c, t)
    else .error (.fault .noSuchEntry)

/-- The relation seen from the other side, if types have it. -/
def flipped? : Relation → Option Relation
  | .lt => some .gt
  | .gt => some .lt
  | _ => none

/-- Compare types by the relation of the first one, if that has an order. -/
def compareFirst? (r : Relation) (p q : String) (s t : Ty) :
    Option (Except Error (Constraint × Ty × Ty)) :=
  match s with
  | .int w => some do
    let (e, t) ← compareInt r p q t
    return (e, .int w, t)
  | .unknown c => some do
    let (e, c, t) ← compareOpen r p q c t
    return (e, .unknown c, t)
  | .named name c here => some do
    let (e, c, t) ← compareOpen r name q c t
    return (e, .named name c here, t)
  | _ => none

/-- Compare types by the flipped relation of the second one, if that has an order. -/
def compareSecond? (r : Relation) (p q : String) (s t : Ty) :
    Option (Except Error (Constraint × Ty × Ty)) :=
  match flipped? r with
  | none => none
  | some r =>
    (compareFirst? r q p t s).map fun result => do
      let (e, t, s) ← result
      return (e, s, t)

/-- The condition that the width of one type is in relation to the width of another, and both types
afterwards.  A named type leads where it stands behind an open type without a name. -/
def compareWidths (r : Relation) (p q : String) (s t : Ty) : Except Error (Constraint × Ty × Ty) :=
  let first := compareFirst? r p q s t
  let second := compareSecond? r p q s t
  let result := match s, t with
    | .unknown _, .named _ _ _ => second <|> first
    | _, _ => first <|> second
  result.getD (.error (.fault .badOperands))

/-- The condition that the width of a type is in relation to a number, and the type afterwards. -/
def compareWidth (r : Relation) (p : String) (n : Int) (t : Ty) : Except Error (Constraint × Ty) :=
  match t with
  | .int w => .ok (.rel r (.var (sizeVar p)) (.const n), .int w)
  | .ptr _ | .array _ _ => .error (.fault .badOperands)
  | .unknown c | .named _ c _ =>
    let p := ownPlace p t
    match asInteger p c with
    | none => .ok (.lit false, t)
    | some (cs, c) =>
      if c.offers .int then
        .ok (.allOf (cs ++ [.rel r (.var (sizeVar p)) (.const n)]), setChoice t c)
      else .error (.fault .noSuchEntry)

/-! ### Depth, parts and size -/

/-- The depth of an alternative of an open type. -/
def kindDepth : TyKind → Int
  | .int => 0
  | .ptr | .array => 1

/-- The condition that a type has `depth` levels of pointers and arrays over integers. -/
def depthIs (p : String) : Ty → Int → Except Error Constraint
  | .int _, depth => .ok (.lit (depth = 0))
  | .ptr t, depth => if depth = 0 then .ok (.lit false) else depthIs (pointeePlace p) t (depth - 1)
  | .array _ t, depth => if depth = 0 then .ok (.lit false) else depthIs (elemPlace p) t (depth - 1)
  | .unknown c, depth => openDepth p c depth
  | .named name c _, depth => openDepth name c depth
where
  openDepth (p : String) (c : Choice) (depth : Int) : Except Error Constraint :=
    let ks := TyKind.all.take c.kinds.length
    if ks.all c.offers then
      .ok (.allOf (ks.map fun k =>
        .or [.lit (depth = kindDepth k), .rel .ne (.var (kindVar p)) (.const k.code)]))
    else .error (.fault .noSuchEntry)

/-- What a pointer type points to, with its place, and the type afterwards as a function of it. -/
def pointee (p : String) : Ty → Except Error (String × Ty × (Ty → Ty))
  | .ptr t => .ok (pointeePlace p, t, .ptr)
  | .int _ | .array _ _ => .error (.fault .noSuchPart)
  | .unknown c => openPointee p c .unknown
  | .named name c here => openPointee name c (.named name · here)
where
  openPointee (p : String) (c : Choice) (close : Choice → Ty) :
      Except Error (String × Ty × (Ty → Ty)) :=
    if c.chosen = none ∨ c.chosen = some .ptr then
      if c.ptr then .ok (pointeePlace p, .int none, fun _ => close { c with chosen := some .ptr })
      else .error (.fault .noSuchEntry)
    else .error (.fault .brokenInvariant)

/-- What a pointer or array type is made of. -/
def underlying : Ty → Except Error Ty
  | .ptr t => .ok t
  | .array _ t => .ok t
  | .int _ => .error (.fault .noSuchPart)
  | .unknown c | .named _ c _ =>
    match c.chosen with
    | some k =>
      if k = .int then .error (.fault .brokenInvariant)
      else if c.offers k then .ok (.int none)
      else .error (.fault .noSuchEntry)
    | none => .error (.fault .brokenInvariant)

/-- The width of a type in bits, in terms of type variables. -/
def sizeExpr (countVar : ValueId → String) (p : String) : Ty → Except Error IntExpr
  | .int (some w) => .ok (.const w)
  | .int none => .ok (.var (sizeVar p))
  | .ptr _ => .ok (.var "ptrsize")
  | .array n t => do return .mul (.var (countVar n.id)) (← sizeExpr countVar (elemPlace p) t)
  | .unknown c => openSize p c
  | .named name c _ => openSize name c
where
  kindSize (p : String) (c : Choice) : TyKind → Except Error IntExpr
    | .int =>
      match c.int with
      | some (some w) => .ok (.const w)
      | some none => .ok (.var (sizeVar p))
      | none => .error (.fault .noSuchEntry)
    | .ptr => if c.ptr then .ok (.var "ptrsize") else .error (.fault .noSuchEntry)
    | .array =>
      match c.array with
      | some n => .ok (.mul (.var (countVar n.id)) (.var (sizeVar (elemPlace p))))
      | none => .error (.fault .noSuchEntry)
  firstSize (p : String) (c : Choice) : List TyKind → Except Error IntExpr
    | [] => .error (.fault .noSuchEntry)
    | [k] => kindSize p c k
    | k :: ks => do
      let a ← kindSize p c k
      return .ite (kindVar p) k.code a (← firstSize p c ks)
  openSize (p : String) (c : Choice) : Except Error IntExpr :=
    match c.chosen with
    | some k => kindSize p c k
    | none => firstSize p c (TyKind.all.take c.kinds.length)

end Peephole.Typing
