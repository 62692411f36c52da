import Peephole.Cpp.Syntax
import Peephole.Program.Ty

/-!
# Types in generated code

Generated code checks at run time what an optimization needs to know about types.  `meet` combines two
requirements on one type, and `checks` gives the tests for a required type where a weaker one is guaranteed.
-/

namespace Peephole.Emit

open Program

/-- A type with its open parts: `iN` is an integer of open width, and an open type lists what it offers. -/
def requirementText : Ty → String
  | .int none => "iN"
  | .int (some w) => "i" ++ toString w
  | .ptr t => requirementText t ++ "*"
  | .array _ t => requirementText t ++ "[]"
  | .unknown c => offered c
  | .named _ c _ => offered c
where
  offered (c : Choice) : String :=
    "(" ++ "|".intercalate (c.kinds.map fun
      | .int => match c.int with
        | some (some w) => "i" ++ toString w
        | _ => "iN"
      | .ptr => "iN*"
      | .array => "iN[]") ++ ")"

/-- Where the result of a combination comes from. -/
inductive Origin where
  | first | second | fresh
  deriving Inhabited, Repr, DecidableEq

namespace Origin

def swap : Origin → Origin
  | first => second
  | second => first
  | fresh => fresh

end Origin

def incomparable {α : Type} (a b : Ty) : Except Error α :=
  .error (.unsupported ("Incomparable types: " ++ requirementText a ++ ", " ++ requirementText b))

/-- The width that two integer types agree on. -/
def meetWidths (v w : Option Nat) : Except Error (Option Nat) :=
  match v, w with
  | some m, some n => if m = n then .ok v else incomparable (.int v) (.int w)
  | some m, none => .ok (some m)
  | none, w => .ok w

/-- The combination of the integer type of open width with another type. -/
def meetInt : Ty → Except Error Ty
  | .int w => .ok (.int w)
  | .unknown c =>
    match c.int with
    | some w => .ok (.int w)
    | none => incomparable (.unknown c) (.int none)
  | .named name c here =>
    match c.int with
    | some w => .ok (.int w)
    | none => incomparable (.named name c here) (.int none)
  | t => incomparable (.int none) t

/-- The combination of two open types, of which `a` and `b` are the texts. -/
def meetChoices (a b : Ty) (c d : Choice) : Except Error Ty := do
  let int ← match c.int, d.int with
    | some v, some w => do pure (some (← meetWidths v w))
    | _, _ => pure none
  let array := if d.array.isSome then c.array else none
  let both : Choice := ⟨int, c.ptr && d.ptr, array, none⟩
  match both.types with
  | [] => incomparable a b
  | [t] => return t
  | _ => return .unknown both

/-- The combination of the open type `a`, which offers `c`, with another type. -/
def meetOpen (a : Ty) (c : Choice) (b : Ty) : Except Error (Ty × Origin) :=
  match b with
  | .int w =>
    match c.int with
    | some v => do
      let t ← meetWidths v w
      return (.int t, if v.isSome then .fresh else .second)
    | none => incomparable a b
  | .ptr t => if c.ptr then do return (.ptr (← meetInt t), .fresh) else incomparable a b
  | .array _ _ =>
    match c.array with
    | some n => .ok (.array n (.int none), .fresh)
    | none => incomparable a b
  | .unknown d | .named _ d _ => do return (← meetChoices a b c d, .fresh)

/-- The type that combines two requirements, and where it comes from; an error if they exclude each other. -/
def meet : Ty → Ty → Except Error (Ty × Origin)
  | .unknown c, b => meetOpen (.unknown c) c b
  | .named name c here, b => meetOpen (.named name c here) c b
  | a, .unknown d => do
    let (t, o) ← meetOpen (.unknown d) d a
    return (t, o.swap)
  | a, .named name d here => do
    let (t, o) ← meetOpen (.named name d here) d a
    return (t, o.swap)
  | .int v, .int w => do return (.int (← meetWidths v w), if v.isSome then .first else .second)
  | .ptr a, .ptr b => do return (.ptr (← meet a b).1, .fresh)
  | .array m a, .array _ _ => .ok (.array m a, .first)
  | a, b => incomparable a b

open Cpp in
/-- The tests that the type `type` has a required form, where a form is guaranteed. -/
def checks (type : Expr) (required guaranteed : Ty) : Except Error (List Expr) :=
  let isInteger := Expr.call "isa<IntegerType>" [type]
  let hasWidth (w : Nat) :=
    Expr.binary .eq (.method true type "getScalarSizeInBits" []) (.var (toString w))
  match required, guaranteed with
  | .int (some w), .int none => .ok [hasWidth w]
  | .int _, .int _ => .ok []
  | .int (some w), _ => .ok [isInteger, hasWidth w]
  | .int none, _ => .ok [isInteger]
  | .ptr _, .ptr _ => .ok []
  | .ptr _, _ => .error (.unsupported "Pointer types not supported")
  | .array _ _, _ => .error (.unsupported "Array types not supported")
  | .unknown c, .unknown d | .unknown c, .named _ d _ | .named _ c _, .unknown d
  | .named _ c _, .named _ d _ =>
    .ok (if c.kinds = [.int, .ptr] ∧ d.offers .array then [.var "<int-or-ptr>"] else [])
  | _, _ => .error (.fault .noSuchPart)

end Peephole.Emit
