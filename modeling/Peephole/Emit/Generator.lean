import Peephole.Emit.Names
import Peephole.Emit.Types
import Peephole.Program.Build

/-!
# The state of code generation

Generated code names values, binds names, and knows something about the types of values.  Values whose types must
be equal form classes; each class has a representative.  For a representative, the generator holds the type that
is required of its class and the type that the source pattern guarantees.

Where two classes are joined after the source has been matched, the equality of their types has to be tested by
the generated code.
-/

namespace Peephole.Emit

open Program Cpp

/-- Entries for values, in order of insertion. -/
abbrev Slots (α : Type) := List (ValueId × α)

namespace Slots

variable {α : Type}

def get? (s : Slots α) (i : ValueId) : Option α := s.lookup i

/-- Put in an entry; one that is there already keeps its place. -/
def put : Slots α → ValueId → α → Slots α
  | [], i, a => [(i, a)]
  | e :: s, i, a => if e.1 == i then (i, a) :: s else e :: put s i a

def erase (s : Slots α) (i : ValueId) : Slots α := List.filter (fun e => e.1 != i) s

end Slots

structure Generator where
  names : Names
  valueNames : Slots String
  /-- The names of other things, by a key. -/
  keyNames : Dict String
  /-- The names that are bound, with their C++ types. -/
  bound : Dict CType
  /-- For each value that has been asked for, its way to the representative of its class. -/
  links : Slots (Option ValueId)
  required : Slots Ty
  guaranteed : Slots Ty
  /-- The representatives that were given a type by name. -/
  namedTypes : Dict (List ValueId)
  /-- Whether the source is being matched. -/
  inSource : Bool
  /-- Tests on types that the generated code has to make. -/
  clauses : List Expr
  deriving Inhabited

def Generator.start : Generator := ⟨.none, [], [], [], [], [], [], [], true, []⟩

/-- A computation that generates code; the state is kept when it ends with an error. -/
abbrev EmitM := ReaderT Table (ExceptT Error (StateM Generator))

def fail {α : Type} (f : Fault) : EmitM α := throw (.fault f)

def unsupported {α : Type} (message : String) : EmitM α := throw (.unsupported message)

def ensure (p : Bool) : EmitM Unit := if p then return else fail .brokenInvariant

def outcome {α : Type} (r : Except Error α) : EmitM α :=
  match r with
  | .ok a => return a
  | .error e => throw e

def valueAt (i : ValueId) : EmitM Value := return (← read).get i

/-! ### Names -/

def newName (hint : String) : EmitM String :=
  modifyGet fun g =>
    let (name, names) := g.names.choose hint
    (name, { g with names := names })

/-- The name of an input or an instruction; it is made if there is none yet. -/
def nameOf (i : ValueId) : EmitM String := do
  let v ← valueAt i
  ensure (v.op.isInput || v.op.isInstr)
  match (← get).valueNames.get? i with
  | some name => return name
  | none =>
    let name ← newName v.name
    modify fun g => { g with valueNames := g.valueNames.put i name }
    return name

/-- The name under a key; it is made if there is none yet. -/
def keyName (key : String) : EmitM String := do
  match (← get).keyNames.get? key with
  | some name => return name
  | none =>
    let name ← newName key
    modify fun g => { g with keyNames := g.keyNames.put key name }
    return name

def isBoundName (name : String) : EmitM Bool := return (← get).bound.has name

/-- Whether a value has a name that is bound. -/
def Generator.isBound (g : Generator) (i : ValueId) : Bool := (g.valueNames.get? i).any g.bound.has

def isBound (i : ValueId) : EmitM Bool := return (← get).isBound i

/-- Bind a name, which must not be bound yet. -/
def bindName (name : String) (type : CType) : EmitM Unit := do
  ensure !(← isBoundName name)
  let name ← if (← get).names.taken.contains name then pure name else newName name
  modify fun g => { g with bound := g.bound.put name type }

def pointerTo (name : String) : CType := .pointer (.named name)

/-- The C++ type of a value: constant symbols stand for integers. -/
def cppType (v : Value) : CType :=
  if v.op.isInput && v.name.startsWith "C" then pointerTo "ConstantInt" else pointerTo "Value"

def bindValue (i : ValueId) : EmitM Unit := do
  let v ← valueAt i
  let name ← nameOf i
  bindName name (cppType v)

/-! ### Classes of types -/

/-- The representative of the class of a value; the links on the way are shortened. -/
def representativeFrom : Nat → ValueId → EmitM ValueId
  | 0, i => return i
  | fuel + 1, i => do
    match (← get).links.get? i with
    | none =>
      modify fun g => { g with links := g.links.put i none }
      return i
    | some none => return i
    | some (some j) =>
      let r ← representativeFrom fuel j
      modify fun g => { g with links := g.links.put i (some r) }
      return r

def representative (i : ValueId) : EmitM ValueId := do
  representativeFrom ((← get).links.length + 1) i

def nameExpr (i : ValueId) : EmitM Expr := return .var (← nameOf i)

def typeExpr (i : ValueId) : EmitM Expr := do
  let r ← representative i
  ensure (← isBound r)
  return .method true (← nameExpr r) "getType" []

def widthExpr (i : ValueId) : EmitM Expr := return .method true (← typeExpr i) "getScalarSizeInBits" []

def combined (a b : Ty) : EmitM Ty := do return (← outcome (meet a b)).1

def unnamed : Ty → Ty
  | .named _ _ here => here
  | t => t

def noteType (r : ValueId) : Ty → EmitM Unit
  | .named name _ _ => modify fun g =>
    let rs := (g.namedTypes.get? name).getD []
    { g with namedTypes := g.namedTypes.put name (if rs.contains r then rs else rs ++ [r]) }
  | _ => return

/-- The type that combines a requirement with the entry there is, if any. -/
def withEntry (a : Ty) : Option Ty → EmitM Ty
  | some b => combined a b
  | none => return a

/-- Require a type of a value; `minimal` is what the source pattern guarantees of it. -/
def registerType (i : ValueId) (actual minimal : Ty) : EmitM Unit := do
  let r ← representative i
  noteType r actual
  let minimal := unnamed minimal
  let actual ← combined (unnamed actual) minimal
  let required ← withEntry actual ((← get).required.get? r)
  modify fun g => { g with required := g.required.put r required }
  if (← get).inSource then
    let guaranteed ← withEntry minimal ((← get).guaranteed.get? r)
    modify fun g => { g with guaranteed := g.guaranteed.put r guaranteed }

/-- Combine the entries of two values; the second entry is taken out. -/
def joinEntries (entries : Slots Ty) (r s : ValueId) : EmitM (Slots Ty) := do
  match entries.get? s with
  | none => return entries
  | some b =>
    match entries.get? r with
    | none => fail .noSuchEntry
    | some a => return (entries.put r (← combined a b)).erase s

/-- Behind the source, add the test that two values that are bound have the same type. -/
def testTypes (r s : ValueId) : EmitM Unit := do
  let g ← get
  if !g.inSource && g.isBound r && g.isBound s then
    let test := Expr.binary .eq (← typeExpr r) (← typeExpr s)
    modify fun g => { g with clauses := g.clauses ++ [test] }

/-- Link a representative `s` to the representative `r`, which takes over its entries. -/
def linkClasses (r s : ValueId) : EmitM ValueId := do
  modify fun g => { g with links := g.links.put s (some r) }
  let required ← joinEntries (← get).required r s
  modify fun g => { g with required := required }
  let guaranteed ← joinEntries (← get).guaranteed r s
  modify fun g => { g with guaranteed := guaranteed }
  return r

/-- Join the class of a value to the class with the representative `r`; the representative of both. -/
def joinClass (r : ValueId) (i : ValueId) : EmitM ValueId := do
  let s ← representative i
  if r = s then return r
  testTypes r s
  let g ← get
  if g.isBound s && !g.isBound r then linkClasses s r else linkClasses r s

def unify : List ValueId → EmitM Unit
  | [] => return
  | i :: is => do
    let r ← representative i
    let _ ← is.foldlM joinClass r

end Peephole.Emit
