import Peephole.Encode.Shape
import Peephole.Logic.Memory
import Peephole.Program.Condition
import Peephole.Typing.Generate

/-!
# States of encoding

Encoding a program gives each value a term, the conditions under which it is defined, the conditions under
which it is not poison, and the variables that stand for arbitrary choices in it.  The state also holds the
memory, the blocks of memory that are known, and the conditions under which each basic block is reached.
-/

namespace Peephole.Encode

open Logic Program

/-- How programs are encoded. -/
structure Options where
  /-- Memories are arrays, and the initial one has any contents, rather than terms over the index, of which the initial
  one is the same byte everywhere. -/
  anyMemory : Bool := false
  /-- A shift to the left may move a one into the sign bit. -/
  newShift : Bool := false
  /-- The flags of instructions are variables. -/
  inferFlags : Bool := false
  deriving Inhabited, Repr

/-- What the encoding of a program depends on. -/
structure Setting where
  table : Table
  shape : Shape
  options : Options
  inSource : Bool
  deriving Inhabited

/-- The conditions on a value and the variables that stand for arbitrary choices in it. -/
structure Conditions where
  defined : List Formula
  poison : List Formula
  free : List Var
  deriving Inhabited

def Conditions.none : Conditions := ⟨[], [], []⟩

/-- The encoding of a value; instructions without a result have no term. -/
structure Encoded where
  value : Option Term
  conds : Conditions
  deriving Inhabited

/-- A block of memory that starts at a pointer variable.  Its elements have `elemSize` bits each. -/
structure Block where
  pointer : String
  pointerWidth : Nat
  isAlloca : Bool
  elemSize : Int
  count : Int
  align : Int
  deriving Inhabited, Repr

/-- The memory after bytes have been written under a condition, one after another. -/
def writeAll (g : Formula) (a v : Nat → Term) (is : List Nat) (m : Memory) : Memory :=
  is.foldl (fun m i => m.write g (a i) (v i)) m

namespace Block

def ptr (b : Block) : Term := .var b.pointer b.pointerWidth

/-- The size of the block in bits. -/
def size (b : Block) : Int := b.elemSize * b.count

def same (a b : Block) : Bool := a.pointer == b.pointer && a.pointerWidth == b.pointerWidth

/-- The variable for what stands in an allocated block, by the number it was given. -/
def contents (b : Block) (n : Nat) : Var := ⟨"alloca" ++ b.pointer ++ "_" ++ toString n, .bits b.size.toNat⟩

/-- The memory with a block allocated: its bytes are those of the variable for its contents. -/
def fill (b : Block) (n : Nat) : Memory → Memory :=
  writeAll (.allOf []) (fun i => .op .add b.ptr (.const i b.pointerWidth))
    (fun i => .extract (8 * i + 7) (8 * i) (.var (b.contents n).name b.size.toNat)) (List.range (b.size.toNat / 8))

/-- The conditions for an allocation to be defined: the block does not wrap around the end of memory, and its
pointer is not null and aligned. -/
def placed (b : Block) (aligned : Formula) : List Formula :=
  (if 8 < b.size then [.cmp .ult b.ptr (.op .add b.ptr (.const (b.size / 8 - 1) b.pointerWidth))] else []) ++
    [.cmp .ne b.ptr (.const 0 b.pointerWidth), aligned]

end Block

namespace Setting

def sizeOf (s : Setting) (t : PlacedTy) : Except Error Nat :=
  s.shape.sizeOfClosed (Typing.countVarIn s.table) t.place t.ty

/-- The block that an allocation asks for.  It may be empty. -/
def allocated (s : Setting) (v : Value) (count : ValueId) (align : Nat) : Except Error Block :=
  match v.type with
  | none => .error (.fault .noSuchPart)
  | some t => do
    let width ← s.sizeOf t
    let (place, elem) ← s.shape.pointee t.place t.ty
    let n ← s.sizeOf ⟨place, elem⟩
    .ok ⟨v.name, width, true, allocSize n, s.shape.values (Typing.countVarIn s.table count), align⟩

/-- The block behind a value that comes from outside, if the value is a pointer: seven elements. -/
def behind (s : Setting) (v : Value) (pointer : String) (width : Nat) : Except Error (Option Block) :=
  match v.type with
  | none => .error (.fault .noSuchPart)
  | some t => do
    let isPtr ← match t.ty with
      | .ptr _ => .ok true
      | .unknown _ | .named _ _ _ => (s.shape.settle t.place t.ty).map fun r => r.2.isPtr
      | _ => .ok false
    .ok (if isPtr then some ⟨pointer, width, false, s.shape.ptrWidth, 7, 1⟩ else none)

end Setting

structure State where
  vars : Dict Encoded
  /-- The conditions for what was done so far in the basic block. -/
  defined : List Formula
  blocks : List Block
  /-- The variables that stand for arbitrary choices in the memory. -/
  memoryFree : List Var
  /-- For each label, the conditions under which a branch goes there, and the memory then. -/
  entries : Dict (List (Formula × Memory))
  memory : Option Memory
  deriving Inhabited

namespace State

def start : State := ⟨[], [], [], [], [], none⟩

def initialMemory (o : Options) : Memory := if o.anyMemory then .array (.var "mem0") else .byte (.var "mem0" 8)

def enter (o : Options) (label : String) (s : State) : State :=
  match s.entries.get? label with
  | some es =>
    { s with defined := [.anyOf (es.map (·.1))], memory := Memory.firstOf es }
  | none => { s with defined := [], memory := some (initialMemory o) }

/-- Add a block of memory behind an input pointer, unless it is known already. -/
def addInputBlock (b : Block) (free : List Var) (s : State) : State :=
  if s.blocks.any b.same then s
  else { s with blocks := s.blocks ++ [b], memoryFree := s.memoryFree ++ free }

/-- The conditions on allocated blocks: they do not start at zero and do not overlap with other blocks. -/
def allocaConstraints (s : State) : List Formula :=
  (s.blocks.filter (·.isAlloca)).flatMap fun a =>
    .cmp .ne a.ptr (.const 0 a.pointerWidth) ::
      (s.blocks.filter fun b => !a.same b).map fun b =>
        .or [.cmp .uge b.ptr (.op .add a.ptr (.const a.size a.pointerWidth)),
          .cmp .ule (.op .add b.ptr (.const b.size b.pointerWidth)) a.ptr]

/-- The values that are compared between source and target: registers, constant symbols and returns. -/
def items (s : State) : Dict Encoded :=
  s.vars.filter fun e => e.1.startsWith "%" || e.1.startsWith "C" || e.1.startsWith "ret_"

end State

/-- The state, and the conditions that the value being encoded has so far. -/
structure Work where
  state : State
  conds : Conditions
  fresh : Nat
  deriving Inhabited

abbrev EncodeM := ReaderT Setting (StateT Work (Except Error))

def stop {α : Type} (f : Fault) : EncodeM α := throw (.fault f)

def check {α : Type} (r : Except Error α) : EncodeM α :=
  match r with
  | .ok a => return a
  | .error e => throw e

def valueAt (i : ValueId) : EncodeM Value := return (← read).table.get i

def modifyState (f : State → State) : EncodeM Unit := modify fun w => { w with state := f w.state }

/-- The value being encoded is defined only under further conditions. -/
def addDefined (ps : List Formula) : EncodeM Unit :=
  modify fun w => { w with conds := { w.conds with defined := w.conds.defined ++ ps } }

/-- The value being encoded is poison unless further conditions hold. -/
def addPoison (ps : List Formula) : EncodeM Unit :=
  modify fun w => { w with conds := { w.conds with poison := w.conds.poison ++ ps } }

/-- The value being encoded depends on further arbitrary choices. -/
def addFree (vs : List Var) : EncodeM Unit :=
  modify fun w => { w with conds := { w.conds with free := w.conds.free ++ vs } }

def clearDefined : EncodeM Unit := modify fun w => { w with conds := { w.conds with defined := [] } }

/-- The term of a value that was encoded before; its conditions are taken over. -/
def operand (i : ValueId) : EncodeM Term := do
  match (← get).state.vars.get? (← valueAt i).key with
  | none => stop .noSuchEntry
  | some e =>
    addDefined e.conds.defined
    addPoison e.conds.poison
    addFree e.conds.free
    match e.value with
    | some t => return t
    | none => stop .noSuchPart

def freshNumber : EncodeM Nat := do
  let w ← get
  set { w with fresh := w.fresh + 1 }
  return w.fresh

/-! ### Types -/

def sizeOf (t : PlacedTy) : EncodeM Nat := do check ((← read).sizeOf t)

def typeOf (v : Value) : EncodeM PlacedTy :=
  match v.type with
  | some t => return t
  | none => stop .noSuchPart

/-! ### Memory -/

def memory : EncodeM Memory := do
  match (← get).state.memory with
  | some m => return m
  | none => stop .noSuchPart

/-- A pointer of unknown origin points to a block. -/
def pointsToBlock (v : Value) (pointer : String) (width : Nat) (free : List Var) : EncodeM Unit := do
  match ← check ((← read).behind v pointer width) with
  | some b => modifyState (State.addInputBlock b free)
  | none => return

/-- The quotient by eight, computed with 53 significant digits and rounded towards zero. -/
def bytes (bits : Int) : Int := (Number.round 53 bits).tdiv 8

/-- An access of `size` bits at an address is defined if the address is not zero and some block can hold it; an
alignment must not be more than that of the block. -/
def accessConditions (s : State) (size align : Int) (address : Term) : List Formula :=
  let inBounds (b : Block) : Formula :=
    .and [.cmp .uge address b.ptr,
      .cmp .uge (.const (bytes (b.size - size)) b.pointerWidth) (.op .sub address b.ptr)]
  let aligned := (s.blocks.filter fun _ => align ≠ 0).filter (fun b => size ≤ b.size)
  let accessible := s.blocks.filter fun b => size ≤ b.size
  [.cmp .ne address (.const 0 address.width)] ++
    aligned.map (fun b => .implies (inBounds b) (.lit (align ≤ b.align))) ++
    [.anyOf (accessible.map fun b => if b.isAlloca then inBounds b else .lit true)]

/-- An access to memory.  What was done so far in the basic block is defined only if the access is. -/
def access (size align : Int) (address : Term) : EncodeM Unit := do
  let s := (← get).state
  addDefined (accessConditions s size align address)
  let ds := (← get).conds.defined
  modifyState fun s => { s with defined := s.defined ++ ds }

end Peephole.Encode
