import Peephole.Encode.Operator
import Peephole.Encode.State

/-!
# Encoding values

Inputs are variables; `undef` is a variable that stands for an arbitrary choice.  Constant expressions are
encoded with their operands in place.  Instructions take the terms of operands that were encoded before, and
may change the memory.
-/

namespace Peephole.Encode

open Logic Program

/-! ### Constants -/

def undefVar (v : Value) : String := "undef" ++ String.ofList (v.key.toList.drop "undef_".length)

def valueSize (v : Value) : EncodeM Nat := do sizeOf (← typeOf v)

/-- The call of a function: its term; conditions on what an analysis found are added. -/
def callTerm (v : Value) (fn : ConstFn) (args : List Term) : EncodeM Term := do
  let size ← valueSize v
  let found : Term := .var ("ana_" ++ v.name) size
  match fn, args with
  | .abs, [a] => return .ite (.cmp .sge a (numberLike 0 a)) a (.neg a)
  | .signBits, [a] =>
    let b := Term.signBits found size
    addDefined [.cmp .ule b (Term.signBits a size)]
    return b
  | .knownOnes, [a] =>
    addDefined [.cmp .eq (.op .and found (.not a)) (.const 0 size)]
    return found
  | .knownZeros, [a] =>
    addDefined [.cmp .eq (.op .and found a) (.const 0 size)]
    return found
  | .leadingZeros, [a] => return Term.leadingZeros a size
  | .trailingZeros, [a] => return Term.trailingZeros a size
  | .log2, [a] => return Term.log2 a size
  | .lshr, [a, b] => return .op .lshr a b
  | .max, [a, b] => return .ite (.cmp .sgt a b) a b
  | .umax, [a, b] => return .ite (.cmp .ugt a b) a b
  | .sext, [a] => return .signExt (size - a.width) a
  | .zext, [a] => return .zeroExt (size - a.width) a
  | .trunc, [a] => return .extract (size - 1) 0 a
  | .width, [a] =>
    clearDefined
    return .const a.width size
  | _, _ => stop .badOperands

/-! ### Instructions -/

/-- What the flags of an arithmetic instruction promise; where flags are to be inferred, under the condition that
the variable of the flag is set. -/
def promises (s : Setting) (v : Value) (op : ArithOp) (flags : List Flag) (n : Nat) (a b : Term) :
    List Formula :=
  if s.options.inferFlags then
    op.flags.map fun f =>
      .implies (.cmp .eq (.var ("f_" ++ f.text ++ "_" ++ v.name ++ "_" ++
        (if s.inSource then "src" else "tgt")) 1) (.const 1 1)) (flagHolds s.options.newShift n op f a b)
  else flags.map fun f => flagHolds s.options.newShift n op f a b

def arithTerm (v : Value) (op : ArithOp) (x y : ValueId) (flags : List Flag) : EncodeM Term := do
  let a ← operand x
  let b ← operand y
  let bits ← valueSize v
  addPoison (promises (← read) v op flags bits a b)
  addDefined (arithDefined bits op a b)
  return .op (bitOp op) a b

def convertTerm (op : ConvertOp) (source target : Nat) (a : Term) : Term :=
  match op with
  | .trunc => .extract (target - 1) 0 a
  | .zext => .zeroExt (target - source) a
  | .sext => .signExt (target - source) a
  | .zextOrTrunc | .ptrToInt | .intToPtr => a.resizeZero target
  | .bitcast => a

def allocaTerm (v : Value) (count : ValueId) (align : Nat) : EncodeM Term := do
  let b ← check ((← read).allocated v count align)
  if b.size = 0 then
    addFree [⟨b.pointer, .bits b.pointerWidth⟩]
    return b.ptr
  match alignedTo? b.ptr align with
  | none => stop .brokenInvariant
  | some aligned =>
    addDefined (b.placed aligned)
    let n ← freshNumber
    modifyState fun st =>
      { st with
        memoryFree := st.memoryFree ++ [b.contents n]
        blocks := st.blocks ++ [b]
        memory := st.memory.map (b.fill n) }
    return b.ptr

/-- The address after stepping over the indices, the first of which steps over values of the pointee. -/
def gepTerm (ptr : Term) (place : String) (ty : Ty) : List ValueId → EncodeM Term
  | [] => return ptr
  | x :: xs => do
    let s ← read
    let idx := (← operand x).resizeSigned ptr.width
    let (p, t) ← check (s.shape.pointee place ty)
    let step := bytes (allocSize (← sizeOf ⟨p, t⟩))
    let ptr := Term.op .add ptr (.op .mul (.const step ptr.width) idx)
    if xs.isEmpty then return ptr
    let (p, t) ← check (s.shape.underlying place ty)
    gepTerm ptr p t xs

/-- The terms that a load of `n` bits puts together, from the high end on: the byte at the lowest address is at the low
end.  If the size is no multiple of eight, the rest comes from the first byte. -/
def loadParts (m : Memory) (a : Term) (n : Nat) : List Term :=
  let base := if n % 8 = 0 then a else .op .add a (numberLike 1 a)
  ((List.range (n / 8)).map fun i : Nat => m.read (.op .add base (numberLike i base))).reverse ++
    if n % 8 = 0 then [] else [.extract (n % 8 - 1) 0 (m.read a)]

def loadTerm (v : Value) (x : ValueId) (align : Nat) : EncodeM Term := do
  addFree (← get).state.memoryFree
  let ptr ← operand x
  let size ← valueSize v
  access (allocSize size) align ptr
  match Term.concatAll (loadParts (← memory) ptr size) with
  | some t => return t
  | none => stop .brokenInvariant

/-- The memory with the word `a` of `n` bits at the address `b`, written under a condition. -/
def writeWord (g : Formula) (a b : Term) (n : Nat) (m : Memory) : Memory :=
  let base := if n % 8 = 0 then b else .op .add b (numberLike 1 b)
  writeAll g (fun i => .op .add base (numberLike i base))
    (fun i => .extract (n % 8 + 8 * i + 7) (n % 8 + 8 * i) a) (List.range (n / 8))
    (if n % 8 = 0 then m else m.write g b (.concat (.extract 7 (n % 8) (m.read b)) (.extract (n % 8 - 1) 0 a)))

def storeBytes (stored : PlacedTy) (x y : ValueId) (align : Nat) : EncodeM Unit := do
  let before := (← get).conds.free.length
  let src ← operand x
  let dst ← operand y
  let added := (← get).conds.free.drop before
  modifyState fun st => { st with memoryFree := st.memoryFree ++ added }
  let size ← sizeOf stored
  access (allocSize size) align dst
  modifyState fun st => { st with memory := st.memory.map (writeWord (.allOf st.defined) src dst size) }

/-! ### All values -/

section Values

variable (sub : ValueId → EncodeM (Option Term))

def subTerm (i : ValueId) : EncodeM Term := do
  match ← sub i with
  | some t => return t
  | none => stop .noSuchPart

/-- Encode a value; `sub` encodes the operands of constant expressions. -/
def encodeWith (i : ValueId) : EncodeM (Option Term) := do
  let v ← valueAt i
  match v.op with
  | .input =>
    let w ← valueSize v
    pointsToBlock v v.name w []
    return some (.var v.name w)
  | .literal n => return some (.const n (← valueSize v))
  | .undefined =>
    let w ← valueSize v
    let x : Var := ⟨undefVar v, .bits w⟩
    addFree [x]
    pointsToBlock v x.name w [x]
    return some (.var x.name w)
  | .unary op x =>
    let a ← subTerm sub x
    return some (match op with
      | .not => .not a
      | .neg => .neg a)
  | .binary op x y =>
    let a ← subTerm sub x
    let b ← subTerm sub y
    return some (.op (constOp op) a b)
  | .call fn args =>
    let ts ← args.mapM (subTerm sub)
    return some (← callTerm v fn ts)
  | .count _ _ _ _ => stop .noSuchPart
  | .copy x => return some (← operand x)
  | .arith op x y flags => return some (← arithTerm v op x y flags)
  | .convert op source x =>
    let a ← operand x
    return some (convertTerm op (← sizeOf source) (← valueSize v) a)
  | .icmp pred _ x y =>
    let a ← operand x
    let b ← operand y
    return some (comparisonTerm v.name pred a b)
  | .select c x y =>
    let p ← operand c
    let a ← operand x
    let b ← operand y
    return some (.ite (.cmp .eq p (numberLike 1 p)) a b)
  | .alloca _ n align => return some (← allocaTerm v n align)
  | .gep p indices _ =>
    let ptr ← operand p
    let t ← typeOf v
    return some (← gepTerm ptr t.place t.ty indices)
  | .load _ x align => return some (← loadTerm v x align)
  | .store stored x y align =>
    storeBytes stored x y align
    return none
  | .skip => return none
  | .unreachable =>
    addDefined [.lit false]
    return none
  | .br _ _ _ => return none
  | .ret x => return some (← operand x)

end Values

def encode (i : ValueId) : EncodeM (Option Term) :=
  encodeWith (fun j => if _h : j < i then encode j else stop .noSuchEntry) i
termination_by i

end Peephole.Encode
