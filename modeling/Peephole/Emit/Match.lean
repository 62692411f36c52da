import Peephole.Emit.Generator

/-!
# Matching the source

Generated code finds an instance of the source by matching instructions from the root downwards.  Each match binds
the operands of one instruction; an operand that is bound already must be the same value again.
-/

namespace Peephole.Emit

open Program Cpp

/-- The values that the match of one instruction has bound, and further tests that it needs. -/
structure Pattern where
  bound : List ValueId
  extras : List Expr
  deriving Inhabited

abbrev PatternM := StateT Pattern EmitM

def outside {α : Type} (x : EmitM α) : PatternM α := StateT.lift x

def addExtra (e : Expr) : PatternM Unit := modify fun p => { p with extras := p.extras ++ [e] }

def subpattern (i : ValueId) : PatternM Expr := do
  let v ← outside (valueAt i)
  match v.op with
  | .literal n =>
    modify fun p => { p with bound := p.bound ++ [i] }
    return .call "m_SpecificInt" [.var (toString n)]
  | _ =>
    outside (ensure (v.op.isInput || v.op.isInstr))
    let leaf (name : String) : Expr :=
      .call (if v.name.startsWith "C" then "m_ConstantInt" else "m_Value") [.var name]
    if (← get).bound.contains i then
      let name ← outside (newName v.name)
      outside (bindName name (cppType v))
      addExtra (.binary .eq (← outside (nameExpr i)) (.var name))
      return leaf name
    else if ← outside (isBound i) then return .call "m_Specific" [← outside (nameExpr i)]
    else
      modify fun p => { p with bound := p.bound ++ [i] }
      outside (bindValue i)
      return leaf (← outside (nameOf i))

/-- Bind a name that is not the name of a value; if it is bound already, a fresh one that must be equal. -/
def bindFresh (name : String) (type : CType) : PatternM Expr := do
  let name ←
    if ← outside (isBoundName name) then
      let fresh ← outside (newName name)
      addExtra (.binary .eq (.var fresh) (.var name))
      pure fresh
    else pure name
  outside (bindName name type)
  return .var name

def matched (i : ValueId) (pattern : Expr) : PatternM Expr := do
  return .call "match" [← outside (nameExpr i), pattern]

/-- The name of an arithmetic instruction in matchers and constructors. -/
def arithName : ArithOp → String
  | .add => "Add" | .sub => "Sub" | .mul => "Mul"
  | .udiv => "UDiv" | .sdiv => "SDiv" | .urem => "URem" | .srem => "SRem"
  | .shl => "Shl" | .ashr => "AShr" | .lshr => "LShr"
  | .and => "And" | .or => "Or" | .xor => "Xor"

def arithPattern (op : ArithOp) (flags : List Flag) (a b : Expr) : Expr :=
  let name := arithName op
  if flags.contains .nsw && flags.contains .nuw then
    .call "m_CombineAnd" [.call ("m_NSW" ++ name) [a, b],
      .call ("m_NUW" ++ name) [.call "m_Value" [], .call "m_Value" []]]
  else if flags.contains .nsw then .call ("m_NSW" ++ name) [a, b]
  else if flags.contains .nuw then .call ("m_NUW" ++ name) [a, b]
  else if flags.contains .exact then .call "m_Exact" [.call ("m_" ++ name) [a, b]]
  else .call ("m_" ++ name) [a, b]

def convertPattern? (op : ConvertOp) (a : Expr) : Option Expr :=
  match op with
  | .trunc => some (.call "m_Trunc" [a])
  | .zext => some (.call "m_ZExt" [a])
  | .sext => some (.call "m_SExt" [a])
  | .ptrToInt => some (.call "m_PtrToInt" [a])
  | .bitcast => some (.call "m_BitCast" [a])
  | .zextOrTrunc => some (.call "m_CombineOr" [.call "m_ZExt" [a], .call "m_ZTrunc" [a]])
  | .intToPtr => none

def predicateName : Logic.Comparison → String
  | .eq => "ICmpInst::ICMP_EQ" | .ne => "ICmpInst::ICMP_NE"
  | .ugt => "ICmpInst::ICMP_UGT" | .uge => "ICmpInst::ICMP_UGE"
  | .ult => "ICmpInst::ICMP_ULT" | .ule => "ICmpInst::ICMP_ULE"
  | .sgt => "ICmpInst::ICMP_SGT" | .sge => "ICmpInst::ICMP_SGE"
  | .slt => "ICmpInst::ICMP_SLT" | .sle => "ICmpInst::ICMP_SLE"

/-- The key of an unknown predicate: its name, or the register if it has none. -/
def predicateKey (name register : String) : String := if name.isEmpty then "Pred " ++ register else name

def predicateType : CType := .named "CmpInst::Predicate"

def matchInstr (i : ValueId) : PatternM Expr := do
  let v ← outside (valueAt i)
  match v.op with
  | .arith op x y flags =>
    let a ← subpattern x
    let b ← subpattern y
    matched i (arithPattern op flags a b)
  | .convert op _ x =>
    let a ← subpattern x
    match convertPattern? op a with
    | some p => matched i p
    | none => outside (fail .noSuchEntry)
  | .icmp pred _ x y =>
    let a ← subpattern x
    let b ← subpattern y
    match pred with
    | .any name =>
      let key ← outside (keyName (predicateKey name v.name))
      let p ← bindFresh key predicateType
      matched i (.call "m_ICmp" [p, a, b])
    | .known c =>
      let name ← outside (newName "P")
      let p ← bindFresh name predicateType
      let m ← matched i (.call "m_ICmp" [p, a, b])
      return .binary .and m (.binary .eq (.var name) (.var (predicateName c)))
  | .select c x y =>
    let p ← subpattern c
    let a ← subpattern x
    let b ← subpattern y
    matched i (.call "m_Select" [p, a, b])
  | _ => outside (fail .noSuchPart)

/-- The match of one instruction, and the values that it binds. -/
def matchValue (i : ValueId) : EmitM (Expr × List ValueId) := do
  let (e, p) ← (matchInstr i).run ⟨[], []⟩
  match Expr.joined? .and p.extras with
  | some extras => return (.binary .and e extras, p.bound)
  | none => return (e, p.bound)

end Peephole.Emit
