import Peephole.Reader.Constant

/-!
# Programs

A program is a line of text for each instruction or label.  The type of an operand may be left out in most
places.  A line that starts with a semicolon, or the rest of a line behind one, is a comment.
-/

namespace Peephole.Reader

open Peephole.Text

/-- The rest of a line behind a semicolon. -/
def comment {ε : Type} : Rule ε Unit :=
  .inside lineBlanks <| .phrase lineBlanks do
    let _ ← (Rule.literal lineBlanks ";").first
    let _ ← (Rule.pattern [] "Re:('.*')" fun t p => some (run (· != '\n') t p)).next
    return ()

def register : Rule Step String := .pattern lineBlanks "Re:('%[a-zA-Z0-9_.]+')" registerEnd

def number : Rule Step Nat :=
  ((Rule.pattern lineBlanks "W:(0123...)" (run1 Char.isDigit)).noting lineBlanks .number).map
    fun s => (natural? s.toList).getD 0

def word (s : String) : Rule Step String := .literal lineBlanks s

/-- A fixed word inside a line that stands for itself. -/
def mark (s : String) : Rule Step Unit := .punctuation lineBlanks s

/-! ### Types -/

def stars : Rule Step Nat := (Rule.many lineBlanks (word "*")).map List.length

/-- An integer type and pointers to it. -/
def intType : Rule Step Mark :=
  (Rule.phrase lineBlanks do
    let _ ← (word "i").first
    let width ← number.next
    let n ← stars.next
    return (width, n)).taking lineBlanks .intType fun (width, n) => .intType width n

/-- An array type and pointers to it. -/
def arrayType (expr : Rule Step Operand) (elem : Rule Step Mark) : Rule Step Mark :=
  (Rule.phrase lineBlanks do
    let _ ← (word "[").first
    let count ← expr.next
    let _ ← (word "x").next
    let elem ← elem.next
    let _ ← (word "]").next
    let n ← stars.next
    return (count, elem, n)).taking lineBlanks .arrayType fun (count, elem, n) => .arrayType count elem n

def typeNameEnd (t : Chars) (p : Nat) : Option Nat :=
  if hasWord t p "Ty" then some (run Char.isDigit t (p + 2)) else none

/-- A named type and pointers to it. -/
def namedType : Rule Step Mark :=
  (Rule.phrase lineBlanks do
    let name ← (Rule.pattern lineBlanks "Re:('Ty[0-9]*')" typeNameEnd).first
    let n ← stars.next
    return (name, n)).taking lineBlanks .namedType fun (name, n) => .namedType name n

/-- Types, with arrays nested at most `depth` deep. -/
def typeRule (expr : Rule Step Operand) : Nat → Rule Step Mark
  | 0 => never
  | depth + 1 =>
    .inside lineBlanks (.firstOf [intType, arrayType expr (typeRule expr depth), namedType])

/-! ### Operands -/

/-- The rules that the phrases of a program are made of: constant expressions and types. -/
structure Base where
  expr : Rule Step Operand
  type : Rule Step Mark

namespace Base

variable (b : Base)

def optionalType : Rule Step Mark :=
  (Rule.optional lineBlanks b.type).taking lineBlanks .optionalType .optionalType

/-- The type of conditions, which may be left out. -/
def boolType : Rule Step Mark :=
  (Rule.optional lineBlanks (word "i1")).takingIf (fun _ => false) lineBlanks .boolType fun _ => .boolType

def operand : Rule Step Operand := .firstOf [b.expr, (word "undef").map fun _ => .undefined]

def typed (kind : Phrase) (act : Mark → Operand → Act) (type : Rule Step Mark) : Rule Step Mark :=
  (Rule.phrase lineBlanks do
    let t ← type.first
    let o ← b.operand.next
    return (t, o)).taking lineBlanks kind fun (t, o) => act t o

def anyOperand : Rule Step Mark := b.typed .anyOperand (.operand .any) b.optionalType

def intOperand : Rule Step Mark := b.typed .intOperand (.operand .int) b.optionalType

def boolOperand : Rule Step Mark := b.typed .boolOperand (.operand .bool) boolType

def ptrOperand : Rule Step Mark := b.typed .ptrOperand (.operand .ptr) b.optionalType

/-- An alignment, zero if it is left out. -/
def alignment : Rule Step Nat :=
  let given : Rule Step Nat := .phrase lineBlanks do
    comma.first
    (mark "align").next
    number.next
  ((Rule.optional lineBlanks given).noting lineBlanks .align).map fun n => n.getD 0

def nextIndex : Rule Step Mark := .phrase lineBlanks do
  comma.first
  b.intOperand.next

/-! ### Instructions -/

def copy : Rule Step Mark := b.typed .copy .copy b.optionalType

def icmp : Rule Step Mark :=
  (Rule.phrase lineBlanks do
    let _ ← (word "icmp").first
    let pred ← ((Rule.optional lineBlanks identifier).noting lineBlanks .name).next
    let first ← b.anyOperand.next
    comma.next
    let second ← b.operand.next
    return (pred, first, second)).taking lineBlanks .icmp
      fun (pred, first, second) => .icmp (pred.getD "") first second

def select : Rule Step Mark :=
  (Rule.phrase lineBlanks do
    let _ ← (word "select").first
    let c ← b.boolOperand.next
    comma.next
    let t1 ← b.optionalType.next
    let o1 ← b.operand.next
    comma.next
    let t2 ← b.optionalType.next
    let o2 ← b.operand.next
    return Act.select c t1 o1 t2 o2).taking lineBlanks .select id

def alloca : Rule Step Mark :=
  let count : Rule Step Mark := (Rule.optional lineBlanks b.nextIndex).takingIf
    (fun given => given.isNone) lineBlanks .elemCount .elemCount
  (Rule.phrase lineBlanks do
    let _ ← (word "alloca").first
    let t ← b.optionalType.next
    let n ← count.next
    let a ← alignment.next
    return Act.alloca t n a).taking lineBlanks .alloca id

/-- An address computation. -/
def gep : Rule Step Mark :=
  (Rule.phrase lineBlanks do
    let _ ← (word "getelementptr").first
    let inbounds ← (Rule.optional lineBlanks (word "inbounds")).next
    let pointer ← b.ptrOperand.next
    let indices ← (Rule.many lineBlanks b.nextIndex).next
    return Act.gep inbounds.isSome pointer indices).taking lineBlanks .gep id

def load : Rule Step Mark :=
  (Rule.phrase lineBlanks do
    let _ ← (word "load").first
    let pointer ← b.ptrOperand.next
    let a ← alignment.next
    return Act.load pointer a).taking lineBlanks .load id

def arith : Rule Step Mark :=
  let flag : Rule Step String := .firstOf [word "nsw", word "nuw", word "exact"]
  (Rule.phrase lineBlanks do
    let op ← identifier.first
    let flags ← ((Rule.many [] flag).noting [] .flags).next
    let t ← b.optionalType.next
    let o1 ← b.operand.next
    comma.next
    let o2 ← b.operand.next
    return Act.arith op flags t o1 o2).taking lineBlanks .arith id

def convert : Rule Step Mark :=
  let target : Rule Step Mark := .phrase lineBlanks do
    (mark "to").first
    b.type.next
  (Rule.phrase lineBlanks do
    let op ← identifier.first
    let t ← b.optionalType.next
    let o ← b.operand.next
    let target ← ((Rule.optional lineBlanks target).taking lineBlanks .toType .optionalType).next
    return Act.convert op t o target).taking lineBlanks .convert id

def operation : Rule Step Mark :=
  .firstOf [b.copy, b.icmp, b.select, b.alloca, b.gep, b.load, b.arith, b.convert]

def define : Rule Step Mark :=
  (Rule.phrase lineBlanks do
    let reg ← register.first
    (mark "=").next
    let op ← b.operation.next
    return Act.define reg op).taking lineBlanks .define id

def store : Rule Step Mark :=
  (Rule.phrase lineBlanks do
    let _ ← (word "store").first
    let source ← b.anyOperand.next
    comma.next
    let pointer ← b.ptrOperand.next
    let a ← alignment.next
    return Act.store source pointer a).taking lineBlanks .store id

def unreachable : Rule Step Mark := (word "unreachable").taking lineBlanks .unreachable fun _ => .unreachable

def label : Rule Step Mark :=
  (Rule.phrase lineBlanks do
    let name ← identifier.first
    (mark ":").next
    return Act.label name).taking lineBlanks .label id

def br : Rule Step Mark :=
  (Rule.phrase lineBlanks do
    let _ ← (word "br").first
    let c ← b.boolOperand.next
    comma.next
    (mark "label").next
    let l1 ← register.next
    comma.next
    (mark "label").next
    let l2 ← register.next
    return Act.br c l1 l2).taking lineBlanks .br id

def ret : Rule Step Mark :=
  (Rule.phrase lineBlanks do
    let _ ← (word "ret").first
    let v ← b.anyOperand.next
    return Act.ret v).taking lineBlanks .ret id

def skip : Rule Step Mark := (mark "skip").taking lineBlanks .skip fun _ => .skip

def statement : Rule Step Unit :=
  .firstOf
    (([b.define, b.store, unreachable, label, b.br, b.ret, skip].map fun r => r.map fun _ => ()) ++
      [comment])

def program : Rule Step Unit :=
  let lineEnds : Rule Step (List Unit) := .inside lineBlanks (.many1 lineBlanks (.lineEnd lineBlanks))
  let more : Rule Step Unit := .phrase lineBlanks do
    let _ ← lineEnds.first
    b.statement.next
    let _ ← (Rule.optional lineBlanks comment).next
    return ()
  .phrase lineBlanks do
    b.statement.first
    let _ ← (Rule.optional lineBlanks comment).next
    let _ ← (Rule.many lineBlanks more).next
    let _ ← (Rule.optional [] (.blankRun allBlanks)).next
    (Rule.textEnd lineBlanks).next

end Base

def Base.ofLength (length : Nat) : Base :=
  let expr := constantExpr length
  ⟨expr, typeRule expr (length + 2)⟩

def readProgram (t : Chars) : Reply Step Unit :=
  (Base.ofLength t.size).program.read t true true 0

end Peephole.Reader
