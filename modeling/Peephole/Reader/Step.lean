import Peephole.Reader.Rule

/-!
# Steps

Reading an optimization records what is to be done, in order, as steps.  A step belongs to a phrase at a place
and refers to the results of earlier steps by their marks.  A phrase that is read again at the same place gives
the same mark, and its step is done once.
-/

namespace Peephole.Reader

inductive Phrase where
  | call | negation | level (n : Nat)
  | number | intType | arrayType | namedType | optionalType | boolType | toType
  | flags | name | align
  | anyOperand | intOperand | boolOperand | ptrOperand | elemCount
  | copy | icmp | select | alloca | gep | load | arith | convert
  | define | store | unreachable | label | br | ret | skip
  | test | always | comparison | not | both | either | nothing
  deriving Inhabited, Repr, DecidableEq

/-- A phrase at a place; `skipping` says whether blanks were to be skipped there. -/
structure Mark where
  phrase : Phrase
  place : Nat
  skipping : Bool
  deriving Inhabited, Repr, DecidableEq

inductive Operand where
  /-- A name, a number, `true`, `false` or `null`. -/
  | word (place : Nat) (text : String)
  | call (place : Nat) (result : Mark)
  | expr (result : Mark)
  | undefined
  deriving Inhabited, Repr, DecidableEq

/-- What an operand's type must be. -/
inductive Need where
  | any | int | bool | ptr
  deriving Inhabited, Repr, DecidableEq

inductive Act where
  | note
  | call (name : String) (args : List Operand)
  | negation (op : String) (arg : Operand)
  | chain (first : Operand) (rest : List (String × Operand))
  | intType (width stars : Nat)
  | arrayType (count : Operand) (elem : Mark) (stars : Nat)
  | namedType (name : String) (stars : Nat)
  | optionalType (given : Option Mark)
  | boolType
  | operand (need : Need) (type : Mark) (operand : Operand)
  | elemCount (given : Option Mark)
  | copy (type : Mark) (operand : Operand)
  | icmp (pred : String) (first : Mark) (second : Operand)
  | select (cond type1 : Mark) (operand1 : Operand) (type2 : Mark) (operand2 : Operand)
  | alloca (type count : Mark) (align : Nat)
  | gep (inbounds : Bool) (pointer : Mark) (indices : List Mark)
  | load (pointer : Mark) (align : Nat)
  | arith (op : String) (flags : List String) (type : Mark) (operand1 operand2 : Operand)
  | convert (op : String) (type : Mark) (operand : Operand) (target : Mark)
  | define (reg : String) (instr : Mark)
  | store (source pointer : Mark) (align : Nat)
  | unreachable
  | label (name : String)
  | br (cond : Mark) (label1 label2 : String)
  | ret (value : Mark)
  | skip
  | test (name : String) (args : List Operand)
  | always
  | comparison (first : Operand) (rest : List (String × Operand))
  | not (cond : Mark)
  | both (conds : List Mark)
  | either (conds : List Mark)
  deriving Inhabited, Repr

/-- A step: the phrase that it belongs to, the place that is noted when it is done, and what it does. -/
structure Step where
  mark : Mark
  noted : Option Nat
  act : Act
  deriving Inhabited, Repr

namespace Rule

variable {α : Type}

/-- The rule with a step that is taken when it has matched, and that notes the place if `notes` says so; the
value of the rule is the mark of the step. -/
def takingIf (notes : α → Bool) (blanks : List Char) (kind : Phrase) (act : α → Act) (r : Rule Step α) :
    Rule Step Mark :=
  ⟨r.message, fun t live skipping p =>
    (r.read t live skipping p).andThen fun a e =>
      let mark : Mark := ⟨kind, p, skipping⟩
      let noted := if notes a then some (start blanks t skipping p) else none
      ⟨if live then [⟨mark, noted, act a⟩] else [], .matched mark e⟩⟩

/-- The rule with a step that notes the place and is taken when the rule has matched. -/
def taking (blanks : List Char) (kind : Phrase) (act : α → Act) (r : Rule Step α) : Rule Step Mark :=
  r.takingIf (fun _ => true) blanks kind act

/-- The rule with a step that only notes the place; its value is kept. -/
def noting (blanks : List Char) (kind : Phrase) (r : Rule Step α) : Rule Step α :=
  ⟨r.message, fun t live skipping p =>
    (r.read t live skipping p).andThen fun a e =>
      ⟨if live then [⟨⟨kind, p, skipping⟩, some (start blanks t skipping p), .note⟩] else [],
        .matched a e⟩⟩

end Rule

end Peephole.Reader
