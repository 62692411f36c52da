import Peephole.Text.Quoted

/-!
# C++ fragments

The part of C++ that generated code is made of: types, expressions and statements.  `BinaryOp` gives
each operator its spelling and its precedence; a smaller number binds tighter.
-/

namespace Peephole.Cpp

/-- A type: a name, or a pointer to a type. -/
inductive CType where
  | named (name : String)
  | pointer (pointee : CType)
  deriving Inhabited, Repr, DecidableEq

namespace CType

/-- The name under all pointers. -/
def underlying : CType → String
  | named n => n
  | pointer t => t.underlying

/-- The type as it is written in front of a variable. -/
def text : CType → String
  | named n => n
  | pointer t => t.text ++ "*"

/-- The structure of the type, written out. -/
def describe : CType → String
  | named n => "CTypeName(" ++ Text.quoted n ++ ")"
  | pointer t => "CPtrType(" ++ t.describe ++ ")"

end CType

inductive BinaryOp where
  | mul | div | mod
  | add | sub
  | shiftLeft | shiftRight
  | lt | le | gt | ge
  | eq | ne
  | bitAnd | bitXor | bitOr
  | and | or
  | assign
  | comma
  deriving Inhabited, Repr, DecidableEq

namespace BinaryOp

def all : List BinaryOp :=
  [mul, div, mod, add, sub, shiftLeft, shiftRight, lt, le, gt, ge, eq, ne, bitAnd, bitXor, bitOr,
    and, or, assign, comma]

def symbol : BinaryOp → String
  | mul => "*" | div => "/" | mod => "%"
  | add => "+" | sub => "-"
  | shiftLeft => "<<" | shiftRight => ">>"
  | lt => "<" | le => "<=" | gt => ">" | ge => ">="
  | eq => "==" | ne => "!="
  | bitAnd => "&" | bitXor => "^" | bitOr => "|"
  | and => "&&" | or => "||"
  | assign => "="
  | comma => ","

def ofSymbol? (s : String) : Option BinaryOp := all.find? fun op => op.symbol == s

def precedence : BinaryOp → Nat
  | mul | div | mod => 5
  | add | sub => 6
  | shiftLeft | shiftRight => 7
  | lt | le | gt | ge => 8
  | eq | ne => 9
  | bitAnd => 10
  | bitXor => 11
  | bitOr => 12
  | and => 13
  | or => 14
  | assign => 15
  | comma => 17

/-- Whether a right operand of the same precedence needs parentheses. -/
def leftOnly : BinaryOp → Bool
  | div | mod | sub | shiftLeft | shiftRight | lt | le | gt | ge | eq | ne => true
  | _ => false

end BinaryOp

inductive Expr where
  /-- A variable, a literal, or any other word. -/
  | var (name : String)
  | call (fn : String) (args : List Expr)
  /-- A field, behind an arrow or a point. -/
  | field (arrow : Bool) (object : Expr) (name : String)
  /-- A call of a method, behind an arrow or a point. -/
  | method (arrow : Bool) (object : Expr) (name : String) (args : List Expr)
  | unary (op : String) (arg : Expr)
  | binary (op : BinaryOp) (left right : Expr)
  | assign (target value : Expr)
  /-- A piece of text that stands for an expression and is none. -/
  | raw (s : String)
  deriving Inhabited

namespace Expr

/-- Whether this is an expression by its structure, and not a piece of text. -/
def isProper : Expr → Bool
  | raw _ => false
  | _ => true

/-- The arguments joined by an operator, from the left; none if there is no argument. -/
def joined? (op : BinaryOp) : List Expr → Option Expr
  | [] => none
  | e :: es => some (es.foldl (binary op) e)

end Expr

/-- The variable with the stars that a declaration of the type puts in front of it. -/
def CType.decorate : CType → Expr → Expr
  | named _, e => e
  | pointer t, e => .unary "*" (t.decorate e)

inductive Stmt where
  | expr (e : Expr)
  | ite (cond : Expr) (thenBlock elseBlock : List Stmt)
  /-- Variables of one type, with or without initial values. -/
  | define (type : CType) (vars : List Expr)
  | ret (value : Option Expr)
  deriving Inhabited

namespace Stmt

/-- The definition of one variable with its initial value. -/
def init (type : CType) (target value : Expr) : Stmt :=
  define (.named type.underlying) [.assign (type.decorate target) value]

/-- Whether the statement itself defines and returns only proper expressions. -/
def isProper : Stmt → Bool
  | define _ vars => vars.all Expr.isProper
  | ret (some e) => e.isProper
  | _ => true

/-- Put a variable to the others of the same type, keeping the order in which types appear. -/
def addToBlock (type : String) (e : Expr) : List (String × List Expr) → List (String × List Expr)
  | [] => [(type, [e])]
  | (t, es) :: rest =>
    if t = type then (t, es ++ [e]) :: rest else (t, es) :: addToBlock type e rest

/-- Definitions of the given variables, one definition for each type under the pointers. -/
def defineAll (vars : List (CType × Expr)) : List Stmt :=
  (vars.foldl (fun ds v => addToBlock v.1.underlying (v.1.decorate v.2) ds) []).map
    fun d => define (.named d.1) d.2

end Stmt

end Peephole.Cpp
