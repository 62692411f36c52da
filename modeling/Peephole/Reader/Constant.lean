import Peephole.Reader.Step
import Peephole.Text.CharClass

/-!
# Constant expressions

A constant expression is built from names, numbers and calls by prefix operators, which bind tightest, and six
levels of binary operators.  Blanks inside an expression do not contain line breaks, except in front of a
parenthesis.
-/

namespace Peephole.Reader

open Peephole.Text

def lineBlanks : List Char := [' ', '\t', '\r']

def allBlanks : List Char := [' ', '\n', '\t', '\r']

def isNameChar (c : Char) : Bool := c.isAlphanum || c == '_' || c == '.'

def run1 (inClass : Char → Bool) (t : Chars) (p : Nat) : Option Nat :=
  let e := run inClass t p
  if p < e then some e else none

def identifier : Rule Step String := .pattern lineBlanks "W:(abcd...)" (run1 isNameChar)

def comma : Rule Step Unit := .punctuation lineBlanks ","

def hasWord (t : Chars) (p : Nat) (w : String) : Bool := slice t p (p + w.length) == w

/-- The first of several words that stands at a place. -/
def oneOf (blanks : List Char) (name : String) (words : List String) : Rule Step String :=
  .pattern blanks name fun t p => (words.find? (hasWord t p)).map fun w => p + w.length

def registerEnd (t : Chars) (p : Nat) : Option Nat :=
  if t[p]? = some '%' then run1 isNameChar t (p + 1) else none

/-- The end of a constant symbol, a number or a register. -/
def atomEnd (t : Chars) (p : Nat) : Option Nat :=
  match t[p]? with
  | some 'C' => some (run isDigit t (p + 1))
  | some '-' => run1 isDigit t (run isSpace t (p + 1))
  | some '%' => registerEnd t p
  | _ => run1 isDigit t p

/-- The end of a prefix operator; a minus sign in front of a digit belongs to the number. -/
def negationEnd (t : Chars) (p : Nat) : Option Nat :=
  match t[p]? with
  | some '~' => some (p + 1)
  | some '-' => if (run1 isDigit t (run isSpace t (p + 1))).isSome then none else some (p + 1)
  | _ => none

def arguments (expr : Rule Step Operand) : Rule Step (List Operand) :=
  let more : Rule Step Operand := .phrase lineBlanks do
    comma.first
    expr.next
  let some' : Rule Step (List Operand) := .phrase lineBlanks do
    let a ← expr.first
    let rest ← (Rule.many lineBlanks more).next
    return a :: rest
  let none' : Rule Step (List Operand) :=
    ⟨"", fun t _ skipping p => ⟨[], .matched [] (Rule.start lineBlanks t skipping p)⟩⟩
  .inside lineBlanks (.firstOf [some', none'])

/-- The name and the arguments of a call, with the blanks that may stand in front of the parentheses. -/
def callParts (blanks : List Char) (expr : Rule Step Operand) (closing : Rule Step Unit) :
    Rule Step (String × List Operand) :=
  .phrase lineBlanks do
    let name ← identifier.first
    (Rule.punctuation blanks "(").next
    let args ← (arguments expr).next
    (Rule.punctuation blanks ")").next
    closing.next
    return (name, args)

/-- The call of a function.  In front of `&&` or `||` it would be a predicate. -/
def functionCall (expr : Rule Step Operand) : Rule Step Mark :=
  let logical := oneOf lineBlanks "" ["&&", "||"]
  (callParts lineBlanks expr (.notFollowedBy "Re:('\\\\&\\\\&|\\\\|\\\\|')" logical)).taking
    lineBlanks .call fun (name, args) => .call name args

def constantAtom (expr : Rule Step Operand) : Rule Step Operand :=
  let call : Rule Step (Nat → Operand) := (functionCall expr).map fun m p => .call p m
  let atom : Rule Step (Nat → Operand) :=
    (Rule.pattern lineBlanks "Re:('C\\\\d*|(?:-\\\\s*)?\\\\d+|%[a-zA-Z0-9_.]+')" atomEnd).map
      fun s p => .word p s
  let constant : Rule Step (Nat → Operand) :=
    (oneOf lineBlanks "Re:('false|true|null')" ["false", "true", "null"]).map fun s p => .word p s
  (Rule.located lineBlanks (.firstOf [call, atom, constant])).map fun (p, f) => f p

def parenthesized {α : Type} (expr : Rule Step α) : Rule Step α :=
  .phrase allBlanks do
    (Rule.punctuation allBlanks "(").first
    let e ← expr.next
    (Rule.punctuation allBlanks ")").next
    return e

/-- An operand of binary operators: `self` is the rule itself, `expr` is for whole expressions. -/
def constantUnary (self expr : Rule Step Operand) : Rule Step Operand :=
  let op : Rule Step String := .pattern lineBlanks "Re:('~|-(?!\\\\s*\\\\d)')" negationEnd
  let negated : Rule Step Operand := .prefixed op self fun p o a =>
    (⟨⟨.negation, p, true⟩, none, .negation o a⟩, .expr ⟨.negation, p, true⟩)
  .inside lineBlanks (.firstOf [negated, constantAtom expr, parenthesized expr])

/-- The binary operators, level by level from the tightest. -/
def constantLevels : List (List String) :=
  [["*", "/u", "/", "%u", "%"], ["+", "-"], ["<<", ">>", "u>>"], ["&"], ["^"], ["|"]]

def constantLevel (n : Nat) (ops : List String) (operand : Rule Step Operand) : Rule Step Operand :=
  .chain lineBlanks operand (oneOf lineBlanks "" ops) fun p a rest =>
    (⟨⟨.level n, p, true⟩, none, .chain a rest⟩, .expr ⟨.level n, p, true⟩)

/-- Whole expressions around operands with prefix operators. -/
def constantBinary (unary : Rule Step Operand) : Rule Step Operand :=
  (constantLevels.foldl (fun (r, n) ops => (constantLevel n ops r, n + 1)) (unary, 0)).1

def never {α : Type} : Rule Step α := ⟨"", fun _ _ _ p => ⟨[], .failed p ""⟩⟩

/-- The rules for operands and for whole expressions, nested at most `depth` deep. -/
def constantRules : Nat → Rule Step Operand × Rule Step Operand
  | 0 => (never, never)
  | depth + 1 =>
    let (unary, expr) := constantRules depth
    let unary' := constantUnary unary expr
    (unary', constantBinary unary')

def constantExpr (length : Nat) : Rule Step Operand := (constantRules (length + 2)).2

end Peephole.Reader
