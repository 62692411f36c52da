import Peephole.Cpp.Syntax
import Peephole.Layout.Render

/-!
# Layout of C++ fragments

`Expr.doc prec e` lays out an expression where operators up to the precedence `prec` may stand without
parentheses: `18` admits every expression and `0` only those without an infix operator.  `Stmt.doc`
lays out a statement with its semicolon.
-/

namespace Peephole.Cpp

open Layout (Doc)
open Layout.Doc (cat grouped)

/-- A comma and a place where the line may end. -/
def separator : Doc := cat [.text ",", .line]

def commaList (ds : List Doc) : Doc := Doc.join separator ds

def CType.doc : CType → Doc
  | .named n => .text n
  | .pointer t => t.doc ++ .text "*"

/-- Whether an expression with the infix operator of precedence `p` needs parentheses in a place for
`prec`.  Arithmetic gets them inside the bit operators, too, where they only help the reader. -/
def needsParens (prec p : Nat) : Bool :=
  prec < p || (10 ≤ prec && prec ≤ 12 && p ≤ 6)

mutual

/-- The layout of an expression in a place for the precedence `prec`. -/
def Expr.doc (prec : Nat) : Expr → Doc
  | .var name => .text name
  | .raw s => .text s
  | .call fn args =>
    match args with
    | [] => .text (fn ++ "()")
    | _ => .nest 4 (grouped (.text (fn ++ "(") ++ commaList (Expr.docs args) ++ .text ")"))
  | .field arrow object name =>
    Expr.doc 0 object ++ .text (if arrow then "->" else ".") ++ .text name
  | .method arrow object name args =>
    Expr.doc 0 object ++ .text (if arrow then "->" else ".") ++ .text name ++
      grouped (.nest 2 (.text "(" ++ commaList (Expr.docs args) ++ .text ")"))
  | .unary op arg => .nest 2 (.text op ++ Expr.doc 3 arg)
  | .binary op left right =>
    let p := op.precedence
    let body := Expr.doc p left ++ .line ++ .text op.symbol ++ .text " " ++
      Expr.doc (if op.leftOnly then p - 1 else p) right
    if needsParens prec p then grouped (.nest 2 (.text "(" ++ body ++ .text ")"))
    else if p < prec then .nest 2 (grouped body)
    else body
  | .assign target value =>
    let body := cat [Expr.doc 14 target, .text " =", .line, Expr.doc 15 value]
    let body := if prec < 15 then cat [.text "(", body, .text ")"] else body
    if prec ≠ 15 then .nest 2 (grouped body) else body

def Expr.docs : List Expr → List Doc
  | [] => []
  | e :: es => Expr.doc 18 e :: Expr.docs es

end

/-- The block of statements between braces, each on a line of its own. -/
def blockDoc (stmts : List Doc) : Doc :=
  .nest 4 (cat (stmts.map fun d => Doc.line ++ d)) ++ .line ++ .text "\x7d"

mutual

def Stmt.doc : Stmt → Doc
  | .expr e => e.doc 18 ++ .text ";"
  | .ite cond thenBlock elseBlock =>
    let head := Doc.text "if (" ++
      grouped (.nest 4 (cond.doc 18 ++ .text ")") ++ .line) ++ .text "\x7b" ++
      blockDoc (Stmt.docs thenBlock)
    match elseBlock with
    | [] => head
    | _ => head ++ .text " else \x7b" ++ blockDoc (Stmt.docs elseBlock)
  | .define type vars =>
    .nest 2 (grouped (cat [type.doc, .text " ",
      commaList (vars.map fun e => e.doc 17), .text ";"]))
  | .ret value =>
    let head := match value with
      | some e => Doc.text "return" ++ .nest 2 (Doc.line ++ e.doc 18)
      | none => Doc.text "return"
    grouped (head ++ .text ";")

def Stmt.docs : List Stmt → List Doc
  | [] => []
  | s :: ss => s.doc :: Stmt.docs ss

end

/-- The layout in which a fragment is shown by itself: an expression gets parentheses around an infix
operator and no semicolon. -/
def Stmt.standaloneDoc : Stmt → Doc
  | .expr e => e.doc 0
  | s => s.doc

end Peephole.Cpp
