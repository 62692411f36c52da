import Peephole.Grammar.Adjust

/-!
# Putting elements together

Sequences, alternatives and elements in any order, and the operators that make them.  A text among the operands
stands for the element that matches it; an operand that is no element makes no grammar.
-/

namespace Peephole.Grammar

/-- The parts of an element: texts become elements if all of them are texts. -/
def partsOf (os : List Operand) : GrammarM (List Operand) := do
  let isText (o : Operand) : Bool := match o with
    | .text _ => true
    | _ => false
  if os.all isText then
    os.mapM fun o => match o with
      | .text s => do return .element (← literal s)
      | o => return o
  else return os

/-- Whether all parts may match the empty text; later parts are not asked after one that may not. -/
def allMayBeEmpty : List Operand → GrammarM Bool
  | [] => return true
  | o :: os => do if (← elementOf (← o.id)).mayBeEmpty then allMayBeEmpty os else return false

/-- Whether some part may match the empty text; later parts are not asked after one that may. -/
def anyMayBeEmpty : List Operand → GrammarM Bool
  | [] => return false
  | o :: os => do if (← elementOf (← o.id)).mayBeEmpty then return true else anyMayBeEmpty os

def sequenceElement (os : List Operand) : GrammarM ElementId := do
  let parts ← partsOf os
  let mayBeEmpty ← allMayBeEmpty parts
  match os with
  | [] => broken .outOfRange
  | o :: _ => do
    let head ← elementOf (← o.id)
    newElement { ← freshElement (.sequence parts) with
      savesList := true, mayBeEmpty := mayBeEmpty, blanks := head.blanks, followsDefault := false
      skipsBlanks := head.skipsBlanks }

def choiceElement (form : List Operand → Form) (os : List Operand) : GrammarM ElementId := do
  let parts ← partsOf os
  let mayBeEmpty ← if parts.isEmpty then pure true else anyMayBeEmpty parts
  newElement { ← freshElement (form parts) with mayBeEmpty := mayBeEmpty, preparses := false }

def longestElement (os : List Operand) : GrammarM ElementId := choiceElement .longest os

def firstElement (os : List Operand) : GrammarM ElementId := choiceElement .first os

def anyOrderElement (os : List Operand) : GrammarM ElementId := do
  let parts ← partsOf os
  let mayBeEmpty ← allMayBeEmpty parts
  newElement { ← freshElement (.anyOrder parts none) with
    savesList := true, mayBeEmpty := mayBeEmpty, preparses := false }

def joinElement (o : Operand) (separator : String := "") (adjacent : Bool := true) : GrammarM ElementId := do
  let e ← convertElement (.join separator adjacent) o
  if adjacent then leaveBlanks e
  changeElement e fun el => { el with skipsBlanks := true, preparses := true }
  return e

/-! ### Operators -/

inductive Operator where
  | followedBy
  /-- As `followedBy`, but after the first operand matched the second has to match. -/
  | committedTo
  | orElse
  | orLonger
  | andAlso
  deriving Inhabited, Repr, DecidableEq

def joinElements (op : Operator) (a b : ElementId) : GrammarM ElementId := do
  let x := Operand.element a
  let y := Operand.element b
  match op with
  | .followedBy => sequenceElement [x, y]
  | .committedTo => sequenceElement [x, .element (← commitElement), y]
  | .orElse => firstElement [x, y]
  | .orLonger => longestElement [x, y]
  | .andAlso => anyOrderElement [x, y]

/-- Two operands put together: texts alone can only be put after each other, and with nothing there is nothing. -/
def combine (op : Operator) (a b : Operand) : GrammarM Operand := do
  match a, b with
  | .element a, .element b => return .element (← joinElements op a b)
  | .element a, .text s => return .element (← joinElements op a (← literalAsSet s))
  | .text s, .element b => return .element (← joinElements op (← literalAsSet s) b)
  | .element _, _ | _, .element _ => return .nothing
  | .text s, .text u => if op == .followedBy then return .text (s ++ u) else broken .badOperands
  | _, _ => broken .badOperands

def andThen (a b : Operand) : GrammarM Operand := combine .followedBy a b

/-- Add a part to an element that is made of parts by this operator; put anything else together. -/
def addPart (op : Operator) (a b : Operand) : GrammarM Operand := do
  let added (e : ElementId) (o : Operand) : GrammarM Operand := do
    changeElement e fun el => { el with form := el.form.withParts ((el.form.parts?.getD []) ++ [o]), shown := none }
    return .element e
  match a with
  | .element e => do
    let kind := match (← elementOf e).form with
      | .sequence _ => some Operator.followedBy
      | .first _ => some .orElse
      | .longest _ => some .orLonger
      | _ => none
    if kind == some op then
      match b with
      | .text s => do
        let l ← if op == .followedBy then literal s else literalAsSet s
        added e (.element l)
      | b => added e b
    else combine op a b
  | _ => combine op a b

inductive Times where
  | count (n : Int)
  /-- Bounds; each is a number, or nothing, or something else. -/
  | bounds (bs : List (Option (Option Int)))
  | other
  deriving Inhabited, Repr

/-- An element several times, then up to so many times more. -/
def repeated (e : ElementId) (least more : Int) : GrammarM ElementId := do
  if least < 0 || more < 0 || (least == 0 && more == 0) then broken .badNumeral
  let o := Operand.element e
  let times (n : Nat) : GrammarM ElementId := sequenceElement (List.replicate n o)
  if more == 0 then
    if least == 1 then return e else times least.toNat
  else
    let tail ← optionals e more.toNat
    if least == 0 then return tail
    else
      let head ← if least == 1 then pure e else times least.toNat
      joinElements .followedBy head tail
where
  optionals (e : ElementId) : Nat → GrammarM ElementId
    | 0 | 1 => optionalElement (.element e)
    | n + 1 => do
      let rest ← optionals e n
      optionalElement (.element (← joinElements .followedBy e rest))

def repeatElement (e : ElementId) : Times → GrammarM ElementId
  | .other => broken .badOperands
  | .count n => repeated e n 0
  | .bounds bs => do
    let pair := (bs ++ [some none, some none]).take 2
    match pair with
    | [some low, some high] =>
      let low := low.getD 0
      match high with
      | none =>
        if low == 0 then zeroOrMoreElement (.element e)
        else if low == 1 then oneOrMoreElement (.element e)
        else do
          let head ← repeated e low 0
          joinElements .followedBy head (← zeroOrMoreElement (.element e))
      | some high => repeated e low (high - low)
    | _ => broken .badOperands

/-- An operand as often as is given; a text is repeated as a text. -/
def repeatOperand (o : Operand) (n : Times) : GrammarM Operand :=
  match o, n with
  | .element e, n => do return .element (← repeatElement e n)
  | .text s, .count n => return .text (String.join (List.replicate n.toNat s))
  | _, _ => broken .badOperands

def partOf (o : Operand) (i : Int) : GrammarM Operand := do
  match o with
  | .element e =>
    match (← elementOf e).form.parts? with
    | some ps =>
      match index? ps i with
      | some j => return (ps[j]?).getD .nothing
      | none => broken .outOfRange
    | none => broken .badOperands
  | .text s =>
    match index? s.toList i with
    | some j => return .text (String.ofList ((s.toList.drop j).take 1))
    | none => broken .outOfRange
  | _ => broken .badOperands

end Peephole.Grammar
