import Peephole.Grammar.Build
import Peephole.Grammar.Same

/-!
# Copying and adjusting elements

A copy of an element made of parts has copies of the parts; a copy of an element about another shares it.  Blanks
are left to the grammar, and comments are skipped, in all the elements inside.

`streamline` prepares a grammar for matching: a sequence inside a sequence becomes one sequence, and likewise for
alternatives.
-/

namespace Peephole.Grammar

def copyWithin : Nat → ElementId → GrammarM ElementId
  | 0, _ => throw .tooDeep
  | fuel + 1, e => do
    let el ← elementOf e
    let g ← get
    let el := { el with blanks := if el.followsDefault then g.blanks else el.blanks, showing := false }
    match el.form with
    | .keyword word folded checksStart _ =>
      newElement { el with form := .keyword word folded checksStart (.text g.keywordChars) }
    | .forward .nothing => do
      let f ← forwardElement
      assign f (.element e)
      return f
    | form =>
      match form.parts? with
      | none => newElement el
      | some ps => do
        let c ← newElement el
        let ps ← ps.mapM fun p => do return Operand.element (← copyWithin fuel (← p.id))
        changeElement c fun el => { el with form := el.form.withParts ps }
        return c

def copyElement (e : ElementId) : GrammarM ElementId := copyWithin nesting e

def setName (e : ElementId) (name : String) : GrammarM Unit :=
  changeElement e fun el => { el with name := some name, message := expected name }

/-- A copy of an element whose matches have a name.  A star at the end of the name says that all matches count. -/
def withResultName (e : ElementId) (name : String) (all : Bool := false) : GrammarM ElementId := do
  let c ← copyElement e
  let starred := name.toList.getLast? == some '*'
  let name := if starred then String.ofList name.toList.dropLast else name
  changeElement c fun el =>
    { el with
      resultName := some name
      lastCounts := !(all || starred)
      savesList := match el.form with
        | .zeroOrMore _ | .oneOrMore _ => true
        | _ => el.savesList }
  return c

def setActions (e : ElementId) (as : List Action) (inTrial : Bool := false) : GrammarM Unit := do
  let acts ← as.mapM newAct
  changeElement e fun el => { el with actions := acts, actsInTrial := inTrial }

def addActions (e : ElementId) (as : List Action) (inTrial : Bool := false) : GrammarM Unit := do
  let acts ← as.mapM newAct
  changeElement e fun el => { el with actions := el.actions ++ acts, actsInTrial := el.actsInTrial || inTrial }

/-- Fix the attempts on an element, so that its copies are matched as the element is now. -/
def fixAttempts (e : ElementId) : GrammarM Unit :=
  changeElement e fun el => { el with standsFor := el.standsFor <|> some e }

def keepTabs (e : ElementId) : GrammarM Unit := changeElement e fun el => { el with keepsTabs := true }

/-- Report when the element does not match, and stop everything if there is a message. -/
def setFailAct (e : ElementId) (message : Option String) : GrammarM Unit := do
  let number := (← newAct .keep).number
  changeElement e fun el => { el with failAct := some ⟨number, message⟩ }

/-- Print the attempts on an element, or no longer. -/
def setDebug (e : ElementId) (on : Bool) : GrammarM Unit :=
  changeElement e fun el => if on then { el with debugged := true, reports := .printed } else { el with debugged := false }

/-- Watch the attempts on an element without printing them. -/
def debugSilently (e : ElementId) : GrammarM Unit :=
  changeElement e fun el => { el with debugged := true, reports := .silent }

/-- Let all actions that are done once be done again. -/
def resetOnce : GrammarM Unit := modify fun g => { g with spent := [] }

def copyCalled : Operand → GrammarM Operand
  | .element e => do return .element (← copyElement e)
  | _ => broken .badOperands

/-- The element that drops the tokens of an element; one that drops tokens is that already. -/
def dropped (e : ElementId) : GrammarM ElementId := do
  if (← elementOf e).form.isDrop then return e else dropElement (.element e)

/-- The element that matches where an element does not. -/
def invert : Operand → GrammarM Operand
  | .element e => do return .element (← notAheadElement (.element e))
  | _ => broken .badOperands

/-- Give a forward element its meaning; nothing else can be given one. -/
def assignOperand (target o : Operand) : GrammarM Unit := do
  match target with
  | .element e =>
    match (← elementOf e).form with
    | .forward _ => assign e o
    | _ => broken .badOperands
  | _ => broken .badOperands

/-- Skip no blanks in front of an element and the elements inside. -/
def leaveWithin : Nat → ElementId → GrammarM Unit
  | 0, _ => throw .tooDeep
  | fuel + 1, e => do
    changeElement e fun el => { el with skipsBlanks := false }
    let el ← elementOf e
    match el.form with
    | .forward _ => return
    | form =>
      match form.parts? with
      | some ps => do
        let ps ← ps.mapM fun p => do return Operand.element (← copyElement (← p.id))
        changeElement e fun el => { el with form := el.form.withParts ps }
        for p in ps do leaveWithin fuel (← p.id)
      | none =>
        if form.isEnclosing then
          match form.inner? with
          | none => broken .noSuchPart
          | some i => do
            let c ← copyElement i
            changeElement e fun el => { el with form := el.form.withInner c }
            leaveWithin fuel c

def leaveBlanks (e : ElementId) : GrammarM Unit := leaveWithin nesting e

def setBlanks (e : ElementId) (cs : List Char) : GrammarM Unit :=
  changeElement e fun el => { el with skipsBlanks := true, blanks := cs, followsDefault := false }

/-- Skip texts in front of one element only.  Answer whether they were not skipped before. -/
def ignoreHere (e other : ElementId) : GrammarM Bool := do
  let o ← elementOf other
  if o.form.isDrop then
    if ← alikeAny other (← elementOf e).ignored then return false
    let c ← copyElement other
    changeElement e fun el => { el with ignored := el.ignored ++ [c] }
    return true
  else
    let c ← dropElement (.element (← copyElement other))
    changeElement e fun el => { el with ignored := el.ignored ++ [c] }
    return true

/-- Skip texts in front of an element and the elements inside. -/
def ignoreWithin : Nat → ElementId → ElementId → GrammarM Unit
  | 0, _, _ => throw .tooDeep
  | fuel + 1, e, other => do
    if !(← ignoreHere e other) then return
    let el ← elementOf e
    let some last := el.ignored.getLast? | return
    match el.form with
    | .convert (.join _ true) _ => return
    | form =>
      match form.parts?, form.inner? with
      | some ps, _ => for p in ps do ignoreWithin fuel (← p.id) last
      | none, some i => ignoreWithin fuel i last
      | none, none => return

def ignore (e : ElementId) (other : Operand) : GrammarM Unit := do ignoreWithin nesting e (← other.id)

/-- Join the parts of an element inside with those around it, if nothing is done with them on their own. -/
def absorb (el other : Element) (join : List Operand → List Operand) : Element :=
  match other.form.parts? with
  | some ps =>
    if el.form.sameKind other.form && other.actions.isEmpty && other.resultName.isNone && !other.debugged then
      { el with
        form := el.form.withParts (join ps), shown := none, mayBeEmpty := el.mayBeEmpty || other.mayBeEmpty
        mayOverrun := el.mayOverrun || other.mayOverrun }
    else el
  | none => el

/-- Prepare an element and the elements inside for matching. -/
def streamlineWithin : Nat → ElementId → GrammarM Unit
  | 0, _ => throw .tooDeep
  | fuel + 1, e => do
    let el ← elementOf e
    match el.form with
    | .forward inner =>
      if !el.streamlined then
        changeElement e fun el => { el with streamlined := true }
        match inner with
        | .nothing => return
        | .found => broken .badOperands
        | inner => streamlineWithin fuel (← inner.id)
    | form => do
      changeElement e fun el => { el with streamlined := true, shown := none }
      match form.parts?, form.inner? with
      | some ps, _ => do
        for p in ps do streamlineWithin fuel (← p.id)
        if let [a, b] := ps then
          let first ← elementOf (← a.id)
          let el := absorb (← elementOf e) first (· ++ [b])
          changeElement e fun _ => el
          let now := (el.form.parts?).getD []
          if let some z := now.getLast? then
            let last ← elementOf (← z.id)
            let el := absorb el last (now.dropLast ++ ·)
            changeElement e fun _ => el
      | none, some i => streamlineWithin fuel i
      | none, none => return

def streamline (e : ElementId) : GrammarM Unit := streamlineWithin nesting e

end Peephole.Grammar
