import Peephole.Grammar.Element

/-!
# Elements as text

An element with a name is shown by it, and another by its parts.  The text of an element is kept until the element
changes.  A forward element is shown once; inside its own text it is three dots.
-/

namespace Peephole.Grammar

def nesting : Nat := 1000

/-- The word that a form with one element inside is shown by. -/
def Form.title : Form → String
  | ahead _ => "FollowedBy"
  | skipTo _ _ _ _ => "SkipTo"
  | convert .same _ => "TokenConverter"
  | convert .upper _ => "Upcase"
  | convert (.join _ _) _ => "Combine"
  | convert .group _ => "Group"
  | convert .table _ => "Dict"
  | convert .drop _ => "Suppress"
  | _ => ""

def showElement : Nat → ElementId → GrammarM String
  | 0, _ => throw .tooDeep
  | fuel + 1, e => do
    let el ← elementOf e
    if let some name := el.name then return name
    if let .forward inner := el.form then
      if el.showing then return "..."
      changeElement e fun el => { el with showing := true, wasShown := true }
      let text ← try showOperand fuel inner
        catch f => do
          changeElement e fun el => { el with showing := false }
          throw f
      changeElement e fun el => { el with showing := false }
      return "Forward: " ++ text
    if let some text := el.shown then return text
    let parts (ps : List Operand) (separator : String) : GrammarM String := do
      return "\x7b" ++ separator.intercalate (← ps.mapM (showOperand fuel)) ++ "\x7d"
    let inner (i : Option ElementId) : GrammarM String :=
      match i with
      | some i => showElement fuel i
      | none => return "None"
    let text ← match el.form with
      | .sequence ps => parts ps " "
      | .longest ps => parts ps " ^ "
      | .first ps => parts ps " | "
      | .anyOrder ps _ => parts ps " & "
      | .notAhead i => do pure ("~\x7b" ++ (← inner i) ++ "\x7d")
      | .zeroOrMore i => do pure ("[" ++ (← inner i) ++ "]...")
      | .oneOrMore i => do pure ("\x7b" ++ (← inner i) ++ "\x7d...")
      | .optional i _ => do pure ("[" ++ (← inner i) ++ "]")
      | form => do
        if form.inner?.isNone then broken .badOperands
        pure (form.title ++ ":(" ++ (← inner form.inner?) ++ ")")
    changeElement e fun el => { el with shown := some text }
    return text
where
  showOperand (fuel : Nat) : Operand → GrammarM String
    | .element e => showElement fuel e
    | .text s => return s
    | .nothing => return "None"
    | .found => return "[]"

def showOperand (o : Operand) : GrammarM String := showElement.showOperand nesting o

def showOne (e : ElementId) : GrammarM String := showElement nesting e

end Peephole.Grammar
