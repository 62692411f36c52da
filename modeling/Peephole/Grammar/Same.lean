import Peephole.Grammar.Element

/-!
# Elements that are alike

Two elements are alike if they are the same or if they agree in everything that was given to them: texts, bounds,
names, blanks, actions, and elements inside that are alike.  The kind of element does not matter, so that elements
of different kinds can be alike.
-/

namespace Peephole.Grammar

inductive Property where
  | text (s : String)
  | flag (b : Bool)
  | number (n : Int)
  | numbers (ns : List Nat)
  | set (cs : List Char)
  | token (t : Token)
  | parts (os : List Operand)
  | none
  deriving Inhabited

namespace Property

def text? : Option String → Property
  | some s => text s
  | Option.none => none

def bound : Option Nat → Property
  | some n => number n
  | Option.none => none

def inner : Option ElementId → Property
  | some e => parts [.element e]
  | Option.none => none

def operand : Operand → Property
  | .nothing => none
  | o => parts [o]

end Property

def Form.properties : Form → List (String × Property)
  | empty text result =>
    (match text with
      | some s => [("word", .text s)]
      | none => []) ++
    match result with
      | some s => [("result", .text s)]
      | none => []
  | commit | never | lineStart | lineEnd | textStart | textEnd => []
  | literal w => [("word", .text w)]
  | caselessLiteral w r => [("word", .text w), ("result", .text r)]
  | keyword w folded _ chars =>
    [("word", .text w), ("folds", .flag folded.isSome),
      ("chars", match chars with
        | .set cs => .set cs
        | .text cs => .text (String.ofList cs))] ++
    match folded with
      | some s => [("folded", .text s)]
      | none => []
  | word w =>
    [("start", .text w.start), ("body", .text w.body), ("bounded", .flag w.mostGiven), ("least", .number w.least),
      ("most", .bound w.most), ("keyword", .flag w.asKeyword)] ++
    match w.source with
      | some s => [("pattern", .text s)]
      | none => []
  | pattern s _ => [("source", .text s), ("lines", .flag false)]
  | quoted q =>
    [("quote", .text q.quote), ("endQuote", .text q.endQuote), ("escape", .text? q.escape),
      ("escapedQuote", .text? q.escapedQuote), ("unquotes", .flag q.unquotes), ("source", .text q.source),
      ("lines", .flag q.lines)]
  | charsNotIn cs least most => [("without", .text cs), ("least", .number least), ("most", .bound most)]
  | white cs least most => [("white", .text cs), ("least", .number least), ("most", .bound most)]
  | toColumn n => [("column", .number n)]
  | wordStart cs | wordEnd cs => [("wordChars", .set cs)]
  | sequence ps | longest ps | first ps => [("parts", .parts ps)]
  | anyOrder ps groups =>
    [("parts", .parts ps), ("grouped", .flag groups.isSome)] ++
    match groups with
      | some g =>
        [("optionals", .parts (g.optionals.map .element)), ("repeated", .parts (g.repeated.map .element)),
          ("repeatedNeeded", .parts (g.repeatedNeeded.map .element)), ("needed", .parts (g.needed.map .element))]
      | none => []
  | ahead e | notAhead e | zeroOrMore e | oneOrMore e => [("inner", .inner e)]
  | optional e d =>
    [("inner", .inner e), ("default", match d with
      | some t => .token t
      | none => .none)]
  | skipTo e taken ignore failOn =>
    [("inner", .inner e), ("ignore", .operand ignore), ("taken", .flag taken), ("failOn", .operand failOn)]
  | forward e => [("inner", .operand e)]
  | convert (.join separator adjacent) e =>
    [("inner", .inner e), ("adjacent", .flag adjacent), ("separator", .text separator)]
  | convert _ e => [("inner", .inner e)]

def Element.properties (el : Element) : List (String × Property) :=
  [("actions", .numbers (el.actions.map (·.number))),
    ("failAct", .numbers ((el.failAct.map (·.number)).toList)), ("shown", .text? el.shown),
    ("resultName", .text? el.resultName), ("savesList", .flag el.savesList), ("skipsBlanks", .flag el.skipsBlanks),
    ("blanks", .text (String.ofList el.blanks)), ("followsDefault", .flag el.followsDefault),
    ("mayBeEmpty", .flag el.mayBeEmpty), ("keepsTabs", .flag el.keepsTabs),
    ("ignored", .parts (el.ignored.map .element)), ("debugged", .flag el.debugged),
    ("streamlined", .flag el.streamlined), ("mayOverrun", .flag el.mayOverrun), ("message", .text el.message),
    ("lastCounts", .flag el.lastCounts),
    ("reports", .number (match el.reports with
      | .none => 0
      | .printed => 1
      | .silent => 2)),
    ("preparses", .flag el.preparses), ("actsInTrial", .flag el.actsInTrial)] ++
  el.form.properties ++
  (match el.name with
    | some s => [("name", .text s)]
    | none => []) ++
  (if el.wasShown then [("wasShown", .flag true)] else []) ++
  (match el.standsFor with
    | some e => [("standsFor", .number e)]
    | none => []) ++
  match el.tag with
    | some s => [("tag", .text s)]
    | none => []

/-- The answer to a question about elements, which fails if they nest too deeply. -/
abbrev Judged := Except Failure Bool

/-- Whether a property holds of all members; the members after one of which it does not hold are not asked. -/
def allJudged {α : Type} (p : α → Judged) : List α → Judged
  | [] => .ok true
  | a :: as => do if ← p a then allJudged p as else return false

/-- Whether a property holds of some member; the members after one of which it holds are not asked. -/
def anyJudged {α : Type} (p : α → Judged) : List α → Judged
  | [] => .ok false
  | a :: as => do if ← p a then return true else anyJudged p as

def Property.agrees (like : ElementId → ElementId → Judged) : Property → Property → Judged
  | text a, text b => .ok (a == b)
  | flag a, flag b => .ok (a == b)
  | number a, number b => .ok (a == b)
  | numbers a, numbers b => .ok (a == b)
  | set a, set b => .ok (a.all b.contains && b.all a.contains)
  | token a, token b => .ok (a.same b)
  | parts a, parts b =>
    if a.length != b.length then .ok false
    else allJudged (fun (x, y) => match x, y with
      | .element x, .element y => like x y
      | x, y => .ok (decide (x = y))) (a.zip b)
  | none, none => .ok true
  | _, _ => .ok false

def alikeWithin (g : Engine) : Nat → ElementId → ElementId → Judged
  | 0, _, _ => .error .tooDeep
  | fuel + 1, a, b =>
    if a == b then .ok true
    else
      match g.elements[a]?, g.elements[b]? with
      | some x, some y =>
        let ps := x.properties
        let qs := y.properties
        if ps.length != qs.length then .ok false
        else allJudged (fun (name, p) =>
          match qs.find? fun e => e.1 == name with
          | some (_, q) => p.agrees (alikeWithin g fuel) q
          | none => .ok false) ps
      | _, _ => .ok false

def alike (a b : ElementId) : GrammarM Bool := do
  match alikeWithin (← get) 1000 a b with
  | .ok v => return v
  | .error f => throw f

def alikeAny (a : ElementId) (es : List ElementId) : GrammarM Bool := do
  let g ← get
  match anyJudged (alikeWithin g 1000 a) es with
  | .ok v => return v
  | .error f => throw f

end Peephole.Grammar
