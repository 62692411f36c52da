import Peephole.Grammar.Show

/-!
# Making elements

The elements that match characters and places, and the elements about one element inside.
-/

namespace Peephole.Grammar

/-- A new element of a form, with the blanks that are skipped now. -/
def freshElement (form : Form) : GrammarM Element := do
  return { form := form, blanks := (← get).blanks }

def expected (name : String) : String := "Expected " ++ name

/-- The letters of the Latin alphabet without marks, small ones first. -/
def letters : String := "abcdefghijklmnopqrstuvwxyzABCDEFGHIJKLMNOPQRSTUVWXYZ"

def digits : String := "0123456789"

def punctuation : String := "!\"#$%&'()*+,-./:;<=>?@[\\]^_`\x7b|\x7d~"

/-- The characters that show on paper. -/
def printables : String := digits ++ letters ++ punctuation

/-- The characters of words that a keyword may not touch. -/
def defaultKeywordChars : String := letters ++ digits ++ "_$"

/-- Build something as it is built in a new engine, whatever the settings are. -/
def withStandard {α : Type} (x : GrammarM α) : GrammarM α := do
  let g ← get
  let fresh : Engine := {}
  let restore : GrammarM Unit :=
    modify fun h => { h with blanks := g.blanks, literals := g.literals, keywordChars := g.keywordChars }
  modify fun h =>
    { h with blanks := fresh.blanks, literals := fresh.literals, keywordChars := defaultKeywordChars.toList }
  let answer ← tryCatch x fun f => do
    restore
    throw f
  restore
  return answer

/-! ### The empty text and fixed words -/

def emptyElement : GrammarM ElementId := do
  newElement { ← freshElement (.empty none none) with name := some "Empty", mayBeEmpty := true, mayOverrun := false }

/-- The empty text after which a sequence may not fail. -/
def commitElement : GrammarM ElementId := do
  newElement { ← freshElement .commit with
    name := some "-", mayBeEmpty := true, mayOverrun := false, skipsBlanks := false }

def neverElement : GrammarM ElementId := do
  newElement { ← freshElement .never with
    name := some "NoMatch", mayBeEmpty := true, mayOverrun := false, message := "Unmatchable token" }

/-- A token with a name; the message says that it was expected. -/
def namedToken (form : Form) (name : String) : GrammarM Element := do
  return { ← freshElement form with name := some name, mayOverrun := false, message := expected name }

def literal (word : String) : GrammarM ElementId := do
  let form := if word.isEmpty then Form.empty (some word) none else .literal word
  newElement (← namedToken form ("\"" ++ word ++ "\""))

def caselessLiteral (word : String) : GrammarM ElementId := do
  let folded := Text.upper word
  let form := if folded.isEmpty then Form.empty (some folded) (some word) else .caselessLiteral folded word
  newElement (← namedToken form ("'" ++ word ++ "'"))

/-- A word that is not part of a longer one. -/
def keywordElement (word : String) (chars : String := defaultKeywordChars) (caseless : Bool := false)
    (checksStart : Bool := true) : GrammarM ElementId := do
  let chars := if caseless then Text.upper chars else chars
  newElement (← namedToken
    (.keyword word (if caseless then some (Text.upper word) else none) checksStart (.set chars.toList))
    ("\"" ++ word ++ "\""))

/-! ### Words of some characters -/

/-- At most four characters of a text. -/
def shortened (s : String) : String :=
  if s.length > 4 then String.ofList (s.toList.take 4) ++ "..." else s

/-- What words are made of, as it is given. -/
structure WordGiven where
  start : String
  body : Option String := none
  least : Int := 1
  most : Int := 0
  exactly : Int := 0
  asKeyword : Bool := false
  without : Option String := none

def wordElement (w : WordGiven) : GrammarM ElementId := do
  let drop (s : String) : String := match w.without with
    | some x => String.ofList (s.toList.filter fun c => !x.toList.contains c)
    | none => s
  let start := drop w.start
  let body := match w.body with
    | some b => if b.isEmpty || (drop b).isEmpty then start else drop b
    | none => start
  if w.least < 1 then broken .badNumeral
  let most := if w.exactly > 0 then some w.exactly.toNat else if w.most > 0 then some w.most.toNat else none
  let least := if w.exactly > 0 then w.exactly.toNat else w.least.toNat
  let name := if start != body then "W:(" ++ shortened start ++ "," ++ shortened body ++ ")"
    else "W:(" ++ shortened start ++ ")"
  let source :=
    if (start ++ body).any (· == ' ') || w.least != 1 || w.most != 0 || w.exactly != 0 then none
    else
      let s :=
        if start == body then "[" ++ Pattern.quoteClass start ++ "]+"
        else if body.length == 1 then Pattern.quote start ++ "[" ++ Pattern.quoteClass body ++ "]*"
        else "[" ++ Pattern.quoteClass start ++ "][" ++ Pattern.quoteClass body ++ "]*"
      some (if w.asKeyword then "\\b" ++ s ++ "\\b" else s)
  newElement (← namedToken
    (.word ⟨start, body, least, most, w.most > 0, w.asKeyword, source, source.bind (Pattern.read {})⟩) name)

def plainWord (start : String) (body : Option String := none) : GrammarM ElementId :=
  wordElement { start := start, body := body }

def patternElement (source : String) : GrammarM ElementId := do
  match Pattern.read {} source with
  | none => throw .badPattern
  | some p =>
    newElement { ← namedToken (.pattern source p) ("Re:(" ++ Text.quoted source ++ ")") with mayBeEmpty := true }

/-- A text without the blanks around it. -/
def strip (s : String) : String :=
  String.ofList ((s.toList.dropWhile Text.isSpace).reverse.dropWhile Text.isSpace).reverse

/-- What a quoted text is, as it is given. -/
structure QuotedGiven where
  quote : String
  escape : Option String := none
  escapedQuote : Option String := none
  lines : Bool := false
  unquotes : Bool := true
  endQuote : Option String := none

def quotedSource (q : QuotedGiven) (quote endQuote : String) : String :=
  let first (s : String) : String := String.ofList (s.toList.take 1)
  let head := Pattern.quote quote ++ "(?:[^" ++ Pattern.quoteClass (first endQuote) ++
    (if q.lines then "" else "\\n\\r") ++ Pattern.quoteClass (q.escape.getD "") ++ "]"
  let cs := endQuote.toList
  let partly :=
    if cs.length > 1 then
      "|(?:" ++ ")|(?:".intercalate ((List.range' 1 (cs.length - 1)).reverse.map fun i =>
        Pattern.quote (String.ofList (cs.take i)) ++ "[^" ++
          Pattern.quoteClass (String.ofList ((cs.drop i).take 1)) ++ "]") ++ ")"
    else ""
  let doubled := match q.escapedQuote with
    | some s => if s.isEmpty then "" else "|(?:" ++ Pattern.quote s ++ ")"
    | none => ""
  let escaped := match q.escape with
    | some s => if s.isEmpty then "" else "|(?:" ++ Pattern.quote s ++ ".)"
    | none => ""
  head ++ partly ++ doubled ++ escaped ++ ")*" ++ Pattern.quote endQuote

def escapesSource (escape quote endQuote : String) : String :=
  let chars := (quote.toList.take 1 ++ endQuote.toList.take 1).eraseDups
  Pattern.quote escape ++ "([" ++
    String.ofList (chars.flatMap fun c => if c == '^' || c == '-' then ['\\', c] else [c]) ++ "])"

def quotedElement (q : QuotedGiven) : GrammarM ElementId := do
  let quote := strip q.quote
  if quote.isEmpty then throw .badQuote
  let endQuote := (q.endQuote.map strip).getD quote
  if endQuote.isEmpty then throw .badQuote
  let source := quotedSource q quote endQuote
  let some p := Pattern.read ⟨q.lines, q.lines, false⟩ source | throw .badPattern
  let escapes := match q.escape with
    | some s => if s.isEmpty then none else Pattern.read {} (escapesSource s quote endQuote)
    | none => none
  newElement { ← namedToken
      (.quoted ⟨quote, endQuote, q.escape, q.escapedQuote, q.lines, q.unquotes, source, p, escapes⟩)
      ("quoted string, starting with " ++ quote ++ " ending with " ++ endQuote) with
    mayBeEmpty := true }

/-- The bounds of a length, as they are given: the least and the most. -/
def lengthBounds (least most exactly : Int) : Int × Option Nat :=
  if exactly > 0 then (exactly, some exactly.toNat)
  else (least, if most > 0 then some most.toNat else none)

def charsNotInElement (cs : String) (least : Int := 1) (most : Int := 0) (exactly : Int := 0) :
    GrammarM ElementId := do
  if least < 1 then broken .badNumeral
  let (least, most) := lengthBounds least most exactly
  let name := if cs.length > 4 then "!W:(" ++ String.ofList (cs.toList.take 4) ++ "...)" else "!W:(" ++ cs ++ ")"
  newElement { ← namedToken (.charsNotIn cs least.toNat most) name with skipsBlanks := false }

def blankName? : Char → Option String
  | ' ' => some "<SPC>"
  | '\t' => some "<TAB>"
  | '\n' => some "<LF>"
  | '\r' => some "<CR>"
  | '\x0c' => some "<FF>"
  | _ => none

/-- Blanks that are not skipped. -/
def whiteElement (cs : String := " \t\r\n") (least : Int := 1) (most : Int := 0) (exactly : Int := 0) :
    GrammarM ElementId := do
  let some names := cs.toList.mapM blankName? | broken .noSuchEntry
  let name := String.join names
  let (least, most) := lengthBounds least most exactly
  let el ← freshElement (.white cs least most)
  newElement { el with
    name := some name, message := expected name, mayBeEmpty := true
    blanks := el.blanks.filter fun c => !cs.toList.contains c
    followsDefault := false }

/-! ### Places -/

def placeElement (form : Form) (name message : String) : GrammarM Element := do
  return { ← freshElement form with name := some name, message := message, mayBeEmpty := true, mayOverrun := false }

/-- A place in a line: line breaks in front are not skipped. -/
def linePlace (form : Form) (name message : String) : GrammarM ElementId := do
  let el ← placeElement form name message
  newElement { el with blanks := el.blanks.filter (· != '\n'), followsDefault := false }

def toColumnElement (n : Int) : GrammarM ElementId := do newElement (← placeElement (.toColumn n) "GoToColumn" "")

def lineStartElement : GrammarM ElementId := linePlace .lineStart "LineStart" "Expected start of line"

def lineEndElement : GrammarM ElementId := linePlace .lineEnd "LineEnd" "Expected end of line"

def textStartElement : GrammarM ElementId := do
  newElement (← placeElement .textStart "StringStart" "Expected start of text")

def textEndElement : GrammarM ElementId := do
  newElement (← placeElement .textEnd "StringEnd" "Expected end of text")

def wordStartElement (cs : String := printables) : GrammarM ElementId := do
  newElement (← placeElement (.wordStart cs.toList) "WordStart" "Not at the start of a word")

def wordEndElement (cs : String := printables) : GrammarM ElementId := do
  newElement { ← placeElement (.wordEnd cs.toList) "WordEnd" "Not at the end of a word" with skipsBlanks := false }

/-! ### Elements about one element -/

/-- The element that an operand stands for inside another: a text stands for the element that matches it. -/
def innerOf : Operand → GrammarM (Option ElementId)
  | .element e => return some e
  | .text s => return some (← literal s)
  | _ => return none

/-- An element about one element inside, from which it takes blanks and other properties. -/
def enclosing (form : Option ElementId → Form) (o : Operand) : GrammarM Element := do
  let inner ← innerOf o
  let el ← freshElement (form inner)
  match inner with
  | none => return el
  | some i => do
    let x ← elementOf i
    return { el with
      mayOverrun := x.mayOverrun, mayBeEmpty := x.mayBeEmpty, blanks := x.blanks, followsDefault := false
      skipsBlanks := x.skipsBlanks, savesList := x.savesList, preparses := x.preparses, ignored := x.ignored }

def innerText (el : Element) : GrammarM String :=
  match el.form.inner? with
  | some i => showOne i
  | none => return "None"

def aheadElement (o : Operand) : GrammarM ElementId := do
  newElement { ← enclosing .ahead o with mayBeEmpty := true }

def notAheadElement (o : Operand) : GrammarM ElementId := do
  let el ← enclosing .notAhead o
  newElement { el with
    skipsBlanks := false, mayBeEmpty := true, message := "Found unwanted token, " ++ (← innerText el) }

def zeroOrMoreElement (o : Operand) : GrammarM ElementId := do
  newElement { ← enclosing .zeroOrMore o with mayBeEmpty := true }

def oneOrMoreElement (o : Operand) : GrammarM ElementId := do newElement (← enclosing .oneOrMore o)

def optionalElement (o : Operand) (default : Option Token := none) : GrammarM ElementId := do
  newElement { ← enclosing (.optional · default) o with mayBeEmpty := true }

def skipToElement (o : Operand) (taken : Bool := false) (ignore failOn : Operand := .nothing) :
    GrammarM ElementId := do
  let failOn ← match failOn with
    | .text s => do pure (Operand.element (← literal s))
    | o => pure o
  let el ← enclosing (.skipTo · taken ignore failOn) o
  newElement { el with
    mayBeEmpty := true, mayOverrun := false, message := "No match found for " ++ (← innerText el) }

def convertElement (c : Conversion) (o : Operand) : GrammarM ElementId := do
  let savesList := match c with
    | .group | .table => true
    | _ => false
  newElement { ← enclosing (.convert c) o with savesList := savesList }

def groupElement (o : Operand) : GrammarM ElementId := convertElement .group o

def dropElement (o : Operand) : GrammarM ElementId := convertElement .drop o

def forwardElement : GrammarM ElementId := do newElement (← freshElement (.forward .nothing))

def literalAsSet (s : String) : GrammarM ElementId := do
  match (← get).literals with
  | .exact => literal s
  | .dropped => dropElement (.text s)
  | .caseless => caselessLiteral s
  | .keyword => keywordElement s

def assign (e : ElementId) (o : Operand) : GrammarM Unit := do
  match o with
  | .found =>
    changeElement e fun el =>
      { el with
        form := .forward .found, mayBeEmpty := false, shown := none, mayOverrun := false, blanks := []
        followsDefault := false, skipsBlanks := false, savesList := false }
  | .nothing => broken .noSuchPart
  | .text s => do assignTo e (← literalAsSet s)
  | .element i => assignTo e i
where
  assignTo (e i : ElementId) : GrammarM Unit := do
    let x ← elementOf i
    changeElement e fun el =>
      { el with
        form := el.form.withInner i, shown := none, mayOverrun := x.mayOverrun, mayBeEmpty := x.mayBeEmpty
        blanks := x.blanks, followsDefault := false, skipsBlanks := x.skipsBlanks, savesList := x.savesList
        ignored := el.ignored ++ x.ignored }

end Peephole.Grammar
