import Peephole.Grammar.Search

/-!
# Ready-made grammars

Constructions that are put together from elements: lists with delimiters, counted lists, one of several words, tags
of documents, operators with precedence, nested and indented blocks, and a few elements that many grammars need, such
as quoted texts and comments.
-/

namespace Peephole.Grammar

def chain (first : Operand) (rest : List Operand) : GrammarM Operand := rest.foldlM andThen first

def acting (e : ElementId) (as : List Action) (inTrial : Bool := false) : GrammarM ElementId := do
  setActions e as inTrial
  return e

def called (e : ElementId) (name : String) : GrammarM ElementId := do
  setName e name
  return e

/-! ### Lists -/

/-- Elements with delimiters between them, which are dropped, or joined with the elements to one text. -/
def delimitedList (o : Operand) (delimiter : Operand := .text ",") (joined : Bool := false) :
    GrammarM ElementId := do
  let shown ← showOperand o
  let name := shown ++ " [" ++ (← showOperand delimiter) ++ " " ++ shown ++ "]..."
  if joined then
    let more ← zeroOrMoreElement (← andThen delimiter o)
    let all ← andThen o (.element more)
    called (← joinElement all) name
  else
    let more ← zeroOrMoreElement (← andThen (.element (← dropElement delimiter)) o)
    called (← (← andThen o (.element more)).id) name

/-- A number and as many elements as it says. -/
def countedList (o : Operand) (number : Operand := .nothing) : GrammarM Operand := do
  let array ← forwardElement
  let number ← match number with
    | .nothing => do acting (← plainWord digits) [.integer]
    | number => do copyElement (← number.id)
  setName number "arrayLen"
  addActions number [.countField array o] true
  andThen (.element number) (.element array)

/-- The words without repetitions, and each in front of the words that it starts with. -/
def longestFirst (equal masks : String → String → Bool) (words : List String) : List String :=
  go ((words.length + 1) * (words.length + 1)) 0 words
where
  /-- One step of the order; the first argument bounds the number of steps. -/
  go : Nat → Nat → List String → List String
    | 0, _, words => words
    | fuel + 1, i, words =>
      match words.drop i with
      | current :: later =>
        match later.findIdx? fun other => equal other current || masks current other with
        | none => go fuel (i + 1) words
        | some j =>
          let other := (later[j]?).getD ""
          if equal other current then go fuel i (words.take i ++ current :: later.eraseIdx j)
          else go fuel i (words.take i ++ other :: current :: later.eraseIdx j)
      | [] => words

def wordsOf (s : String) : List String :=
  (go s.toList []).filter (!·.isEmpty)
where
  /-- The words of the rest, with the characters of the word that is open in reverse. -/
  go : List Char → List Char → List String
    | [], word => [String.ofList word.reverse]
    | c :: cs, word => if Text.isSpace c then String.ofList word.reverse :: go cs [] else go cs (c :: word)

/-- One of some words, the longest that matches. -/
def oneOfWords (words : List String) (caseless : Bool := false) (asPattern : Bool := true) : GrammarM ElementId := do
  let starts (a b : String) : Bool := a.toList.isPrefixOf b.toList
  let words :=
    if caseless then
      longestFirst (fun a b => Text.upper a == Text.upper b) (fun a b => starts (Text.upper a) (Text.upper b)) words
    else longestFirst (· == ·) starts words
  let alternatives : GrammarM ElementId := do
    firstElement (← words.mapM fun w => do
      return .element (← if caseless then caselessLiteral w else literal w))
  if caseless || !asPattern then return ← alternatives
  let source :=
    if words.length == (String.join words).length then
      "[" ++ String.join (words.map Pattern.quoteClass) ++ "]"
    else "|".intercalate (words.map Pattern.quote)
  match ← outcome (patternElement source) with
  | .ok e => return e
  | .error _ => alternatives

def tableOf (key value : Operand) : GrammarM ElementId := do
  let entry ← groupElement (← andThen key value)
  convertElement .table (.element (← zeroOrMoreElement (.element entry)))

/-! ### Texts and places -/

/-- The text that an element matches, as it is.  With `asText` only the text is found, otherwise also the names. -/
def matchedText (o : Operand) (asText : Bool := true) : GrammarM ElementId := do
  let first ← acting (← emptyElement) [.location]
  let last ← copyElement first
  changeElement last fun el => { el with preparses := false }
  let first ← withResultName first "_original_start"
  let last ← withResultName last "_original_end"
  let e ← (← chain (.element first) [o, .element last]).id
  acting e [if asText then .betweenPlaces else .betweenPlacesNamed]

/-- The first token of an element in place of all. -/
def ungrouped (o : Operand) : GrammarM ElementId := do acting (← convertElement .same o) [.firstToken]

/-- A copy of an operand whose matches have a name; only elements can be named. -/
def named (o : Operand) (name : String) : GrammarM ElementId :=
  match o with
  | .element e => withResultName e name
  | _ => broken .badOperands

/-- What an element matches, with the places where it starts and ends. -/
def located (o : Operand) : GrammarM ElementId := do
  let place ← acting (← emptyElement) [.location]
  let first ← withResultName place "locn_start"
  let value ← named o "value"
  let last ← copyElement place
  leaveBlanks last
  let last ← withResultName last "locn_end"
  groupElement (← chain (.element first) [.element value, .element last])

/-- The tokens that an element matched before, as literals. -/
def previousLiteral (o : Operand) : GrammarM ElementId := do
  let again ← forwardElement
  addActions (← o.id) [.repeatLiteral again] true
  return again

/-- An element that has to find what it found before. -/
def previousElement (o : Operand) : GrammarM ElementId := do
  let again ← forwardElement
  let e ← o.id
  assign again (.element (← copyElement e))
  addActions e [.repeatTokens again] true
  return again

/-! ### Elements that many grammars need -/

def doubleQuoted : GrammarM ElementId := withStandard do
  called (← patternElement "\"(?:[^\"\\n\\r\\\\]|(?:\"\")|(?:\\\\x[0-9a-fA-F]+)|(?:\\\\.))*\"")
    "string enclosed in double quotes"

def singleQuoted : GrammarM ElementId := withStandard do
  called (← patternElement "'(?:[^'\\n\\r\\\\]|(?:'')|(?:\\\\x[0-9a-fA-F]+)|(?:\\\\.))*'")
    "string enclosed in single quotes"

def anyQuoted : GrammarM ElementId := withStandard do
  called (← patternElement ("(?:\"(?:[^\"\\n\\r\\\\]|(?:\"\")|(?:\\\\x[0-9a-fA-F]+)|(?:\\\\.))*\")|" ++
      "(?:'(?:[^'\\n\\r\\\\]|(?:'')|(?:\\\\x[0-9a-fA-F]+)|(?:\\\\.))*')"))
    "quotedString using single or double quotes"

def lettersAndDigits : String := letters ++ digits

/-- A tag of a document, opening or closing.  In strict documents attributes have values in double quotes, and case
matters. -/
def tagElement (tag : Operand) (strict closing : Bool) : GrammarM ElementId := do
  let (tag, name) ← match tag with
    | .text s => do
      let e ← keywordElement s defaultKeywordChars !strict
      pure (e, s)
    | o => do
      let e ← o.id
      match (← elementOf e).name with
      | some name => pure (e, name)
      | none => broken .noSuchPart
  let shown ← showOne tag
  let word := String.join (wordsOf (Text.title (name.replace ":" " ")))
  let finish (e : ElementId) (result shown : String) : GrammarM ElementId := do
    let e ← withResultName e result
    setName e shown
    changeElement e fun el => { el with tag := some name }
    return e
  if closing then
    let e ← joinElement (← chain (.element (← literal "</")) [.element tag, .text ">"])
    finish e ("end" ++ word) ("</" ++ shown ++ ">")
  else
    let key ← plainWord letters (lettersAndDigits ++ "_-:")
    let entry ←
      if strict then do
        let value ← acting (← copyElement (← doubleQuoted)) [.unquote]
        chain (.element key) [.element (← dropElement (.text "=")), .element value]
      else do
        let quoted ← acting (← copyElement (← anyQuoted)) [.unquote]
        let bare ← plainWord (String.ofList (printables.toList.filter (· != '>')))
        let value ← joinElements .orElse quoted bare
        setActions key [.lower]
        let value ← joinElements .followedBy (← dropElement (.text "=")) value
        andThen (.element key) (.element (← optionalElement (.element value)))
    let entries ← zeroOrMoreElement (.element (← groupElement entry))
    let ends ← withResultName (← optionalElement (.text "/") (some (.list [.truth false]))) "empty"
    setActions ends [.isSlash]
    let e ← chain (.element (← dropElement (.text "<")))
      [.element (← withResultName tag "tag"), .element (← convertElement .table (.element entries)), .element ends,
        .element (← dropElement (.text ">"))]
    finish (← e.id) ("start" ++ word) ("<" ++ shown ++ ">")

def commaItem : GrammarM ElementId := do
  let word ← wordElement { start := printables, without := some "," }
  let blanks ← plainWord " \t"
  let noComma ← notAheadElement (.element (← literal ","))
  let noEnd ← notAheadElement (.element (← lineEndElement))
  let inner ← chain (.element blanks) [.element noComma, .element noEnd]
  let item ← andThen (.element word) (.element (← optionalElement inner))
  let e ← joinElement (.element (← oneOrMoreElement item))
  streamline e
  called e "commaItem"

def readyMade (name : String) : GrammarM ElementId := withStandard do
  match name with
  | "empty" => do called (← emptyElement) "empty"
  | "lineStart" => do called (← lineStartElement) "lineStart"
  | "lineEnd" => do called (← lineEndElement) "lineEnd"
  | "stringStart" => do called (← textStartElement) "stringStart"
  | "stringEnd" => do called (← textEndElement) "stringEnd"
  | "dblQuotedString" => doubleQuoted
  | "sglQuotedString" => singleQuoted
  | "quotedString" => anyQuoted
  | "unicodeString" => do
    joinElement (← andThen (.element (← literal "u")) (.element (← copyElement (← anyQuoted))))
  | "anyOpenTag" => do tagElement (.element (← plainWord letters (lettersAndDigits ++ "_:"))) false false
  | "anyCloseTag" => do tagElement (.element (← plainWord letters (lettersAndDigits ++ "_:"))) false true
  | "commonHTMLEntity" => do
    let entity ← withResultName (← oneOfWords ["gt", "lt", "amp", "nbsp", "quot"]) "entity"
    let e ← joinElement (← chain (.element (← literal "&")) [.element entity, .text ";"])
    streamline e
    return e
  | "cStyleComment" => do called (← patternElement "/\\*(?:[^*]*\\*+)+?/") "C style comment"
  | "htmlComment" => patternElement "<!--[\\s\\S]*?-->"
  | "restOfLine" => do
    let e ← patternElement ".*"
    leaveBlanks e
    return e
  | "dblSlashComment" => do called (← patternElement "\\/\\/(\\\\\\n|.)*") "// comment"
  | "cppStyleComment" | "javaStyleComment" => do
    called (← patternElement "/(?:\\*(?:[^*]*\\*+)+?/|/[^\\n]*(?:\\n[^\\n]*)*?(?:(?<!\\\\)|\\Z))") "C++ style comment"
  | "pythonStyleComment" => do called (← patternElement "#.*") "Python style comment"
  | "commaSeparatedList" => do
    let item ← joinElements .orElse (← copyElement (← anyQuoted)) (← commaItem)
    called (← delimitedList (.element (← optionalElement (.element item) (some (.text ""))))) "commaSeparatedList"
  | _ => broken .noSuchPart

/-! ### Operators with precedence -/

/-- The operators of one level: one, or several, two of which separate three operands. -/
inductive LevelOperator where
  | one (o : Operand)
  | several (os : List Operand)

/-- On which side operators of the same level group. -/
inductive Grouping where
  | left
  | right
  | unknown
  deriving DecidableEq

structure Level where
  operator : LevelOperator
  arity : Int
  grouping : Grouping
  action : Option Action

/-- The two operators of a level with three operands; a text of two characters is two operators. -/
def LevelOperator.two : LevelOperator → GrammarM (Operand × Operand)
  | .several [a, b] => return (a, b)
  | .several _ => broken .badNumeral
  | .one .nothing => broken .badNumeral
  | .one (.text s) =>
    match s.toList with
    | [a, b] => return (.text a.toString, .text b.toString)
    | _ => broken .badNumeral
  | .one _ => broken .badOperands

def LevelOperator.single : LevelOperator → Operand
  | .one o => o
  | .several _ => .found

/-- An operand as the inside of an element; what is no element and no text has no parts. -/
def enclosable : Operand → GrammarM Operand
  | .found => broken .noSuchPart
  | o => return o

/-- Look ahead for operands in a row, then match others as a group. -/
def groupAfterLook (look inside : Operand) : GrammarM ElementId := do
  joinElements .followedBy (← aheadElement look) (← groupElement inside)

/-- The expressions of a level; `inner` are those of the level inside, and `here` those of this level. -/
def levelElement (l : Level) (inner : Operand) (here : ElementId) : GrammarM ElementId := do
  let this := Operand.element here
  let more (o : Operand) : GrammarM Operand := do return .element (← oneOrMoreElement (← enclosable o))
  let three (second : Operand) : GrammarM ElementId := do
    let (a, b) ← l.operator.two
    let look ← chain inner [a, second, b, second]
    groupAfterLook look (← chain inner [a, second, b, second])
  let two (second : Operand) : GrammarM ElementId := do
    let o := l.operator.single
    match o with
    | .nothing => do groupAfterLook (← andThen inner second) (← andThen inner (← more second))
    | o => do
      let look ← chain inner [o, second]
      groupAfterLook look (← andThen inner (← more (← andThen o second)))
  if l.arity == 3 then let _ ← l.operator.two
  match l.grouping with
  | .left =>
    if l.arity == 1 then
      let o := l.operator.single
      let look ← andThen inner o
      groupAfterLook look (← andThen inner (← more o))
    else if l.arity == 2 then two inner
    else if l.arity == 3 then three inner
    else broken .badNumeral
  | .right =>
    if l.arity == 1 then
      let o := l.operator.single
      let isOptional ← match o with
        | .element e => do pure (match (← elementOf e).form with
          | .optional _ _ => true
          | _ => false)
        | _ => pure false
      let opt ← if isOptional then o.id else do optionalElement (← enclosable o)
      let inside := match (← elementOf opt).form.inner? with
        | some i => Operand.element i
        | none => .nothing
      let look ← andThen inside this
      groupAfterLook look (← andThen (.element opt) this)
    else if l.arity == 2 then two this
    else if l.arity == 3 then three this
    else broken .badNumeral
  | .unknown => broken .badNumeral

/-- Expressions of operators with precedence, the strongest first, and of parentheses. -/
def infixElement (base : Operand) (levels : List Level) : GrammarM ElementId := do
  let (open_, close) ← withStandard do return (← dropElement (.text "("), ← dropElement (.text ")"))
  let all ← forwardElement
  let inner ← combine .orElse base (← chain (.element open_) [.element all, .element close])
  let last ← levels.foldlM (fun inner l => do
      let here ← forwardElement
      let e ← levelElement l inner here
      match l.action with
      | some a => setActions e [a]
      | none => pure ()
      assign here (← combine .orElse (.element e) inner)
      return .element here) inner
  assign all last
  return all

/-! ### Nested and indented blocks -/

/-- Lists that may be nested, between an opener and a closer.  Texts that match `ignore` are not looked into. -/
def nestedElement (opener closer content : Operand) (ignore : Option Operand) : GrammarM ElementId := do
  if ← sameOperands opener closer then broken .badNumeral
  let ignore ← match ignore with
    | some o => pure o
    | none => do pure (.element (← copyElement (← anyQuoted)))
  let blanks := String.ofList (← get).blanks
  let notAhead (o : Operand) : GrammarM Operand :=
    match o with
    | .element _ => do return .element (← notAheadElement o)
    | _ => broken .badOperands
  let notWord (s : String) : GrammarM Operand := do notAhead (.element (← literal s))
  let stripped (o : Operand) : GrammarM Operand := do
    return .element (← acting (← joinElement (.element (← oneOrMoreElement o))) [.stripped])
  let content ← match content, opener, closer with
    | .nothing, .text a, .text b => do
      if a.length == 1 && b.length == 1 then
        match ignore with
        | .nothing => do
          let e ← withStandard (do called (← emptyElement) "empty")
          let chars ← acting (← charsNotInElement (a ++ b ++ blanks)) [.stripped]
          andThen (.element (← copyElement e)) (.element chars)
        | ignore => do
          let not ← notAhead ignore
          stripped (← andThen not (.element (← charsNotInElement (a ++ b ++ blanks) 1 0 1)))
      else do
        let char : GrammarM Operand := do return .element (← charsNotInElement blanks 1 0 1)
        match ignore with
        | .nothing => do stripped (← chain (← notWord a) [← notWord b, ← char])
        | ignore => do stripped (← chain (← notAhead ignore) [← notWord a, ← notWord b, ← char])
    | .nothing, _, _ => broken .badNumeral
    | content, _, _ => pure content
  let all ← forwardElement
  let item ← match ignore with
    | .nothing => combine .orElse (.element all) content
    | ignore => do combine .orElse (← combine .orElse ignore (.element all)) content
  let first ← dropElement opener
  let inside ← zeroOrMoreElement item
  let last ← dropElement closer
  assign all (.element (← groupElement (← chain (.element first) [.element inside, .element last])))
  return all

/-- Statements one below the other, at the same column.  With `indented` they are to the right of the statements
around. -/
def indentedElement (statement : Operand) (indented : Bool := true) : GrammarM ElementId := do
  let lineEnd ← lineEndElement
  setBlanks lineEnd ['\t', ' ']
  let ends ← oneOrMoreElement (.element (← dropElement (.element lineEnd)))
  let sub ← joinElements .followedBy (← emptyElement) (← acting (← emptyElement) [.subIndent])
  let peer ← acting (← emptyElement) [.peerIndent]
  let back ← acting (← emptyElement) [.unindent]
  let line ← chain (.element peer)
    [.element (← groupElement statement), .element (← optionalElement (.element ends))]
  let lines ← oneOrMoreElement line
  let front ← optionalElement (.element ends)
  let block ←
    if indented then chain (.element front) [.element sub, .element lines, .element back]
    else andThen (.element front) (.element lines)
  let e ← groupElement block
  ignore (← statement.id) (← andThen (.text "\\") (.element (← lineEndElement)))
  return e

/-! ### Ranges of characters -/

/-- Characters and ranges in brackets. -/
def bracketElement : GrammarM ElementId := do
  let punctuation ← acting (← wordElement { start := "\\", body := some "\\[]-*.$+^?()~ ", exactly := 2 }) [.secondChar]
  let hex ← acting (← patternElement "\\\\0?[xX][0-9a-fA-F]+") [.hexChar]
  let octal ← acting (← patternElement "\\\\0[0-7]+") [.octalChar]
  let plain ← wordElement { start := printables, without := some "\\]", exactly := 1 }
  let char ← joinElements .orElse (← joinElements .orElse (← joinElements .orElse punctuation hex) octal) plain
  let range ← groupElement (← chain (.element char) [.element (← dropElement (.text "-")), .element char])
  let body ← withResultName
    (← groupElement (.element (← oneOrMoreElement (.element (← joinElements .orElse range char))))) "body"
  let negated ← withResultName (← optionalElement (.text "^")) "negate"
  let e ← chain (.element (← literal "[")) [.element negated, .element body, .text "]"]
  e.id

def rangeChars : Token → GrammarM String
  | .text s => return s
  | .result r => do
    match (← foundOf r).tokens with
    | .text a :: .text b :: _ =>
      match a.toList, b.toList with
      | [a], [b] => return String.ofList ((List.range' a.toNat (b.toNat + 1 - a.toNat)).map Char.ofNat)
      | _, _ => broken .badOperands
    | _ => broken .badOperands
  | _ => broken .badOperands

/-- The characters of a range in brackets; there are none if it is not written correctly. -/
def charsInRange (s : String) : String :=
  let x : GrammarM String := do
    let r ← parseText (← bracketElement) s
    match ← lookUp? r (.text "body") with
    | some (.result body) => do return String.join (← (← foundOf body).tokens.mapM rangeChars)
    | _ => return ""
  match (x.run { keywordChars := defaultKeywordChars.toList }).1 with
  | .ok s => s
  | .error _ => ""

end Peephole.Grammar
