import Peephole.Grammar.Data
import Peephole.Grammar.Edit
import Peephole.Grammar.Library

/-!
# Descriptions of grammars

Grammars, actions and operations on results, as they are described by nested lists: a list starts with the word for
what is built, and operands follow.  A record at the end of a list holds what has a default otherwise.
-/

namespace Peephole.Grammar

/-- End since a description is not understood. -/
def malformed {α : Type} (what : String) : GrammarM α := throw (.malformed what)

namespace Data

def asText : Data → GrammarM String
  | text s => return s
  | _ => malformed "string"

def asText? : Data → GrammarM (Option String)
  | null => return none
  | d => do return some (← d.asText)

def asNumber : Data → GrammarM Int
  | number n => return n
  | truth b => return if b then 1 else 0
  | _ => malformed "integer"

def asNumber? : Data → GrammarM (Option Int)
  | null => return none
  | d => do return some (← d.asNumber)

def asList : Data → GrammarM (List Data)
  | list ds => return ds
  | _ => malformed "array"

def asToken (d : Data) : GrammarM Token :=
  match d.token? with
  | some t => return t
  | none => malformed "token"

def isTrue : Data → Bool
  | truth b => b
  | _ => false

def textField? (d : Data) (name : String) : GrammarM (Option String) :=
  match d.field? name with
  | some v => v.asText?
  | none => return none

def numberField (d : Data) (name : String) (default : Int) : GrammarM Int :=
  match d.field? name with
  | some v => v.asNumber
  | none => return default

def times : Data → Times
  | list ds => .bounds (ds.map fun d => match d with
    | null => some none
    | number n => some (some n)
    | truth b => some (some (if b then 1 else 0))
    | _ => none)
  | number n => .count n
  | truth b => .count (if b then 1 else 0)
  | _ => .other

end Data

/-- A name with the value that is asked for, or any value. -/
def attributeOf (name : String) : Data → GrammarM (String × Option Token)
  | .null => return (name, none)
  | d => do return (name, some (← d.asToken))

/-- The action that is described; the first argument bounds the nesting. -/
def actionOf : Nat → Data → GrammarM Action
  | 0, _ => malformed "action"
  | fuel + 1, d =>
    match d with
    | .text "len" => return .count
    | .text "sum" => return .sum
    | .text "min" => return .least
    | .text "max" => return .greatest
    | .text "sorted" => return .sorted
    | .text "any" => return .anyTrue
    | .text "all" => return .allTrue
    | .text "up" => return .upper
    | .text "down" => return .lower
    | .text "removequotes" => return .unquote
    | .text "entity" => return .entity
    | .text "keep" => return .wholeText
    | .text "int" => return .integer
    | .text "loc" => return .location
    | .text "none" => return .keep
    | .text "reverse" => return .reverse
    | .text "log" => return .log
    | .list [.text "replace", t] => do return .replaceWith (← t.asToken)
    | .list [.text "atcol", n] => do return .atColumn (← n.asNumber)
    | .list [.text "attr", .list pairs] => do
      return .withAttributes (← pairs.mapM fun p => match p with
        | .list [.text name, v] => attributeOf name v
        | _ => malformed "attribute")
    | .list [.text "attrkw", .record fields] => do
      return .withAttributes (← fields.mapM fun (name, v) => attributeOf name v)
    | .list [.text "const", t] => do return .constant (← t.asToken)
    | .list [.text "fail", .text m] => return .fail m
    | .list [.text "fatal", .text m] => return .fatal m
    | .list [.text "once", a] => do
      let a ← actionOf fuel a
      return .once (← newAct .keep).number a
    | .list [.text "trace", a] => do return .traced (← actionOf fuel a)
    | _ => malformed "action"

def describedAction (d : Data) : GrammarM Action := actionOf d.depth d

abbrev Names := List (String × Operand)

/-- A word, its operands and what has a default. -/
def splitOptions (ds : List Data) : List Data × Data :=
  match ds.getLast? with
  | some (.record fs) => (ds.dropLast, .record fs)
  | _ => (ds, .record [])

/-- The elements that match characters or a place in the text. -/
def plainElement? (options : Data) : List Data → Option (GrammarM ElementId)
  | [.text "forward"] => some forwardElement
  | [.text "lit", s] => some do literal (← s.asText)
  | [.text "clit", s] => some do caselessLiteral (← s.asText)
  | [.text "kw", s] => some do
    let chars := (← options.textField? "identChars").getD defaultKeywordChars
    keywordElement (← s.asText) chars (options.flag "caseless")
  | [.text "ckw", s] => some do keywordElement (← s.asText) defaultKeywordChars true false
  | [.text "word", s] => some do
    wordElement
      { start := ← s.asText, body := ← options.textField? "bodyChars", least := ← options.numberField "min" 1
        most := ← options.numberField "max" 0, exactly := ← options.numberField "exact" 0
        asKeyword := options.flag "asKeyword", without := ← options.textField? "excludeChars" }
  | [.text "re", s] => some do patternElement (← s.asText)
  | [.text "quoted", s] => some do
    quotedElement
      { quote := ← s.asText, escape := ← options.textField? "escChar"
        escapedQuote := ← options.textField? "escQuote", lines := options.flag "multiline"
        unquotes := options.flag "unquoteResults" true, endQuote := ← options.textField? "endQuoteChar" }
  | [.text "notin", s] => some do
    let (least, most, exactly) ← bounds
    charsNotInElement (← s.asText) least most exactly
  | [.text "white"] => some do
    let (least, most, exactly) ← bounds
    whiteElement " \t\r\n" least most exactly
  | [.text "white", s] => some do
    let (least, most, exactly) ← bounds
    whiteElement (← s.asText) least most exactly
  | [.text "gotocol", n] => some do toColumnElement (← n.asNumber)
  | [.text "wordstart"] => some wordStartElement
  | [.text "wordstart", s] => some do wordStartElement (← s.asText)
  | [.text "wordend"] => some wordEndElement
  | [.text "wordend", s] => some do wordEndElement (← s.asText)
  | [.text "empty"] => some emptyElement
  | [.text "nomatch"] => some neverElement
  | [.text "linestart"] => some lineStartElement
  | [.text "lineend"] => some lineEndElement
  | [.text "strstart"] => some textStartElement
  | [.text "strend"] => some textEndElement
  | [.text "lib", .text name] => some do copyElement (← readyMade name)
  | [.text "oneof", ws] => some do
    let words ← match ws with
      | .text s => pure (wordsOf s)
      | ws => do (← ws.asList).mapM Data.asText
    oneOfWords words (options.flag "caseless") (options.flag "useRegex" true)
  | _ => none
where
  bounds : GrammarM (Int × Int × Int) := do
    return (← options.numberField "min" 1, ← options.numberField "max" 0, ← options.numberField "exact" 0)

def changed (o : Operand) (change : ElementId → GrammarM Unit) : GrammarM Operand := do
  let e ← o.id
  change e
  return .element e

def ofOne (word : String) (o : Operand) : GrammarM Operand := do
  match word with
  | "zero" => return .element (← zeroOrMoreElement o)
  | "one" => return .element (← oneOrMoreElement o)
  | "followed" => return .element (← aheadElement o)
  | "not" => return .element (← notAheadElement o)
  | "group" => return .element (← groupElement o)
  | "dict" => return .element (← convertElement .table o)
  | "suppress" => return .element (← dropElement o)
  | "upcase" => return .element (← convertElement .upper o)
  | "ungroup" => return .element (← ungrouped o)
  | "located" => return .element (← located o)
  | "prevlit" => return .element (← previousLiteral o)
  | "prevexpr" => return .element (← previousElement o)
  | "opt" => return .element (← optionalElement o)
  | "matched" => return .element (← matchedText o)
  | "indented" => return .element (← indentedElement o)
  | "counted" => countedList o
  | "~" => invert o
  | "copy" => copyCalled o
  | "sup" => return .element (← dropped (← o.id))
  | "leave" => changed o leaveBlanks
  | "tabs" => changed o keepTabs
  | "onfail" => changed o (setFailAct · none)
  | "debug" => changed o (setDebug · true)
  | "quiet" => changed o debugSilently
  | "breakoff" => changed o fixAttempts
  | _ => malformed "grammar"

def ofTwo? (word : String) : Option (Operand → Operand → GrammarM Operand) :=
  match word with
  | "+" => some (combine .followedBy)
  | "-" => some (combine .committedTo)
  | "|" => some (combine .orElse)
  | "^" => some (combine .orLonger)
  | "&" => some (combine .andAlso)
  | "iadd" => some (addPart .followedBy)
  | "ior" => some (addPart .orElse)
  | "ixor" => some (addPart .orLonger)
  | "counted" => some fun a b => countedList a b
  | "dictof" => some fun a b => do return .element (← tableOf a b)
  | "ignore" => some fun a b => changed a (ignore · b)
  | _ => none

def ofOneWith (word : String) (o : Operand) (d : Data) : GrammarM Operand := do
  match word with
  | "*" | "rmul" => repeatOperand o d.times
  | "opt" => return .element (← optionalElement o (some (← d.asToken)))
  | "matched" => return .element (← matchedText o d.isTrue)
  | "indented" => return .element (← indentedElement o d.isTrue)
  | "html" => return .element (← tagElement o false ((← d.asNumber) != 0))
  | "xml" => return .element (← tagElement o true ((← d.asNumber) != 0))
  | "res" =>
    match d with
    | .null => copyCalled o
    | d => do
      let name ← d.asText
      return .element (← named o name)
  | "resall" => return .element (← withResultName (← o.id) (← d.asText) true)
  | "name" => do
    let name ← d.asText
    changed o (setName · name)
  | "ws" => do
    let cs ← d.asText
    changed o (setBlanks · cs.toList)
  | "item" => do partOf o (← d.asNumber)
  | "onfail" => do
    let message ← d.asText?
    changed o (setFailAct · message)
  | "debug" => changed o (setDebug · d.isTrue)
  | _ => malformed "grammar"

def ofParts? (word : String) : Option (List Operand → GrammarM ElementId) :=
  match word with
  | "and" => some sequenceElement
  | "or" => some longestElement
  | "first" => some firstElement
  | "each" => some anyOrderElement
  | _ => none

def ofActions? (word : String) : Option (ElementId → List Action → GrammarM Unit) :=
  match word with
  | "act" => some fun e as => setActions e as
  | "addact" => some fun e as => addActions e as
  | "acttry" => some fun e as => setActions e as true
  | _ => none

def groupingOf : Data → Grouping
  | .text "left" => .left
  | .text "right" => .right
  | _ => .unknown

/-- The grammar that is described; the first argument bounds the nesting. -/
def grammarOf (names : Names) : Nat → Data → GrammarM Operand
  | 0, _ => malformed "grammar"
  | fuel + 1, d => do
    let sub := grammarOf names fuel
    let parts (d : Data) : GrammarM (List Operand) :=
      match d with
      | .text s => return s.toList.map fun c => .text c.toString
      | d => do (← d.asList).mapM sub
    let levelOf (d : Data) : GrammarM Level := do
      let (o, n, side, action) ← match d with
        | .list [o, n, side] => pure (o, n, side, Data.null)
        | .list [o, n, side, a] => pure (o, n, side, a)
        | _ => malformed "level"
      let o ← match o with
        | .list (.text "pair" :: os) => do pure (LevelOperator.several (← os.mapM sub))
        | o => do pure (LevelOperator.one (← sub o))
      let action ← match action with
        | .null => pure none
        | a => some <$> describedAction a
      return ⟨o, ← n.asNumber, groupingOf side, action⟩
    match d with
    | .null => return .nothing
    | .text s => return .text s
    | .list ds =>
      let (ds, options) := splitOptions ds
      let operand (name : String) (default : Operand) : GrammarM Operand :=
        match options.field? name with
        | some d => sub d
        | none => return default
      if let some x := plainElement? options ds then return .element (← x)
      match ds with
      | [.text "ref", .text name] =>
        match names.lookup name with
        | some o => return o
        | none => broken .noSuchEntry
      | [.text "skipto", g] => do
        let g ← sub g
        let ignore ← operand "ignore" .nothing
        let failOn ← operand "failOn" .nothing
        return .element (← skipToElement g (options.flag "include") ignore failOn)
      | [.text "combine", g] => do
        let g ← sub g
        let separator := (← options.textField? "joinString").getD ""
        return .element (← joinElement g separator (options.flag "adjacent" true))
      | [.text "delimited", g] => do
        let g ← sub g
        return .element (← delimitedList g (← operand "delim" (.text ",")) (options.flag "combine"))
      | [.text "nested"] => do
        let opener ← operand "opener" (.text "(")
        let closer ← operand "closer" (.text ")")
        let content ← operand "content" .nothing
        let ignore ← (options.field? "ignore").mapM sub
        return .element (← nestedElement opener closer content ignore)
      | [.text "infix", g, .list levels] => do
        let base ← sub g
        let levels ← levels.mapM levelOf
        return .element (← infixElement base levels)
      | .text word :: g :: rest =>
        match ofActions? word, ofParts? word, ofTwo? word, rest with
        | some give, _, _, as => do
          let e ← (← sub g).id
          give e (← as.mapM describedAction)
          return .element e
        | none, some make, _, [] => do return .element (← make (← parts g))
        | none, none, some make, [h] => do
          let a ← sub g
          make a (← sub h)
        | none, none, _, [] => do ofOne word (← sub g)
        | none, none, _, [d] => do ofOneWith word (← sub g) d
        | _, _, _, _ => malformed "grammar"
      | _ => malformed "grammar"
    | _ => malformed "grammar"

def describedGrammar (names : Names) (d : Data) : GrammarM Operand := grammarOf names (d.depth + 1) d

/-- The names that are described, one after the other: an element that is to be given its meaning later, the meaning
of one, or a grammar. -/
def describedNames (names : Names) : List Data → GrammarM Names
  | [] => return names
  | .list [.text name, .list [.text "assign", g]] :: rest => do
    let o ← describedGrammar names g
    match names.lookup name with
    | some target => assignOperand target o
    | none => broken .noSuchEntry
    describedNames names rest
  | .list [.text name, g] :: rest => do
    let o ← describedGrammar names g
    describedNames ((name, o) :: names) rest
  | _ => malformed "let"

def describedEdit (d : Data) : GrammarM Edit := do
  match d with
  | .list [.text "get", k] => return .get (← k.asToken) .nothing
  | .list [.text "get", k, x] => return .get (← k.asToken) (← x.asToken)
  | .list [.text "attr", .text name] => return .value name
  | .list [.text "at", k] => return .item (← k.asToken)
  | .list [.text "slice", i, j] => return .slice (← i.asNumber?) (← j.asNumber?)
  | .list [.text "has", k] => return .has (← k.asToken)
  | .list [.text "len"] => return .length
  | .list [.text "bool"] => return .nonempty
  | .list [.text "reversed"] => return .reversed
  | .list [.text "haskeys"] => return .hasNames
  | .list [.text "keys"] => return .names
  | .list (.text "pop" :: args) => return .pop (← args.mapM Data.asToken)
  | .list [.text "popdef", _] => return .pop []
  | .list [.text "insert", i, x] => return .insert (← i.asToken) (← x.asToken)
  | .list [.text "append", x] => return .append (← x.asToken)
  | .list [.text "extend", x] => return .extend (← x.asToken)
  | .list [.text "extendself"] => return .extendSelf
  | .list [.text "set", k, x] => return .set (← k.asToken) (← x.asToken)
  | .list [.text "del", k] => return .remove (← k.asToken)
  | .list [.text "delslice", i, j] => return .removeSlice (← i.asNumber?) (← j.asNumber?)
  | .list [.text "clear"] => return .clear
  | .list [.text "add"] => return .doubled
  | .list [.text "sum"] => return .summed
  | .list (.text "named" :: t :: name :: rest) =>
    let (asList, modal) := match rest with
      | [a, m] => (a.isTrue, m.isTrue)
      | [a] => (a.isTrue, true)
      | _ => (true, true)
    match name with
    | .number 0 => return .labelled (← t.asToken) none asList !modal
    | .number n => return .labelled (← t.asToken) (some (Token.numberText n)) asList false
    | name => return .labelled (← t.asToken) (← name.asText?) asList !modal
  | _ => malformed "ops"

end Peephole.Grammar
