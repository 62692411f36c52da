import Peephole.Error
import Peephole.Grammar.Matching
import Peephole.Grammar.Token

/-!
# Elements of a grammar

A grammar is a graph of elements, kept in a store and named by numbers.  An element says what it matches (its
`Form`), which blanks and comments it skips in front, how its tokens are named, and what is done with them.
Elements can be changed after others refer to them: a forward element is given its meaning later, and an action may
give it a new meaning while a text is being matched.
-/

namespace Peephole.Grammar

open Text (Chars)

abbrev ElementId := Nat

/-- What stands where an element is expected. -/
inductive Operand where
  | element (e : ElementId)
  /-- A text, which most constructions take for the element that matches it. -/
  | text (s : String)
  | nothing
  /-- A result of a match, which is no element. -/
  | found
  deriving Inhabited, Repr, DecidableEq

/-- What is done with the tokens of a match. -/
inductive Action where
  | count
  | sum
  | least
  | greatest
  | sorted
  | anyTrue
  | allTrue
  | upper
  | lower
  /-- The first token without its first and its last character. -/
  | unquote
  | entity
  | wholeText
  | replaceWith (t : Token)
  | atColumn (n : Int)
  /-- The named tokens must have these values, or any value. -/
  | withAttributes (attributes : List (String × Option Token))
  | integer
  | location
  | keep
  | constant (t : Token)
  | reverse
  | log
  | fail (message : String)
  | fatal (message : String)
  /-- Do an action the first time, and fail from then on; the number tells the actions of this kind apart. -/
  | once (number : Nat) (a : Action)
  | traced (a : Action)
  /-- Let an element match as many of `item` as the first token says. -/
  | countField (array : ElementId) (item : Operand)
  /-- Let an element match the tokens. -/
  | repeatLiteral (copy : ElementId)
  /-- Let an element match only the same tokens. -/
  | repeatTokens (copy : ElementId)
  | mustEqual (ts : List Token)
  | betweenPlaces
  /-- The text between the two places that are named, in place of the tokens, with the other names. -/
  | betweenPlacesNamed
  | firstToken
  /-- The first token without blanks around it. -/
  | stripped
  | isSlash
  /-- The line must be indented like the block. -/
  | peerIndent
  /-- The line must be indented more than the block; it starts a block inside. -/
  | subIndent
  /-- The line must be indented less than the block, which ends. -/
  | unindent
  | secondChar
  /-- The character with the hexadecimal code point in the first token. -/
  | hexChar
  /-- The character with the octal code point in the first token. -/
  | octalChar
  deriving Inhabited, Repr

/-- An action of an element; the number tells apart actions that were given separately. -/
structure Act where
  number : Nat
  action : Action
  deriving Inhabited, Repr

/-- What is done when an element does not match: report it, and stop everything if there is a message. -/
structure FailAct where
  number : Nat
  message : Option String
  deriving Inhabited, Repr, DecidableEq

/-- A set of characters, or a text whose characters are meant. -/
inductive Chosen where
  | set (cs : List Char)
  | text (cs : List Char)
  deriving Inhabited, Repr

def Chosen.has : Chosen → Char → Bool
  | set cs, c | text cs, c => cs.contains c

/-- The characters of words and the bounds on their length. -/
structure WordForm where
  start : String
  body : String
  least : Nat
  most : Option Nat
  /-- A longer word does not match. -/
  mostGiven : Bool
  asKeyword : Bool
  /-- The notation of the pattern that words match, if there is one. -/
  source : Option String
  pattern : Option Compiled
  deriving Inhabited, Repr

structure QuotedForm where
  quote : String
  endQuote : String
  escape : Option String
  escapedQuote : Option String
  lines : Bool
  unquotes : Bool
  source : String
  pattern : Compiled
  escapes : Option Compiled
  deriving Inhabited, Repr

/-- Elements in any order, by how often they have to match. -/
structure Groups where
  optionals : List ElementId
  repeated : List ElementId
  repeatedNeeded : List ElementId
  needed : List ElementId
  deriving Inhabited, Repr

/-- What is made of the tokens of an element. -/
inductive Conversion where
  | same
  | upper
  /-- The tokens joined to one text; blanks between them are refused if they must be adjacent. -/
  | join (separator : String) (adjacent : Bool)
  | group
  /-- Each token that is a result is named by its first token. -/
  | table
  | drop
  deriving Inhabited, Repr, DecidableEq

/-- What an element matches. -/
inductive Form where
  /-- The empty text; `text` is the empty word that was asked for, and `result` its other spelling. -/
  | empty (text result : Option String)
  /-- The empty text, after which a sequence may not fail. -/
  | commit
  | never
  | literal (word : String)
  | caselessLiteral (word result : String)
  /-- A word that is not part of a longer word; `folded` is the word in upper case if case does not matter. -/
  | keyword (word : String) (folded : Option String) (checksStart : Bool) (chars : Chosen)
  | word (w : WordForm)
  | pattern (source : String) (p : Compiled)
  | quoted (q : QuotedForm)
  | charsNotIn (cs : String) (least : Nat) (most : Option Nat)
  | white (cs : String) (least : Int) (most : Option Nat)
  | toColumn (n : Int)
  | lineStart
  | lineEnd
  | textStart
  | textEnd
  | wordStart (cs : List Char)
  | wordEnd (cs : List Char)
  | sequence (parts : List Operand)
  | longest (parts : List Operand)
  | first (parts : List Operand)
  | anyOrder (parts : List Operand) (groups : Option Groups)
  | ahead (e : Option ElementId)
  | notAhead (e : Option ElementId)
  | zeroOrMore (e : Option ElementId)
  | oneOrMore (e : Option ElementId)
  | optional (e : Option ElementId) (default : Option Token)
  | skipTo (e : Option ElementId) (taken : Bool) (ignore : Operand) (failOn : Operand)
  | forward (e : Operand)
  | convert (c : Conversion) (e : Option ElementId)
  deriving Inhabited, Repr

/-- What is reported about the attempts to match an element. -/
inductive Reports where
  | none
  | printed
  | silent
  deriving Inhabited, Repr, DecidableEq

structure Element where
  form : Form
  name : Option String := none
  actions : List Act := []
  failAct : Option FailAct := none
  /-- The text of the element, once it was asked for. -/
  shown : Option String := none
  showing : Bool := false
  /-- The text of a forward element was asked for. -/
  wasShown : Bool := false
  resultName : Option String := none
  /-- A named match is kept as a list. -/
  savesList : Bool := false
  skipsBlanks : Bool := true
  blanks : List Char
  /-- A copy skips the blanks that are the default then. -/
  followsDefault : Bool := true
  mayBeEmpty : Bool := false
  keepsTabs : Bool := false
  ignored : List ElementId := []
  debugged : Bool := false
  reports : Reports := .none
  streamlined : Bool := false
  /-- Reading past the end of the text is a failure of this element, not of one around it. -/
  mayOverrun : Bool := true
  message : String := ""
  /-- Of several matches with the same name the last counts. -/
  lastCounts : Bool := true
  /-- Blanks in front are skipped even if the element around skipped them. -/
  preparses : Bool := true
  /-- Actions are done even when a match is only tried. -/
  actsInTrial : Bool := false
  tag : Option String := none
  /-- The element that is matched in place of this one. -/
  standsFor : Option ElementId := none
  deriving Inhabited, Repr

/-- How severe a failure to match is. -/
inductive Severity where
  /-- Another way may be tried. -/
  | plain
  /-- Nothing else is tried. -/
  | fatal
  /-- Nothing else is tried, since a sequence was committed. -/
  | committed
  deriving Inhabited, Repr, DecidableEq

structure Mismatch where
  severity : Severity
  text : Chars
  place : Nat
  message : String
  deriving Inhabited, Repr

/-- Why a step ends early. -/
inductive Failure where
  | mismatch (m : Mismatch)
  | fault (f : Fault)
  | badPattern
  | badQuote
  | unknownName
  | malformed (what : String)
  | tooDeep
  /-- The grammar recurs without progress; the message shows the elements. -/
  | recursive (message : String)
  deriving Inhabited, Repr

/-- A value under a name, and the place of it among the tokens. -/
structure Occurrence where
  value : Token
  place : Int
  deriving Inhabited, Repr

/-- What a match found: tokens, and names for some of them.  The values under a name are numbered, since copies of
a result share them. -/
structure Found where
  tokens : List Token := []
  /-- The names in the order of their first use, with the numbers of their values. -/
  named : List (Token × Nat) := []
  /-- The names under which all values count, not only the last. -/
  cumulative : List String := []
  name : Option String := none
  parent : Option ResultId := none
  deriving Inhabited, Repr

/-- How a text becomes an element. -/
inductive LiteralKind where
  | exact
  | dropped
  | caseless
  | keyword
  deriving Inhabited, Repr, DecidableEq

inductive LogEntry where
  | tokens (place : Nat) (ts : List Token)
  | failed (place : Nat) (element message : String)
  deriving Inhabited, Repr

/-- A match that is remembered: the arguments of the attempt and what came of it. -/
structure Memo where
  element : ElementId
  place : Nat
  preparsed : Bool
  acts : Bool
  outcome : Except Mismatch (Nat × ResultId)
  deriving Inhabited

/-- Everything that grammars and matches change. -/
structure Engine where
  elements : Array Element := #[]
  results : Array Found := #[]
  occurrences : Array (List Occurrence) := #[]
  blanks : List Char := [' ', '\n', '\t', '\r']
  literals : LiteralKind := .exact
  keywordChars : List Char := []
  memoizes : Bool := false
  memos : List Memo := []
  /-- The log, the last line first. -/
  log : List LogEntry := []
  printed : String := ""
  traced : String := ""
  /-- The numbers of the actions that were done once. -/
  spent : List Nat := []
  /-- The columns of the blocks that are open, the innermost first. -/
  indents : List Nat := [1]
  nextAct : Nat := 0
  deriving Inhabited

/-- A step that may change the engine and may end early; changes stay. -/
abbrev GrammarM := ExceptT Failure (StateM Engine)

def broken {α : Type} (f : Fault) : GrammarM α := throw (.fault f)

/-- End with a plain failure to match. -/
def mismatch {α : Type} (t : Chars) (place : Nat) (message : String) : GrammarM α :=
  throw (.mismatch ⟨.plain, t, place, message⟩)

def elementOf (e : ElementId) : GrammarM Element := do
  match (← get).elements[e]? with
  | some el => return el
  | none => broken .noSuchPart

def newElement (el : Element) : GrammarM ElementId := do
  let g ← get
  set { g with elements := g.elements.push el }
  return g.elements.size

def changeElement (e : ElementId) (f : Element → Element) : GrammarM Unit :=
  modify fun g => { g with elements := g.elements.modify e f }

/-- The element that an operand is; a text or nothing has no parts. -/
def Operand.id : Operand → GrammarM ElementId
  | element e => return e
  | _ => broken .noSuchPart

def newAct (a : Action) : GrammarM Act := do
  let g ← get
  set { g with nextAct := g.nextAct + 1 }
  return ⟨g.nextAct, a⟩

namespace Form

def inner? : Form → Option ElementId
  | ahead e | notAhead e | zeroOrMore e | oneOrMore e | optional e _ | skipTo e _ _ _ | convert _ e => e
  | forward (.element e) => some e
  | _ => none

def isEnclosing : Form → Bool
  | ahead _ | notAhead _ | zeroOrMore _ | oneOrMore _ | optional _ _ | skipTo _ _ _ _ | convert _ _
  | forward _ => true
  | _ => false

def withInner (new : ElementId) : Form → Form
  | ahead _ => ahead (some new)
  | notAhead _ => notAhead (some new)
  | zeroOrMore _ => zeroOrMore (some new)
  | oneOrMore _ => oneOrMore (some new)
  | optional _ d => optional (some new) d
  | skipTo _ i g f => skipTo (some new) i g f
  | convert c _ => convert c (some new)
  | forward _ => forward (.element new)
  | f => f

def parts? : Form → Option (List Operand)
  | sequence ps | longest ps | first ps | anyOrder ps _ => some ps
  | _ => none

def withParts (ps : List Operand) : Form → Form
  | sequence _ => sequence ps
  | longest _ => longest ps
  | first _ => first ps
  | anyOrder _ g => anyOrder ps g
  | f => f

def sameKind : Form → Form → Bool
  | sequence _, sequence _ | longest _, longest _ | first _, first _ | anyOrder _ _, anyOrder _ _ => true
  | _, _ => false

def isDrop : Form → Bool
  | convert .drop _ => true
  | _ => false

end Form

end Peephole.Grammar
