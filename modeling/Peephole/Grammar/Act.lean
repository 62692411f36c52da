import Peephole.Grammar.Compose
import Peephole.Grammar.Listing

/-!
# Actions

What actions do with the tokens of a match.  An action answers new tokens, or nothing if the tokens stay; it may
change the tokens in place, refuse the match, or change the grammar.
-/

namespace Peephole.Grammar

open Text (Chars)

/-- A match that an action is about: the text, the place where the match starts and ends, and what it found. -/
structure Matched where
  text : Chars
  start : Nat
  stop : Nat
  found : ResultId

def Mismatch.shown (m : Mismatch) : String :=
  m.message ++ " (at char " ++ toString m.place ++ "), (line:" ++ toString (Text.lineNumber m.text m.place) ++
    ", col:" ++ toString (Text.column m.text m.place) ++ ")"

/-- The text of a token; it ends early if a result holds itself. -/
def tokenText (t : Token) : GrammarM String := do
  match textToken (← get) t with
  | some s => return s
  | none => throw .tooDeep

def listedTokens (r : ResultId) : GrammarM (List Token) := do
  match listed (← get) r with
  | some ts => return ts
  | none => throw .tooDeep

def firstOf (r : ResultId) : GrammarM Token := do
  match (← foundOf r).tokens with
  | t :: _ => return t
  | [] => broken .outOfRange

def truthOf : Token → GrammarM Bool
  | .text s => return !s.isEmpty
  | .number n => return n != 0
  | .truth b => return b
  | .nothing => return false
  | .list ts => return !ts.isEmpty
  | .result r => return !(← foundOf r).tokens.isEmpty

def numberOf? : Token → Option Int
  | .number n => some n
  | .truth b => some (if b then 1 else 0)
  | _ => none

/-- The sum of two tokens: numbers, or results, where zero in front of a result is left out. -/
def addTokens (a b : Token) : GrammarM Token := do
  match numberOf? a, numberOf? b, a, b with
  | some m, some n, _, _ => return .number (m + n)
  | some 0, none, _, .result r => return .result (← copyFound r)
  | some _, none, _, .result _ => return .nothing
  | _, _, .result r, .result s => do
    let c ← copyFound r
    addFound c s
    return .result c
  | _, _, .list xs, .list ys => return .list (xs ++ ys)
  | _, _, .result _, _ => broken .noSuchPart
  | _, _, _, _ => broken .badOperands

/-- Whether a token is before another; only numbers and texts have an order. -/
def tokenBefore (a b : Token) : GrammarM Bool :=
  match numberOf? a, numberOf? b, a, b with
  | some m, some n, _, _ => return m < n
  | _, _, .text s, .text u => return s < u
  | _, _, _, _ => broken .badOperands

def bestToken (better : Token → Token → GrammarM Bool) : List Token → GrammarM Token
  | [] => broken .badNumeral
  | t :: ts => ts.foldlM (fun best t => do return if ← better t best then t else best) t

/-- A token put into an ordered list behind all that are not after it. -/
def insertOrdered (t : Token) : List Token → GrammarM (List Token)
  | [] => return [t]
  | u :: us => do if ← tokenBefore t u then return t :: u :: us else return u :: (← insertOrdered t us)

def orderTokens (ts : List Token) : GrammarM (List Token) := ts.foldlM (fun sorted t => insertOrdered t sorted) []

/-- The integer that a text denotes: digits, a sign in front, and single underscores between digits. -/
def integerOf? (s : String) : Option Int :=
  let cs := (strip s).toList
  let (sign, cs) : Int × List Char := match cs with
    | '-' :: cs => (-1, cs)
    | '+' :: cs => (1, cs)
    | cs => (1, cs)
  let rec clean : List Char → Bool → Option (List Char)
    | [], afterDigit => if afterDigit then some [] else none
    | '_' :: cs, afterDigit => if afterDigit then clean cs false else none
    | c :: cs, _ => (clean cs true).map (c :: ·)
  (clean cs false).bind fun ds => (Text.natural? ds).map fun n => sign * n

/-- The entities that have names, and the characters that they stand for. -/
def entities : List (String × String) := [("gt", ">"), ("lt", "<"), ("amp", "&"), ("nbsp", " "), ("quot", "\"")]

mutual

/-- The tokens with the members of lists in their place. -/
def flattenToken : Token → List Token
  | .list ts => flattenTokens ts
  | t => [t]

def flattenTokens : List Token → List Token
  | [] => []
  | t :: ts => flattenToken t ++ flattenTokens ts

end

/-- The part of a text between two places that may be counted from the end. -/
def textBetween (t : Chars) (first last : Option Int) : String :=
  let (a, b) := sliceBounds t.size first last
  Text.slice t a b

/-- The value under a name, or the empty text. -/
def valueNamed (r : ResultId) (name : String) : GrammarM Token := do
  return (← lookUp? r (.text name)).getD (.text "")

def placeNamed (r : ResultId) (name : String) : GrammarM Int := do
  match numberOf? (← valueNamed r name) with
  | some n => return n
  | none => broken .badOperands

/-- The column of the line of a block must be that of the block. -/
def column (m : Matched) : Nat := Text.column m.text m.start

/-- The character with a code point; there is none if the number is too large. -/
def charWith (n : Nat) : GrammarM Token :=
  if n < 0x110000 then return .text (Char.ofNat n).toString else broken .badNumeral

def Failure.shown : Failure → String
  | .mismatch m => m.shown
  | .fault .outOfRange => "list index out of range"
  | .recursive message => message
  | _ => ""

def traceLine (s : String) : GrammarM Unit := modify fun g => { g with traced := g.traced ++ s ++ "\n" }

def runAction (m : Matched) : Action → GrammarM (Option Raw)
  | .count => do return some (.one (.number (← foundOf m.found).tokens.length))
  | .sum => do return some (.ofToken (← (← foundOf m.found).tokens.foldlM addTokens (.number 0)))
  | .least => do return some (.ofToken (← bestToken tokenBefore (← foundOf m.found).tokens))
  | .greatest => do
    return some (.ofToken (← bestToken (fun a b => tokenBefore b a) (← foundOf m.found).tokens))
  | .sorted => do return some (.list (← orderTokens (← foundOf m.found).tokens))
  | .anyTrue => do return some (.one (.truth (← (← foundOf m.found).tokens.anyM truthOf)))
  | .allTrue => do return some (.one (.truth (← (← foundOf m.found).tokens.allM truthOf)))
  | .upper => do
    return some (.list (← (← foundOf m.found).tokens.mapM fun t => return .text (Text.upper (← tokenText t))))
  | .lower => do
    return some (.list (← (← foundOf m.found).tokens.mapM fun t => return .text (Text.lower (← tokenText t))))
  | .unquote => do
    match ← firstOf m.found with
    | .text s => return some (.one (.text (String.ofList (sliceOf s.toList (some 1) (some (-1))))))
    | .list ts => return some (.list (sliceOf ts (some 1) (some (-1))))
    | .result r => return some (.list (sliceOf (← foundOf r).tokens (some 1) (some (-1))))
    | _ => broken .badOperands
  | .entity => do
    match ← valueNamed m.found "entity" with
    | .text s => return (entities.find? fun e => e.1 == s).map fun e => .one (.text e.2)
    | .list _ => broken .badOperands
    | _ => return none
  | .wholeText => do
    removeSlice m.found none none
    let whole ← newFound { tokens := [.text (Text.slice m.text m.start m.stop)] }
    addFound m.found whole
    return some (.result m.found)
  | .replaceWith t => return some (.list [t])
  | .atColumn n => do
    if (column m : Int) == n then return none
    else mismatch m.text m.start ("matched token not at column " ++ toString n)
  | .withAttributes attributes => do
    for (name, value) in attributes do
      match ← lookUp? m.found (.text name) with
      | none => mismatch m.text m.start ("no matching attribute " ++ name)
      | some found =>
        match value with
        | none => pure ()
        | some value =>
          if !found.same value then
            mismatch m.text m.start ("attribute '" ++ name ++ "' has value '" ++ (← tokenText found) ++
              "', must be '" ++ (← tokenText value) ++ "'")
    return none
  | .integer => do
    match ← firstOf m.found with
    | .text s =>
      match integerOf? s with
      | some n => return some (.one (.number n))
      | none => broken .badNumeral
    | t =>
      match numberOf? t with
      | some n => return some (.one (.number n))
      | none => broken .badOperands
  | .location => return some (.one (.number m.start))
  | .keep => return none
  | .constant .nothing => return none
  | .constant t => return some (.ofToken t)
  | .reverse => do return some (.list (← foundOf m.found).tokens.reverse)
  | .log => do
    let ts ← listedTokens m.found
    modify fun g => { g with log := .tokens m.start ts :: g.log }
    return none
  | .fail message => mismatch m.text m.start message
  | .fatal message => throw (.mismatch ⟨.fatal, m.text, m.start, message⟩)
  | .once number a => do
    if (← get).spent.contains number then mismatch m.text m.start ""
    let answer ← runAction m a
    modify fun g => { g with spent := number :: g.spent }
    return answer
  | .traced a => do
    let tokens ← tokenText (.result m.found)
    traceLine (">>entering wrapper(line: '" ++ Text.lineAt m.text m.start ++ "', " ++ toString m.start ++ ", " ++
      tokens ++ ")")
    let answer ← try runAction m a
      catch f => do
        let shown ← match a, f with
          | .integer, .fault .badNumeral => do
            pure ("invalid literal for int() with base 10: " ++
              (writtenToken (← get) (← firstOf m.found)).getD "")
          | _, f => pure f.shown
        traceLine ("<<leaving wrapper (exception: " ++ shown ++ ")")
        throw f
    let shown ← match answer with
      | none => pure Token.nothingText
      | some (.result r) => tokenText (.result r)
      | some (.list ts) => tokenText (.list ts)
      | some (.one t) => tokenText t
    traceLine ("<<leaving wrapper (ret: " ++ shown ++ ")")
    return answer
  | .countField array item => do
    let times (n : Int) : GrammarM ElementId := do
      groupElement (.element (← sequenceElement (List.replicate n.toNat item)))
    let t ← firstOf m.found
    let e ←
      if ← truthOf t then
        match numberOf? t with
        | some n => times n
        | none => broken .badOperands
      else do
        let e ← withStandard emptyElement
        setName e "empty"
        groupElement (.element e)
    assign array (.element e)
    return some (.list [])
  | .repeatLiteral copy => do
    match (← foundOf m.found).tokens with
    | [] => do assign copy (.element (← emptyElement))
    | [.text s] => assign copy (.text s)
    | [.result _] => assign copy .found
    | [_] => broken .noSuchPart
    | _ => do
      let ts := flattenTokens (← listedTokens m.found)
      let parts ← ts.mapM fun t => match t with
        | .text s => do return Operand.element (← literal s)
        | _ => broken .badOperands
      assign copy (.element (← sequenceElement parts))
    return none
  | .repeatTokens copy => do
    setActions copy [.mustEqual (flattenTokens (← listedTokens m.found))] true
    return none
  | .mustEqual ts => do
    if Token.sameAll (flattenTokens (← listedTokens m.found)) ts then return none
    else mismatch #[] 0 ""
  | .betweenPlaces => do
    let first ← placeNamed m.found "_original_start"
    let last ← placeNamed m.found "_original_end"
    return some (.one (.text (textBetween m.text (some first) (some last))))
  | .betweenPlacesNamed => do
    removeSlice m.found none none
    let first ← placeNamed m.found "_original_start"
    let last ← placeNamed m.found "_original_end"
    insertToken m.found 0 (.text (textBetween m.text (some first) (some last)))
    removeName m.found (.text "_original_start")
    removeName m.found (.text "_original_end")
    return none
  | .firstToken => do return some (.ofToken (← firstOf m.found))
  | .stripped => do
    match ← firstOf m.found with
    | .text s => return some (.one (.text (strip s)))
    | _ => broken .noSuchPart
  | .isSlash => do
    match ← firstOf m.found with
    | .text s => return some (.one (.truth (s == "/")))
    | _ => return some (.one (.truth false))
  | .peerIndent => do
    if m.start ≥ m.text.size then return none
    match (← get).indents with
    | [] => broken .outOfRange
    | i :: _ =>
      if column m == i then return none
      else if column m > i then throw (.mismatch ⟨.fatal, m.text, m.start, "illegal nesting"⟩)
      else mismatch m.text m.start "not a peer entry"
  | .subIndent => do
    match (← get).indents with
    | [] => broken .outOfRange
    | i :: is =>
      if column m > i then
        modify fun g => { g with indents := column m :: i :: is }
        return none
      else mismatch m.text m.start "not a subentry"
  | .unindent => do
    if m.start ≥ m.text.size then return none
    let refused {α : Type} : GrammarM α := mismatch m.text m.start "not an unindent"
    match (← get).indents with
    | [] => refused
    | [i] => if column m < i then broken .outOfRange else refused
    | i :: j :: is =>
      if column m < i && column m ≤ j then
        modify fun g => { g with indents := j :: is }
        return none
      else refused
  | .secondChar => do
    match ← firstOf m.found with
    | .text s =>
      match s.toList with
      | _ :: c :: _ => return some (.one (.text c.toString))
      | _ => broken .outOfRange
    | _ => broken .badOperands
  | .hexChar => do
    match ← firstOf m.found with
    | .text s => do
      let cs := s.toList.dropWhile fun c => c == '\\' || c == '0' || c == 'x'
      if cs.isEmpty || cs.any fun c => (Pattern.hexValue? c).isNone then broken .badNumeral
      return some (.one (← charWith (Pattern.numberIn 16 cs)))
    | _ => broken .badOperands
  | .octalChar => do
    match ← firstOf m.found with
    | .text s => return some (.one (← charWith (Pattern.numberIn 8 (s.toList.drop 1))))
    | _ => broken .badOperands

end Peephole.Grammar
