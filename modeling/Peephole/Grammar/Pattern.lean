import Peephole.Text.Case
import Peephole.Text.CharClass
import Peephole.Text.Letter

/-!
# Patterns

A pattern describes a set of texts: characters and classes of characters, one pattern after another, one or
another, repetition, groups whose text is kept, places such as the end of the text, and looks ahead and behind.

`Pattern.read` reads the usual notation, in which most characters stand for themselves, `[...]` is a class,
`(...)` a group, `|` separates alternatives, `*`, `+`, `?` and `{m,n}` repeat, and a backslash quotes.
-/

namespace Peephole.Grammar

inductive ClassItem where
  | range (first last : Char)
  | digit (inverted : Bool)
  | space (inverted : Bool)
  | word (inverted : Bool)
  deriving Inhabited, Repr, DecidableEq

def ClassItem.has (c : Char) : ClassItem → Bool
  | range a b => a.toNat ≤ c.toNat && c.toNat ≤ b.toNat
  | digit inverted => Text.isDigit c != inverted
  | space inverted => Text.isSpace c != inverted
  | word inverted => Text.isWordChar c != inverted

inductive Eagerness where
  /-- As often as possible, then less often. -/
  | greedy
  /-- As seldom as possible, then more often. -/
  | lazy
  /-- As often as possible, and nothing else. -/
  | possessive
  deriving Inhabited, Repr, DecidableEq

/-- A place between two characters. -/
inductive Place where
  | lineStart
  | lineEnd
  | textStart
  | textEnd
  /-- Between a character of a word and another character, or not. -/
  | wordEdge (inverted : Bool)
  deriving Inhabited, Repr, DecidableEq

/-- A description of a set of texts. -/
inductive Pattern where
  | nothing
  /-- One character that is in the class, or not in it. -/
  | one (inverted : Bool) (items : List ClassItem)
  /-- Any character, line breaks apart unless they are included. -/
  | any
  | place (p : Place)
  | seq (first second : Pattern)
  | alt (first second : Pattern)
  | rep (body : Pattern) (least : Nat) (most : Option Nat) (e : Eagerness)
  /-- A group with a number, whose text is kept. -/
  | group (number : Nat) (body : Pattern)
  | plain (body : Pattern)
  | again (number : Nat)
  /-- The text ahead, or behind, is in the set, or not. -/
  | look (behind inverted : Bool) (body : Pattern)
  /-- The first way to match, and no other. -/
  | atomic (body : Pattern)
  deriving Inhabited, Repr

namespace Pattern

def char (c : Char) : Pattern := one false [.range c c]

def size : Pattern → Nat
  | nothing | one _ _ | any | place _ | again _ => 1
  | seq a b | alt a b => a.size + b.size + 1
  | rep p least _ _ => (least + 1) * (p.size + 1) + 1
  | group _ p | plain p | look _ _ p | atomic p => p.size + 1

/-- The length of the texts of a pattern, if they all have the same. -/
def width? : Pattern → Option Nat
  | nothing | place _ | look _ _ _ => some 0
  | one _ _ | any => some 1
  | seq a b => do return (← a.width?) + (← b.width?)
  | alt a b => do
    let m ← a.width?
    if (← b.width?) == m then some m else none
  | rep p least most _ => do
    let m ← p.width?
    if most == some least then some (least * m) else if m == 0 then some 0 else none
  | group _ p | plain p | atomic p => p.width?
  | again _ => none

/-- Whether a repetition may not follow the pattern directly. -/
def refusesRepeat : Pattern → Bool
  | nothing | place _ | rep _ _ _ _ => true
  | _ => false

end Pattern

/-- How characters are compared and which characters end a line. -/
structure Flags where
  /-- `^` and `$` match at every line. -/
  lines : Bool := false
  /-- `.` matches a line break. -/
  dotAll : Bool := false
  /-- Upper and lower case are the same. -/
  fold : Bool := false
  deriving Inhabited, Repr

structure Compiled where
  pattern : Pattern
  flags : Flags
  /-- The names of groups and their numbers, in the order of the groups. -/
  names : List (String × Nat)
  deriving Inhabited, Repr

namespace Pattern

/-- What is known while a notation is read. -/
structure Reading where
  rest : List Char
  groups : Nat := 0
  names : List (String × Nat) := []
  flags : Flags := {}
  /-- Nothing was read before. -/
  fresh : Bool := true
  deriving Inhabited

/-- A reader of a notation, which fails if the notation is not one. -/
abbrev ReadM := StateT Reading Option

def next? : ReadM (Option Char) := do
  match (← get).rest with
  | [] => return none
  | c :: cs =>
    modify fun r => { r with rest := cs }
    return some c

def skip? (cs : List Char) : ReadM Bool := do
  let r ← get
  if cs.isPrefixOf r.rest then
    set { r with rest := r.rest.drop cs.length }
    return true
  else return false

def takeUpTo (p : Char → Bool) (n : Nat) : ReadM (List Char) := do
  let r ← get
  let cs := (r.rest.take n).takeWhile p
  set { r with rest := r.rest.drop cs.length }
  return cs

def hexValue? (c : Char) : Option Nat :=
  if c.isDigit then some (c.toNat - 48)
  else if 'a' ≤ c && c ≤ 'f' then some (c.toNat - 87)
  else if 'A' ≤ c && c ≤ 'F' then some (c.toNat - 55)
  else none

def numberIn (base : Nat) (cs : List Char) : Nat :=
  cs.foldl (fun n c => base * n + (hexValue? c).getD 0) 0

/-- The character with exactly so many hexadecimal digits next. -/
def readHex (n : Nat) : ReadM Char := do
  let cs ← takeUpTo (fun c => (hexValue? c).isSome) n
  if cs.length != n then failure
  return Char.ofNat (numberIn 16 cs)

def isOctal (c : Char) : Bool := '0' ≤ c && c ≤ '7'

/-- The classes and control characters that a letter after a backslash stands for. -/
def lettered? : Char → Option ClassItem
  | 'd' => some (.digit false)
  | 'D' => some (.digit true)
  | 's' => some (.space false)
  | 'S' => some (.space true)
  | 'w' => some (.word false)
  | 'W' => some (.word true)
  | 'a' => some (.range '\x07' '\x07')
  | 'f' => some (.range '\x0c' '\x0c')
  | 'n' => some (.range '\n' '\n')
  | 'r' => some (.range '\r' '\r')
  | 't' => some (.range '\t' '\t')
  | 'v' => some (.range '\x0b' '\x0b')
  | _ => none

/-- What a backslash and the next character stand for in a class. -/
def readClassEscape : ReadM ClassItem := do
  match ← next? with
  | none => failure
  | some c =>
    if let some i := lettered? c then return i
    let one (c : Char) : ClassItem := .range c c
    if c == 'b' then return one '\x08'
    else if c == 'x' then return one (← readHex 2)
    else if c == 'u' then return one (← readHex 4)
    else if c == 'U' then return one (← readHex 8)
    else if isOctal c then
      let cs ← takeUpTo isOctal 2
      let n := numberIn 8 (c :: cs)
      if n > 0xff then failure
      return one (Char.ofNat n)
    else if c.isAlphanum then failure
    else return one c

/-- The members of a class up to the bracket that closes it; `first` says that none was read. -/
def readClass : Nat → Bool → List ClassItem → ReadM (List ClassItem)
  | 0, _, _ => failure
  | fuel + 1, first, items => do
    match ← next? with
    | none => failure
    | some ']' => if first then member fuel (.range ']' ']') items else return items.reverse
    | some '\\' => member fuel (← readClassEscape) items
    | some c => member fuel (.range c c) items
where
  /-- A member was read; it may start a range. -/
  member (fuel : Nat) (low : ClassItem) (items : List ClassItem) : ReadM (List ClassItem) := do
    if ← skip? ['-'] then
      match ← next? with
      | none => failure
      | some ']' => return (.range '-' '-' :: low :: items).reverse
      | some c => do
        let high ← if c == '\\' then readClassEscape else pure (.range c c)
        match low, high with
        | .range a _, .range b _ =>
          if b.toNat < a.toNat then failure else readClass fuel false (.range a b :: items)
        | _, _ => failure
    else readClass fuel false (low :: items)

/-- What a backslash and the next character stand for outside a class. -/
def readEscape : ReadM Pattern := do
  match ← next? with
  | none => failure
  | some c =>
    if c == 'A' then return place .textStart
    else if c == 'Z' then return place .textEnd
    else if c == 'b' then return place (.wordEdge false)
    else if c == 'B' then return place (.wordEdge true)
    else if let some i := lettered? c then return one false [i]
    else if c == 'x' then return char (← readHex 2)
    else if c == 'u' then return char (← readHex 4)
    else if c == 'U' then return char (← readHex 8)
    else if c == '0' then
      let cs ← takeUpTo isOctal 2
      return char (Char.ofNat (numberIn 8 cs))
    else if c.isDigit then
      let r ← get
      match r.rest with
      | d :: e :: rest =>
        if isOctal c && isOctal d && isOctal e then
          set { r with rest := rest }
          let n := numberIn 8 [c, d, e]
          if n > 0xff then failure
          return char (Char.ofNat n)
        else readAgain c
      | _ => readAgain c
    else if c.isAlpha then failure
    else return char c
where
  /-- A reference to a group whose number starts with a digit. -/
  readAgain (c : Char) : ReadM Pattern := do
    let cs ← takeUpTo Char.isDigit 1
    let n := numberIn 10 (c :: cs)
    if n > (← get).groups then failure
    return again n

def isGroupName (s : List Char) : Bool :=
  match s with
  | [] => false
  | c :: cs => (Text.isWordChar c && !Text.isDigit c) && cs.all Text.isWordChar

/-- The text up to a character, which is taken too. -/
def readUpTo (stop : Char) : ReadM (List Char) := do
  let r ← get
  let cs := r.rest.takeWhile (· != stop)
  match r.rest.drop cs.length with
  | [] => failure
  | _ :: rest =>
    set { r with rest := rest }
    return cs

def readBounds : ReadM (Option (Nat × Option Nat)) := do
  let start ← get
  let low ← takeUpTo Char.isDigit start.rest.length
  let comma ← skip? [',']
  let high ← if comma then takeUpTo Char.isDigit start.rest.length else pure low
  if !(← skip? ['\x7d']) || (low.isEmpty && !comma) then
    set start
    return none
  let least := numberIn 10 low
  let most := if high.isEmpty then none else some (numberIn 10 high)
  match most with
  | some m => if m < least then failure else return some (least, most)
  | none => return some (least, none)

def readRepeat? : ReadM (Option (Nat × Option Nat)) := do
  if ← skip? ['*'] then return some (0, none)
  else if ← skip? ['+'] then return some (1, none)
  else if ← skip? ['?'] then return some (0, some 1)
  else
    let start ← get
    if ← skip? ['\x7b'] then
      match ← readBounds with
      | some b => return some b
      | none =>
        set start
        return none
    else return none

/-- A pattern with the repetition that follows it; a second repetition is refused. -/
def readRepeated (p : Pattern) : ReadM Pattern := do
  match ← readRepeat? with
  | none => return p
  | some (least, most) =>
    if p.refusesRepeat then failure
    let e ←
      if ← skip? ['?'] then pure Eagerness.lazy
      else if ← skip? ['+'] then pure Eagerness.possessive
      else pure Eagerness.greedy
    match ← readRepeat? with
    | some _ => failure
    | none => return rep p least most e

def append (a b : Pattern) : Pattern :=
  match a with
  | nothing => b
  | a => seq a b

mutual

/-- Read alternatives up to a closing parenthesis or the end. -/
def readAlternatives : Nat → ReadM Pattern
  | 0 => failure
  | fuel + 1 => do
    let p ← readSequence fuel nothing
    if ← skip? ['|'] then return alt p (← readAlternatives fuel) else return p

/-- Read patterns one after another; `done` are those in front. -/
def readSequence : Nat → Pattern → ReadM Pattern
  | 0, _ => failure
  | fuel + 1, done => do
    match (← get).rest with
    | [] | '|' :: _ | ')' :: _ => return done
    | c :: rest => do
      modify fun r => { r with rest := rest }
      let p ← match c with
        | '\\' => readEscape
        | '.' => pure any
        | '^' => pure (place .lineStart)
        | '$' => pure (place .lineEnd)
        | '*' | '+' | '?' => failure
        | '[' => do
          let inverted ← skip? ['^']
          pure (one inverted (← readClass (rest.length + 2) true []))
        | '(' => readGroup fuel
        | '\x7b' => do
          match ← readBounds with
          | some _ => failure
          | none => pure (char c)
        | c => pure (char c)
      let p ← readRepeated p
      if c != '(' || p.size > 1 then modify fun r => { r with fresh := false }
      readSequence fuel (append done p)

def readGroup : Nat → ReadM Pattern
  | 0 => failure
  | fuel + 1 => do
    let close (p : Pattern) : ReadM Pattern := do
      if ← skip? [')'] then return p else failure
    if !(← skip? ['?']) then
      let n := (← get).groups + 1
      modify fun r => { r with groups := n }
      close (group n (← readAlternatives fuel))
    else if ← skip? [':'] then close (plain (← readAlternatives fuel))
    else if ← skip? ['>'] then close (atomic (← readAlternatives fuel))
    else if ← skip? ['='] then close (look false false (← readAlternatives fuel))
    else if ← skip? ['!'] then close (look false true (← readAlternatives fuel))
    else if ← skip? ['#'] then
      let _ ← readUpTo ')'
      return plain nothing
    else if ← skip? ['<'] then
      let inverted ← skip? ['!']
      if !inverted && !(← skip? ['=']) then failure
      let p ← readAlternatives fuel
      if p.width?.isNone then failure
      close (look true inverted p)
    else if ← skip? ['P', '<'] then
      let name ← readUpTo '>'
      let r ← get
      let name := String.ofList name
      if !isGroupName name.toList || r.names.any (fun e => e.1 == name) then failure
      let n := r.groups + 1
      set { r with groups := n, names := r.names ++ [(name, n)] }
      close (group n (← readAlternatives fuel))
    else if ← skip? ['P', '='] then
      let name := String.ofList (← readUpTo ')')
      match (← get).names.find? fun e => e.1 == name with
      | some (_, n) => return again n
      | none => failure
    else
      let letters ← takeUpTo (fun c => c == 's' || c == 'm' || c == 'u' || c == 'i') 8
      if letters.isEmpty || !(← get).fresh then failure
      modify fun r =>
        { r with
          flags := ⟨r.flags.lines || letters.contains 'm', r.flags.dotAll || letters.contains 's',
            r.flags.fold || letters.contains 'i'⟩ }
      close nothing

end

def read (flags : Flags) (text : String) : Option Compiled :=
  let cs := text.toList
  match (readAlternatives (3 * cs.length + 3)).run { rest := cs, flags := flags } with
  | some (p, r) => if r.rest.isEmpty then some ⟨p, r.flags, r.names⟩ else none
  | none => none

/-- The characters that are quoted by a backslash so that they stand for themselves. -/
def special : List Char := "()[]\x7b\x7d?*+-|^$\\.&~# \t\n\r\x0b\x0c".toList

/-- The notation of a text that stands for itself. -/
def quote (text : String) : String :=
  String.ofList (text.toList.flatMap fun c => if special.contains c then ['\\', c] else [c])

/-- The notation of characters inside a class. -/
def quoteClass (text : String) : String :=
  String.ofList (text.toList.flatMap fun c =>
    if c == '\\' || c == '^' || c == '-' || c == ']' then ['\\', c]
    else if c == '\n' then ['\\', 'n']
    else if c == '\t' then ['\\', 't']
    else [c])

end Pattern

end Peephole.Grammar
