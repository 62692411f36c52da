import Peephole.Grammar.Found

/-!
# Results as text

A result is shown as the list of its tokens, with or without its names, as a list with one line for each name, as
nested tags, and as a list that is broken into lines where it is too wide.

All of these end early if a result holds itself.
-/

namespace Peephole.Grammar

/-- How deep results can nest: a result that nests deeper holds itself. -/
def Engine.depth (g : Engine) : Nat := g.results.size + 1

def Engine.found (g : Engine) (r : ResultId) : Found := g.results[r]?.getD {}

def Engine.values (g : Engine) (n : Nat) : List Occurrence := g.occurrences[n]?.getD []

/-- The tokens that count under a name: all of them if it is cumulative, else the last. -/
def Engine.counting (g : Engine) (f : Found) (key : Token) (n : Nat) : List Token ⊕ Token :=
  if f.isCumulative key then .inl ((g.values n).map (·.value))
  else .inr (((g.values n).getLast?.map (·.value)).getD .nothing)

/-! ### Tokens with and without names -/

/-- The written form of a token, with names for results.  `tokens` and `names` are the results whose tokens and names
are being written, which are not written again. -/
def reprToken (g : Engine) : Nat → List ResultId → List ResultId → Token → Option String
  | 0, _, _, _ => none
  | fuel + 1, tokens, names, t =>
    match t with
    | .text s => some (Text.quoted s)
    | .number n => some (Token.numberText n)
    | .truth b => some (Token.truthText b)
    | .nothing => some Token.nothingText
    | .list ts => do return Text.listText (← ts.mapM (reprToken g fuel tokens names))
    | .result r => do
      let f := g.found r
      let first ←
        if tokens.contains r then some "[...]"
        else (f.tokens.mapM (reprToken g fuel (r :: tokens) names)).map Text.listText
      let second ←
        if names.contains r then some "\x7b...\x7d"
        else do
          let entries ← f.named.mapM fun (key, n) => do
            let values ← (g.values n).mapM fun (o : Occurrence) => do
              return Text.tupleText [← reprToken g fuel tokens (r :: names) o.value, toString o.place]
            return (← reprToken g fuel tokens (r :: names) key) ++ ": " ++ Text.listText values
          pure ("\x7b" ++ ", ".intercalate entries ++ "\x7d")
      return "(" ++ first ++ ", " ++ second ++ ")"

def listDepth : Token → Nat
  | .list ts => depths ts + 1
  | _ => 1
where
  depths : List Token → Nat
    | [] => 0
    | t :: ts => max (listDepth t) (depths ts)

/-- Fuel for writing the tokens: how deep results nest, times how deep lists nest in each. -/
def Engine.writing (g : Engine) (ts : List Token) : Nat :=
  let deepest := g.results.foldl (fun d f => max d (listDepth (.list f.tokens))) (listDepth (.list ts))
  (g.depth + 1) * (deepest + 2)

def writtenToken (g : Engine) (t : Token) : Option String := reprToken g (2 * g.writing [t]) [] [] t

/-- The tokens with lists in place of results. -/
def plainTokens (g : Engine) : Nat → List Token → Option (List Token)
  | 0, _ => none
  | fuel + 1, ts => ts.mapM fun t =>
    match t with
    | .result r => do return .list (← plainTokens g fuel (g.found r).tokens)
    | t => some t

def listed (g : Engine) (r : ResultId) : Option (List Token) := plainTokens g g.depth (g.found r).tokens

def textFound (g : Engine) : Nat → ResultId → Option String
  | 0, _ => none
  | fuel + 1, r => do
    let items ← (g.found r).tokens.mapM fun t =>
      match t with
      | .result s => textFound g fuel s
      | t => writtenToken g t
    return Text.listText items

/-- The text of a token: a text as it is, and anything else as it is written. -/
def textToken (g : Engine) : Token → Option String
  | .text s => some s
  | .result r => textFound g g.depth r
  | t => writtenToken g t

/-- The texts of the tokens of a result and of the results inside, with a separator between the outer ones. -/
def textPieces (g : Engine) : Nat → String → ResultId → Option (List String)
  | 0, _, _ => none
  | fuel + 1, separator, r => do
    let pieces ← (g.found r).tokens.mapM fun t =>
      match t with
      | .result s => textPieces g fuel "" s
      | t => do return [← textToken g t]
    if separator.isEmpty then return pieces.flatten
    else return join separator pieces
where
  /-- A separator in front of each piece but those in front of which there is nothing. -/
  join (separator : String) (pieces : List (List String)) : List String :=
    pieces.foldl (fun out p => if out.isEmpty then p else out ++ separator :: p) []

/-! ### One line for each name -/

/-- Names in order; none if names cannot be ordered. -/
def sortedNames (named : List (Token × Nat)) : Option (List (Token × Nat)) :=
  if named.length ≤ 1 then some named
  else if named.all fun e => match e.1 with | .text _ => true | _ => false then
    some (named.mergeSort fun a b =>
      match a.1, b.1 with
      | .text x, .text y => !(y < x)
      | _, _ => true)
  else none

abbrev ShowM := Except Failure

/-- Fail if there is no text, since a result holds itself. -/
def deepEnough {α : Type} : Option α → ShowM α
  | some a => .ok a
  | none => .error .tooDeep

/-- The tokens of a result, and under them a line for each name. -/
def dump (g : Engine) (indent : String) : Nat → Nat → ResultId → ShowM String
  | 0, _, _ => .error .tooDeep
  | fuel + 1, level, r => do
    let f := g.found r
    let tokens ← deepEnough (listed g r)
    let names ← match sortedNames f.named with
      | some ns => pure ns
      | none => .error (.fault .badOperands)
    let lines ← names.mapM fun (key, n) => do
      let value ← match g.counting f key n with
        | .inl ts => do
          let items ← ts.mapM fun (t : Token) => deepEnough (match t with
            | .result s => textFound g g.depth s
            | t => writtenToken g t)
          pure (Text.listText items)
        | .inr (.result s) =>
          if (g.found s).named.isEmpty then deepEnough (textFound g g.depth s) else dump g indent fuel (level + 1) s
        | .inr t => deepEnough (textToken g t)
      return "\n" ++ indent ++ String.join (List.replicate level "  ") ++ "- " ++
        (← deepEnough (textToken g key)) ++ ": " ++ value
    return indent ++ (← deepEnough (writtenToken g (.list tokens))) ++ String.join lines

def dumpText (r : ResultId) : GrammarM String := do
  let g ← get
  match dump g "" g.depth 0 r with
  | .ok s => return s
  | .error e => throw e

/-! ### Tags -/

/-- A text with the characters quoted that have a meaning between tags. -/
def escapeTags (s : String) : String :=
  String.join (s.toList.map fun c =>
    match c with
    | '&' => "&amp;"
    | '>' => "&gt;"
    | '<' => "&lt;"
    | '"' => "&quot;"
    | '\'' => "&apos;"
    | c => c.toString)

structure TagStyle where
  /-- Tokens without a name are left out. -/
  namedOnly : Bool := false
  indent : String := ""
  /-- Every tag starts a line. -/
  formatted : Bool := true

/-- The names of the tokens at their places; the last name for a place counts. -/
def placeNames (g : Engine) (f : Found) : List (Int × Token) :=
  (f.named.flatMap fun (key, n) => (g.values n).map fun o => (o.place, key)).reverse

def tags (g : Engine) : Nat → Option String → TagStyle → ResultId → Option String
  | 0, _, _, _ => none
  | fuel + 1, tag, style, r => do
    let f := g.found r
    let nl := if style.formatted then "\n" else ""
    let indent := if style.formatted then style.indent else ""
    let deeper := if style.formatted then style.indent ++ "  " else ""
    let own := match tag with
      | some t => t
      | none => f.name.getD ""
    if own.isEmpty && style.namedOnly then return ""
    let own := if own.isEmpty then "ITEM" else own
    let names := placeNames g f
    let parts ← f.tokens.zipIdx.mapM fun (t, i) => do
      let name := (names.find? fun e => e.1 == (i : Int)).map (·.2)
      let name ← match name with
        | some key => do pure (some (← textToken g key))
        | none => pure none
      match t with
      | .result s => tags g fuel name ⟨style.namedOnly && tag.isNone, deeper, style.formatted⟩ s
      | t =>
        let name := name.getD ""
        if name.isEmpty && style.namedOnly then return ""
        let name := if name.isEmpty then "ITEM" else name
        return nl ++ deeper ++ "<" ++ name ++ ">" ++ escapeTags (← textToken g t) ++ "</" ++ name ++ ">"
    return nl ++ indent ++ "<" ++ own ++ ">" ++ String.join parts ++ nl ++ indent ++ "</" ++ own ++ ">"

/-! ### Names of results -/

def reachable (g : Engine) : Nat → List ResultId → List ResultId → List ResultId
  | 0, seen, _ => seen
  | _, seen, [] => seen
  | fuel + 1, seen, r :: rs =>
    if seen.contains r then reachable g fuel seen rs
    else
      let f := g.found r
      let values := f.named.flatMap fun (key, n) => key :: (g.values n).map (·.value)
      let next := (f.tokens ++ values).filterMap fun t => match t with
        | .result s => some s
        | _ => none
      reachable g fuel (r :: seen) (next ++ rs)

/-- The results that are still in use when only `root` is kept. -/
def kept (g : Engine) (root : ResultId) : List ResultId :=
  let values := g.occurrences.foldl (fun n os => n + os.length) 0
  let tokens := g.results.foldl (fun n f => n + f.tokens.length + f.named.length * (values + 1)) 0
  reachable g (g.results.size + tokens + values + 2) [] [root]

/-- The name of a result: its own, or that under which the result around it holds it, or that of its only token. -/
def nameOf (g : Engine) (root r : ResultId) : Option Token :=
  let f := g.found r
  match f.name, f.parent with
  | some name, _ => if name.isEmpty then other f else some (.text name)
  | none, some p =>
    let around := g.found p
    if (kept g root).contains p && !around.tokens.isEmpty then
      (around.named.find? fun e => (g.values e.2).any fun o => o.value.same (.result r)).map (·.1)
    else none
  | none, none => other f
where
  other (f : Found) : Option Token :=
    match f.tokens, f.named with
    | [_], [(key, n)] =>
      match g.values n with
      | o :: _ => if o.place == 0 || o.place == -1 then some key else none
      | [] => none
    | _, _ => none

/-! ### Lists broken into lines -/

/-- The lines of a text with their ends. -/
def linesOf : List Char → List Char → List (List Char)
  | [], [] => []
  | line, [] => [line.reverse]
  | line, '\r' :: '\n' :: cs => ('\n' :: '\r' :: line).reverse :: linesOf [] cs
  | line, c :: cs =>
    let n := c.toNat
    if (0x0a ≤ n && n ≤ 0x0d) || (0x1c ≤ n && n ≤ 0x1e) || n == 0x85 || n == 0x2028 || n == 0x2029 then
      (c :: line).reverse :: linesOf [] cs
    else linesOf (c :: line) cs

/-- A text cut after each run of blanks. -/
def wordsWithBlanks (cs : List Char) : Nat → List (List Char)
  | 0 => []
  | fuel + 1 =>
    if cs.isEmpty then []
    else
      let word := cs.takeWhile fun c => !Text.isSpace c
      let rest := cs.drop word.length
      let blanks := rest.takeWhile Text.isSpace
      (word ++ blanks) :: wordsWithBlanks (rest.drop blanks.length) fuel

def writtenWidth (cs : List Char) : Nat := (Text.quoted (String.ofList cs)).length

/-- Pack words into pieces that are not too wide; `last` is the width for the last word. -/
def packWords (width last : Int) : List (List Char) → List Char → List String
  | [], current => if current.isEmpty then [] else [Text.quoted (String.ofList current)]
  | w :: ws, current =>
    let candidate := current ++ w
    if (writtenWidth candidate : Int) > (if ws.isEmpty then last else width) then
      let rest := packWords width last ws w
      if current.isEmpty then rest else Text.quoted (String.ofList current) :: rest
    else packWords width last ws candidate

/-- A text written in pieces that are not too wide. -/
def textChunks (width allowance : Int) : List (List Char) → List String
  | [] => []
  | line :: lines =>
    let bound := if lines.isEmpty then width - allowance else width
    let chunks :=
      if (writtenWidth line : Int) ≤ bound then [Text.quoted (String.ofList line)]
      else packWords width bound (wordsWithBlanks line (line.length + 1)) []
    chunks ++ textChunks width allowance lines

def pageWidth : Int := 80

mutual

/-- A token written at an indentation, with room for some characters after it. -/
def prettyToken : Nat → Int → Token → String
  | indent, allowance, t =>
    let flat := flatToken t
    if (flat.length : Int) ≤ pageWidth - indent - allowance then flat
    else match t with
      | .list ts => "[" ++ prettyItems (indent + 1) (allowance + 1) ts true ++ "]"
      | .text s =>
        let chunks := textChunks (pageWidth - indent) allowance (linesOf [] s.toList)
        match chunks with
        | [c] => c
        | cs => ("\n" ++ String.ofList (List.replicate indent ' ')).intercalate cs
      | _ => flat

def prettyItems : Nat → Int → List Token → Bool → String
  | _, _, [], _ => ""
  | indent, allowance, t :: ts, first =>
    (if first then "" else ",\n" ++ String.ofList (List.replicate indent ' ')) ++
      prettyToken indent (if ts.isEmpty then allowance else 1) t ++ prettyItems indent allowance ts false

def flatToken : Token → String
  | .text s => Text.quoted s
  | .number n => Token.numberText n
  | .truth b => Token.truthText b
  | .nothing => Token.nothingText
  | .list ts => "[" ++ flatItems ts true ++ "]"
  | .result _ => "[]"

def flatItems : List Token → Bool → String
  | [], _ => ""
  | t :: ts, first => (if first then "" else ", ") ++ flatToken t ++ flatItems ts false

end

def prettyText (g : Engine) (r : ResultId) : Option String := do
  return prettyToken 0 0 (.list (← listed g r)) ++ "\n"

end Peephole.Grammar
