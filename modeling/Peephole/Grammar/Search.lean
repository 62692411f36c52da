import Peephole.Grammar.Parse

/-!
# Using a grammar

What a grammar is used for: `parseText` matches a text from its start, `scanText` finds all matches in a text,
`searchText` keeps only what they found, and `transformText` puts the tokens in place of the matches.  `validate`
looks for elements that recur without progress, and `sameOperands` compares grammars.
-/

namespace Peephole.Grammar

open Text (Chars)

/-- How deep attempts may nest; an attempt that is looked up first counts for more. -/
def Engine.attemptDepth (g : Engine) : Nat := if g.memoizes then 330 else 495

def attempt (t : Chars) : GrammarM Attempt := do return parse t (← get).attemptDepth

def prepare (e : ElementId) (text : String) : GrammarM Chars := do
  modify fun g => { g with memos := [] }
  if !(← elementOf e).streamlined then streamline e
  for i in (← elementOf e).ignored do streamline i
  let t := Text.chars text
  return if (← elementOf e).keepsTabs then t else Text.expandTabs t

/-- Match a text from its start; `whole` says whether nothing may be left. -/
def parseText (e : ElementId) (text : String) (whole : Bool := false) : GrammarM ResultId := do
  let t ← prepare e text
  let go ← attempt t
  let (p, r) ← go e 0 true true
  if whole then
    let p ← preParse go t (← elementOf e) p
    let rest ← joinElements .followedBy (← emptyElement) (← textEndElement)
    let _ ← go rest p true true
  return r

/-- A match in a text: what was found, and where it starts and ends. -/
structure Hit where
  found : ResultId
  start : Nat
  stop : Nat

def scanFrom (go : Attempt) (t : Chars) (e : ElementId) (overlap : Bool) :
    Nat → Nat → Option Nat → GrammarM (List Hit)
  | 0, _, _ => return []
  | n + 1, p, left => do
    if p > t.size || left == some 0 then return []
    let start ← preParse go t (← elementOf e) p
    match ← outcome (go e start true false) with
    | .error f => if f.isPlain then scanFrom go t e overlap n (start + 1) left else throw f
    | .ok (stop, r) =>
      if stop > p then
        let next ←
          if overlap then do
            let q ← preParse go t (← elementOf e) p
            pure (if q > p then stop else p + 1)
          else pure stop
        return ⟨r, start, stop⟩ :: (← scanFrom go t e overlap n next (left.map (· - 1)))
      else scanFrom go t e overlap n (start + 1) left

def scanText (e : ElementId) (text : String) (most : Option Nat := none) (overlap : Bool := false) :
    GrammarM (List Hit) := do
  let t ← prepare e text
  scanFrom (← attempt t) t e overlap (t.size + 2) 0 most

def searchText (e : ElementId) (text : String) (most : Option Nat := none) : GrammarM ResultId := do
  let hits ← scanText e text most
  newFound { tokens := hits.map fun h => .result h.found }

def transformText (e : ElementId) (text : String) : GrammarM String := do
  changeElement e fun el => { el with keepsTabs := true }
  let hits ← scanText e text
  let t := Text.chars text
  let (pieces, last) ← hits.foldlM (fun (pieces, last) h => do
      return (pieces ++ Token.text (Text.slice t last h.start) :: (← listedTokens h.found), h.stop)) ([], 0)
  let pieces ← (pieces ++ [Token.text (Text.slice t last t.size)]).filterM truthOf
  return String.join (← (flattenTokens pieces).mapM tokenText)

/-! ### Recursion without progress -/

/-- Fail if an element can recur before anything is matched. -/
def checkRecursion : Nat → List ElementId → ElementId → GrammarM Unit
  | 0, _, _ => throw .tooDeep
  | n + 1, above, e => do
    let el ← elementOf e
    let below := above ++ [e]
    match el.form with
    | .sequence parts =>
      let rec checkParts : List Operand → GrammarM Unit
        | [] => pure ()
        | o :: os => do
          let i ← o.id
          checkRecursion n below i
          if (← elementOf i).mayBeEmpty then checkParts os
      checkParts parts
    | form =>
      match form.parts? with
      | some parts => for o in parts do checkRecursion n below (← o.id)
      | none =>
        if form.isEnclosing then
          if ← alikeAny e above then
            let shown ← below.mapM showOne
            throw (.recursive ("RecursiveGrammarException: [" ++ ", ".intercalate shown ++ "]"))
          match form with
          | .forward (.text _) => broken .noSuchPart
          | .forward .found => broken .badOperands
          | _ => pure ()
          match form.inner? with
          | some i => checkRecursion n below i
          | none => pure ()

/-- Fail if an element inside can recur before anything is matched. -/
def validateWithin : Nat → List ElementId → ElementId → GrammarM Unit
  | 0, _, _ => throw .tooDeep
  | n + 1, above, e => do
    let form := (← elementOf e).form
    let below := above ++ [e]
    match form with
    | .forward inner =>
      if !(← alikeAny e above) then
        match inner with
        | .element i => validateWithin n below i
        | .nothing => pure ()
        | _ => broken .noSuchPart
    | _ =>
      match form.parts?, form.inner? with
      | some parts, _ => for o in parts do validateWithin n below (← o.id)
      | none, some i => validateWithin n below i
      | none, none => pure ()
    checkRecursion nesting [] e

def validate (e : ElementId) : GrammarM Unit := validateWithin nesting [] e

/-! ### Comparing grammars -/

def matchesWhole (e : ElementId) (text : String) : GrammarM Bool := do
  match ← outcome (parseText e text true) with
  | .ok _ => return true
  | .error f => if f.isMismatch then return false else throw f

/-- Whether two operands are the same: an element and a text are if the element matches the whole text. -/
def sameOperands (a b : Operand) : GrammarM Bool := do
  match a, b with
  | .element a, .element b => alike a b
  | .element e, .text s | .text s, .element e => matchesWhole e s
  | .text s, .text u => return s == u
  | .nothing, .nothing => return true
  | _, _ => return false

/-! ### Where a failure is -/

def Mismatch.marked (m : Mismatch) : String :=
  let line := (Text.lineAt m.text m.place).toList
  let n := Text.column m.text m.place - 1
  strip (String.ofList (line.take n ++ ['>', '!', '<'] ++ line.drop n))

def Mismatch.line (m : Mismatch) : String := Text.lineAt m.text m.place

/-- The column of a place that may be counted from the end. -/
def columnAt (t : Chars) (p : Int) : Except Fault Int :=
  let size : Int := t.size
  let q := if p < 0 then p + size else p
  if p < size && q < 0 then .error .outOfRange
  else if p < size && t[q.toNat]? == some '\n' then .ok 1
  else .ok (p + 1 - Text.lineStart t q.toNat)

def lineNumberAt (t : Chars) (p : Int) : Nat := Text.lineNumber t (sliceBound t.size p)

def lineWith (t : Chars) (p : Int) : String := Text.lineAt t (sliceBound t.size p)

end Peephole.Grammar
