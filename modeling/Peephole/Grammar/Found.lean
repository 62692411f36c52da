import Peephole.Grammar.Element

/-!
# Results

Operations on the results of matches.  A result is a list of tokens some of which have names.  A name may stand for
several values; the last counts, unless the name is cumulative.

A value remembers its place among the tokens.  Places are adjusted when tokens are removed or inserted, also for
the copies of a result, which share the values of a name until the name gets another one.
-/

namespace Peephole.Grammar

/-- What a step answers before it becomes a result. -/
inductive Raw where
  | result (r : ResultId)
  | list (ts : List Token)
  | one (t : Token)
  deriving Inhabited, Repr

def Raw.ofToken : Token → Raw
  | .result r => result r
  | .list ts => list ts
  | t => one t

def foundOf (r : ResultId) : GrammarM Found := do
  match (← get).results[r]? with
  | some f => return f
  | none => broken .noSuchPart

def newFound (f : Found) : GrammarM ResultId := do
  let g ← get
  set { g with results := g.results.push f }
  return g.results.size

def changeFound (r : ResultId) (f : Found → Found) : GrammarM Unit :=
  modify fun g => { g with results := g.results.modify r f }

namespace Found

def values? (f : Found) (key : Token) : Option Nat := (f.named.find? fun e => e.1.same key).map (·.2)

def isCumulative (f : Found) : Token → Bool
  | .text s => f.cumulative.contains s
  | _ => false

end Found

def occurrencesOf (n : Nat) : GrammarM (List Occurrence) := return (← get).occurrences[n]?.getD []

def valuesOf (f : Found) (key : Token) : GrammarM (Option (List Occurrence)) := do
  match f.values? key with
  | some n => return some (← occurrencesOf n)
  | none => return none

/-- The result that a token is, or a new result of it: a list becomes the tokens of one. -/
def asResult : Token → GrammarM ResultId
  | .result r => return r
  | .list ts => newFound { tokens := ts }
  | t => newFound { tokens := [t] }

/-- The value under a name: the last, or a result of all of them. -/
def lookUp? (r : ResultId) (key : Token) : GrammarM (Option Token) := do
  let f ← foundOf r
  match ← valuesOf f key with
  | none => return none
  | some os =>
    if f.isCumulative key then return some (.result (← newFound { tokens := os.map (·.value) }))
    else return os.getLast?.map (·.value)

def lookUp (r : ResultId) (key : Token) : GrammarM Token := do
  if !key.canName then broken .badOperands
  match ← lookUp? r key with
  | some t => return t
  | none => broken .noSuchEntry

def addValue (r : ResultId) (key : Token) (o : Occurrence) : GrammarM Unit := do
  if !key.canName then broken .badOperands
  let f ← foundOf r
  let os := (← valuesOf f key).getD []
  let g ← get
  let n := g.occurrences.size
  set { g with occurrences := g.occurrences.push (os ++ [o]) }
  let named :=
    if (f.values? key).isSome then f.named.map fun e => if e.1.same key then (e.1, n) else e
    else f.named ++ [(key, n)]
  changeFound r fun f => { f with named := named }
  match o.value with
  | .result s => changeFound s fun f => { f with parent := some r }
  | _ => pure ()

def setToken (r : ResultId) (i : Int) (t : Token) : GrammarM Unit := do
  let f ← foundOf r
  match index? f.tokens i with
  | none => broken .outOfRange
  | some j =>
    changeFound r fun f => { f with tokens := f.tokens.set j t }
    match t with
    | .result s => changeFound s fun f => { f with parent := some r }
    | _ => pure ()

def copyFound (r : ResultId) : GrammarM ResultId := do newFound (← foundOf r)

def addFound (r other : ResultId) : GrammarM Unit := do
  let f ← foundOf r
  let o ← foundOf other
  let offset : Int := f.tokens.length
  let shift (p : Int) : Int := if p < 0 && offset != 0 then offset else p + offset
  for (key, n) in o.named do
    for v in ← occurrencesOf n do
      addValue r key ⟨v.value, shift v.place⟩
  changeFound r fun f =>
    { f with
      tokens := f.tokens ++ o.tokens
      cumulative := f.cumulative ++ o.cumulative.filter fun c => !f.cumulative.contains c }

def adjustPlaces (r : ResultId) (f : Int → Int) : GrammarM Unit := do
  for (_, n) in (← foundOf r).named do
    modify fun g =>
      { g with occurrences := g.occurrences.modify n fun os => os.map fun o => { o with place := f o.place } }

def removeBetween (r : ResultId) (first last : Nat) : GrammarM Unit := do
  changeFound r fun f => { f with tokens := f.tokens.take first ++ f.tokens.drop last }
  for j in (List.range' first (last - first)).reverse do
    adjustPlaces r fun p => if p > j then p - 1 else p

def removeSlice (r : ResultId) (first last : Option Int) : GrammarM Unit := do
  let (a, b) := sliceBounds (← foundOf r).tokens.length first last
  removeBetween r a b

def removeToken (r : ResultId) (i : Int) : GrammarM Unit := do
  match index? (← foundOf r).tokens i with
  | none => broken .outOfRange
  | some j => removeBetween r j (j + 1)

def removeName (r : ResultId) (key : Token) : GrammarM Unit := do
  if !key.canName then broken .badOperands
  if ((← foundOf r).values? key).isNone then broken .noSuchEntry
  changeFound r fun f => { f with named := f.named.filter fun e => !e.1.same key }

def insertToken (r : ResultId) (i : Int) (t : Token) : GrammarM Unit := do
  let j := sliceBound (← foundOf r).tokens.length i
  changeFound r fun f => { f with tokens := f.tokens.take j ++ t :: f.tokens.drop j }
  adjustPlaces r fun p => if p > i then p + 1 else p

/-- Name what a step answered.  `asList` says whether a list is kept under the name, rather than its first
token. -/
def nameRaw (r : ResultId) (raw : Raw) (name : String) (asList : Bool) : GrammarM Unit := do
  let key := Token.text name
  let keepList (value : ResultId) : GrammarM Unit := do
    addValue r key ⟨.result value, 0⟩
    if !(← foundOf r).isCumulative key then changeFound value fun f => { f with name := some name }
  match raw with
  | .list [] | .one .nothing | .one (.text "") => pure ()
  | .result s =>
    if asList then keepList (← copyFound s)
    else
      match (← foundOf s).tokens with
      | t :: _ => addValue r key ⟨t, 0⟩
      | [] => addValue r key ⟨.result s, 0⟩
  | .list (t :: _) =>
    if asList then keepList (← asResult t) else addValue r key ⟨t, 0⟩
  | .one (.text s) =>
    if asList then keepList (← asResult (.text s)) else addValue r key ⟨.text s, 0⟩
  | .one t => if asList then broken .badOperands else addValue r key ⟨t, 0⟩

def wrap (raw : Raw) (name : Option String) (asList lastCounts : Bool) : GrammarM ResultId := do
  let r ← match raw with
    | .result r => pure r
    | .list ts => newFound { tokens := ts }
    | .one t => newFound { tokens := [t] }
  match name with
  | none | some "" => pure ()
  | some name =>
    changeFound r fun f =>
      { f with
        cumulative := if lastCounts || f.cumulative.contains name then f.cumulative else f.cumulative ++ [name]
        name := some name }
    nameRaw r raw name asList
  return r

end Peephole.Grammar
