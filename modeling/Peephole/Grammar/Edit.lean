import Peephole.Grammar.Parse

/-!
# Operations on results

What can be asked of a result and done with it after a match: look at tokens and names, and add, replace and remove
them.  An integer asks for a token by its place, anything else is a name.
-/

namespace Peephole.Grammar

inductive Edit where
  /-- The value under a name, or another value if there is none. -/
  | get (key default : Token)
  | value (name : String)
  /-- The token at a place, or the value under a name. -/
  | item (key : Token)
  | slice (first last : Option Int)
  | has (key : Token)
  | length
  | nonempty
  | reversed
  | hasNames
  | names
  /-- Take a token or a value; only a name that is not known has an answer, if another value is given. -/
  | pop (args : List Token)
  | insert (place : Token) (t : Token)
  | append (t : Token)
  | extend (t : Token)
  /-- Add a copy of the result to it. -/
  | extendSelf
  | set (key t : Token)
  | remove (key : Token)
  | removeSlice (first last : Option Int)
  | clear
  /-- The listing of the result added to itself. -/
  | doubled
  /-- The listing of the sum of the result and itself. -/
  | summed
  /-- The listing of a result that is made of a token and a name; `cumulative` says whether the name is so. -/
  | labelled (t : Token) (name : Option String) (asList cumulative : Bool)
  deriving Inhabited, Repr

def plainToken : Token → GrammarM Token
  | .result r => do return .list (← listedTokens r)
  | .list ts => do
    let g ← get
    match plainTokens g g.depth ts with
    | some ts => return .list ts
    | none => throw .tooDeep
  | t => return t

def writtenText (t : Token) : GrammarM String := do
  match writtenToken (← get) t with
  | some s => return s
  | none => throw .tooDeep

def tagText (tag : Option String) (style : TagStyle) (r : ResultId) : GrammarM String := do
  let g ← get
  match tags g g.depth tag style r with
  | some s => return s
  | none => throw .tooDeep

def namedValues (r : ResultId) : GrammarM (List (Token × Token)) := do
  (← foundOf r).named.mapM fun (key, _) => do return (key, ← lookUp r key)

/-- The name of a result, and those of the results among its tokens. -/
def namesInside (r : ResultId) : GrammarM (List (Option Token)) := do
  let g ← get
  let inside := (← foundOf r).tokens.filterMap fun t => match t with
    | .result s => some s
    | _ => none
  return (r :: inside).map (nameOf g r)

def prettyFound (r : ResultId) : GrammarM String := do
  match prettyText (← get) r with
  | some s => return s
  | none => throw .tooDeep

def hasName (r : ResultId) (key : Token) : GrammarM Bool := do
  if !key.canName then broken .badOperands
  return ((← foundOf r).values? key).isSome

def runThrough : Token → GrammarM (List Token)
  | .text s => return s.toList.map fun c => .text c.toString
  | .list ts => return ts
  | .result r => return (← foundOf r).tokens
  | _ => broken .badOperands

def edit (r : ResultId) : Edit → GrammarM Token
  | .get key default => do if ← hasName r key then lookUp r key else return default
  | .value name => do valueNamed r name
  | .item key => do
    match numberOf? key with
    | some i =>
      let ts := (← foundOf r).tokens
      match (index? ts i).bind fun j => ts[j]? with
      | some t => return t
      | none => broken .outOfRange
    | none => lookUp r key
  | .slice first last => do return .list (sliceOf (← foundOf r).tokens first last)
  | .has key => do return .truth (← hasName r key)
  | .length => do return .number (← foundOf r).tokens.length
  | .nonempty => do return .truth !(← foundOf r).tokens.isEmpty
  | .reversed => do return .list (← foundOf r).tokens.reverse
  | .hasNames => do return .truth !(← foundOf r).named.isEmpty
  | .names => do return .list ((← foundOf r).named.map (·.1))
  | .pop (key :: default :: _) => do
    if (numberOf? key).isSome then throw .unknownName
    if ← hasName r key then throw .unknownName else return default
  | .pop _ => throw .unknownName
  | .insert place t => do
    match numberOf? place with
    | some i => insertToken r i t
    | none => broken .badOperands
    return .nothing
  | .append t => do
    changeFound r fun f => { f with tokens := f.tokens ++ [t] }
    return .nothing
  | .extend t => do
    match t with
    | .result s => addFound r s
    | t => do
      let ts ← runThrough t
      changeFound r fun f => { f with tokens := f.tokens ++ ts }
    return .nothing
  | .extendSelf => do
    addFound r (← copyFound r)
    return .nothing
  | .set key t => do
    match numberOf? key with
    | some i => setToken r i t
    | none => addValue r key ⟨t, 0⟩
    return .nothing
  | .remove key => do
    match numberOf? key with
    | some i => removeToken r i
    | none => removeName r key
    return .nothing
  | .removeSlice first last => do
    Grammar.removeSlice r first last
    return .nothing
  | .clear => do
    changeFound r fun f => { f with tokens := [], named := [] }
    return .nothing
  | .doubled => do
    let c ← copyFound r
    addFound c r
    return .text (← dumpText c)
  | .summed => do
    let c ← copyFound (← copyFound r)
    addFound c r
    return .text (← dumpText c)
  | .labelled t name asList cumulative => do
    return .text (← dumpText (← wrap (.ofToken t) name asList !cumulative))

end Peephole.Grammar
