import Peephole.Grammar.Token

/-!
# Data

Plain nested data, in which grammars and tasks are described and results are reported.
-/

namespace Peephole.Grammar

inductive Data where
  | null
  | truth (b : Bool)
  | number (n : Int)
  | text (s : String)
  | list (ds : List Data)
  | record (fields : List (String × Data))
  deriving Inhabited

namespace Data

mutual

def depth : Data → Nat
  | list ds => depthOfList ds + 1
  | record fs => depthOfFields fs + 1
  | _ => 1

def depthOfList : List Data → Nat
  | [] => 0
  | d :: ds => max d.depth (depthOfList ds)

def depthOfFields : List (String × Data) → Nat
  | [] => 0
  | (_, d) :: fs => max d.depth (depthOfFields fs)

end

def field? (d : Data) (name : String) : Option Data :=
  match d with
  | record fs => fs.lookup name
  | _ => none

def flag (d : Data) (name : String) (default : Bool := false) : Bool :=
  match d.field? name with
  | some (truth b) => b
  | some _ => false
  | none => default

mutual

/-- The token that data stand for; a record stands for none. -/
def token? : Data → Option Token
  | null => some .nothing
  | truth b => some (.truth b)
  | number n => some (.number n)
  | text s => some (.text s)
  | list ds => (tokens? ds).map .list
  | record _ => none

def tokens? : List Data → Option (List Token)
  | [] => some []
  | d :: ds => do return (← d.token?) :: (← tokens? ds)

end

mutual

def ofToken : Token → Data
  | .nothing => null
  | .truth b => truth b
  | .number n => number n
  | .text s => text s
  | .list ts => list (ofTokens ts)
  | .result _ => null

def ofTokens : List Token → List Data
  | [] => []
  | t :: ts => ofToken t :: ofTokens ts

end

end Data

end Peephole.Grammar
