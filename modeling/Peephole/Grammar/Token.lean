import Peephole.Text.Quoted

/-!
# Tokens

What a grammar finds in a text is a list of tokens.  A token is a piece of text, or a value that an action made
of one, or the result of another match.  Results are numbered, since one result can stand in several places: among
the tokens of a result, and under names of it.
-/

namespace Peephole.Grammar

abbrev ResultId := Nat

/-- What a match finds. -/
inductive Token where
  | text (s : String)
  | number (n : Int)
  | truth (b : Bool)
  | nothing
  | list (ts : List Token)
  | result (r : ResultId)
  deriving Inhabited, Repr

namespace Token

def isResult : Token → Bool
  | result _ => true
  | _ => false

mutual

/-- Whether two tokens are the same value; a truth value is the number one or zero. -/
def same : Token → Token → Bool
  | text a, text b => a == b
  | number a, number b => a == b
  | truth a, truth b => a == b
  | number a, truth b | truth b, number a => a == (if b then 1 else 0)
  | nothing, nothing => true
  | list as, list bs => sameAll as bs
  | result a, result b => a == b
  | _, _ => false

def sameAll : List Token → List Token → Bool
  | [], [] => true
  | a :: as, b :: bs => same a b && sameAll as bs
  | _, _ => false

end

def numberText (n : Int) : String := toString n

def truthText (b : Bool) : String := if b then "True" else "False"

def nothingText : String := "None"

def canName : Token → Bool
  | list _ => false
  | _ => true

end Token

/-- A list without the element at a place, counted from the end if negative; none if there is no such place. -/
def index? {α : Type} (xs : List α) (i : Int) : Option Nat :=
  let n : Int := xs.length
  let j := if i < 0 then i + n else i
  if 0 ≤ j && j < n then some j.toNat else none

def sliceBound (n : Nat) (i : Int) : Nat :=
  let j := if i < 0 then i + n else i
  min j.toNat n

def sliceBounds (n : Nat) (first last : Option Int) : Nat × Nat :=
  let a := (first.map (sliceBound n)).getD 0
  let b := (last.map (sliceBound n)).getD n
  (a, max a b)

def sliceOf {α : Type} (xs : List α) (first last : Option Int) : List α :=
  let (a, b) := sliceBounds xs.length first last
  (xs.take b).drop a

end Peephole.Grammar
