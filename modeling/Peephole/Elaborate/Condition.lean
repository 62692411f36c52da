import Peephole.Elaborate.Operand

/-!
# Preconditions

The arguments of a predicate are checked against what it takes, one by one from the left.
-/

namespace Peephole.Elaborate

open Peephole.Program
open Peephole.Reader (Mark Operand)

/-- The arguments of a predicate, as far as it takes arguments. -/
def testArgs : List ArgKind → List Operand → SessionM (List ValueId)
  | _, [] => return []
  | [], o :: _ => do
    let _ ← operand o (← build newUnknown)
    return []
  | k :: ks, o :: os => do
    let v := (← operand o (← build newUnknown)).1
    if !k.accepts (← valueAt v) then reject ("Operand not allowed. Expected " ++ k.text)
    return v :: (← testArgs ks os)

def test (name : String) (args : List Operand) : SessionM Condition := do
  match Test.ofText? name with
  | none => reject "Unknown boolean predicate"
  | some t =>
    let vs ← testArgs t.params args
    if args.length < t.params.length then throw (wrongArity args.length t.params.length)
    return .test t vs

/-- Comparisons in a row: each of the values between two signs is compared on both sides. -/
def comparisons (v : ValueId) : List (String × Operand) → SessionM (List Condition)
  | [] => return []
  | (s, o) :: rest => do
    match CompareOp.all.find? fun c => c.text == s with
    | none => stop .brokenInvariant
    | some op =>
      let w ← constant o
      return .compare op v w :: (← comparisons w rest)

/-- Comparisons in a row as one condition. -/
def comparison (first : Operand) (rest : List (String × Operand)) : SessionM Condition := do
  match ← comparisons (← constant first) rest with
  | [c] => return c
  | cs => return .both cs

end Peephole.Elaborate
