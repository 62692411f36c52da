import Peephole.Typing.Optimization

/-!
# The typings of an optimization

An optimization is checked under every typing of its values.  The typings are found one after another: after each
one, a clause excludes it and all others that differ from it only in type variables that do not matter.

Type variables of the precondition alone are fixed once: one typing of them is enough.
-/

namespace Peephole.Verify

open Typing

/-- A solver of typing constraints: values that satisfy them, or none if there are no such values. -/
abbrev TypeSolver := List Constraint → Option Model

def literal (l : String × Int) : Constraint := .varIs l.1 l.2

/-- The type variables that occur in the precondition only. -/
def pickedOnce (p : TypeProblem) : List String :=
  let others := Constraint.varsOf (p.source ++ p.target)
  p.pre.vars.eraseDups.filter fun v => !others.contains v

/-- The literals that are kept of the candidates, given those that are required already: a literal is kept if
`refuted` can be satisfied without it. -/
def keptLiterals (solve : TypeSolver) (refuted : Constraint) : List (String × Int) → List (String × Int) →
    List (String × Int)
  | _, [] => []
  | required, l :: rest =>
    if (solve (refuted :: (required ++ rest).map literal)).isSome then
      l :: keptLiterals solve refuted (required ++ [l]) rest
    else keptLiterals solve refuted required rest

/-- The clause that excludes a typing; it names as few type variables as imply the constraints `goal`. -/
def blockingClause (solve : TypeSolver) (goal : List Constraint) (once : List String) (m : Model) :
    Except Error Constraint := do
  let (fixed, candidates) := m.partition fun l => once.contains l.1
  let refuted := (Constraint.and goal).negate
  let kept := keptLiterals solve refuted fixed candidates
  require (solve (refuted :: (fixed ++ kept).map literal)).isNone
  return (Constraint.allOf (kept.map literal)).negate

/-- The constraints by which widths of the precondition alone are at least 32, where a typing `m` allows it. -/
def wideConstraints (solve : TypeSolver) (cs : List Constraint) (once : List String) (m : Model) :
    List Constraint :=
  let (free, fixed) := m.partition fun l => once.contains l.1 && l.1.startsWith "size_"
  (free.map fun l => Constraint.rel .ge (.var l.1) (.const 32)).filter fun c =>
    (solve (c :: cs ++ fixed.map literal)).isSome

inductive Search (α : Type) where
  /-- All typings were checked; their number. -/
  | exhausted (checked : Nat)
  /-- A check stopped the search after the given number of typings. -/
  | stopped (checked : Nat) (reason : α)
  /-- Not all typings were checked. -/
  | unfinished (checked : Nat)

def searchTypings {α : Type} (solve : TypeSolver) (check : Model → Except Error (Option α))
    (goal : List Constraint) (once : List String) : Nat → Nat → List Constraint → Except Error (Search α)
  | 0, checked, _ => return .unfinished checked
  | fuel + 1, checked, cs =>
    match solve cs with
    | none => return .exhausted checked
    | some m => do
      match ← check m with
      | some reason => return .stopped checked reason
      | none =>
        let clause ← blockingClause solve goal once m
        searchTypings solve check goal once fuel (checked + 1) (cs ++ [clause])

/-- Check all typings of an optimization in which pointers have 32 or 64 bits. -/
def forAllTypings {α : Type} (solve : TypeSolver) (p : TypeProblem) (limit : Nat)
    (check : Model → Except Error (Option α)) : Except Error (Search α) := do
  let once := pickedOnce p
  let cs := p.all ++ [.or [.varIs "ptrsize" 32, .varIs "ptrsize" 64]]
  match solve cs with
  | none => return .exhausted 0
  | some m =>
    let cs := cs ++ wideConstraints solve cs once m
    require (solve cs).isSome
    searchTypings solve check p.all once limit 0 cs

end Peephole.Verify
