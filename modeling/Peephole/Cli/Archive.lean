import Peephole.Error

/-!
# An archive of queries

Every query to the solver is kept in a numbered file.  A new file has the number after that of the last file in
the order of their names.
-/

namespace Peephole.Cli

/-- The text that every kept query starts with. -/
def queryHeader : String :=
  "(set-info :source |\n Generated by Alive 0.1\n More info in N. P. Lopes, D. Menendez, S. Nagarakatte, " ++
    "J. Regehr.\n Provably Correct Peephole Optimizations with Alive. In PLDI'15.\n|)\n\n"

def queryEnding : List Char := ".smt2".toList

/-- Whether a file is listed as a query: its name ends so and does not start with a dot. -/
def isQuery (name : String) : Bool := queryEnding.isSuffixOf name.toList && name.toList.head? != some '.'

/-- The digits in front of the first `.smt2` that has some. -/
def digitsBefore (seen : List Char) : List Char → Option (List Char)
  | [] => none
  | c :: cs =>
    let digits := (seen.takeWhile Char.isDigit).reverse
    if queryEnding.isPrefixOf (c :: cs) && !digits.isEmpty then some digits else digitsBefore (c :: seen) cs

def numberOf (digits : List Char) : Nat := digits.foldl (fun n c => 10 * n + (c.toNat - '0'.toNat)) 0

/-- A number with three digits at least. -/
def threeDigits (n : Nat) : String :=
  let s := toString n
  String.ofList (List.replicate (3 - s.length) '0') ++ s

def lastName : List String → Option String
  | [] => none
  | name :: names =>
    match lastName names with
    | none => some name
    | some other => some (if name < other then other else name)

def nextQuery (names : List String) : Except Fault String :=
  match lastName (names.filter isQuery) with
  | none => return threeDigits 0 ++ ".smt2"
  | some name =>
    match digitsBefore [] name.toList with
    | none => throw .noSuchPart
    | some digits => return threeDigits (numberOf digits + 1) ++ ".smt2"

abbrev Archive := List (String × String)

def Archive.keep (a : Archive) : Except Fault Archive := do
  let name ← nextQuery (a.map (·.1))
  return (name, queryHeader) :: a.filter fun e => e.1 != name

def Archive.keepMany : Nat → Archive → Except Fault Archive
  | 0, a => return a
  | n + 1, a => do keepMany n (← a.keep)

end Peephole.Cli
