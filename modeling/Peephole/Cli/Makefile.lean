import Peephole.Elaborate.Optimization

/-!
# Verifying in parallel

Files are cut into their optimizations, each is written to a file of its own, and a makefile with one target for
each of them verifies them in parallel and joins what they print.
-/

namespace Peephole.Cli

open Elaborate (ReadError splitOptimizations)

/-- The number of optimizations that are verified at a time. -/
def parallelJobs : Nat := 56

/-- The text with every line ended by a line feed: a carriage return ends a line, alone or with a line feed. -/
def plainLines : List Char → List Char
  | '\r' :: '\n' :: cs => '\n' :: plainLines cs
  | '\r' :: cs => '\n' :: plainLines cs
  | c :: cs => c :: plainLines cs
  | [] => []

def splitFiles (files : List String) : Except ReadError (List String) :=
  return (← files.mapM fun text => splitOptimizations (String.ofList (plainLines text.toList))).flatten

/-- Where a parallel run takes place. -/
structure Workplace where
  home : String
  /-- The directory of the files of the run. -/
  scratch : String

namespace Workplace

def inputFile (w : Workplace) (i : Nat) : String := w.scratch ++ "/input-" ++ toString i

def outputFile (w : Workplace) (i : Nat) : String := w.scratch ++ "/output-" ++ toString i

def resultFile (w : Workplace) : String := w.scratch ++ "/all_results"

/-- The name of the target that verifies the optimization with a number. -/
def target (i : Nat) : String := "test_" ++ toString i

/-- The target that verifies the optimization with a number. -/
def rule (w : Workplace) (i : Nat) : String :=
  target i ++ ":\n\tcd $(ALIVE_HOME) && ($(PYTHON) alive.py --hide-progress " ++ w.inputFile i ++
    " || echo \"FAILED\") &> " ++ w.outputFile i ++ "\n"

def makefile (w : Workplace) (n : Nat) : String :=
  let all := List.range n
  "PYTHON = python\nALIVE_HOME = " ++ w.home ++ "\n" ++ String.join (all.map w.rule) ++
    "all: " ++ " ".intercalate (all.map target) ++ "\n" ++
    String.join (all.map fun i => "\tcat " ++ w.outputFile i ++ " >> " ++ w.resultFile ++ "\n")

def command : List String := ["make", "-j" ++ toString parallelJobs, "all"]

/-- What is printed by a run whose parts printed `results`. -/
def printed (w : Workplace) (results : String) : String :=
  "Using temporary directory " ++ w.scratch ++ "\nInvoking make to run " ++ toString parallelJobs ++
    " copies of alive in parallel ...\n" ++ results ++ "\n"

end Workplace

end Peephole.Cli
