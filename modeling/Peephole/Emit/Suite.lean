import Peephole.Emit.Rule

/-!
# Suites of rules

All rules together make up the function that a compiler calls for each instruction, either one after another or
under a `switch` by the kind of instruction.
-/

namespace Peephole.Emit

open Program
open Elaborate (Optimization)

def operationName? : Op → Option String
  | .arith op _ _ _ => some op.text
  | .convert op _ _ => some op.text
  | .icmp _ _ _ _ => some "icmp"
  | .select _ _ _ => some "select"
  | .alloca _ _ _ => some "alloca"
  | .gep _ _ _ => some "getelementptr"
  | .load _ _ _ => some "load"
  | .store _ _ _ _ => some "store"
  | _ => none

def rootName (o : Optimization) : Except Error String := do
  match operationName? (o.table.get (← root o)).op with
  | some name => return name
  | none => throw (.fault .noSuchPart)

/-- The kinds of instructions that a `switch` knows. -/
def opcode? (name : String) : Option String :=
  (([("add", "Add"), ("sub", "Sub"), ("mul", "Mul"), ("sdiv", "SDiv"), ("srem", "SRem"), ("udiv", "UDiv"),
    ("urem", "URem"), ("shl", "Shl"), ("lshr", "LShr"), ("ashr", "AShr"), ("and", "And"), ("or", "Or"),
    ("xor", "Xor"), ("sext", "SExt"), ("zext", "ZExt"), ("trunc", "Trunc"), ("ptrtoint", "PtrToInt"),
    ("inttoptr", "IntToPtr"), ("bitcast", "BitCast"), ("icmp", "ICmp"),
    ("select", "Select")] : List (String × String)).lookup name).map ("Instruction::" ++ ·)

def functionHead (settings : Settings) : String :=
  "Instruction *InstCombiner::runOnInstruction(Instruction *I) \x7b\n" ++
    if settings.simplify then
      "\n  if (Value *V = SimplifyInstruction(I, SQ)) \x7b\n    return replaceInstUsesWith(*I, V);\n  \x7d\n"
    else ""

abbrev Numbered := List (Nat × Optimization)

def numberRules (os : List Optimization) : Numbered := os.zipIdx.map fun (o, i) => (i + 1, o)

/-- The declarations of the counters; `label` gives what is shown of a rule. -/
def counters (settings : Settings) (label : Nat → String → String → String) (os : Numbered) :
    Except Error String := do
  if !settings.stats then return ""
  let lines ← os.mapM fun (n, o) => do
    return "STATISTIC(Rule" ++ toString n ++ ", \"" ++ label n (← rootName o) o.name ++ "\");\n"
  return String.join lines

def ruleTexts (settings : Settings) (os : Numbered) : Except Error String := do
  return String.join (← os.mapM fun (n, o) => ruleText settings n o)

def suiteText (settings : Settings) (os : List Optimization) : Except Error String := do
  let os := numberRules os
  let stats ← counters settings (fun n op name => toString n ++ ". " ++ op ++ " " ++ name) os
  let stats := if settings.stats then stats ++ "\n" else stats
  let rules ← ruleTexts settings os
  return stats ++ functionHead settings ++ rules ++ "\n\n  return nullptr;\n\x7d\n"

/-- The groups of optimizations with the same kind of root, in order of appearance. -/
def byRoot (os : Numbered) : Except Error (Dict Numbered) :=
  os.foldlM (fun d e => do
    let name ← rootName e.2
    return d.put name ((d.get? name).getD [] ++ [e])) []

def switchedText (settings : Settings) (os : List Optimization) : Except Error String := do
  let os := numberRules os
  let stats ← counters settings (fun n op name => op ++ "." ++ toString n ++ ". " ++ name) os
  let groups ← byRoot os
  let cases ← groups.mapM fun (name, os) => do
    match opcode? name with
    | some code => return "  case " ++ code ++ ":\n" ++ (← ruleTexts settings os) ++ "\n  break;\n\n"
    | none => return ""
  return stats ++ functionHead settings ++ "  switch (I->getOpcode()) \x7b\n  default: break;\n" ++
    String.join cases ++ "\n  \x7d\n\n  return nullptr;\n\x7d\n"

end Peephole.Emit
