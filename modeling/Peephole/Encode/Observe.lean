import Peephole.Encode.Program

/-!
# Observing an encoding

What an encoding says for given inputs: the values and whether they are defined and free of poison, the conditions
of basic blocks, and bytes of the memory.
-/

namespace Peephole.Encode

open Program (Dict ValueId)
open Logic (Term Formula Env)
open Elaborate (Optimization)

/-- Values for the inputs, by name, and for the undefined values, in the order in which they were made. -/
structure Inputs where
  value : String → Int
  undefined : List Int

/-- The variables of the undefined values, in the order in which they were made. -/
def undefVars (o : Optimization) : List String :=
  let vars := (o.sourceNames ++ o.targetNames).filterMap fun e =>
    match (o.table.get e.2).op with
    | .undefined => some (undefVar (o.table.get e.2))
    | _ => none
  let number (s : String) : Nat := ((s.drop 5).toString.toNat?).getD 0
  vars.eraseDups.mergeSort fun a b => number a ≤ number b

/-- The name of an allocation, without the number behind it. -/
def allocationName (n : String) : String := String.ofList (n.toList.reverse.dropWhile (· != '_')).tail.reverse

def Inputs.env (i : Inputs) (undefs : List String) : Env :=
  { bits := fun n =>
      match undefs.idxOf? n with
      | some k => i.undefined.getD k 0
      | none => i.value (if n.startsWith "alloca" then allocationName n else n)
    truth := fun _ => false
    byte := fun n _ => i.value n }

/-- What is observed of a value. -/
structure Observed where
  name : String
  type : Option String
  value : Option Nat
  defined : Bool
  free : Bool

def holds (env : Env) (ps : List Formula) : Bool := ps.all (·.eval env)

def observeValues (o : Optimization) (shape : Shape) (known : String → Bool) (env : Env) (names : Dict ValueId)
    (s : State) : List Observed :=
  s.vars.map fun e =>
    { name := match names.get? e.1 with
        | some i => o.table.name i
        | none => e.1
      type := shape.typeText? known 100 e.1
      value := e.2.value.map fun t => (t.eval env).toNat
      defined := holds env e.2.conds.defined
      free := holds env e.2.conds.poison }

/-- For each basic block that is branched to: whether one of the branches is taken, and whether all are. -/
def observeBlocks (env : Env) (s : State) : List (String × Bool × Bool) :=
  s.entries.map fun e => (e.1, e.2.any fun c => c.1.eval env, e.2.all fun c => c.1.eval env)

def observeBytes (shape : Shape) (env : Env) (addresses : List Int) (s : State) : List (Option Nat) :=
  addresses.map fun a => s.memory.map fun m => ((m.read (.const a shape.ptrWidth)).eval env).toNat

end Peephole.Encode
