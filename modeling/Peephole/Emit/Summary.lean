import Peephole.Emit.Generator

/-!
# Summaries of the state of code generation

The state of a generator as lines of text.  Values are shown by their names in generated code; one that has none is
shown by its key between angle brackets.
-/

namespace Peephole.Emit

open Program

def bracedSorted (entries : List String) : String :=
  "\x7b" ++ ", ".intercalate entries ++ "\x7d"

/-- A table of quoted texts, sorted by keys; later entries replace earlier ones. -/
def tableText (entries : List (String × Option String)) : String :=
  let entries := entries.foldl (fun (d : Dict (Option String)) e => d.put e.1 e.2) []
  let sorted := entries.mergeSort fun a b => !decide (b.1 < a.1)
  bracedSorted (sorted.map fun e =>
    Text.quoted e.1 ++ ": " ++ match e.2 with
      | some s => Text.quoted s
      | none => "None")

def setText (elements : List String) : String :=
  if elements.isEmpty then "set()" else bracedSorted elements

def Generator.summary (g : Generator) (t : Table) (title : String) : String :=
  let shown (i : ValueId) : String :=
    match g.valueNames.get? i with
    | some name => name
    | none => "<" ++ (t.get i).key ++ ">"
  let order (a b : String) : Bool := !decide (b < a)
  let named := g.valueNames.map fun e => ((t.get e.1).key, e.2)
  let pairs := (named.mergeSort fun a b => decide (a.1 < b.1) || (a.1 == b.1 && order a.2 b.2)).map fun e =>
    Text.tupleText [Text.quoted e.1, Text.quoted e.2]
  let types (s : Slots Ty) : String := tableText (s.map fun e => (shown e.1, some (requirementText e.2)))
  let classes := g.namedTypes.map fun e => Text.quoted e.1 ++ ": " ++ bracedSorted (e.2.map t.text)
  String.join (["---- " ++ title,
    "value_names: " ++ setText pairs.eraseDups,
    "key_names: " ++ tableText (g.keyNames.map fun e => (e.1, some e.2)),
    "names: " ++ setText ((g.names.taken.eraseDups.mergeSort order).map Text.quoted),
    "bound:  " ++ tableText (g.bound.map fun e => (e.1, some e.2.text)),
    "reps: " ++ tableText (g.links.map fun e => (shown e.1, e.2.map shown)),
    "required: " ++ types g.required,
    "guaranteed: " ++ types g.guaranteed,
    "named_types: defaultdict(<class 'set'>, " ++ bracedSorted classes ++ ")",
    "----"].map (· ++ "\n"))

end Peephole.Emit
