/-!
# Tables in order of insertion

A `Dict` maps names to entries and lists them in the order in which the names were first put in.  Putting in
a name that is there already replaces its entry and keeps its place.
-/

namespace Peephole.Program

/-- A table from names to entries, in order of insertion. -/
abbrev Dict (α : Type) := List (String × α)

namespace Dict

variable {α : Type}

def get? (d : Dict α) (k : String) : Option α := (d.find? fun e => e.1 == k).map (·.2)

def has (d : Dict α) (k : String) : Bool := d.any fun e => e.1 == k

def put : Dict α → String → α → Dict α
  | [], k, v => [(k, v)]
  | e :: d, k, v => if e.1 == k then (k, v) :: d else e :: put d k v

/-- Take out the entry of a name. -/
def erase (d : Dict α) (k : String) : Dict α := List.filter (fun e => e.1 != k) d

def keys (d : Dict α) : List String := List.map (·.1) d

def modify (d : Dict α) (k : String) (f : α → α) : Dict α :=
  List.map (fun e => if e.1 == k then (e.1, f e.2) else e) d

end Dict

end Peephole.Program
