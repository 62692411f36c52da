/-!
# Fresh names

Names for the variables of generated code.  A name is made from a hint: what cannot stand in a C++ identifier is
left out, and a number is put behind it if the name is taken.
-/

namespace Peephole.Emit

/-- The words that cannot be names. -/
def keywords : List String :=
  ["alignas", "alignof", "and", "and_eq", "asm", "auto", "bitand", "bitor", "bool", "break", "case", "catch",
    "char", "char16_t", "char32_t", "class", "compl", "const", "constexpr", "const_cast", "continue",
    "decltype", "default", "delete", "do", "double", "dynamic_cast", "else", "enum", "explicit", "export",
    "extern", "false", "float", "for", "friend", "goto", "if", "inline", "int", "long", "mutable",
    "namespace", "new", "noexcept", "not", "not_eq", "nullptr", "operator", "or", "or_eq", "private",
    "protected", "public", "register", "reinterpret_cast", "return", "short", "signed", "sizeof", "static",
    "static_assert", "static_cast", "struct", "switch", "template", "this", "thread_local", "throw", "true",
    "try", "typedef", "typeid", "typename", "union", "unsigned", "using", "virtual", "void", "volatile",
    "wchar_t", "while", "xor", "xor_eq"]

def isIdentChar (c : Char) : Bool := c.isAlphanum || c == '_'

/-- The characters with one underscore for each run of them. -/
def collapse : List Char → List Char
  | '_' :: '_' :: cs => collapse ('_' :: cs)
  | c :: cs => c :: collapse cs
  | [] => []
termination_by cs => cs.length

def dropUnderscore : List Char → List Char
  | '_' :: cs => cs
  | cs => cs

/-- The characters of a hint that can stand in a name, with no underscore at either end and no two of them
together. -/
def cleanHint (hint : String) : List Char :=
  (dropUnderscore (dropUnderscore (collapse (hint.toList.filter isIdentChar))).reverse).reverse

def wantedName (hint : String) : String :=
  match cleanHint hint with
  | [] => "V"
  | c :: cs =>
    let name := String.ofList (c :: cs)
    if c.isDigit || keywords.contains name then "_" ++ name else name

/-- The names that are taken, and the next number to put behind a name. -/
structure Names where
  taken : List String
  next : Nat
  deriving Inhabited, Repr

namespace Names

def none : Names := ⟨[], 0⟩

/-- The first of the numbered names that is not taken, and the number after it. -/
def numbered (taken : List String) (base : String) : Nat → Nat → String × Nat
  | 0, n => (base ++ "_" ++ toString n, n + 1)
  | fuel + 1, n =>
    let name := base ++ "_" ++ toString n
    if taken.contains name then numbered taken base fuel (n + 1) else (name, n + 1)

/-- A name that is not taken yet, made from a hint. -/
def choose (ns : Names) (hint : String) : String × Names :=
  let wanted := wantedName hint
  let (name, next) :=
    if ns.taken.contains wanted then numbered ns.taken wanted ns.taken.length ns.next else (wanted, ns.next)
  (name, ⟨ns.taken ++ [name], next⟩)

end Names

end Peephole.Emit
