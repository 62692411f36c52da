/-!
# Places in a text

A place is the number of characters before it.  Lines are counted from one; the column of a place counts
from one, and a line break counts as the first column of the line that it starts.

`excerpt` is how an error is shown: a message, the line, and a mark under the column.
-/

namespace Peephole.Text

abbrev Chars := Array Char

def chars (s : String) : Chars := s.toList.toArray

/-- The part of a text between two places. -/
def slice (t : Chars) (first last : Nat) : String := String.ofList (t.extract first last).toList

/-- The place after the last line break before `p`. -/
def lineStart (t : Chars) (p : Nat) : Nat :=
  ((t.extract 0 p).toList.foldl
    (fun (s : Nat × Nat) c => (s.1 + 1, if c = '\n' then s.1 + 1 else s.2)) (0, 0)).2

/-- The first place from `p` on at which a line ends. -/
def lineStop (t : Chars) (p : Nat) : Nat := p + ((t.extract p t.size).toList.takeWhile (· ≠ '\n')).length

def lineNumber (t : Chars) (p : Nat) : Nat := (t.extract 0 p).toList.countP (· = '\n') + 1

def lineAt (t : Chars) (p : Nat) : String := slice t (lineStart t p) (lineStop t p)

def column (t : Chars) (p : Nat) : Nat :=
  if t[p]? = some '\n' then 1 else p + 1 - lineStart t p

/-- The text with blanks in place of each tab, up to the next column that is a multiple of eight. -/
def expandTabs (t : Chars) : Chars :=
  (t.foldl step (#[], 0)).1
where
  step (s : Chars × Nat) (c : Char) : Chars × Nat :=
    if c = '\t' then
      let n := 8 - s.2 % 8
      (s.1 ++ Array.replicate n ' ', s.2 + n)
    else if c = '\n' ∨ c = '\r' then (s.1.push c, 0)
    else (s.1.push c, s.2 + 1)

/-- An error as it is shown: the message with the line number, the line, and a mark with `indent` blanks in
front of it. -/
def excerpt (message line : String) (number indent : Nat) : String :=
  "ERROR: " ++ message ++ " (line: " ++ toString number ++ ")\n" ++ line ++ "\n" ++
    String.ofList (List.replicate indent ' ') ++ "^"

end Peephole.Text
