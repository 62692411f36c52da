import Peephole.Text.Printable

/-!
# Quoted strings

`quoted` writes a string between quotes with the characters that do not print escaped.  Single quotes
are used, unless the string holds a single quote and no double quote.  The backslash and the quote in
use are written after a backslash; tab, line feed and carriage return have letters of their own; any
other hidden character is written by its code point in two, four or eight hexadecimal digits.

`tupleText` and `listText` write sequences of texts that are already written.
-/

namespace Peephole.Text

def hexDigit (n : Nat) : Char :=
  if n < 10 then Char.ofNat (48 + n) else Char.ofNat (87 + n)

/-- The last `k` hexadecimal digits of `n`, most significant first. -/
def hexDigits : Nat → Nat → List Char
  | 0, _ => []
  | k + 1, n => hexDigits k (n / 16) ++ [hexDigit (n % 16)]

def escapeChar (q c : Char) : List Char :=
  if c = q ∨ c = '\\' then ['\\', c]
  else if c = '\t' then ['\\', 't']
  else if c = '\n' then ['\\', 'n']
  else if c = '\r' then ['\\', 'r']
  else if isPrintable c then [c]
  else if c.toNat < 0x100 then '\\' :: 'x' :: hexDigits 2 c.toNat
  else if c.toNat < 0x10000 then '\\' :: 'u' :: hexDigits 4 c.toNat
  else '\\' :: 'U' :: hexDigits 8 c.toNat

def quoteFor (s : List Char) : Char :=
  if s.contains '\'' && !s.contains '"' then '"' else '\''

/-- The string between quotes, with hidden characters escaped. -/
def quoted (s : String) : String :=
  let q := quoteFor s.toList
  String.ofList (q :: (s.toList.flatMap (escapeChar q) ++ [q]))

/-- Written items between brackets, with a comma and a blank between two of them. -/
def listText (items : List String) : String :=
  "[" ++ ", ".intercalate items ++ "]"

/-- Written items between parentheses; a comma follows a single item. -/
def tupleText (items : List String) : String :=
  match items with
  | [x] => "(" ++ x ++ ",)"
  | _ => "(" ++ ", ".intercalate items ++ ")"

end Peephole.Text
