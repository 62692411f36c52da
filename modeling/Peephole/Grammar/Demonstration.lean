import Peephole.Grammar.Edit
import Peephole.Grammar.Library

/-!
# A demonstration

A small grammar of queries, and what is printed for some queries: the tokens, the named parts and a document with
tags, or where the query is wrong.
-/

namespace Peephole.Grammar

/-- Names with dots between their parts, in upper case. -/
def dottedName : GrammarM ElementId := do
  let word ← plainWord letters (lettersAndDigits ++ "_$")
  acting (← delimitedList (.element word) (.text ".") true) [.upper]

/-- Queries: columns or a star, and tables. -/
def queryElement : GrammarM ElementId := do
  let select ← caselessLiteral "select"
  let from_ ← caselessLiteral "from"
  let columns ← groupElement (.element (← delimitedList (.element (← dottedName))))
  let tables ← groupElement (.element (← delimitedList (.element (← dottedName))))
  let columns ← (← combine .orElse (.text "*") (.element columns)).id
  let e ← chain (.element select)
    [.element (← withResultName columns "columns"), .element from_, .element (← withResultName tables "tables")]
  e.id

def queries : List String :=
  ["SELECT * from XYZZY, ABC", "select * from SYS.XYZZY", "Select A from Sys.dual", "Select AA,BB,CC from Sys.dual",
    "Select A, B, C from Sys.dual", "Select A, B, C from Sys.dual", "Xelect A, B, C from Sys.dual",
    "Select A, B, C frox Sys.dual", "Select", "Select ^^^ frox Sys.dual",
    "Select A, B, C from Sys.dual, Table2   "]

def queryLines (text : String) (r : ResultId) : GrammarM (List String) := do
  let tokens ← writtenText (.list (← listedTokens r))
  let all ← tokenText (.result r)
  let columns ← tokenText (← valueNamed r "columns")
  let tables ← tokenText (← valueNamed r "tables")
  let tags ← tagText (some "SQL") { namedOnly := true } r
  return [text ++ "->" ++ tokens, "tokens = " ++ all, "tokens.columns = " ++ columns, "tokens.tables = " ++ tables, tags]

def Mismatch.lines (m : Mismatch) (text : String) : List String :=
  [text ++ "->", m.line, String.ofList (List.replicate (Text.column m.text m.place - 1) ' ') ++ "^", m.shown]

def demonstrate (query : ElementId) (text : String) : GrammarM String := do
  let lines ← match ← outcome (do queryLines text (← parseText query text)) with
    | .ok ls => pure ls
    | .error (.mismatch m) => pure (m.lines text)
    | .error f => throw f
  return String.join ((lines ++ [""]).map (· ++ "\n"))

def demonstration : String :=
  let x : GrammarM String := do
    let query ← queryElement
    return String.join (← queries.mapM (demonstrate query))
  match (x.run { keywordChars := defaultKeywordChars.toList }).1 with
  | .ok s => s
  | .error _ => ""

end Peephole.Grammar
