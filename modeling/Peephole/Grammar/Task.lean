import Peephole.Grammar.Description

/-!
# Tasks

A task is a record that describes a grammar and what is done with it.  `answerTask` does it: the answer is a report,
with what was logged, printed and traced meanwhile.
-/

namespace Peephole.Grammar

/-- What comes of a task: data and failures. -/
inductive Report where
  | data (d : Data)
  | failed (f : Failure)
  | list (rs : List Report)
  | record (fields : List (String × Report))
  deriving Inhabited

def Report.text (s : String) : Report := .data (.text s)

def Report.number (n : Int) : Report := .data (.number n)

structure TaskAnswer where
  outcome : Except Failure Report
  /-- What was logged, printed and traced, under names. -/
  remarks : List (String × Data)

def tokenData (t : Token) : GrammarM Data := do return .ofToken (← plainToken t)

def fieldName : Token → String
  | .text s => s
  | .number n => Token.numberText n
  | .truth b => if b then "true" else "false"
  | _ => "null"

def viewOf (r : ResultId) (what : String) : GrammarM Data := do
  match what with
  | "str" => return .text (← tokenText (.result r))
  | "repr" => return .text (← writtenText (.result r))
  | "xml" => return .text (← tagText none {} r)
  | "xmltag" => return .text (← tagText (some "doc") {} r)
  | "xmlnamed" => return .text (← tagText (some "doc") { namedOnly := true } r)
  | "xmlonly" => return .text (← tagText none { namedOnly := true } r)
  | "xmlflat" => return .text (← tagText (some "doc") { formatted := false } r)
  | "dict" => do
    return .record (← (← namedValues r).mapM fun (k, v) => do return (fieldName k, ← tokenData v))
  | "values" => do return .list (← (← namedValues r).mapM fun (_, v) => tokenData v)
  | "name" => do return .list ((← namesInside r).map fun n => (n.map Data.ofToken).getD .null)
  | "pprint" => return .text (← prettyFound r)
  | "restate" => return .text (← dumpText r)
  | what => malformed what

/-- The report of a step; a description that is not understood ends the task. -/
def reported (x : GrammarM Report) : GrammarM Report := do
  match ← outcome x with
  | .ok r => return r
  | .error (.malformed what) => malformed what
  | .error f => return .failed f

def listField (task : Data) (name : String) : GrammarM (List Data) :=
  match task.field? name with
  | some d => d.asList
  | none => return []

/-- The report about a result: its tokens, its listing, the views that are asked for, and what the operations
answer. -/
def foundReport (task : Data) (r : ResultId) : GrammarM Report := do
  let tokens ← tokenData (.result r)
  let listing ← dumpText r
  let views ← (← listField task "show").mapM fun what => do
    let what ← what.asText
    return (what, Report.data (← viewOf r what))
  let edits ← (← listField task "ops").mapM fun d => do
    let answer ← reported do return .data (← tokenData (← edit r (← describedEdit d)))
    return Report.list [answer, ← reported do return .text (← dumpText r)]
  let edits := if (task.field? "ops").isSome then [("ops", Report.list edits)] else []
  return .record ([("list", .data tokens), ("dump", .text listing)] ++ views ++ edits)

def forTexts (task : Data) (f : String → GrammarM Report) : GrammarM Report := do
  return .list (← (← listField task "texts").mapM fun text => do
    let text ← text.asText
    let r ← reported (f text)
    if task.flag "reset" then resetOnce
    return r)

def useGrammar (task : Data) (names : Names) (o : Operand) : GrammarM Report := do
  let most ← match task.field? "max" with
    | some d => do pure (some (← d.asNumber).toNat)
    | none => pure none
  match (← task.textField? "do").getD "parse" with
  | "parse" | "file" => forTexts task fun text => do
    foundReport task (← parseText (← o.id) text (task.flag "all"))
  | "scan" => forTexts task fun text => do
    let hits ← scanText (← o.id) text most (task.flag "overlap")
    return .list (← hits.mapM fun h => do
      return .list [.data (← tokenData (.result h.found)), .number h.start, .number h.stop])
  | "search" => forTexts task fun text => do
    return .data (← tokenData (.result (← searchText (← o.id) text most)))
  | "transform" => forTexts task fun text => do return .text (← transformText (← o.id) text)
  | "str" => do
    let before ← showOperand o
    let e ← o.id
    streamline e
    return .list [.text before, .text (← showOne e)]
  | "validate" => do
    validate (← o.id)
    return .data (.truth true)
  | "eq" => do
    let others ← (← listField task "with").mapM (describedGrammar names)
    let same ← others.mapM (sameOperands o)
    let same' ← others.mapM (sameOperands o)
    return .data (.list ((same ++ same'.map not).map .truth))
  | "none" => return .data (.truth (o == .nothing))
  | what => malformed what

def startOf (task : Data) : Engine :=
  let text (name default : String) : List Char := match task.field? name with
    | some (.text s) => s.toList
    | _ => default.toList
  let fresh : Engine := {}
  { fresh with
    blanks := text "white" (String.ofList fresh.blanks)
    keywordChars := text "kwchars" defaultKeywordChars
    memoizes := task.flag "packrat"
    literals := match task.field? "inline" with
      | some (.text "suppress") => .dropped
      | some (.text "clit") => .caseless
      | some (.text "kw") => .keyword
      | _ => .exact }

def LogEntry.data : LogEntry → Data
  | .tokens p ts => .list [.number p, .list (Data.ofTokens ts)]
  | .failed p e m => .list [.text "fail", .number p, .text e, .text m]

def askFunction (name : String) (args : List Data) : GrammarM Report := do
  match name, args with
  | "srange", [.text s] => return .text (charsInRange s)
  | "col", [p, .text s] =>
    match columnAt (Text.chars s) (← p.asNumber) with
    | .ok n => return .number n
    | .error f => broken f
  | "lineno", [p, .text s] => return .number (lineNumberAt (Text.chars s) (← p.asNumber))
  | "line", [p, .text s] => return .text (lineWith (Text.chars s) (← p.asNumber))
  | name, _ => malformed name

def doTask (task : Data) : GrammarM Report := do
  match task.field? "fn" with
  | some (.text name) => do askFunction name (← listField task "args")
  | _ => do
    let names ← describedNames [] (← listField task "let")
    let o ← describedGrammar names ((task.field? "g").getD .null)
    useGrammar task names o

def answerTask (task : Data) : TaskAnswer :=
  let (result, g) := (doTask task).run (startOf task)
  let remark (name : String) (there : Bool) (d : Data) : List (String × Data) := if there then [(name, d)] else []
  { outcome := result
    remarks := remark "log" (!g.log.isEmpty) (.list (g.log.reverse.map LogEntry.data)) ++
      remark "stdout" (!g.printed.isEmpty) (.text g.printed) ++
      remark "stderr" (!g.traced.isEmpty) (.text g.traced) }

end Peephole.Grammar
