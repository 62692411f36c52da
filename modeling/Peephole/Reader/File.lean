import Peephole.Reader.Instruction

/-!
# Files of optimizations

A file is a sequence of optimizations.  Each has an optional line `Name:`, an optional line `Pre:` with its
precondition, a source program and, behind `=>`, a target program that ends before the next `Name:` or at the
end of the text.
-/

namespace Peephole.Reader

open Peephole.Text

/-- A part of a text and the place where it starts. -/
structure Excerpt where
  place : Nat
  text : String
  deriving Inhabited, Repr, DecidableEq

/-- The parts of an optimization; `start` is the place where the optimization starts. -/
structure Parts where
  start : Nat
  name : Option String
  pre : Option Excerpt
  source : Excerpt
  target : Excerpt
  deriving Inhabited, Repr, DecidableEq

abbrev FileRule := Rule Parts

def commentLine : FileRule Unit := .phrase lineBlanks do
  comment.first
  (Rule.blankRun allBlanks).next

/-- Blanks and comments in front of a header. -/
def comments : FileRule Unit :=
  .inside [] <| .phrase [] do
    let _ ← (Rule.optional [] (.blankRun allBlanks)).first
    let _ ← (Rule.many lineBlanks commentLine).next
    return ()

def restOfLine : FileRule String := .skipTo lineBlanks "LineEnd" (.lineEnd lineBlanks)

def excerpt (r : FileRule String) : FileRule Excerpt :=
  (Rule.located allBlanks r).map fun (p, s) => ⟨p, s⟩

def nameLine : FileRule String := .phrase allBlanks do
  let _ ← (Rule.literal allBlanks "Name:").first
  restOfLine.next

def preLine : FileRule Excerpt := .phrase allBlanks do
  let _ ← (Rule.literal allBlanks "Pre:").first
  (excerpt restOfLine).next

def sourceText : FileRule String := .skipTo allBlanks "\"=>\"" (.literal allBlanks "=>")

def targetText : FileRule String :=
  .skipTo [] "\x7b\"Name:\" | StringEnd\x7d"
    (.firstOf [(Rule.literal allBlanks "Name:").map fun _ => (), .textEnd allBlanks])

def optimizationParts (start : Nat) : Scan Parts Parts := do
  comments.first
  let name ← (Rule.optional allBlanks nameLine).next
  comments.next
  let pre ← (Rule.optional allBlanks preLine).next
  let source ← (excerpt sourceText).next
  (Rule.punctuation allBlanks "=>").next
  let target ← (excerpt targetText).next
  return ⟨start, name, pre, source, target⟩

def optimization : FileRule Unit :=
  let parts : FileRule Parts := .phrase [] fun t live p => optimizationParts p t live p
  ⟨"", fun t live skipping p =>
    (parts.read t live skipping p).andThen fun o e => ⟨[o], .matched () e⟩⟩

def file : FileRule Unit := .phrase [] do
  let _ ← (Rule.many1 [] optimization).first
  (Rule.textEnd allBlanks).next

/-- Read a file: the parts of the optimizations up to the first failure, if there is one. -/
def readFile (t : Chars) : Reply Parts Unit := file.read t true true 0

end Peephole.Reader
