import Peephole.Program.Condition
import Peephole.Reader.Instruction

/-!
# Preconditions

Comparisons of constant expressions and calls of predicates, under `!`, `&&` and `||` in this order of
binding.  What looks like a call is a predicate if a connective, a closing parenthesis, a comment or the end
of the line follows it.
-/

namespace Peephole.Reader

open Peephole.Text
open Peephole.Program (Test)

def predicateEnd : Rule Step Unit :=
  .followedBy [] <| .firstOf
    [(oneOf allBlanks "Re:('\\\\&\\\\&|\\\\|\\\\||\\\\)')" ["&&", "||", ")"]).map fun _ => (),
      comment, .lineEnd lineBlanks]

/-- Whether a known predicate has more arguments than it takes. -/
def hasTooMany (name : String) (args : List Operand) : Bool :=
  match Test.ofText? name with
  | some t => t.params.length < args.length
  | none => false

/-- The call of a predicate.  One with too many arguments runs over the end when it is done. -/
def predicateCall (expr : Rule Step Operand) : Rule Step Mark :=
  ⟨"", fun t live skipping p =>
    ((callParts allBlanks expr predicateEnd).read t live skipping p).andThen fun (name, args) e =>
      let mark : Mark := ⟨.test, p, skipping⟩
      if live then
        ⟨[⟨mark, some (Rule.start lineBlanks t skipping p), .test name args⟩],
          if hasTooMany name args then .overrun else .matched mark e⟩
      else ⟨[], .matched mark e⟩⟩

/-- The sign of a comparison, perhaps with `u` in front of it. -/
def comparisonSign : Rule Step String :=
  let sign : Rule Step String :=
    oneOf [] "Re:('==|!=|<=|<|>=|>')" ["==", "!=", "<=", "<", ">=", ">"]
  ⟨"", fun t live skipping p =>
    let q := Rule.start allBlanks t skipping p
    if t[q]? = some 'u' then
      (sign.read t live true (q + 1)).andThen fun s e => ⟨[], .matched ("u" ++ s) e⟩
    else sign.read t live true q⟩

/-- Constant expressions with comparisons between them. -/
def comparison (expr : Rule Step Operand) : Rule Step Mark :=
  let more : Rule Step (String × Operand) := .phrase allBlanks do
    let s ← comparisonSign.first
    let e ← expr.next
    return (s, e)
  (Rule.phrase lineBlanks do
    let e ← expr.first
    let rest ← (Rule.many1 allBlanks more).next
    return (e, rest)).taking lineBlanks .comparison fun (e, rest) => .comparison e rest

/-- An operand of the connectives: `self` is the rule itself, `cond` is for whole conditions. -/
def conditionUnary (expr : Rule Step Operand) (self cond : Rule Step Mark) : Rule Step Mark :=
  let negated : Rule Step Mark := .prefixed (.punctuation allBlanks "!") self fun p _ c =>
    (⟨⟨.not, p, true⟩, none, .not c⟩, ⟨.not, p, true⟩)
  let always : Rule Step Mark := (Rule.literal allBlanks "true").taking allBlanks .always fun _ => .always
  .inside allBlanks
    (.firstOf [negated, predicateCall expr, always, comparison expr, parenthesized cond])

/-- Conditions with a connective between them. -/
def connected (sign : String) (kind : Phrase) (act : List Mark → Act) (operand : Rule Step Mark) :
    Rule Step Mark :=
  .chain allBlanks operand (.punctuation allBlanks sign) fun p c rest =>
    (⟨⟨kind, p, true⟩, none, act (c :: rest.map (·.2))⟩, ⟨kind, p, true⟩)

/-- The rules for operands of connectives and for whole conditions, nested at most `depth` deep. -/
def conditionRules (expr : Rule Step Operand) : Nat → Rule Step Mark × Rule Step Mark
  | 0 => (never, never)
  | depth + 1 =>
    let (unary, cond) := conditionRules expr depth
    let unary' := conditionUnary expr unary cond
    (unary', connected "||" .either .either (connected "&&" .both .both unary'))

/-- A precondition; no text means that there is none. -/
def precondition (length : Nat) : Rule Step Mark :=
  let cond := (conditionRules (constantExpr length) (length + 2)).2
  .firstOf
    [.phrase allBlanks do
      let c ← cond.first
      let _ ← (Rule.optional lineBlanks comment).next
      (Rule.textEnd allBlanks).next
      return c,
    (Rule.textEnd allBlanks).taking allBlanks .nothing fun _ => .always]

def readCondition (t : Chars) : Reply Step Mark := (precondition t.size).read t true true 0

end Peephole.Reader
