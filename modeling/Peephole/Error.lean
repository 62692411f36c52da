import Peephole.Text.Quoted

/-!
# Errors

A run ends early for one of three reasons: the text is rejected with a message and perhaps the word it is
about, the text asks for something that is not supported, or a step meets a situation that the program does
not provide for.
-/

namespace Peephole

/-- A situation that a step does not provide for. -/
inductive Fault where
  /-- A condition that the step relies on does not hold. -/
  | brokenInvariant
  | noSuchPart
  | noSuchEntry
  | badNumeral
  | badOperands
  /-- A position is outside a sequence. -/
  | outOfRange
  deriving Inhabited, Repr, DecidableEq

/-- Why a run ended early. -/
inductive Error where
  /-- The text is not acceptable; `token` is the word that the message is about. -/
  | rejected (message : String) (token : Option String)
  /-- The text asks for something that is not supported. -/
  | unsupported (message : String)
  | fault (f : Fault)
  deriving Inhabited, Repr, DecidableEq

namespace Error

def reject (message : String) : Error := rejected message none

/-- The text of a rejection: the message, or the message and the word between parentheses. -/
def rejectionText (message : String) : Option String → String
  | none => message
  | some token => Text.tupleText [Text.quoted message, Text.quoted token]

end Error

def require {m : Type → Type} [Monad m] [MonadExceptOf Error m] (p : Bool) : m Unit :=
  if p then pure () else throw (.fault .brokenInvariant)

end Peephole
