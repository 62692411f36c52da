import Peephole.Text.Position

/-!
# Rules

A `Rule` reads one kind of phrase from a text at a place.  It answers with a value and the place behind the
phrase, or with the place and the message of a failure; a rule may also run over the end of the text, which
the rule around it turns into a failure at the end.

Rules are tried in order and the first one that matches is taken for good; of several failures the first of
those that got furthest is kept.  What reading has done is recorded as a list of steps of type `ε`, and the
steps of attempts that fail later are recorded too.  A rule that only looks ahead is not `live` and records
nothing.

A rule skips blanks before its phrase if it is asked to (`skipping`); the first part of a phrase is not asked,
as the phrase has skipped the blanks already.
-/

namespace Peephole.Reader

open Peephole.Text

inductive Outcome (α : Type) where
  /-- A phrase was read; `next` is the place behind it. -/
  | matched (value : α) (next : Nat)
  | failed (place : Nat) (message : String)
  /-- The rule ran over the end of the text. -/
  | overrun
  deriving Inhabited, Repr

/-- The recorded steps, and how reading ended. -/
structure Reply (ε α : Type) where
  steps : List ε
  outcome : Outcome α
  deriving Inhabited, Repr

namespace Reply

variable {ε α β : Type}

/-- Go on with `f` after a match. -/
def andThen (r : Reply ε α) (f : α → Nat → Reply ε β) : Reply ε β :=
  match r.outcome with
  | .matched a next =>
    let r' := f a next
    ⟨r.steps ++ r'.steps, r'.outcome⟩
  | .failed place message => ⟨r.steps, .failed place message⟩
  | .overrun => ⟨r.steps, .overrun⟩

def after (steps : List ε) (r : Reply ε α) : Reply ε α := ⟨steps ++ r.steps, r.outcome⟩

def isMatch (r : Reply ε α) : Bool :=
  match r.outcome with
  | .matched _ _ => true
  | _ => false

/-- Running over the end is a failure at the end. -/
def closed (t : Chars) (message : String) (r : Reply ε α) : Reply ε α :=
  match r.outcome with
  | .overrun => ⟨r.steps, .failed t.size message⟩
  | _ => r

end Reply

def Scan (ε α : Type) : Type := Chars → Bool → Nat → Reply ε α

namespace Scan

variable {ε α β : Type}

def done (a : α) : Scan ε α := fun _ _ p => ⟨[], .matched a p⟩

def andThen (s : Scan ε α) (f : α → Scan ε β) : Scan ε β := fun t live p =>
  (s t live p).andThen fun a next => f a t live next

instance : Monad (Scan ε) where
  pure := done
  bind := andThen

end Scan

/-- A rule of the grammar.  `read text live skipping place` reads at a place; `message` is what is reported if
the rule runs over the end. -/
structure Rule (ε α : Type) where
  message : String
  read : Chars → Bool → Bool → Nat → Reply ε α

/-- The first of the next `n` places from `p` on whose character is not in the class, or the place behind
them. -/
def runEnd (inClass : Char → Bool) (t : Chars) : Nat → Nat → Nat
  | 0, p => p
  | n + 1, p =>
    match t[p]? with
    | some c => if inClass c then runEnd inClass t n (p + 1) else p
    | none => p

/-- The end of the run of characters of a class that starts at `p`. -/
def run (inClass : Char → Bool) (t : Chars) (p : Nat) : Nat := runEnd inClass t (t.size - p) p

def skipBlanks (blanks : List Char) (t : Chars) (p : Nat) : Nat := run blanks.contains t p

namespace Rule

variable {ε α β γ : Type}

def start (blanks : List Char) (t : Chars) (skipping : Bool) (p : Nat) : Nat :=
  if skipping then skipBlanks blanks t p else p

def first (r : Rule ε α) : Scan ε α := fun t live p => r.read t live false p

def next (r : Rule ε α) : Scan ε α := fun t live p => r.read t live true p

def map (f : α → β) (r : Rule ε α) : Rule ε β :=
  ⟨r.message, fun t live skipping p => (r.read t live skipping p).andThen fun a q => ⟨[], .matched (f a) q⟩⟩

/-! ### Words -/

/-- A fixed word.  It runs over the end if there are only blanks up to the end. -/
def literal (blanks : List Char) (s : String) : Rule ε String :=
  let message := "Expected \"" ++ s ++ "\""
  ⟨message, fun t _ skipping p =>
    let q := start blanks t skipping p
    if q < t.size then
      if slice t q (q + s.length) = s then ⟨[], .matched s (q + s.length)⟩ else ⟨[], .failed q message⟩
    else if p < t.size then ⟨[], .overrun⟩
    else ⟨[], .failed t.size message⟩⟩

/-- A word whose end is found by `scan`, which gets the place where the word starts. -/
def pattern (blanks : List Char) (name : String) (scan : Chars → Nat → Option Nat) : Rule ε String :=
  let message := "Expected " ++ name
  ⟨message, fun t _ skipping p =>
    let q := start blanks t skipping p
    let from' := min q t.size
    match scan t from' with
    | some e => ⟨[], .matched (slice t from' e) e⟩
    | none => ⟨[], .failed q message⟩⟩

/-- A fixed word that stands for itself. -/
def punctuation (blanks : List Char) (s : String) : Rule ε Unit :=
  ⟨"", fun t live skipping p =>
    let word : Rule ε String := literal blanks s
    (word.read t live false (start blanks t skipping p)).andThen fun _ q => ⟨[], .matched () q⟩⟩

def textEnd (blanks : List Char) : Rule ε Unit :=
  let message := "Expected end of text"
  ⟨message, fun t _ skipping p =>
    let q := start blanks t skipping p
    if q < t.size then ⟨[], .failed q message⟩ else ⟨[], .matched () (max q (t.size + 1))⟩⟩

/-- The end of a line; at the end of the text it stands once. -/
def lineEnd (blanks : List Char) : Rule ε Unit :=
  let message := "Expected end of line"
  ⟨message, fun t _ skipping p =>
    let q := start blanks t skipping p
    if t[q]? = some '\n' ∨ q = t.size then ⟨[], .matched () (q + 1)⟩ else ⟨[], .failed q message⟩⟩

/-- At least one of the given blanks, which are not skipped. -/
def blankRun (blanks : List Char) : Rule ε Unit :=
  let message := "Expected <SPC><TAB><CR><LF>"
  ⟨message, fun t _ _ p =>
    let q := skipBlanks blanks t p
    if p < q then ⟨[], .matched () q⟩
    else if p < t.size then ⟨[], .failed p message⟩
    else ⟨[], .failed t.size message⟩⟩

/-! ### Phrases -/

/-- A phrase: the parts that `body` reads, one after another. -/
def phrase (blanks : List Char) (body : Scan ε α) : Rule ε α :=
  ⟨"", fun t live skipping p => (body t live (start blanks t skipping p)).closed t ""⟩

/-- The rule inside another one that skips the blanks for it. -/
def inside (blanks : List Char) (r : Rule ε α) : Rule ε α :=
  ⟨"", fun t live skipping p => r.read t live false (start blanks t skipping p)⟩

/-- Try alternatives in order; `best` is the failure to report if none matches. -/
def tryAll (t : Chars) (live : Bool) (p : Nat) : List (Rule ε α) → Option (Nat × String) → Reply ε α
  | [], some (q, message) => ⟨[], .failed q message⟩
  | [], none => ⟨[], .failed p "no defined alternatives to match"⟩
  | r :: rs, best =>
    let reply := r.read t live true p
    let further (q : Nat) (message : String) : Option (Nat × String) :=
      match best with
      | some (b, m) => if b < q then some (q, message) else some (b, m)
      | none => some (q, message)
    match reply.outcome with
    | .matched _ _ => reply
    | .failed q message => (tryAll t live p rs (further q message)).after reply.steps
    | .overrun => (tryAll t live p rs (further t.size r.message)).after reply.steps

def firstOf (rs : List (Rule ε α)) : Rule ε α := ⟨"", fun t live _ p => tryAll t live p rs none⟩

def optional (blanks : List Char) (r : Rule ε α) : Rule ε (Option α) :=
  ⟨"", fun t live skipping p =>
    let q := start blanks t skipping p
    let reply := r.read t live false q
    match reply.outcome with
    | .matched a e => ⟨reply.steps, .matched (some a) e⟩
    | _ => ⟨reply.steps, .matched none q⟩⟩

/-- The rule as often as it matches, at most `fuel` times. -/
def repeated (r : Rule ε α) (t : Chars) (live : Bool) : Nat → Nat → Reply ε (List α)
  | 0, p => ⟨[], .matched [] p⟩
  | fuel + 1, p =>
    let reply := r.read t live true p
    match reply.outcome with
    | .matched a q =>
      let rest := repeated r t live fuel q
      match rest.outcome with
      | .matched as e => ⟨reply.steps ++ rest.steps, .matched (a :: as) e⟩
      | _ => ⟨reply.steps, .matched [a] q⟩
    | _ => ⟨reply.steps, .matched [] p⟩

def many1 (blanks : List Char) (r : Rule ε α) : Rule ε (List α) :=
  ⟨"", fun t live skipping p =>
    (r.read t live false (start blanks t skipping p)).andThen fun a q =>
      (repeated r t live (t.size + 2) q).andThen fun as e => ⟨[], .matched (a :: as) e⟩⟩

def many (blanks : List Char) (r : Rule ε α) : Rule ε (List α) :=
  ⟨"", fun t live skipping p =>
    let q := start blanks t skipping p
    let reply := (many1 blanks r).read t live false q
    match reply.outcome with
    | .matched as e => ⟨reply.steps, .matched as e⟩
    | _ => ⟨reply.steps, .matched [] q⟩⟩

/-- The rule matches here; nothing is read. -/
def followedBy (blanks : List Char) (r : Rule ε α) : Rule ε Unit :=
  ⟨"", fun t _ skipping p =>
    let q := start blanks t skipping p
    (r.read t false true q).andThen fun _ _ => ⟨[], .matched () q⟩⟩

/-- The rule does not match here; nothing is read. -/
def notFollowedBy (name : String) (r : Rule ε α) : Rule ε Unit :=
  let message := "Found unwanted token, " ++ name
  ⟨message, fun t _ _ p =>
    if (r.read t false true p).isMatch then ⟨[], .failed p message⟩ else ⟨[], .matched () p⟩⟩

/-- The text up to the first place, from the start on, at which the rule matches. -/
def skipTo (blanks : List Char) (name : String) (r : Rule ε α) : Rule ε String :=
  let message := "No match found for " ++ name
  ⟨message, fun t _ skipping p =>
    let q := start blanks t skipping p
    match (List.range' q (t.size + 1 - q)).find? fun e => (r.read t false false e).isMatch with
    | some e => ⟨[], .matched (slice t q e) e⟩
    | none => ⟨[], .failed (max q (t.size + 1)) message⟩⟩

/-- The place where the phrase starts, with its value. -/
def located (blanks : List Char) (r : Rule ε α) : Rule ε (Nat × α) :=
  phrase blanks fun t live p => (r.read t live true p).andThen fun a q => ⟨[], .matched (p, a) q⟩

/-! ### Operators -/

/-- Operands with operators between them: the value of a single operand is kept, and `close` gives the value
of several and the step that it takes.  A live reading goes on behind the first operand only if looking ahead
finds an operator and a second operand. -/
def chain (blanks : List Char) (operand : Rule ε α) (op : Rule ε β)
    (close : Nat → α → List (β × α) → ε × α) : Rule ε α :=
  let pair : Rule ε (β × α) := phrase [] fun t live p =>
    (op.read t live true p).andThen fun o q =>
      (operand.read t live true q).andThen fun a e => ⟨[], .matched (o, a) e⟩
  let several (t : Chars) (live : Bool) (p : Nat) : Reply ε α :=
    (operand.read t live false p).andThen fun a q =>
      ((many1 [] pair).read t live true q).andThen fun rest e =>
        let (step, value) := close p a rest
        ⟨if live then [step] else [], .matched value e⟩
  ⟨"", fun t live skipping p =>
    let q := start blanks t skipping p
    if live then
      let ahead : Rule ε α := ⟨"", fun t _ _ p =>
        (operand.read t false false p).andThen fun a e =>
          ((pair.read t false true e).closed t "").andThen fun _ e => ⟨[], .matched a e⟩⟩
      let both : Rule ε α := ⟨"", fun t live _ p =>
        (ahead.read t false false p).andThen fun _ _ => several t live p⟩
      tryAll t live q [both, operand] none
    else
      (operand.read t false false q).andThen fun a e =>
        let rest := (many1 [] pair).read t false true e
        match rest.outcome with
        | .matched _ e' => ⟨[], .matched a e'⟩
        | _ => ⟨[], .matched a e⟩⟩

/-- An operator in front of an operand.  A live reading goes on behind the operator only if looking ahead finds
an operand. -/
def prefixed (op : Rule ε β) (operand : Rule ε α) (close : Nat → β → α → ε × α) : Rule ε α :=
  let ahead (t : Chars) (live : Bool) (p : Nat) : Reply ε (β × α) :=
    (op.read t live false p).andThen fun o q =>
      (operand.read t live true q).andThen fun a e => ⟨[], .matched (o, a) e⟩
  ⟨"", fun t live _ p =>
    if live then
      (ahead t false p).andThen fun _ _ =>
        (ahead t true p).andThen fun (o, a) e =>
          let (step, value) := close p o a
          ⟨[step], .matched value e⟩
    else (ahead t false p).andThen fun (_, a) e => ⟨[], .matched a e⟩⟩

end Rule

end Peephole.Reader
