import Peephole.Cpp.Format
import Peephole.Proofs.Cpp.Grammar

/-!
# How printed expressions are read

Parentheses stand around an operand with a looser operator.  A right operand whose operator has the same precedence
may stand without them where the order does not matter, and is then read as a part of the chain to its left.

* `Expr.toks` : the tokens of a printed expression.
* `Expr.read`, `Expr.attach` : the tree that a reader makes of them.
* `Printable` : no sign stands in front of a field access.
* `reaches_toks` : **a printable expression is read as `Expr.read` says**, in every place.
-/

namespace Peephole.Cpp

/-- The tokens of a word, which may have a minus sign in front. -/
def wordToks (name : String) : List Token :=
  match name.toList with
  | '-' :: cs => [.mark "-", .word (String.ofList cs)]
  | _ => [.word name]

def readWord (name : String) : Expr :=
  match name.toList with
  | '-' :: cs => .unary "-" (.var (String.ofList cs))
  | _ => .var name

/-- A word without a minus sign in front is one token. -/
theorem word_plain {name : String} (h : name.toList.head? ≠ some '-') :
    wordToks name = [.word name] ∧ readWord name = .var name := by
  unfold wordToks readWord
  cases hcs : name.toList with
  | nil => exact ⟨rfl, rfl⟩
  | cons c cs =>
    constructor <;> split <;> simp_all

theorem word_minus {name : String} {cs : List Char} (h : name.toList = '-' :: cs) :
    wordToks name = [.mark "-", .word (String.ofList cs)] ∧
      readWord name = .unary "-" (.var (String.ofList cs)) := by
  unfold wordToks readWord
  rw [h]
  exact ⟨rfl, rfl⟩

/-- The place of the right operand of an operator. -/
def BinaryOp.rightPlace (op : BinaryOp) : Nat := if op.leftOnly then op.precedence - 1 else op.precedence

mutual

/-- The tokens of an expression in a place for the precedence `prec`. -/
def Expr.toks (prec : Nat) : Expr → List Token
  | .var name => wordToks name
  | .raw s => wordToks s
  | .call fn args => .word fn :: .mark "(" :: (Expr.argToks args ++ [.mark ")"])
  | .field arrow object name => Expr.toks 0 object ++ [.mark (access arrow), .word name]
  | .method arrow object name args =>
    Expr.toks 0 object ++ .mark (access arrow) :: .word name :: .mark "(" :: (Expr.argToks args ++ [.mark ")"])
  | .unary op arg => .mark op :: Expr.toks 3 arg
  | .binary op left right =>
    let body := Expr.toks op.precedence left ++ .mark op.symbol :: Expr.toks op.rightPlace right
    if needsParens prec op.precedence then .mark "(" :: (body ++ [.mark ")"]) else body
  | .assign target value => Expr.toks 14 target ++ .mark "=" :: Expr.toks 15 value

def Expr.argToks : List Expr → List Token
  | [] => []
  | [e] => Expr.toks 18 e
  | e :: es => Expr.toks 18 e ++ .mark "," :: Expr.argToks es

end

mutual

/-- The tree that a printed expression is read as. -/
def Expr.read : Expr → Expr
  | .var name => readWord name
  | .raw s => readWord s
  | .call fn args => .call fn (Expr.readAll args)
  | .field arrow object name => .field arrow object.read name
  | .method arrow object name args => .method arrow object.read name (Expr.readAll args)
  | .unary op arg => .unary op arg.read
  | .binary op left right =>
    if op.leftOnly then .binary op left.read right.read else Expr.attach left.read op right
  | .assign target value => .assign target.read value.read

/-- An operator and its right operand behind what was read before. -/
def Expr.attach (before : Expr) (op : BinaryOp) : Expr → Expr
  | .binary op' left right =>
    if op'.precedence = op.precedence then
      -- The operand stands without parentheses and goes on with the chain.
      if op'.leftOnly then .binary op' (Expr.attach before op left) right.read
      else Expr.attach (Expr.attach before op left) op' right
    else if op'.leftOnly then .binary op before (.binary op' left.read right.read)
    else .binary op before (Expr.attach left.read op' right)
  | .var name => .binary op before (readWord name)
  | .raw s => .binary op before (readWord s)
  | .call fn args => .binary op before (.call fn (Expr.readAll args))
  | .field arrow object name => .binary op before (.field arrow object.read name)
  | .method arrow object name args => .binary op before (.method arrow object.read name (Expr.readAll args))
  | .unary op' arg => .binary op before (.unary op' arg.read)
  | .assign target value => .binary op before (.assign target.read value.read)

/-- The trees that printed arguments are read as. -/
def Expr.readAll : List Expr → List Expr
  | [] => []
  | e :: es => e.read :: Expr.readAll es

end

/-- A number with a minus sign. -/
def Expr.isNegative : Expr → Bool
  | .var name => name.toList.head? == some '-'
  | _ => false

/-- Whether a field access can stand behind the printed expression. -/
def Expr.isObject : Expr → Bool
  | .unary _ _ | .assign _ _ | .raw _ => false
  | e => !e.isNegative

mutual

/-- No sign stands in front of a field access, and there is neither an assignment nor a piece of text. -/
def Expr.Printable : Expr → Prop
  | .var _ => True
  | .raw _ | .assign _ _ => False
  | .call _ args => Expr.AllPrintable args
  | .field _ object _ => object.isObject = true ∧ object.Printable
  | .method _ object _ args => object.isObject = true ∧ object.Printable ∧ Expr.AllPrintable args
  | .unary op arg => op ∈ signs ∧ arg.Printable
  | .binary op left right => op.precedence ≤ 14 ∧ left.Printable ∧ right.Printable

def Expr.AllPrintable : List Expr → Prop
  | [] => True
  | e :: es => e.Printable ∧ Expr.AllPrintable es

end

/-- The precedence of an operator that stands without parentheses in a place for `prec`. -/
def Expr.level (prec : Nat) : Expr → Nat
  | .binary op _ _ => if needsParens prec op.precedence then 0 else op.precedence
  | _ => 0

theorem level_le (prec : Nat) (e : Expr) : e.level prec ≤ prec := by
  cases e with
  | binary op left right =>
    by_cases h : needsParens prec op.precedence = true
    · simp [Expr.level, h]
    · simp only [Expr.level, h]
      simp only [needsParens, Bool.or_eq_true, decide_eq_true_eq, not_or, Nat.not_lt] at h
      simpa using h.1
  | _ => exact Nat.zero_le _

theorem operator?_symbol {op : BinaryOp} (h : op.precedence ≤ 14) : operator? op.symbol = some op := by
  cases op <;> first | decide | (exact absurd h (by decide))

/-- An infix operator follows an operand. -/
theorem follows_symbol (op : BinaryOp) (ts : List Token) {k : Nat} (hk : k < op.precedence)
    (hop : op.precedence ≤ 14) : Stops k (.mark op.symbol :: ts) ∧ StopsPostfix (.mark op.symbol :: ts) := by
  refine ⟨fun s op' hs hop' => ?_, ?_⟩
  · obtain rfl : op.symbol = s := Token.mark.inj (Option.some.inj hs)
    obtain rfl : op = op' := Option.some.inj ((operator?_symbol hop).symm.trans hop')
    exact hk
  · cases op <;> simp [StopsPostfix, BinaryOp.symbol]

theorem level_le_of_printable {e : Expr} (hp : e.Printable) (prec : Nat) : e.level prec ≤ 14 := by
  cases e with
  | binary op left right =>
    by_cases h : needsParens prec op.precedence = true
    · simp [Expr.level, h]
    · rw [Expr.level, if_neg h]
      exact hp.1
  | _ => exact Nat.zero_le _

theorem level_eq_zero {prec : Nat} (h : prec ≤ 4) (e : Expr) : e.level prec = 0 := by
  cases e with
  | binary op left right =>
    have hop : 5 ≤ op.precedence := by cases op <;> decide
    have hparens : needsParens prec op.precedence = true := by
      simp only [needsParens, Bool.or_eq_true, decide_eq_true_eq]
      exact .inl (by omega)
    simp [Expr.level, hparens]
  | _ => rfl

/-- The tokens of an operand do not depend on the place. -/
theorem toks_eq_of_level {prec : Nat} {e : Expr} (h : e.level prec = 0) : e.toks prec = e.toks 0 := by
  cases e with
  | binary op left right =>
    have hop : op.precedence ≠ 0 := by cases op <;> decide
    have hparens : needsParens prec op.precedence = true := by
      by_contra hn
      exact hop (by simpa [Expr.level, hn] using h)
    have hzero : needsParens 0 op.precedence = true := by
      simp only [needsParens, Bool.or_eq_true, decide_eq_true_eq]
      exact .inl (Nat.pos_of_ne_zero hop)
    simp only [Expr.toks, hparens, hzero]
  | _ => rfl

/-- The tokens of an operator with its operands, without parentheses. -/
def bodyToks (op : BinaryOp) (left right : Expr) : List Token :=
  left.toks op.precedence ++ .mark op.symbol :: right.toks op.rightPlace

theorem toks_binary (prec : Nat) (op : BinaryOp) (left right : Expr) :
    (Expr.binary op left right).toks prec =
      if needsParens prec op.precedence then .mark "(" :: (bodyToks op left right ++ [.mark ")"])
      else bodyToks op left right := rfl

/-- What may follow an operator of the precedence `p` with its operands. -/
def Follows (p : Nat) (ts : List Token) : Prop := Stops (p - 1) ts ∧ StopsPostfix ts

theorem Follows.mono {p k : Nat} {ts : List Token} (h : Follows p ts) (hk : k ≤ p) : Follows k ts :=
  ⟨fun s op hs hop => Nat.lt_of_le_of_lt (Nat.sub_le_sub_right hk 1) (h.1 s op hs hop), h.2⟩

/-- Neither infix operator nor field access begins with a comma or a closing parenthesis. -/
theorem follows_close {s : String} (hs : s = ")" ∨ s = ",") (p : Nat) (ts : List Token) : Follows p (.mark s :: ts) := by
  refine ⟨fun s' op hs' hop => ?_, ?_⟩
  · obtain rfl : s = s' := Token.mark.inj (Option.some.inj hs')
    have hnone : operator? s = none := by rcases hs with rfl | rfl <;> decide
    rw [hnone] at hop
    cases hop
  · rcases hs with rfl | rfl <;> simp [StopsPostfix]

theorem reaches_word {name : String} {rest : List Token} (h : StopsPostfix rest) :
    Reaches (fun n => readUnary n (wordToks name ++ rest)) (readWord name, rest) := by
  have hvar : ∀ w, Reaches (fun n => readUnary n (.word w :: rest)) (.var w, rest) := fun w =>
    reaches_readUnary_var h.2.2 (reaches_readPostfix_stop h)
  by_cases hminus : name.toList.head? = some '-'
  · obtain ⟨cs, hcs⟩ := List.head?_eq_some_iff.1 hminus
    rw [(word_minus hcs).1, (word_minus hcs).2]
    exact reaches_readUnary_sign (by decide) (hvar _)
  · rw [(word_plain hminus).1, (word_plain hminus).2]
    exact hvar _

/-- The sign that the tokens of an operand begin with. -/
def Expr.sign? : Expr → Option String
  | .unary op _ => some op
  | e => if e.isNegative then some "-" else none

theorem sign?_of_isObject {e : Expr} (h : e.isObject = true) : e.sign? = none := by
  cases e with
  | unary | assign | raw => cases h
  | var name => simpa [Expr.isObject, Expr.sign?] using h
  | _ => rfl

/-- What an expression begins with: a word, a parenthesis, or a sign, which is its own if it stands as an operand. -/
def Expr.Begins (e : Expr) (prec : Nat) (t : Token) : Prop :=
  (∃ w, t = .word w) ∨ t = .mark "(" ∨ ∃ s ∈ signs, t = .mark s ∧ (e.level prec = 0 → e.sign? = some s)

theorem Expr.Begins.of_object {e : Expr} {t : Token} (h : e.Begins 0 t) (he : e.isObject = true) :
    (∃ w, t = .word w) ∨ t = .mark "(" := by
  refine h.imp_right fun h => h.resolve_right ?_
  rintro ⟨s, -, -, hsign⟩
  have hsign := hsign (level_eq_zero (Nat.zero_le 4) e)
  rw [sign?_of_isObject he] at hsign
  cases hsign

theorem head_toks (prec : Nat) {e : Expr} (hp : e.Printable) : ∃ t ts, e.toks prec = t :: ts ∧ e.Begins prec t := by
  cases e with
  | raw | assign => exact hp.elim
  | var name =>
    by_cases hminus : name.toList.head? = some '-'
    · obtain ⟨cs, hcs⟩ := List.head?_eq_some_iff.1 hminus
      refine ⟨_, _, (word_minus hcs).1, .inr (.inr ⟨"-", by decide, rfl, fun _ => ?_⟩)⟩
      simp [Expr.sign?, Expr.isNegative, hminus]
    · exact ⟨_, _, (word_plain hminus).1, .inl ⟨_, rfl⟩⟩
  | call fn args => exact ⟨_, _, rfl, .inl ⟨fn, rfl⟩⟩
  | unary op arg => exact ⟨_, _, rfl, .inr (.inr ⟨op, hp.1, rfl, fun _ => rfl⟩)⟩
  | field arrow object name =>
    obtain ⟨t, ts, hts, ht⟩ := head_toks 0 hp.2
    exact ⟨t, _, by rw [Expr.toks, hts]; rfl, (ht.of_object hp.1).imp_right .inl⟩
  | method arrow object name args =>
    obtain ⟨t, ts, hts, ht⟩ := head_toks 0 hp.2.1
    exact ⟨t, _, by rw [Expr.toks, hts]; rfl, (ht.of_object hp.1).imp_right .inl⟩
  | binary op left right =>
    rw [toks_binary]
    by_cases hparens : needsParens prec op.precedence = true
    · rw [if_pos hparens]
      exact ⟨_, _, rfl, .inr (.inl rfl)⟩
    · obtain ⟨t, ts, hts, ht⟩ := head_toks op.precedence hp.2.1
      refine ⟨t, _, by rw [if_neg hparens, bodyToks, hts]; rfl, ht.imp_right (.imp_right ?_)⟩
      rintro ⟨s, hs, rfl, -⟩
      refine ⟨s, hs, rfl, fun hlevel => ?_⟩
      rw [Expr.level, if_neg hparens] at hlevel
      exact absurd hlevel (by cases op <;> decide)

/-- The first token of an argument does not end the call. -/
theorem head_toks_ne (prec : Nat) {e : Expr} (hp : e.Printable) (rest : List Token) :
    (e.toks prec ++ rest).head? ≠ some (.mark ")") := by
  obtain ⟨t, ts, hts, ht⟩ := head_toks prec hp
  rw [hts]
  intro hhead
  obtain rfl : t = .mark ")" := Option.some.inj hhead
  simp [Expr.Begins, signs] at ht

/-! ### Reading back -/

/-- The printed expression is read as `Expr.read` says, wherever it stands. -/
structure Readable (e : Expr) : Prop where
  /-- In front of a field access. -/
  object : e.isObject = true → ∀ {rest : List Token} {r : Expr × List Token}, rest.head? ≠ some (.mark "(") →
    Reaches (fun n => readPostfix n e.read rest) r → Reaches (fun n => readUnary n (e.toks 0 ++ rest)) r
  /-- Behind a sign, or in parentheses. -/
  operand : ∀ {prec : Nat} {rest : List Token}, e.level prec = 0 → StopsPostfix rest →
    Reaches (fun n => readUnary n (e.toks prec ++ rest)) (e.read, rest)
  /-- As the left operand of what follows. -/
  start : ∀ {prec limit : Nat} {rest : List Token} {r : Expr × List Token}, e.level prec ≤ limit →
    Follows (e.level prec) rest → Reaches (fun n => readRest n limit e.read rest) r →
    Reaches (fun n => readBinary n limit (e.toks prec ++ rest)) r
  /-- As the right operand of an operator, in a place for its precedence. -/
  attach : ∀ {op : BinaryOp} {before : Expr} {limit : Nat} {rest : List Token} {r : Expr × List Token},
    op.precedence ≤ 14 → op.precedence ≤ limit → Follows op.precedence rest →
    Reaches (fun n => readRest n limit (Expr.attach before op e) rest) r →
    Reaches (fun n => readRest n limit before (.mark op.symbol :: (e.toks op.precedence ++ rest))) r

section Constructors

variable {e left right : Expr} {op : BinaryOp} {limit : Nat} {rest : List Token} {r : Expr × List Token}

attribute [local simp] Expr.read Expr.attach

/-- The right operand of an operator that binds looser than it. -/
theorem reaches_right {before : Expr} {prec : Nat} (hop : op.precedence ≤ 14) (hlimit : op.precedence ≤ limit)
    (hlevel : e.level prec ≤ op.precedence - 1) (hrest : Follows op.precedence rest)
    (he : ∀ {limit : Nat} {rest : List Token} {r : Expr × List Token}, e.level prec ≤ limit →
      Follows (e.level prec) rest → Reaches (fun n => readRest n limit e.read rest) r →
      Reaches (fun n => readBinary n limit (e.toks prec ++ rest)) r)
    (h : Reaches (fun n => readRest n limit (.binary op before e.read) rest) r) :
    Reaches (fun n => readRest n limit before (.mark op.symbol :: (e.toks prec ++ rest))) r :=
  reaches_readRest (operator?_symbol hop) hlimit
    (he hlevel (hrest.mono (Nat.le_trans hlevel (Nat.sub_le _ _))) (reaches_readRest_stop hrest.1)) h

/-- An expression without an infix operator at its top is readable if it is as an operand. -/
theorem Readable.of_operand (hlevel : ∀ prec, e.level prec = 0)
    (hattach : ∀ before op, Expr.attach before op e = .binary op before e.read)
    (hobject : e.isObject = true → ∀ {rest : List Token} {r : Expr × List Token}, rest.head? ≠ some (.mark "(") →
      Reaches (fun n => readPostfix n e.read rest) r → Reaches (fun n => readUnary n (e.toks 0 ++ rest)) r)
    (hoperand : ∀ {rest : List Token}, StopsPostfix rest →
      Reaches (fun n => readUnary n (e.toks 0 ++ rest)) (e.read, rest)) : Readable e := by
  have hunary : ∀ {prec : Nat} {rest : List Token}, StopsPostfix rest →
      Reaches (fun n => readUnary n (e.toks prec ++ rest)) (e.read, rest) := fun {prec _} hrest => by
    rw [toks_eq_of_level (hlevel prec)]
    exact hoperand hrest
  refine ⟨hobject, fun _ hrest => hunary hrest, fun _ hrest h => reaches_readBinary (hunary hrest.2) h, ?_⟩
  intro op before limit rest r hop hlimit hrest h
  rw [hattach] at h
  exact reaches_right hop hlimit (by rw [hlevel]; exact Nat.zero_le _) hrest
    (fun _ hrest h => reaches_readBinary (hunary hrest.2) h) h

/-- An object is readable if a field access can stand behind it. -/
theorem Readable.of_object (hlevel : ∀ prec, e.level prec = 0)
    (hattach : ∀ before op, Expr.attach before op e = .binary op before e.read)
    (hobject : ∀ {rest : List Token} {r : Expr × List Token}, rest.head? ≠ some (.mark "(") →
      Reaches (fun n => readPostfix n e.read rest) r → Reaches (fun n => readUnary n (e.toks 0 ++ rest)) r) :
    Readable e :=
  .of_operand hlevel hattach (fun _ => hobject) fun hrest => hobject hrest.2.2 (reaches_readPostfix_stop hrest)

theorem readable_var (name : String) : Readable (.var name) := by
  refine .of_operand (fun _ => rfl) (fun _ _ => by simp) ?_ fun hrest => reaches_word hrest
  intro hobject rest r hrest h
  have hsign : name.toList.head? ≠ some '-' := by simpa [Expr.isObject, Expr.isNegative] using hobject
  have hplain := word_plain hsign
  rw [Expr.read, hplain.2] at h
  rw [Expr.toks, hplain.1]
  exact reaches_readUnary_var hrest h

theorem readable_unary {s : String} (hs : s ∈ signs) (he : Readable e) : Readable (.unary s e) :=
  .of_operand (fun _ => rfl) (fun _ _ => by simp) (fun h => by cases h) fun hrest =>
    reaches_readUnary_sign hs (he.operand (level_eq_zero (by omega) e) hrest)

theorem readable_field {arrow : Bool} {name : String} (hobject : e.isObject = true) (he : Readable e) :
    Readable (.field arrow e name) := by
  refine .of_object (fun _ => rfl) (fun _ _ => by simp) fun hrest h => ?_
  rw [Expr.toks, List.append_assoc]
  exact he.object hobject (by cases arrow <;> simp [access]) (reaches_readPostfix_field hrest h)

/-- The arguments of a call are read up to its closing parenthesis. -/
def ArgsReadable (es : List Expr) : Prop :=
  ∀ {rest : List Token}, Reaches (fun n => readArgs n (Expr.argToks es ++ .mark ")" :: rest)) (Expr.readAll es, rest)

theorem readable_call {fn : String} {args : List Expr} (hargs : ArgsReadable args) : Readable (.call fn args) := by
  refine .of_object (fun _ => rfl) (fun _ _ => by simp) fun _ h => ?_
  rw [Expr.toks, List.cons_append, List.cons_append, List.append_assoc]
  rw [Expr.read] at h
  exact reaches_readUnary_call hargs h

theorem readable_method {arrow : Bool} {name : String} {args : List Expr} (hobject : e.isObject = true)
    (he : Readable e) (hargs : ArgsReadable args) : Readable (.method arrow e name args) := by
  refine .of_object (fun _ => rfl) (fun _ _ => by simp) fun _ h => ?_
  rw [Expr.toks, List.append_assoc, List.cons_append, List.cons_append, List.cons_append, List.append_assoc]
  rw [Expr.read] at h
  exact he.object hobject (by cases arrow <;> simp [access]) (reaches_readPostfix_method hargs h)

/-- An operator with its operands, without parentheses. -/
theorem reaches_body (hop : op.precedence ≤ 14) (hl : Readable left) (hr : Readable right)
    (hlimit : op.precedence ≤ limit) (hrest : Follows op.precedence rest)
    (h : Reaches (fun n => readRest n limit (Expr.binary op left right).read rest) r) :
    Reaches (fun n => readBinary n limit (bodyToks op left right ++ rest)) r := by
  have hpos : 0 < op.precedence := by cases op <;> decide
  have hsymbol : Follows op.precedence (.mark op.symbol :: (right.toks op.rightPlace ++ rest)) :=
    follows_symbol op _ (Nat.sub_lt hpos Nat.one_pos) hop
  rw [bodyToks, List.append_assoc, List.cons_append]
  refine hl.start (Nat.le_trans (level_le _ _) hlimit) (hsymbol.mono (level_le _ _)) ?_
  rw [Expr.read] at h
  by_cases hleft : op.leftOnly = true
  · rw [if_pos hleft] at h
    rw [BinaryOp.rightPlace, if_pos hleft]
    exact reaches_right hop hlimit (level_le _ _) hrest hr.start h
  · rw [if_neg hleft] at h
    rw [BinaryOp.rightPlace, if_neg hleft]
    exact hr.attach hop hlimit hrest h

theorem needsParens_self (p : Nat) : needsParens p p = false := by
  simp only [needsParens, Nat.lt_irrefl, decide_false, Bool.false_or, Bool.and_eq_false_iff, decide_eq_false_iff_not]
  omega

/-- A chain goes on with the operands of an operator of the same precedence. -/
theorem reaches_chain {op' : BinaryOp} {before : Expr} (hop : op.precedence ≤ 14) (hl : Readable left)
    (hr : Readable right) (hsame : op'.precedence = op.precedence) (hlimit : op.precedence ≤ limit)
    (hrest : Follows op.precedence rest)
    (h : Reaches (fun n => readRest n limit (Expr.attach before op (.binary op' left right)) rest) r) :
    Reaches (fun n => readRest n limit before (.mark op.symbol :: (bodyToks op' left right ++ rest))) r := by
  have hpos : 0 < op'.precedence := by cases op' <;> decide
  rw [Expr.attach, if_pos hsame] at h
  rw [bodyToks, List.append_assoc, List.cons_append, hsame]
  have hsymbol : Follows op.precedence (.mark op'.symbol :: (right.toks op'.rightPlace ++ rest)) :=
    follows_symbol op' _ (by omega) (by omega)
  refine hl.attach hop hlimit hsymbol ?_
  by_cases hleft : op'.leftOnly = true
  · rw [if_pos hleft] at h
    rw [BinaryOp.rightPlace, if_pos hleft]
    exact reaches_right (by omega) (by omega) (level_le _ _) (hsame ▸ hrest) hr.start h
  · rw [if_neg hleft] at h
    rw [BinaryOp.rightPlace, if_neg hleft]
    exact hr.attach (by omega) (by omega) (hsame ▸ hrest) h

theorem attach_binary_of_ne {op' : BinaryOp} {before : Expr} (h : op'.precedence ≠ op.precedence) :
    Expr.attach before op (.binary op' left right) = .binary op before (Expr.binary op' left right).read := by
  rw [Expr.attach, if_neg h, Expr.read]
  by_cases hleft : op'.leftOnly = true
  · rw [if_pos hleft, if_pos hleft]
  · rw [if_neg hleft, if_neg hleft]

theorem readable_binary (hop : op.precedence ≤ 14) (hl : Readable left) (hr : Readable right) :
    Readable (.binary op left right) := by
  have hobject : ∀ {rest : List Token} {r : Expr × List Token},
      Reaches (fun n => readPostfix n (Expr.binary op left right).read rest) r →
      Reaches (fun n => readUnary n ((Expr.binary op left right).toks 0 ++ rest)) r := by
    intro rest r h
    have hparens : needsParens 0 op.precedence = true := by cases op <;> decide
    rw [toks_binary, if_pos hparens, List.cons_append, List.append_assoc]
    exact reaches_readUnary_parens (reaches_body hop hl hr hop (follows_close (.inl rfl) _ _)
      (reaches_readRest_stop (follows_close (.inl rfl) 15 _).1)) h
  have hoperand : ∀ {prec : Nat} {rest : List Token}, (Expr.binary op left right).level prec = 0 → StopsPostfix rest →
      Reaches (fun n => readUnary n ((Expr.binary op left right).toks prec ++ rest))
        ((Expr.binary op left right).read, rest) := by
    intro prec rest hlevel hrest
    rw [toks_eq_of_level hlevel]
    exact hobject (reaches_readPostfix_stop hrest)
  have hstart : ∀ {prec limit : Nat} {rest : List Token} {r : Expr × List Token},
      (Expr.binary op left right).level prec ≤ limit → Follows ((Expr.binary op left right).level prec) rest →
      Reaches (fun n => readRest n limit (Expr.binary op left right).read rest) r →
      Reaches (fun n => readBinary n limit ((Expr.binary op left right).toks prec ++ rest)) r := by
    intro prec limit rest r hlimit hrest h
    by_cases hparens : needsParens prec op.precedence = true
    · exact reaches_readBinary (hoperand (by simp [Expr.level, hparens]) hrest.2) h
    · rw [Expr.level, if_neg hparens] at hlimit hrest
      rw [toks_binary, if_neg hparens]
      exact reaches_body hop hl hr hlimit hrest h
  refine ⟨fun _ _ _ _ h => hobject h, hoperand, hstart, ?_⟩
  intro op' before limit rest r hop' hlimit hrest h
  by_cases hsame : op.precedence = op'.precedence
  · have hparens : needsParens op'.precedence op.precedence = false := by rw [hsame, needsParens_self]
    rw [toks_binary, hparens]
    exact reaches_chain hop' hl hr hsame hlimit hrest h
  · rw [attach_binary_of_ne hsame] at h
    have hlevel : (Expr.binary op left right).level op'.precedence ≤ op'.precedence - 1 := by
      have hle := level_le op'.precedence (.binary op left right)
      by_cases hparens : needsParens op'.precedence op.precedence = true
      · simp [Expr.level, hparens]
      · rw [Expr.level, if_neg hparens] at hle ⊢
        omega
    exact reaches_right hop' hlimit hlevel hrest hstart h

theorem argsReadable_cons {es : List Expr} (hp : e.Printable) (he : Readable e) (hes : ArgsReadable es) :
    ArgsReadable (e :: es) := by
  intro rest
  have harg : ∀ {s : String} {ts : List Token}, s = ")" ∨ s = "," →
      Reaches (fun n => readBinary n 14 (e.toks 18 ++ .mark s :: ts)) (e.read, .mark s :: ts) := fun hs =>
    he.start (level_le_of_printable hp 18) (follows_close hs _ _) (reaches_readRest_stop (follows_close hs 15 _).1)
  cases es with
  | nil => exact reaches_readArgs_one (head_toks_ne 18 hp _) (harg (.inl rfl))
  | cons e' es =>
    have hsplit : Expr.argToks (e :: e' :: es) ++ .mark ")" :: rest =
        e.toks 18 ++ .mark "," :: (Expr.argToks (e' :: es) ++ .mark ")" :: rest) := by
      simp [Expr.argToks]
    rw [hsplit, Expr.readAll]
    exact reaches_readArgs_cons (head_toks_ne 18 hp _) (harg (.inr rfl)) hes

end Constructors

mutual

/-- Every printable expression is read back. -/
theorem readable_of_printable (e : Expr) (hp : e.Printable) : Readable e := by
  cases e with
  | var name => exact readable_var name
  | raw s => exact hp.elim
  | assign target value => exact hp.elim
  | call fn args => exact readable_call (argsReadable_of_printable args hp)
  | field arrow object name => exact readable_field hp.1 (readable_of_printable object hp.2)
  | method arrow object name args =>
    exact readable_method hp.1 (readable_of_printable object hp.2.1) (argsReadable_of_printable args hp.2.2)
  | unary op arg => exact readable_unary hp.1 (readable_of_printable arg hp.2)
  | binary op left right =>
    exact readable_binary hp.1 (readable_of_printable left hp.2.1) (readable_of_printable right hp.2.2)

theorem argsReadable_of_printable (es : List Expr) (hp : Expr.AllPrintable es) : ArgsReadable es := by
  cases es with
  | nil => exact reaches_readArgs_nil
  | cons e es =>
    exact argsReadable_cons hp.1 (readable_of_printable e hp.1) (argsReadable_of_printable es hp.2)

end

/-- The tokens of a printable expression, in any place, are read as `Expr.read` says. -/
theorem reaches_toks {e : Expr} (hp : e.Printable) (prec : Nat) :
    Reaches (fun n => readBinary n 14 (e.toks prec)) (e.read, []) := by
  have hend : ∀ k, Follows k [] := fun k => ⟨fun _ _ hs => absurd hs (by simp), by simp [StopsPostfix]⟩
  have h := (readable_of_printable e hp).start (level_le_of_printable hp prec) (hend _)
    (reaches_readRest_stop (hend 15).1)
  rwa [List.append_nil] at h

end Peephole.Cpp
