import Peephole.Proofs.Cpp.Printed
import Peephole.Proofs.Machine.Word

/-!
# Values of C++ expressions

Generated code computes with numbers of a fixed width and with plain integers.  A plain integer that meets a number is
brought to 64 bits first, and to 32 bits where it says how far to shift.

* `Val`, `Expr.eval` : the value of an expression, where the names in it stand for values.
* `apply_assoc` : an operand of the same precedence may join the chain before it.
* `eval_read` : **reading a printed expression back does not change its value.**
-/

namespace Peephole.Cpp

open Machine
open Program (ArithOp)

/-- A value of generated code. -/
inductive Val where
  | number (w n : Nat)
  | plain (z : Int)
  /-- A constant of `w` bits in the program that is rewritten. -/
  | constant (w n : Nat)
  /-- Another value of `w` bits in that program. -/
  | node (w : Nat)
  | type (w : Nat)
  deriving DecidableEq

/-- The number that a word of digits stands for. -/
def numeral? (s : String) : Option Nat :=
  if s.toList ≠ [] ∧ s.toList.all Char.isDigit then some (Nat.ofDigitChars 10 s.toList 0) else none

theorem numeral?_repr (n : Nat) : numeral? n.repr = some n := by
  have hdigits : (Nat.toDigits 10 n).all Char.isDigit = true :=
    List.all_eq_true.2 fun c hc => Nat.isDigit_of_mem_toDigits (by omega) (by omega) hc
  rw [numeral?, Nat.toList_repr, if_pos ⟨Nat.toDigits_ne_nil, hdigits⟩, Nat.ofDigitChars_ten_toDigits]

/-- The operation of an infix operator on numbers. -/
def BinaryOp.arith? : BinaryOp → Option ArithOp
  | .mul => some .mul | .add => some .add | .sub => some .sub
  | .bitAnd => some .and | .bitOr => some .or | .bitXor => some .xor
  | .shiftLeft => some .shl
  | _ => none

/-- The operation of a method of numbers. -/
def methodArith? (name : String) : Option ArithOp :=
  [("sdiv", .sdiv), ("udiv", .udiv), ("srem", .srem), ("urem", .urem), ("ashr", .ashr), ("lshr", .lshr)].lookup name

/-- The operation stops the program: it divides by zero, or shifts by the width or more. -/
def Stopped (w : Nat) : ArithOp → Nat → Prop
  | .udiv, b | .sdiv, b | .urem, b | .srem, b => b = 0
  | .shl, b | .lshr, b | .ashr, b => w ≤ b
  | .add, _ | .sub, _ | .mul, _ | .and, _ | .or, _ | .xor, _ => False

instance (w : Nat) : (op : ArithOp) → (b : Nat) → Decidable (Stopped w op b)
  | .udiv, b | .sdiv, b | .urem, b | .srem, b => inferInstanceAs (Decidable (b = 0))
  | .shl, b | .lshr, b | .ashr, b => inferInstanceAs (Decidable (w ≤ b))
  | .add, _ | .sub, _ | .mul, _ | .and, _ | .or, _ | .xor, _ => inferInstanceAs (Decidable False)

/-- The second operand of an operation on numbers of `w` bits. -/
def second (w : Nat) (op : ArithOp) : Val → Option Nat
  | .number w' n => if w' = w then some n else none
  | .plain z =>
    match op with
    | .add | .sub => some (wrap w (wrap 64 z))
    | .shl | .lshr | .ashr => some (wrap 32 z)
    | _ => none
  | _ => none

/-- An operation on numbers. -/
def applyArith (op : ArithOp) : Val → Val → Option Val
  | .number w n, b => (second w op b).bind fun m => if Stopped w op m then none else some (.number w (result w op n m))
  | _, _ => none

/-- The plain integers that have no negative: the least ones of 32 and of 64 bits. -/
def Least (z : Int) : Prop := z = -2 ^ 31 ∨ z = -2 ^ 63

instance (z : Int) : Decidable (Least z) := inferInstanceAs (Decidable (_ ∨ _))

/-- A sign in front of a value. -/
def applySign (s : String) : Val → Option Val
  | .number w n =>
    if s = "-" then some (.number w (wrap w (-n)))
    else if s = "~" then some (.number w (wrap w (-n - 1)))
    else none
  | .plain z =>
    if s = "-" then (if Least z then none else some (.plain (-z)))
    else if s = "~" then some (.plain (-z - 1))
    else none
  | _ => none

/-- A field access or a call of a method without arguments. -/
def applyGetter (name : String) : Val → Option Val
  | .constant w n =>
    if name = "getValue" then some (.number w n) else if name = "getType" then some (.type w) else none
  | .node w => if name = "getType" then some (.type w) else none
  | .type w => if name = "getScalarSizeInBits" then some (.plain w) else none
  | _ => none

def applyMethod (name : String) (object : Val) : List Val → Option Val
  | [] => applyGetter name object
  | [b] => (methodArith? name).bind fun op => applyArith op object b
  | _ => none

def applyCall (fn : String) : List Val → Option Val
  | [.plain w, .plain z] => if fn = "APInt" then some (.number w.toNat (wrap w.toNat (wrap 64 z))) else none
  | _ => none

/-- The value of a word: a number, which may have a minus sign in front, or a name. -/
def evalWord (σ : String → Option Val) (name : String) : Option Val :=
  match name.toList with
  | '-' :: cs => (numeral? (String.ofList cs)).map fun n : Nat => .plain (-(n : Int))
  | _ =>
    match numeral? name with
    | some n => some (.plain n)
    | none => σ name

mutual

/-- The value of an expression where names stand for the values that `σ` gives. -/
def Expr.eval (σ : String → Option Val) : Expr → Option Val
  | .var name => evalWord σ name
  | .call fn args => (Expr.evalAll σ args).bind (applyCall fn)
  | .method _ object name args =>
    (object.eval σ).bind fun v => (Expr.evalAll σ args).bind (applyMethod name v)
  | .unary op arg => (arg.eval σ).bind (applySign op)
  | .binary op left right =>
    (left.eval σ).bind fun a => (right.eval σ).bind fun b => op.arith?.bind fun f => applyArith f a b
  | .field _ _ _ | .assign _ _ | .raw _ => none

def Expr.evalAll (σ : String → Option Val) : List Expr → Option (List Val)
  | [] => some []
  | e :: es => (e.eval σ).bind fun v => (Expr.evalAll σ es).map (v :: ·)

end

/-! ### Chains -/

/-- The operations of an infix operator and of one that may follow it in a chain. -/
def Chained (f f' : ArithOp) : Prop :=
  f' = f ∧ (f = .mul ∨ f = .and ∨ f = .or ∨ f = .xor) ∨ f = .add ∧ (f' = .add ∨ f' = .sub)

variable {op : BinaryOp} {f f' : ArithOp}

theorem chained_of_precedence {op' : BinaryOp} (hf : op.arith? = some f)
    (hf' : op'.arith? = some f') (hleft : op.leftOnly = false) (hsame : op'.precedence = op.precedence) :
    Chained f f' := by
  cases op <;> simp only [BinaryOp.leftOnly, BinaryOp.arith?, reduceCtorEq, Option.some.injEq] at hleft hf <;>
    subst hf <;> cases op' <;>
    simp only [BinaryOp.arith?, BinaryOp.precedence, reduceCtorEq, Option.some.injEq, Nat.reduceEqDiff] at hf' hsame <;>
    subst hf' <;> simp [Chained]

/-- The operands of a chain may be grouped to the left. -/
theorem result_assoc {w : Nat} (h : Chained f f') (a b c : Nat) :
    result w f a (result w f' b c) = result w f' (result w f a b) c := by
  rcases h with ⟨rfl, rfl | rfl | rfl | rfl⟩ | ⟨rfl, rfl | rfl⟩
  · rw [result, result, result, result, wrap_eq_wrap_iff]
    calc (a : Int) * wrap w (b * c) ≡ a * (b * c) [ZMOD 2 ^ w] := (wrap_modEq w _).mul_left _
      _ = a * b * c := (mul_assoc ..).symm
      _ ≡ wrap w (a * b) * c [ZMOD 2 ^ w] := ((wrap_modEq w _).mul_right _).symm
  · exact (Nat.and_assoc a b c).symm
  · exact (Nat.or_assoc a b c).symm
  · exact (Nat.xor_assoc a b c).symm
  · rw [result, result, result, result, wrap_eq_wrap_iff]
    calc (a : Int) + wrap w (b + c) ≡ a + (b + c) [ZMOD 2 ^ w] := (wrap_modEq w _).add_left _
      _ = a + b + c := (add_assoc ..).symm
      _ ≡ wrap w (a + b) + c [ZMOD 2 ^ w] := ((wrap_modEq w _).add_right _).symm
  · rw [result, result, result, result, wrap_eq_wrap_iff]
    calc (a : Int) + wrap w (b - c) ≡ a + (b - c) [ZMOD 2 ^ w] := (wrap_modEq w _).add_left _
      _ = a + b - c := by ring
      _ ≡ wrap w (a + b) - c [ZMOD 2 ^ w] := ((wrap_modEq w _).sub_right _).symm

theorem not_stopped_of_chained (h : Chained f f') (w m : Nat) : ¬ Stopped w f m ∧ ¬ Stopped w f' m := by
  rcases h with ⟨rfl, rfl | rfl | rfl | rfl⟩ | ⟨rfl, rfl | rfl⟩ <;> exact ⟨id, id⟩

theorem applyArith_eq_some {a b v : Val} (h : applyArith f a b = some v) :
    ∃ w n m, a = .number w n ∧ second w f b = some m ∧ ¬ Stopped w f m ∧ v = .number w (result w f n m) := by
  cases a with
  | number w n =>
    obtain ⟨m, hm, h⟩ := Option.bind_eq_some_iff.1 h
    by_cases hs : Stopped w f m
    · rw [if_pos hs] at h
      cases h
    · rw [if_neg hs] at h
      exact ⟨w, n, m, rfl, hm, hs, (Option.some.inj h).symm⟩
  | _ => cases h

theorem applyArith_number {w n m : Nat} {b : Val} (hb : second w f b = some m) (hs : ¬ Stopped w f m) :
    applyArith f (.number w n) b = some (.number w (result w f n m)) := by
  rw [applyArith, hb, Option.bind_some, if_neg hs]

theorem apply_assoc (h : Chained f f') {a b c d v : Val} (hbc : applyArith f' b c = some d)
    (had : applyArith f a d = some v) : ∃ u, applyArith f a b = some u ∧ applyArith f' u c = some v := by
  obtain ⟨w', x, m, rfl, hm, hs', rfl⟩ := applyArith_eq_some hbc
  obtain ⟨w, n, k, rfl, hk, hs, rfl⟩ := applyArith_eq_some had
  -- Both operations are on numbers of one width, or the outer one would not be defined.
  have hw : w' = w := by
    by_contra hne
    rw [second, if_neg hne] at hk
    cases hk
  subst hw
  rw [second, if_pos rfl] at hk
  obtain rfl := Option.some.inj hk
  refine ⟨.number w' (result w' f n x), applyArith_number (if_pos rfl) (not_stopped_of_chained h w' x).1, ?_⟩
  rw [applyArith_number hm hs', result_assoc h]

/-! ### Reading back -/

section Reading

variable {σ : String → Option Val}

theorem eval_binary_eq_some {left right : Expr} {v : Val} (h : (Expr.binary op left right).eval σ = some v) :
    ∃ f a b, op.arith? = some f ∧ left.eval σ = some a ∧ right.eval σ = some b ∧ applyArith f a b = some v := by
  obtain ⟨a, ha, h⟩ := Option.bind_eq_some_iff.1 h
  obtain ⟨b, hb, h⟩ := Option.bind_eq_some_iff.1 h
  obtain ⟨f, hf, h⟩ := Option.bind_eq_some_iff.1 h
  exact ⟨f, a, b, hf, ha, hb, h⟩

theorem eval_binary {left right : Expr} {a b v : Val} (hf : op.arith? = some f)
    (ha : left.eval σ = some a) (hb : right.eval σ = some b) (h : applyArith f a b = some v) :
    (Expr.binary op left right).eval σ = some v := by
  rw [Expr.eval, ha, Option.bind_some, hb, Option.bind_some, hf, Option.bind_some, h]

/-- What is read as the expression, and as the operand of a chain, has its value. -/
structure Keeps (σ : String → Option Val) (e : Expr) : Prop where
  read : ∀ {v : Val}, e.eval σ = some v → e.read.eval σ = some v
  attach : ∀ {op : BinaryOp} {f : ArithOp} {before : Expr} {a b v : Val}, op.leftOnly = false → op.arith? = some f →
    before.eval σ = some a → e.eval σ = some b → applyArith f a b = some v →
    (Expr.attach before op e).eval σ = some v

/-- An expression without an infix operator at its top keeps its value in a chain. -/
theorem Keeps.of_read {e : Expr} (hattach : ∀ before op, Expr.attach before op e = .binary op before e.read)
    (hread : ∀ {v : Val}, e.eval σ = some v → e.read.eval σ = some v) : Keeps σ e :=
  ⟨hread, fun {_ _ before _ _ _} _ hf ha hb h => by
    rw [hattach before]
    exact eval_binary hf ha (hread hb) h⟩

theorem keeps_binary {left right : Expr} (hl : Keeps σ left) (hr : Keeps σ right) :
    Keeps σ (.binary op left right) := by
  have hread : ∀ {v : Val}, (Expr.binary op left right).eval σ = some v →
      (Expr.binary op left right).read.eval σ = some v := by
    intro v h
    obtain ⟨f, a, b, hf, ha, hb, hv⟩ := eval_binary_eq_some h
    rw [Expr.read]
    by_cases hleft : op.leftOnly = true
    · rw [if_pos hleft]
      exact eval_binary hf (hl.read ha) (hr.read hb) hv
    · rw [if_neg hleft]
      exact hr.attach (by simpa using hleft) hf (hl.read ha) hb hv
  refine ⟨hread, ?_⟩
  intro op' f before a b v hleft' hf ha hb hv
  by_cases hsame : op.precedence = op'.precedence
  · obtain ⟨f', x, y, hf', hx, hy, hxy⟩ := eval_binary_eq_some hb
    obtain ⟨u, hu, huv⟩ := apply_assoc (chained_of_precedence hf hf' hleft' hsame) hxy hv
    have hbefore := hl.attach hleft' hf ha hx hu
    rw [Expr.attach, if_pos hsame]
    by_cases hleft : op.leftOnly = true
    · rw [if_pos hleft]
      exact eval_binary hf' hbefore (hr.read hy) huv
    · rw [if_neg hleft]
      exact hr.attach (by simpa using hleft) hf' hbefore hy huv
  · rw [attach_binary_of_ne hsame]
    exact eval_binary hf ha (hread hb) hv

theorem evalWord_minus {name : String} {cs : List Char} (h : name.toList = '-' :: cs) :
    evalWord σ name = (numeral? (String.ofList cs)).map fun n : Nat => .plain (-(n : Int)) := by
  unfold evalWord
  rw [h]
  rfl

theorem evalWord_of_numeral {name : String} {n : Nat} (h : numeral? name = some n) :
    evalWord σ name = some (.plain n) := by
  have hdigits : name.toList.all Char.isDigit = true := by
    by_contra hn
    rw [numeral?, if_neg fun hand => hn hand.2] at h
    cases h
  unfold evalWord
  split
  · next cs hcs =>
    -- A word of digits has no sign in front.
    rw [hcs] at hdigits
    exact absurd (List.all_eq_true.1 hdigits '-' (List.mem_cons_self ..)) (by decide)
  · rw [h]

theorem evalWord_toString (σ : String → Option Val) (k : Int) : evalWord σ (toString k) = some (.plain k) := by
  cases k with
  | ofNat k => exact evalWord_of_numeral (numeral?_repr k)
  | negSucc k =>
    have htext : (toString (Int.negSucc k)).toList = '-' :: (Nat.succ k).repr.toList := by
      show ("-" ++ (Nat.succ k).repr).toList = _
      rw [String.toList_append]
      rfl
    rw [evalWord_minus htext, String.ofList_toList, numeral?_repr]
    simp [Int.negSucc_eq]

theorem eval_readWord {name : String} {v : Val} (h : evalWord σ name = some v) : (readWord name).eval σ = some v := by
  by_cases hminus : name.toList.head? = some '-'
  · obtain ⟨cs, hcs⟩ := List.head?_eq_some_iff.1 hminus
    rw [evalWord_minus hcs] at h
    obtain ⟨n, hn, rfl⟩ := Option.map_eq_some_iff.1 h
    have hleast : ¬ Least (n : Int) := by
      unfold Least
      omega
    rw [(word_minus hcs).2, Expr.eval, Expr.eval, evalWord_of_numeral hn]
    simp [applySign, hleast]
  · rw [(word_plain hminus).2, Expr.eval, h]

mutual

theorem keeps (e : Expr) : Keeps σ e := by
  cases e with
  | var name =>
    refine .of_read (fun _ _ => by simp only [Expr.attach, Expr.read]) fun h => ?_
    rw [Expr.read]
    exact eval_readWord h
  | raw s | assign target value | field arrow object name =>
    exact .of_read (fun _ _ => by simp only [Expr.attach, Expr.read]) fun h => by cases h
  | call fn args =>
    refine .of_read (fun _ _ => by simp only [Expr.attach, Expr.read]) fun h => ?_
    obtain ⟨vs, hvs, hv⟩ := Option.bind_eq_some_iff.1 h
    rw [Expr.read, Expr.eval, evalAll_readAll args hvs, Option.bind_some, hv]
  | method arrow object name args =>
    refine .of_read (fun _ _ => by simp only [Expr.attach, Expr.read]) fun h => ?_
    obtain ⟨o, ho, h⟩ := Option.bind_eq_some_iff.1 h
    obtain ⟨vs, hvs, hv⟩ := Option.bind_eq_some_iff.1 h
    rw [Expr.read, Expr.eval, (keeps object).read ho, Option.bind_some, evalAll_readAll args hvs, Option.bind_some, hv]
  | unary op arg =>
    refine .of_read (fun _ _ => by simp only [Expr.attach, Expr.read]) fun h => ?_
    obtain ⟨a, ha, hv⟩ := Option.bind_eq_some_iff.1 h
    rw [Expr.read, Expr.eval, (keeps arg).read ha, Option.bind_some, hv]
  | binary op left right => exact keeps_binary (keeps left) (keeps right)

theorem evalAll_readAll (es : List Expr) {vs : List Val} (h : Expr.evalAll σ es = some vs) :
    Expr.evalAll σ (Expr.readAll es) = some vs := by
  cases es with
  | nil => exact h
  | cons e es =>
    obtain ⟨v, hv, h⟩ := Option.bind_eq_some_iff.1 h
    obtain ⟨vs', hvs, rfl⟩ := Option.map_eq_some_iff.1 h
    rw [Expr.readAll, Expr.evalAll, (keeps e).read hv, Option.bind_some, evalAll_readAll es hvs]
    rfl

end

theorem eval_read {e : Expr} {v : Val} (h : e.eval σ = some v) : e.read.eval σ = some v := (keeps e).read h

end Reading

end Peephole.Cpp
