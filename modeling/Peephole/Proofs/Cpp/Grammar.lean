import Peephole.Proofs.Cpp.Token

/-!
# Reading C++ expressions

A reader of expressions by precedence.  Operators of one precedence group to the left, a sign in front of an operand
binds tighter than every infix operator, and calls and fields bind tighter than signs.

* `readBinary` : an expression whose infix operators bind at least as tight as a limit.
* `Reaches` : a reader gives an answer as soon as it may take enough steps.
* `Reads` : what a text is read as; `Reads.unique` : a text is read in one way.
-/

namespace Peephole.Cpp

/-- The signs that stand in front of an operand. -/
def signs : List String := ["-", "~", "!", "*", "&", "+", "--", "++"]

/-- The infix operators inside an argument: neither an assignment nor a comma. -/
def operator? (s : String) : Option BinaryOp := (BinaryOp.ofSymbol? s).filter fun op => op.precedence ≤ 14

mutual

/-- An expression with infix operators up to the precedence `limit`, in at most `n` steps. -/
def readBinary : Nat → Nat → List Token → Option (Expr × List Token)
  | 0, _, _ => none
  | n + 1, limit, ts => do
    let (e, rest) ← readUnary n ts
    readRest n limit e rest

/-- The operators behind a left operand. -/
def readRest : Nat → Nat → Expr → List Token → Option (Expr × List Token)
  | 0, _, _, _ => none
  | n + 1, limit, left, ts =>
    match ts with
    | .mark s :: rest =>
      match operator? s with
      | some op =>
        if op.precedence ≤ limit then do
          -- The right operand binds tighter, so the operators of this precedence group to the left.
          let (right, rest) ← readBinary n (op.precedence - 1) rest
          readRest n limit (.binary op left right) rest
        else some (left, ts)
      | none => some (left, ts)
    | _ => some (left, ts)

/-- An operand with its signs. -/
def readUnary : Nat → List Token → Option (Expr × List Token)
  | 0, _ => none
  | n + 1, ts =>
    match ts with
    | .word w :: .mark "(" :: rest => do
      let (args, rest) ← readArgs n rest
      readPostfix n (.call w args) rest
    | .word w :: rest => readPostfix n (.var w) rest
    | .mark s :: rest =>
      if s = "(" then do
        let (e, rest) ← readBinary n 14 rest
        match rest with
        | .mark ")" :: rest => readPostfix n e rest
        | _ => none
      else if s ∈ signs then do
        let (e, rest) ← readUnary n rest
        some (.unary s e, rest)
      else none
    | [] => none

/-- The fields and calls behind an object. -/
def readPostfix : Nat → Expr → List Token → Option (Expr × List Token)
  | 0, _, _ => none
  | n + 1, e, ts =>
    match ts with
    | .mark s :: .word w :: .mark "(" :: rest =>
      if s = "->" ∨ s = "." then do
        let (args, rest) ← readArgs n rest
        readPostfix n (.method (s == "->") e w args) rest
      else some (e, ts)
    | .mark s :: .word w :: rest =>
      if s = "->" ∨ s = "." then readPostfix n (.field (s == "->") e w) rest else some (e, ts)
    | _ => some (e, ts)

/-- The arguments of a call, up to its closing parenthesis. -/
def readArgs : Nat → List Token → Option (List Expr × List Token)
  | 0, _ => none
  | n + 1, ts =>
    match ts with
    | .mark ")" :: rest => some ([], rest)
    | _ => do
      let p ← readBinary n 14 ts
      readArgsAfter n p

/-- What follows an argument: the end of the call or another argument. -/
def readArgsAfter : Nat → Expr × List Token → Option (List Expr × List Token)
  | 0, _ => none
  | n + 1, (e, ts) =>
    match ts with
    | .mark ")" :: rest => some ([e], rest)
    | .mark "," :: rest => do
      let (es, rest) ← readArgs n rest
      some (e :: es, rest)
    | _ => none

end

/-! ### Enough steps -/

/-- From some number of steps on, the answer is `a`. -/
def Reaches {α : Type} (f : Nat → Option α) (a : α) : Prop := ∃ N, ∀ n, N ≤ n → f n = some a

namespace Reaches

variable {α β : Type} {f : Nat → Option α} {a b : α}

theorem const (a : α) : Reaches (fun _ => some a) a := ⟨0, fun _ _ => rfl⟩

/-- One step more or less makes no difference. -/
theorem succ (h : Reaches (fun n => f (n + 1)) a) : Reaches f a := by
  obtain ⟨N, hN⟩ := h
  refine ⟨N + 1, fun n hn => ?_⟩
  obtain ⟨k, rfl⟩ : ∃ k, n = k + 1 := ⟨n - 1, by omega⟩
  exact hN k (by omega)

theorem bind {g : Nat → α → Option β} {b : β} (hf : Reaches f a) (hg : Reaches (fun n => g n a) b) :
    Reaches (fun n => f n >>= g n) b := by
  obtain ⟨N, hN⟩ := hf
  obtain ⟨M, hM⟩ := hg
  refine ⟨max N M, fun n hn => ?_⟩
  show f n >>= g n = some b
  rw [hN n (by omega)]
  exact hM n (by omega)

theorem unique (ha : Reaches f a) (hb : Reaches f b) : a = b := by
  obtain ⟨N, hN⟩ := ha
  obtain ⟨M, hM⟩ := hb
  exact Option.some.inj ((hN (max N M) (by omega)).symm.trans (hM (max N M) (by omega)))

end Reaches

/-! ### One step of the reader -/

section Rules

variable {limit : Nat} {left e : Expr} {args : List Expr} {w : String} {ts rest : List Token} {r : Expr × List Token}

attribute [local simp] readRest readUnary readPostfix

theorem reaches_readBinary (h : Reaches (fun n => readUnary n ts) (left, rest))
    (hrest : Reaches (fun n => readRest n limit left rest) r) : Reaches (fun n => readBinary n limit ts) r :=
  .succ (h.bind hrest)

theorem reaches_readRest {op : BinaryOp} (hop : operator? op.symbol = some op) (hle : op.precedence ≤ limit)
    (h : Reaches (fun n => readBinary n (op.precedence - 1) ts) (e, rest))
    (hrest : Reaches (fun n => readRest n limit (.binary op left e) rest) r) :
    Reaches (fun n => readRest n limit left (.mark op.symbol :: ts)) r := by
  refine .succ ?_
  simp only [readRest, hop, if_pos hle]
  exact h.bind hrest

/-- No operator up to the limit stands at the begin. -/
def Stops (limit : Nat) (ts : List Token) : Prop :=
  ∀ s op, ts.head? = some (.mark s) → operator? s = some op → limit < op.precedence

theorem reaches_readRest_stop (h : Stops limit ts) : Reaches (fun n => readRest n limit left ts) (left, ts) := by
  refine .succ ?_
  cases ts with
  | nil => exact .const _
  | cons t ts =>
    cases t with
    | word w => exact .const _
    | mark s =>
      cases hop : operator? s with
      | none =>
        simp only [readRest, hop]
        exact .const _
      | some op =>
        simp only [readRest, hop, if_neg (Nat.not_le.2 (h s op rfl hop))]
        exact .const _

theorem reaches_readUnary_sign {s : String} (hs : s ∈ signs) (h : Reaches (fun n => readUnary n ts) (e, rest)) :
    Reaches (fun n => readUnary n (.mark s :: ts)) (.unary s e, rest) := by
  have hparen : s ≠ "(" := by
    rintro rfl
    exact absurd hs (by decide)
  refine .succ ?_
  simp only [readUnary, if_neg hparen, if_pos hs]
  exact h.bind (.const _)

theorem reaches_readUnary_parens (h : Reaches (fun n => readBinary n 14 ts) (e, .mark ")" :: rest))
    (hrest : Reaches (fun n => readPostfix n e rest) r) : Reaches (fun n => readUnary n (.mark "(" :: ts)) r := by
  refine .succ ?_
  simp only [readUnary, if_true]
  exact h.bind hrest

theorem reaches_readUnary_call (h : Reaches (fun n => readArgs n ts) (args, rest))
    (hrest : Reaches (fun n => readPostfix n (.call w args) rest) r) :
    Reaches (fun n => readUnary n (.word w :: .mark "(" :: ts)) r :=
  .succ (h.bind hrest)

theorem reaches_readUnary_var (hts : ts.head? ≠ some (.mark "("))
    (hrest : Reaches (fun n => readPostfix n (.var w) ts) r) : Reaches (fun n => readUnary n (.word w :: ts)) r := by
  refine .succ ?_
  have heq : (fun n => readUnary (n + 1) (.word w :: ts)) = fun n => readPostfix n (.var w) ts := by
    funext n
    rw [readUnary]
    rintro rest rfl
    exact hts rfl
  rwa [heq]

/-- The mark in front of a field. -/
def access (arrow : Bool) : String := if arrow then "->" else "."

theorem reaches_readPostfix_method {arrow : Bool} (h : Reaches (fun n => readArgs n ts) (args, rest))
    (hrest : Reaches (fun n => readPostfix n (.method arrow e w args) rest) r) :
    Reaches (fun n => readPostfix n e (.mark (access arrow) :: .word w :: .mark "(" :: ts)) r := by
  refine .succ ?_
  cases arrow <;> exact h.bind hrest

theorem reaches_readPostfix_field {arrow : Bool} (hts : ts.head? ≠ some (.mark "("))
    (hrest : Reaches (fun n => readPostfix n (.field arrow e w) ts) r) :
    Reaches (fun n => readPostfix n e (.mark (access arrow) :: .word w :: ts)) r := by
  refine .succ ?_
  have heq : (fun n => readPostfix (n + 1) e (.mark (access arrow) :: .word w :: ts)) =
      fun n => readPostfix n (.field arrow e w) ts := by
    funext n
    rw [readPostfix]
    · cases arrow <;> rfl
    · rintro rest rfl
      exact hts rfl
  rwa [heq]

/-- Neither a field nor a call stands at the begin. -/
def StopsPostfix (ts : List Token) : Prop :=
  ts.head? ≠ some (.mark "->") ∧ ts.head? ≠ some (.mark ".") ∧ ts.head? ≠ some (.mark "(")

theorem reaches_readPostfix_stop (h : StopsPostfix ts) : Reaches (fun n => readPostfix n e ts) (e, ts) := by
  obtain ⟨harrow, hpoint, -⟩ := h
  refine .succ ?_
  have heq : (fun n => readPostfix (n + 1) e ts) = fun _ => some (e, ts) := by
    funext n
    -- The three places where the reader looks at the first mark differ in what follows it.
    have hmark : ∀ s ts', ts = .mark s :: ts' → ¬ (s = "->" ∨ s = ".") := by
      rintro s ts' rfl (rfl | rfl)
      · exact harrow rfl
      · exact hpoint rfl
    unfold readPostfix
    split
    · rw [if_neg (hmark _ _ rfl)]
    · rw [if_neg (hmark _ _ rfl)]
    · rfl
  rw [heq]
  exact .const _

theorem reaches_readArgs_nil : Reaches (fun n => readArgs n (.mark ")" :: rest)) ([], rest) := .succ (.const _)

theorem reaches_readArgs {p : List Expr × List Token} (hts : ts.head? ≠ some (.mark ")"))
    (h : Reaches (fun n => readBinary n 14 ts >>= readArgsAfter n) p) : Reaches (fun n => readArgs n ts) p := by
  refine .succ ?_
  have heq : (fun n => readArgs (n + 1) ts) = fun n => readBinary n 14 ts >>= readArgsAfter n := by
    funext n
    rw [readArgs]
    rintro rest rfl
    exact hts rfl
  rwa [heq]

theorem reaches_readArgs_one (hts : ts.head? ≠ some (.mark ")"))
    (h : Reaches (fun n => readBinary n 14 ts) (e, .mark ")" :: rest)) :
    Reaches (fun n => readArgs n ts) ([e], rest) := by
  refine reaches_readArgs hts ?_
  exact h.bind (.succ (.const _))

theorem reaches_readArgs_cons (hts : ts.head? ≠ some (.mark ")"))
    (h : Reaches (fun n => readBinary n 14 ts) (e, .mark "," :: rest)) {rest' : List Token}
    (hrest : Reaches (fun n => readArgs n rest) (args, rest')) :
    Reaches (fun n => readArgs n ts) (e :: args, rest') := by
  refine reaches_readArgs hts ?_
  exact h.bind (.succ (hrest.bind (.const _)))

end Rules

/-- The text is read as the expression. -/
def Reads (cs : List Char) (e : Expr) : Prop :=
  ∃ ts, tokens cs = some ts ∧ Reaches (fun n => readBinary n 14 ts) (e, [])

theorem Reads.unique {cs : List Char} {e e' : Expr} (h : Reads cs e) (h' : Reads cs e') : e = e' := by
  obtain ⟨ts, hts, hr⟩ := h
  obtain ⟨ts', hts', hr'⟩ := h'
  obtain rfl : ts = ts' := Option.some.inj (hts.symm.trans hts')
  exact congrArg Prod.fst (hr.unique hr')

end Peephole.Cpp
