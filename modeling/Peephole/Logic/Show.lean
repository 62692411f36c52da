import Peephole.Logic.Eval

/-!
# Showing values and formulas

`hexText` and `valueText` write a bit-vector as an example shows it.  `Outline` is the structure of a term
or formula, with bound variables counted from the innermost binder.
-/

namespace Peephole.Logic

/-- One hexadecimal digit, in upper case. -/
def upperHexDigit (n : Nat) : Char :=
  if n < 10 then Char.ofNat (48 + n) else Char.ofNat (55 + n)

/-- The last `k` hexadecimal digits of `n`, in upper case. -/
def upperHex : Nat → Nat → List Char
  | 0, _ => []
  | k + 1, n => upperHex k (n / 16) ++ [upperHexDigit (n % 16)]

/-- A bit-vector in hexadecimal digits, as many as its width needs. -/
def hexText {w : Nat} (v : BitVec w) : String :=
  "0x" ++ String.ofList (upperHex ((w + 3) / 4) v.toNat)

/-- A bit-vector in hexadecimal, as an unsigned number, and as a signed number if that is another. -/
def valueText {w : Nat} (v : BitVec w) : String :=
  if (v.toNat : Int) = v.toInt then hexText v ++ " (" ++ toString v.toNat ++ ")"
  else hexText v ++ " (" ++ toString v.toNat ++ ", " ++ toString v.toInt ++ ")"

/-- The structure of a term or formula. -/
inductive Outline where
  | name (n : String)
  | value (v w : Nat)
  | node (op : String) (args : List Outline)
  | bind (op : String) (names : List String) (body : Outline)
  /-- A bound variable, by the number of binders between. -/
  | bound (index : Nat)
  deriving Inhabited

namespace Outline

/-- A variable under the binders `scope`, the innermost first. -/
def ofName (scope : List String) (n : String) : Outline :=
  match scope.findIdx? (· == n) with
  | some i => bound i
  | none => name n

end Outline

def BitOp.outlineName : BitOp → String
  | add => "bvadd" | sub => "bvsub" | mul => "bvmul"
  | udiv => "bvudiv" | sdiv => "bvsdiv" | urem => "bvurem" | srem => "bvsrem"
  | shl => "bvshl" | lshr => "bvlshr" | ashr => "bvashr"
  | and => "bvand" | or => "bvor" | xor => "bvxor"

def Comparison.outlineName : Comparison → String
  | eq => "=" | ne => "distinct"
  | ugt => "bvugt" | uge => "bvuge" | ult => "bvult" | ule => "bvule"
  | sgt => "bvsgt" | sge => "bvsge" | slt => "bvslt" | sle => "bvsle"

mutual

/-- The structure of a term under binders. -/
def Term.outline (scope : List String) : Term → Outline
  | .var n _ => .ofName scope n
  | .const v w => .value (BitVec.ofInt w v).toNat w
  | .not a => .node "bvnot" [a.outline scope]
  | .neg a => .node "bvneg" [a.outline scope]
  | .op o a b => .node o.outlineName [a.outline scope, b.outline scope]
  | .extract _ _ a => .node "extract" [a.outline scope]
  | .zeroExt _ a => .node "zero_extend" [a.outline scope]
  | .signExt _ a => .node "sign_extend" [a.outline scope]
  | .concat a b => .node "concat" [a.outline scope, b.outline scope]
  | .ite c a b => .node "if" [c.outline scope, a.outline scope, b.outline scope]
  | .read m a => .node "select" [m.outline scope, a.outline scope]

def Formula.outline (scope : List String) : Formula → Outline
  | .lit b => .name (if b then "true" else "false")
  | .var n => .ofName scope n
  | .cmp c a b => .node c.outlineName [a.outline scope, b.outline scope]
  | .not p => .node "not" [p.outline scope]
  | .and ps => .node "and" (Formula.outlines scope ps)
  | .or ps => .node "or" (Formula.outlines scope ps)
  | .implies p q => .node "=>" [p.outline scope, q.outline scope]
  | .ite c p q => .node "if" [c.outline scope, p.outline scope, q.outline scope]
  | .distinct ps => .node "distinct" (Formula.outlines scope ps)
  | .distinctTerms ts => .node "distinct" (Term.outlines scope ts)
  | .all vars p =>
    .bind "forall" (vars.map (·.name)) (p.outline ((vars.map (·.name)).reverse ++ scope))
  | .ex vars p =>
    .bind "exists" (vars.map (·.name)) (p.outline ((vars.map (·.name)).reverse ++ scope))

def ArrayTerm.outline (scope : List String) : ArrayTerm → Outline
  | .var n => .ofName scope n
  | .write c a v m =>
    .node "if" [c.outline scope, .node "store" [m.outline scope, a.outline scope, v.outline scope],
      m.outline scope]
  | .ite c a b => .node "if" [c.outline scope, a.outline scope, b.outline scope]

def Formula.outlines (scope : List String) : List Formula → List Outline
  | [] => []
  | p :: ps => p.outline scope :: Formula.outlines scope ps

def Term.outlines (scope : List String) : List Term → List Outline
  | [] => []
  | t :: ts => t.outline scope :: Term.outlines scope ts

end

end Peephole.Logic
