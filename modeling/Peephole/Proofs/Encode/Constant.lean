import Peephole.Proofs.Encode.Adequacy
import Peephole.Proofs.Encode.Precondition

/-!
# Constant expressions

A constant expression is a tree over constant symbols and integer literals.  All its leaves have one width, and so has
its term.

* `Const`, `IsConst` : constant expressions, and the values of a table that stand for them.
* `Const.value` : the word that an expression stands for.
* `encode_constant` : **a constant expression is encoded as a term with its value.**
-/

namespace Peephole.Logic.Term

open Machine

variable {env : Env}

@[simp] theorem num_not (a : Term) : (not a).num env = wrap a.width (-(a.num env : Int) - 1) := by
  have hlt := a.num_lt env
  have hle : a.num env ≤ 2 ^ a.width - 1 := by omega
  have hcast : ((2 ^ a.width - 1 - a.num env : Nat) : Int) = 2 ^ a.width - 1 - a.num env := by
    rw [Nat.cast_sub hle, Nat.cast_sub Nat.one_le_two_pow]
    norm_cast
  -- Flipping all bits takes the number away from the greatest word.
  have hflip : (not a).num env = 2 ^ a.width - 1 - a.num env := BitVec.toNat_not
  have hwrap : wrap a.width (-(a.num env : Int) - 1) = wrap a.width (2 ^ a.width - 1 - a.num env : Nat) := by
    rw [wrap_eq_wrap_iff, hcast]
    exact Int.modEq_iff_dvd.2 ⟨1, by ring⟩
  rw [hflip, hwrap, wrap_of_lt (by omega)]

@[simp] theorem num_neg (a : Term) : (neg a).num env = wrap a.width (-(a.num env : Int)) := by
  change (-(a.eval env)).toNat = _
  rw [toNat_eq_wrap_toInt, BitVec.toInt_neg, wrap_bmod, wrap_eq_wrap_iff, toInt_eq_signed]
  exact (signed_modEq _ _).neg

end Peephole.Logic.Term

namespace Peephole.Encode

open Logic Machine Program

inductive Const where
  | symbol (name : String)
  | literal (n : Int)
  | unary (op : UnaryConst) (a : Const)
  | binary (op : BinaryConst) (a b : Const)
  deriving DecidableEq

/-- The instruction that computes an operator of constant expressions. -/
def constArith : BinaryConst → ArithOp
  | .and => .and | .or => .or | .xor => .xor
  | .add => .add | .sub => .sub | .mul => .mul
  | .sdiv => .sdiv | .udiv => .udiv | .srem => .srem | .urem => .urem
  | .ashr => .ashr | .lshr => .lshr | .shl => .shl

/-- The word of `w` bits that an expression stands for, where `bits` gives the constant symbols. -/
def Const.value (w : Nat) (bits : String → Int) : Const → Nat
  | .symbol name => wrap w (bits name)
  | .literal n => wrap w n
  | .unary .not a => wrap w (-(a.value w bits : Int) - 1)
  | .unary .neg a => wrap w (-(a.value w bits : Int))
  | .binary op a b => result w (constArith op) (a.value w bits) (b.value w bits)

/-- The value with the number `i` is the constant expression, and its leaves are values with the property `P`. -/
inductive IsConst (t : Table) (P : Value → Prop) : ValueId → Const → Prop
  | symbol {i : ValueId} (hop : (t.get i).op = .input) (hname : (t.get i).name.startsWith "C" = true)
    (hleaf : P (t.get i)) : IsConst t P i (.symbol (t.get i).name)
  | literal {i : ValueId} {n : Int} (hop : (t.get i).op = .literal n) (hleaf : P (t.get i)) :
    IsConst t P i (.literal n)
  | unary {i x : ValueId} {op : UnaryConst} {a : Const} (hop : (t.get i).op = .unary op x) (hx : x < i)
    (ha : IsConst t P x a) : IsConst t P i (.unary op a)
  | binary {i x y : ValueId} {op : BinaryConst} {a b : Const} (hop : (t.get i).op = .binary op x y) (hx : x < i)
    (hy : y < i) (ha : IsConst t P x a) (hb : IsConst t P y b) : IsConst t P i (.binary op a b)

variable {s : Setting} {w : Work}

theorem encode_eq (i : ValueId) :
    encode i s w = encodeWith (fun j => if _h : j < i then encode j else stop .noSuchEntry) i s w := by
  rw [encode]

theorem subTerm_run {i x : ValueId} {tm : Term} {w' : Work} (hx : x < i) (h : encode x s w = .ok (some tm, w')) :
    subTerm (fun j => if _h : j < i then encode j else stop .noSuchEntry) x s w = .ok (tm, w') := by
  simp only [subTerm, bind_run, dif_pos hx, h, ok_bind, pure_run]

theorem encode_constant {n : Nat} {i : ValueId} {c : Const} (hc : IsConst s.table (s.HasSize · n) i c) (w : Work) :
    ∃ tm w', encode i s w = .ok (some tm, w') ∧ tm.width = n ∧ ∀ env, tm.num env = c.value n env.bits := by
  induction hc generalizing w with
  | @symbol i hop hname hleaf =>
    obtain ⟨blocks, vs, hrun⟩ := pointsToBlock_run (w := w) hleaf (s.table.get i).name []
    refine ⟨.var (s.table.get i).name n, { w with state := { w.state with blocks := blocks, memoryFree := vs } }, ?_,
      rfl, fun env => Term.num_var _ _⟩
    rw [encode_eq, encodeWith]
    simp only [bind_run, valueAt_run, ok_bind, hop, valueSize_run hleaf, hrun, pure_run]
  | @literal i k hop hleaf =>
    refine ⟨.const k n, w, ?_, rfl, fun env => Term.num_const _ _⟩
    rw [encode_eq, encodeWith]
    simp only [bind_run, valueAt_run, ok_bind, hop, valueSize_run hleaf, pure_run]
  | @unary i x op a hop hx _ ih =>
    obtain ⟨tm, w₁, hrun, hwidth, hnum⟩ := ih w
    cases op with
    | not =>
      refine ⟨.not tm, w₁, ?_, hwidth, fun env => by rw [Term.num_not, hnum, hwidth, Const.value]⟩
      rw [encode_eq, encodeWith]
      simp only [bind_run, valueAt_run, ok_bind, hop, subTerm_run hx hrun, pure_run]
    | neg =>
      refine ⟨.neg tm, w₁, ?_, hwidth, fun env => by rw [Term.num_neg, hnum, hwidth, Const.value]⟩
      rw [encode_eq, encodeWith]
      simp only [bind_run, valueAt_run, ok_bind, hop, subTerm_run hx hrun, pure_run]
  | @binary i x y op a b hop hx hy _ _ iha ihb =>
    obtain ⟨tm, w₁, hrun, hwidth, hnum⟩ := iha w
    obtain ⟨tm', w₂, hrun', hwidth', hnum'⟩ := ihb w₁
    have hop' : constOp op = bitOp (constArith op) := by cases op <;> rfl
    refine ⟨.op (constOp op) tm tm', w₂, ?_, hwidth, fun env => ?_⟩
    · rw [encode_eq, encodeWith]
      simp only [bind_run, valueAt_run, ok_bind, hop, subTerm_run hx hrun, subTerm_run hy hrun', pure_run]
    · rw [hop', Term.num_op_of_width _ (hwidth'.trans hwidth.symm), hnum, hnum', hwidth, Const.value]

end Peephole.Encode
