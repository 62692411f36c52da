import Peephole.Encode.Operator
import Peephole.Logic.Eval
import Peephole.Proofs.Machine.Word

/-!
# Terms as words

The value of a term as a number, and the operators of terms as instructions on words.  The widths of operands do
not enter into the types here, so that terms of equal width can be exchanged.

* `Term.num` : the value of a term as a number.
* `Term.num_op` : an operator gives the result of the instruction on words.
* `Formula.eval_cmp` : a comparison of terms is a comparison of words.
-/

namespace Peephole.Logic

open Machine
open Encode (bitOp)
open Program (ArithOp)

variable {w : Nat} {env : Env}

/-! ### Bit-vectors -/

theorem toInt_eq_signed (a : BitVec w) : a.toInt = signed w a.toNat := by
  rw [BitVec.toInt_eq_toNat_cond, signed]
  push_cast
  rfl

theorem toNat_ofInt_eq_wrap (w : Nat) (z : Int) : (BitVec.ofInt w z).toNat = wrap w z := by
  rw [BitVec.toNat_ofInt, wrap]
  push_cast
  rfl

/-- A bit-vector is the word of its signed reading. -/
theorem toNat_eq_wrap_toInt (a : BitVec w) : a.toNat = wrap w a.toInt := by
  rw [← toNat_ofInt_eq_wrap, BitVec.ofInt_toInt]

theorem wrap_bmod (w : Nat) (z : Int) : wrap w (z.bmod (2 ^ w)) = wrap w z := by
  rw [wrap_eq_wrap_iff]
  have h := Int.bmod_emod (x := z) (m := 2 ^ w)
  push_cast at h
  exact h

theorem smtSDiv_eq_sdiv (a : BitVec w) {b : BitVec w} (hb : b ≠ 0#w) : a.smtSDiv b = a.sdiv b := by
  have hneg : -b ≠ 0#w := by simpa using hb
  rw [BitVec.smtSDiv_eq, BitVec.sdiv_eq]
  simp only [BitVec.smtUDiv_eq, hb, hneg, if_false]
  rfl

theorem toNat_smtSDiv (a b : BitVec w) : (a.smtSDiv b).toNat = result w .sdiv a.toNat b.toNat := by
  rw [result, ← toInt_eq_signed, ← toInt_eq_signed]
  by_cases hb : b = 0#w
  · have hslt : a.slt 0#w = decide (a.toInt < 0) := by simp [BitVec.slt]
    rw [hb, BitVec.smtSDiv_zero, hslt]
    by_cases ha : a.toInt < 0
    · have hw : 0 < w := by
        rcases Nat.eq_zero_or_pos w with rfl | hw
        · rw [BitVec.of_length_zero (x := a)] at ha
          simp at ha
        · exact hw
      have hone : 1 < 2 ^ w := Nat.one_lt_two_pow hw.ne'
      simp [ha, Nat.mod_eq_of_lt hone]
    · simp [ha]
  · have hb' : b.toNat ≠ 0 := fun h => hb (BitVec.eq_of_toNat_eq (by simpa using h))
    rw [smtSDiv_eq_sdiv a hb, if_neg hb', toNat_eq_wrap_toInt, BitVec.toInt_sdiv, wrap_bmod]

/-- Shifting by more than the width is as good as shifting by the width. -/
theorem ediv_two_pow_eq_of_le {z : Int} {b : Nat} (hz : FitsSigned w z) (hb : w ≤ b) :
    z / 2 ^ b = z / 2 ^ w := by
  have hle : (2 : Int) ^ w ≤ 2 ^ b := pow_le_pow_right₀ (by norm_num) hb
  have hw := two_pow_pos_int w
  unfold FitsSigned at hz
  rcases lt_or_ge z 0 with hneg | hpos
  · rw [Int.ediv_eq_neg_one_of_neg_of_le hneg (by omega), Int.ediv_eq_neg_one_of_neg_of_le hneg (by omega)]
  · rw [Int.ediv_eq_zero_of_lt hpos (by omega), Int.ediv_eq_zero_of_lt hpos (by omega)]

theorem toNat_shiftLeft_eq (a b : BitVec w) : (shiftLeft a b).toNat = result w .shl a.toNat b.toNat := by
  rw [result, shiftLeft, wrap]
  split
  · rw [BitVec.toNat_shiftLeft, Nat.shiftLeft_eq]
    norm_cast
  · next h =>
    have hdvd : (2 : Int) ^ w ∣ a.toNat * 2 ^ b.toNat := (pow_dvd_pow 2 (not_lt.1 h)).mul_left _
    rw [Int.emod_eq_zero_of_dvd hdvd]
    simp

theorem toNat_shiftRight_eq (a b : BitVec w) : (shiftRight a b).toNat = result w .lshr a.toNat b.toNat := by
  rw [result, shiftRight]
  split
  · rw [BitVec.toNat_ushiftRight, Nat.shiftRight_eq_div_pow]
  · next h =>
    have hle : 2 ^ w ≤ 2 ^ b.toNat := Nat.pow_le_pow_right (by norm_num) (not_lt.1 h)
    rw [Nat.div_eq_of_lt (a.isLt.trans_le hle)]
    simp

theorem toNat_shiftRightSigned_eq (a b : BitVec w) :
    (shiftRightSigned a b).toNat = result w .ashr a.toNat b.toNat := by
  have hfits : FitsSigned w a.toInt := toInt_eq_signed a ▸ fitsSigned_signed a.isLt
  rw [result, shiftRightSigned, toNat_eq_wrap_toInt, BitVec.toInt_sshiftRight, Int.shiftRight_eq_div_pow,
    ← toInt_eq_signed]
  rcases lt_or_ge b.toNat w with h | h
  · rw [min_eq_left h.le]
    norm_cast
  · rw [min_eq_right h, ediv_two_pow_eq_of_le hfits h]
    norm_cast

theorem toNat_apply (op : ArithOp) (a b : BitVec w) :
    ((bitOp op).apply a b).toNat = result w op a.toNat b.toNat := by
  cases op with
  | add =>
    rw [bitOp, BitOp.apply, BitVec.toNat_add, result, wrap]
    norm_cast
  | sub =>
    rw [bitOp, BitOp.apply, toNat_eq_wrap_toInt, BitVec.toInt_sub, wrap_bmod, result, wrap_eq_wrap_iff,
      toInt_eq_signed, toInt_eq_signed]
    exact (signed_modEq w _).sub (signed_modEq w _)
  | mul =>
    rw [bitOp, BitOp.apply, BitVec.toNat_mul, result, wrap]
    norm_cast
  | udiv =>
    rw [bitOp, BitOp.apply, result, BitVec.smtUDiv_eq]
    by_cases h : b = 0#w
    · simp [h]
    · have h' : b.toNat ≠ 0 := fun h' => h (BitVec.eq_of_toNat_eq (by simpa using h'))
      rw [if_neg h, if_neg h', BitVec.toNat_udiv]
  | sdiv => exact toNat_smtSDiv a b
  | urem => rw [bitOp, BitOp.apply, BitVec.toNat_umod, result]
  | srem =>
    rw [bitOp, BitOp.apply, toNat_eq_wrap_toInt, BitVec.toInt_srem, result, toInt_eq_signed, toInt_eq_signed]
  | shl => exact toNat_shiftLeft_eq a b
  | lshr => exact toNat_shiftRight_eq a b
  | ashr => exact toNat_shiftRightSigned_eq a b
  | and => rw [bitOp, BitOp.apply, BitVec.toNat_and, result]
  | or => rw [bitOp, BitOp.apply, BitVec.toNat_or, result]
  | xor => rw [bitOp, BitOp.apply, BitVec.toNat_xor, result]

theorem apply_eq_meets (c : Comparison) (a b : BitVec w) : c.apply a b = meets w c a.toNat b.toNat := by
  cases c with
  | eq => simp [Comparison.apply, meets, BitVec.toNat_eq, Bool.beq_eq_decide_eq]
  | ne => simp [Comparison.apply, meets, BitVec.toNat_eq, bne, Bool.beq_eq_decide_eq]
  | ugt => simp [Comparison.apply, meets, BitVec.ult]
  | uge => simp [Comparison.apply, meets, BitVec.ule]
  | ult => simp [Comparison.apply, meets, BitVec.ult]
  | ule => simp [Comparison.apply, meets, BitVec.ule]
  | sgt => simp [Comparison.apply, meets, BitVec.slt, toInt_eq_signed]
  | sge => simp [Comparison.apply, meets, BitVec.sle, toInt_eq_signed]
  | slt => simp [Comparison.apply, meets, BitVec.slt, toInt_eq_signed]
  | sle => simp [Comparison.apply, meets, BitVec.sle, toInt_eq_signed]

/-! ### Terms -/

namespace Term

/-- The value of a term as a number. -/
def num (env : Env) (t : Term) : Nat := (t.eval env).toNat

theorem num_lt (env : Env) (t : Term) : t.num env < 2 ^ t.width := (t.eval env).isLt

@[simp] theorem num_var (n : String) (w : Nat) : (var n w).num env = wrap w (env.bits n) :=
  toNat_ofInt_eq_wrap w _

@[simp] theorem num_const (v : Int) (w : Nat) : (const v w).num env = wrap w v := toNat_ofInt_eq_wrap w v

/-- An operator is the instruction on words; its second operand is brought to the width of the first. -/
theorem num_op (op : ArithOp) (a b : Term) :
    (Term.op (bitOp op) a b).num env = result a.width op (a.num env) (b.num env % 2 ^ a.width) := by
  change ((bitOp op).apply (a.eval env) ((b.eval env).setWidth a.width)).toNat = _
  rw [toNat_apply, BitVec.toNat_setWidth]
  rfl

theorem num_op_of_width (op : ArithOp) {a b : Term} (h : b.width = a.width) :
    (Term.op (bitOp op) a b).num env = result a.width op (a.num env) (b.num env) := by
  rw [num_op, Nat.mod_eq_of_lt (h ▸ b.num_lt env)]

theorem num_op_const (op : ArithOp) (a : Term) (v : Int) :
    (Term.op (bitOp op) a (.const v a.width)).num env = result a.width op (a.num env) (wrap a.width v) := by
  have hwidth : (const v a.width).width = a.width := rfl
  rw [num_op_of_width op hwidth, num_const]

/-- One less than a word: zero wraps around to all ones. -/
theorem num_pred (a : Term) : (Term.op .sub a (.const 1 a.width)).num env =
    if a.num env = 0 then 2 ^ a.width - 1 else a.num env - 1 := by
  have hop : (Term.op .sub a (.const 1 a.width)).num env = wrap a.width (a.num env - wrap a.width 1) :=
    num_op_const .sub a 1
  have hlt := a.num_lt env
  rcases Nat.eq_zero_or_pos a.width with hw | hw
  · simp_all [wrap]
  · have hone : wrap a.width 1 = 1 := wrap_of_lt (Nat.one_lt_two_pow hw.ne')
    rw [hop, hone]
    split
    · next hzero =>
      rw [← wrap_of_lt (Nat.sub_lt (Nat.two_pow_pos a.width) Nat.one_pos), hzero, wrap_eq_wrap_iff,
        Nat.cast_sub (Nat.two_pow_pos _)]
      exact Int.ModEq.sub_right 1 (by simp [Int.ModEq])
    · next hne =>
      rw [← Nat.cast_sub (Nat.pos_of_ne_zero hne)]
      exact wrap_of_lt (by omega)

@[simp] theorem num_zeroExt (n : Nat) (a : Term) : (zeroExt n a).num env = a.num env := by
  change ((a.eval env).setWidth (a.width + n)).toNat = _
  rw [BitVec.toNat_setWidth, Nat.mod_eq_of_lt]
  · rfl
  · exact (a.num_lt env).trans_le (Nat.pow_le_pow_right (by norm_num) (Nat.le_add_right _ n))

@[simp] theorem num_signExt (n : Nat) (a : Term) :
    (signExt n a).num env = wrap (a.width + n) (signed a.width (a.num env)) := by
  change ((a.eval env).signExtend (a.width + n)).toNat = _
  rw [toNat_eq_wrap_toInt, BitVec.toInt_signExtend_of_le (Nat.le_add_right _ n), toInt_eq_signed]
  rfl

@[simp] theorem num_extract (hi lo : Nat) (a : Term) :
    (extract hi lo a).num env = a.num env / 2 ^ lo % 2 ^ (hi - lo + 1) := by
  change ((a.eval env).extractLsb hi lo).toNat = _
  rw [BitVec.extractLsb, BitVec.extractLsb'_toNat, Nat.shiftRight_eq_div_pow]
  rfl

theorem num_ite (c : Formula) (a b : Term) :
    (ite c a b).num env = if c.eval env then a.num env else b.num env % 2 ^ a.width := by
  change (if c.eval env then a.eval env else (b.eval env).setWidth a.width).toNat = _
  split
  · rfl
  · exact BitVec.toNat_setWidth ..

theorem num_ite_of_width {c : Formula} {a b : Term} (h : b.width = a.width) :
    (ite c a b).num env = if c.eval env then a.num env else b.num env := by
  rw [num_ite, Nat.mod_eq_of_lt (h ▸ b.num_lt env)]

@[simp] theorem num_ofFormula (p : Formula) : (ofFormula p).num env = if p.eval env then 1 else 0 := by
  rw [ofFormula, num_ite_of_width (a := const 1 1) (b := const 0 1) rfl, num_const, num_const]
  rfl

end Term

theorem Formula.eval_cmp (c : Comparison) (a b : Term) :
    (Formula.cmp c a b).eval env = meets a.width c (a.num env) (b.num env % 2 ^ a.width) := by
  change c.apply (a.eval env) ((b.eval env).setWidth a.width) = _
  rw [apply_eq_meets, BitVec.toNat_setWidth]
  rfl

theorem Formula.eval_cmp_of_width {c : Comparison} {a b : Term} (h : b.width = a.width) :
    (Formula.cmp c a b).eval env = meets a.width c (a.num env) (b.num env) := by
  rw [Formula.eval_cmp, Nat.mod_eq_of_lt (h ▸ b.num_lt env)]

end Peephole.Logic
