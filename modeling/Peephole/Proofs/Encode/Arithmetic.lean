import Peephole.Proofs.Logic.Memory
import Peephole.Proofs.Machine.Straight

/-!
# The conditions of arithmetic

The conditions that are recorded for an arithmetic instruction mean what they should, for words of every width:

* `arithDefined_iff` : the instruction has no undefined behaviour.
* `flagHolds_iff` : the instruction keeps the promise of a flag, for all words and also where its behaviour is
  undefined.

The conditions compare results of bit-vector operators; here both sides are read as integers, where the exact
result of the instruction and its word agree modulo `2 ^ w`.
-/

namespace Peephole.Encode

open Logic Machine
open Program (ArithOp Flag ConvertOp Predicate comparisons)

variable {env : Env} {a b : Term} {w : Nat}
variable {m n : Nat}

/-! ### Definedness -/

theorem signed_eq_iff {z : Int} (hn : n < 2 ^ w) (hz : FitsSigned w z) : signed w n = z ↔ n = wrap w z := by
  constructor
  · rintro rfl
    exact (wrap_signed hn).symm
  · rintro rfl
    exact signed_wrap hz

theorem eval_cmp_number (c : Comparison) (t : Term) (n : Int) :
    (Formula.cmp c t (numberLike n t)).eval env = meets t.width c (t.num env) (wrap t.width n) := by
  rw [Formula.eval_cmp_of_width (a := t) (b := numberLike n t) rfl, numberLike, Term.num_const]

theorem eval_ne_zero (t : Term) : (Formula.cmp .ne t (numberLike 0 t)).eval env = true ↔ t.num env ≠ 0 := by
  rw [eval_cmp_number, meets_ne_iff, wrap_zero]

theorem signed_eq_least_iff (hw : 0 < w) (hn : n < 2 ^ w) : signed w n = -2 ^ (w - 1) ↔ n = wrap w (2 ^ (w - 1)) := by
  have hdouble : (2 : Int) * 2 ^ (w - 1) = 2 ^ w := by
    rw [← pow_succ', Nat.sub_add_cancel hw]
  have hpos := two_pow_pos_int (w - 1)
  have hfits : FitsSigned w (-2 ^ (w - 1)) := ⟨by omega, by omega⟩
  have hwrap : wrap w (2 ^ (w - 1)) = wrap w (-2 ^ (w - 1)) := by
    rw [wrap_eq_wrap_iff, Int.modEq_iff_dvd]
    exact ⟨-1, by omega⟩
  rw [signed_eq_iff hn hfits, hwrap]

theorem signed_eq_neg_one_iff (hw : 0 < w) (hn : n < 2 ^ w) : signed w n = -1 ↔ n = wrap w (-1) := by
  have htwo : (2 : Int) ≤ 2 ^ w := by
    have := pow_le_pow_right₀ (a := (2 : Int)) (by norm_num) hw
    simpa using this
  exact signed_eq_iff hn ⟨by omega, by omega⟩

/-- **An arithmetic instruction is defined if it has no undefined behaviour.** -/
theorem arithDefined_iff (op : ArithOp) (hw : 0 < w) (ha : a.width = w) (hb : b.width = w) :
    holds env (arithDefined w op a b) = true ↔ ¬Undefined w op (a.num env) (b.num env) := by
  have hshift : (Formula.cmp .ult b (numberLike w b)).eval env = true ↔ b.num env < w := by
    rw [eval_cmp_number, hb, wrap_of_lt Nat.lt_two_pow_self, meets_ult_iff]
  have hdivision : holds env (divisionDefined w a b) = true ↔
      ¬(b.num env = 0 ∨ signed w (a.num env) = -2 ^ (w - 1) ∧ signed w (b.num env) = -1) := by
    have han := ha ▸ a.num_lt env
    have hbn := hb ▸ b.num_lt env
    rw [signed_eq_least_iff hw han, signed_eq_neg_one_iff hw hbn, not_or, not_and_or]
    simp [divisionDefined, holds, eval_cmp_number, ha, hb, Nat.one_shiftLeft]
  cases op with
  | udiv | urem => simp [arithDefined, holds, eval_ne_zero, Undefined]
  | sdiv | srem => exact hdivision
  | shl | lshr | ashr => simp [arithDefined, holds, hshift, Undefined]
  | add | sub | mul | and | or | xor => simp [arithDefined, holds, Undefined]

/-! ### Promises -/

/-- A signed operation on extended words gives the extended word if the exact result can be written. -/
theorem eval_signExt_op_iff (op : ArithOp) {f : Int → Int → Int} {k : Nat}
    (hf : ∀ w A B, result w op A B = wrap w (f A B))
    (hmod : ∀ {n x x' y y' : Int}, x ≡ x' [ZMOD n] → y ≡ y' [ZMOD n] → f x y ≡ f x' y' [ZMOD n])
    (ha : a.width = w) (hb : b.width = w)
    (hbig : FitsSigned (w + k) (f (signed w (a.num env)) (signed w (b.num env)))) :
    (Formula.cmp .eq (.op (bitOp op) (.signExt k a) (.signExt k b)) (.signExt k (.op (bitOp op) a b))).eval
      env = true ↔ FitsSigned w (f (signed w (a.num env)) (signed w (b.num env))) := by
  set x := f (signed w (a.num env)) (signed w (b.num env))
  have hleft : (Term.op (bitOp op) (.signExt k a) (.signExt k b)).num env = wrap (w + k) x := by
    have hwidth : (Term.signExt k b).width = (Term.signExt k a).width := by simp [Term.width, ha, hb]
    rw [Term.num_op_of_width op hwidth, hf, Term.num_signExt, Term.num_signExt, ha, hb]
    simp only [Term.width, ha]
    exact wrap_eq_wrap_iff.2 (hmod (wrap_modEq _ _) (wrap_modEq _ _))
  have hright : (Term.signExt k (.op (bitOp op) a b)).num env = wrap (w + k) (signed w (wrap w x)) := by
    rw [Term.num_signExt, Term.num_op_of_width op (hb.trans ha.symm), hf]
    simp only [Term.width, ha]
    have hword : wrap w (f (a.num env) (b.num env)) = wrap w x :=
      wrap_eq_wrap_iff.2 (hmod (signed_modEq w _) (signed_modEq w _)).symm
    rw [hword]
  rw [Formula.eval_cmp_of_width (by simp [Term.width]), meets_eq_iff, hleft, hright, ← signed_wrap_eq_iff]
  have hword : FitsSigned (w + k) (signed w (wrap w x)) :=
    FitsSigned.mono (fitsSigned_signed (wrap_lt w x)) (Nat.le_add_right w k)
  constructor
  · intro h
    exact (hbig.eq_of_modEq hword (wrap_eq_wrap_iff.1 h)).symm
  · intro h
    rw [h]

/-- An unsigned operation on words extended by a bit gives the extended word if both widths give the same number. -/
theorem eval_zeroExt_op (op : ArithOp) (ha : a.width = w) (hb : b.width = w) :
    (Formula.cmp .eq (.op (bitOp op) (.zeroExt 1 a) (.zeroExt 1 b)) (.zeroExt 1 (.op (bitOp op) a b))).eval
      env = true ↔ result (w + 1) op (a.num env) (b.num env) = result w op (a.num env) (b.num env) := by
  have hwidth : (Term.zeroExt 1 b).width = (Term.zeroExt 1 a).width := by simp [Term.width, ha, hb]
  rw [Formula.eval_cmp_of_width (by simp [Term.width]), meets_eq_iff, Term.num_op_of_width op hwidth,
    Term.num_zeroExt, Term.num_zeroExt, Term.num_zeroExt, Term.num_op_of_width op (hb.trans ha.symm)]
  simp only [Term.width, ha]

theorem result_add_eq_iff (hm : m < 2 ^ w) (hn : n < 2 ^ w) :
    result (w + 1) .add m n = result w .add m n ↔ m + n < 2 ^ w := by
  have hbig : wrap (w + 1) (m + n) = m + n := by
    have hlt : m + n < 2 ^ (w + 1) := by omega
    simpa using wrap_of_lt hlt
  rw [result, result, hbig]
  constructor
  · intro h
    exact h ▸ wrap_lt w _
  · intro h
    simpa using (wrap_of_lt h).symm

theorem result_sub_eq_iff (hm : m < 2 ^ w) (hn : n < 2 ^ w) : result (w + 1) .sub m n = result w .sub m n ↔ n ≤ m := by
  have hm' : (m : Int) < 2 ^ w := by exact_mod_cast hm
  have hn' : (n : Int) < 2 ^ w := by exact_mod_cast hn
  rw [result, result, ← Nat.cast_inj (R := Int), wrap_cast, wrap_cast]
  rcases le_or_gt n m with h | h
  · rw [Int.emod_eq_of_lt (by omega) (by omega), Int.emod_eq_of_lt (by omega) (by omega)]
    exact iff_of_true rfl h
  · rw [← Int.add_emod_right (b := 2 ^ (w + 1)), Int.emod_eq_of_lt (by omega) (by omega),
      ← Int.add_emod_right (b := 2 ^ w), Int.emod_eq_of_lt (by omega) (by omega)]
    exact iff_of_false (by omega) (by omega)

theorem eval_noUnsignedMulOverflow (hw : 0 < w) (ha : a.width = w) (hb : b.width = w) :
    (Formula.noUnsignedMulOverflow a b).eval env = true ↔ a.num env * b.num env < 2 ^ w := by
  have hwidth : (Term.zeroExt a.width b).width = (Term.zeroExt a.width a).width := by simp [Term.width, ha, hb]
  have hlt : a.num env * b.num env < 2 ^ (w + w) := by
    rw [pow_add]
    exact Nat.mul_lt_mul'' (ha ▸ a.num_lt env) (hb ▸ b.num_lt env)
  have hproduct : (Term.op .mul (.zeroExt a.width a) (.zeroExt a.width b)).num env = a.num env * b.num env := by
    refine (Term.num_op_of_width .mul hwidth).trans ?_
    rw [result, Term.num_zeroExt, Term.num_zeroExt]
    simpa [Term.width, ha] using wrap_of_lt hlt
  have hhigh : 2 * w - 1 - w + 1 = w := by omega
  rw [Formula.noUnsignedMulOverflow, Formula.eval_cmp_of_width (by simp [Term.width, ha, hhigh]), meets_eq_iff,
    Term.num_extract, hproduct, Term.num_const, ha, hhigh, wrap_zero,
    Nat.mod_eq_of_lt (Nat.div_lt_of_lt_mul (by rwa [← pow_add])), Nat.div_eq_zero_iff_lt (Nat.two_pow_pos w)]

/-- Two instructions, the second of which gets the second operand of the first again. -/
theorem eval_back_iff (there back : ArithOp) (ha : a.width = w) (hb : b.width = w) :
    (Formula.cmp .eq (.op (bitOp back) (.op (bitOp there) a b) b) a).eval env = true ↔
      result w back (result w there (a.num env) (b.num env)) (b.num env) = a.num env := by
  rw [Formula.eval_cmp_of_width (by simp [Term.width]), meets_eq_iff,
    Term.num_op_of_width back (by simp [Term.width, ha, hb]), Term.num_op_of_width there (hb.trans ha.symm)]
  simp only [Term.width, ha]

/-- The sum, the difference and the product of signed words fit into twice the width. -/
theorem FitsSigned.twice {x y : Int} (hx : FitsSigned w x) (hy : FitsSigned w y) :
    FitsSigned (w + 1) (x + y) ∧ FitsSigned (w + 1) (x - y) := by
  unfold FitsSigned at *
  omega

theorem FitsSigned.mul {x y : Int} (hx : FitsSigned w x) (hy : FitsSigned w y) :
    FitsSigned (w + w) (x * y) := by
  have hsq : (2 : Int) ^ (w + w) = 2 ^ w * 2 ^ w := pow_add 2 w w
  have hpos := two_pow_pos_int w
  unfold FitsSigned at *
  rw [hsq]
  constructor <;> nlinarith

/-- **The condition of a flag holds if the instruction keeps its promise.** -/
theorem flagHolds_iff (newShift : Bool) (op : ArithOp) (f : Flag) (hw : 0 < w) (ha : a.width = w)
    (hb : b.width = w) :
    (flagHolds newShift w op f a b).eval env = true ↔ ¬Broken newShift w op f (a.num env) (b.num env) := by
  have han : a.num env < 2 ^ w := ha ▸ a.num_lt env
  have hbn : b.num env < 2 ^ w := hb ▸ b.num_lt env
  have hfa := fitsSigned_signed han
  have hfb := fitsSigned_signed hbn
  have hnsw : (shiftsBack .shl .ashr a b).eval env = true ↔
      FitsSigned w (signed w (a.num env) * 2 ^ b.num env) :=
    (eval_back_iff .shl .ashr ha hb).trans (ashr_shl_eq_iff han _)
  unfold flagHolds Broken
  split <;> simp only [not_not, not_lt, not_le]
  · exact eval_signExt_op_iff .add (f := (· + ·)) (fun _ _ _ => rfl) Int.ModEq.add ha hb (FitsSigned.twice hfa hfb).1
  · exact (eval_zeroExt_op .add ha hb).trans (result_add_eq_iff han hbn)
  · exact eval_signExt_op_iff .sub (f := (· - ·)) (fun _ _ _ => rfl) Int.ModEq.sub ha hb (FitsSigned.twice hfa hfb).2
  · exact (eval_zeroExt_op .sub ha hb).trans (result_sub_eq_iff han hbn)
  · exact eval_signExt_op_iff .mul (f := (· * ·)) (fun _ _ _ => rfl) Int.ModEq.mul ha hb
      (ha.symm ▸ FitsSigned.mul hfa hfb)
  · exact eval_noUnsignedMulOverflow hw ha hb
  · have hlast : wrap w ((w - 1 : Nat) : Int) = w - 1 := wrap_of_lt ((Nat.sub_le w 1).trans_lt Nat.lt_two_pow_self)
    have hone : wrap w 1 = 1 := wrap_of_lt (n := 1) (Nat.one_lt_two_pow hw.ne')
    cases newShift with
    | false => simpa using hnsw
    | true => simp [hnsw, eval_cmp_number, ha, hb, hlast, hone, or_iff_not_imp_left]
  · exact (eval_back_iff .shl .lshr ha hb).trans (lshr_shl_eq_iff _)
  · exact (eval_back_iff .udiv .mul ha hb).trans (mul_udiv_eq_iff han)
  · exact (eval_back_iff .sdiv .mul ha hb).trans (mul_sdiv_eq_iff han hbn)
  · exact (eval_back_iff .ashr .shl ha hb).trans (shl_ashr_eq_iff han _)
  · exact (eval_back_iff .lshr .shl ha hb).trans (shl_lshr_eq_iff han _)
  · cases op <;> cases f <;> simp_all

/-! ### Conversions and comparisons -/

theorem width_convertTerm {op : ConvertOp} (hn : 0 < n) (ha : a.width = m)
    (h : Convertible m n op) : (convertTerm op m n a).width = n := by
  cases op with
  | trunc =>
    simp only [convertTerm, Term.width]
    omega
  | zext | sext =>
    simp only [Convertible] at h
    simp only [convertTerm, Term.width, ha]
    omega
  | bitcast => exact ha.trans h.symm
  | zextOrTrunc | ptrToInt | intToPtr =>
    simp only [convertTerm, Term.resizeZero, ha]
    split
    · omega
    · split
      · simp only [Term.width]
        omega
      · simp only [Term.width, ha]
        omega

/-- A conversion gives the converted word. -/
theorem num_convertTerm {op : ConvertOp} (hn : 0 < n) (ha : a.width = m) (h : Convertible m n op) :
    (convertTerm op m n a).num env = converted m n op (a.num env) := by
  cases op with
  | trunc => simp [convertTerm, converted, Nat.sub_add_cancel hn]
  | zext => simp [convertTerm, converted]
  | sext =>
    simp only [Convertible] at h
    simp only [convertTerm, converted, Term.num_signExt, ha, Nat.add_sub_cancel' h.le]
  | bitcast => rfl
  | zextOrTrunc | ptrToInt | intToPtr => exact Term.num_resizeZero (.inl hn)

theorem width_choose (name : String) (cs : List Comparison) (i : Int) :
    (comparisonTerm.choose a b name cs i).width = 1 := by
  match cs with
  | [] | [_] | _ :: _ :: _ => rfl

/-- The choice between comparisons from the number `k` on. -/
theorem num_choose (hb : b.width = a.width) {name : String} {cs : List Comparison} (hcs : cs ≠ []) {k : Nat}
    (hk : k + cs.length ≤ 16) (hle : k ≤ wrap 4 (env.bits ("icmp_" ++ name))) :
    (comparisonTerm.choose a b name cs k).num env =
      if meets a.width (cs.getD (wrap 4 (env.bits ("icmp_" ++ name)) - k) (cs.getLast hcs)) (a.num env)
        (b.num env) then 1 else 0 := by
  induction cs generalizing k with
  | nil => exact absurd rfl hcs
  | cons c cs ih =>
    have hc : (Term.ofFormula (.cmp c a b)).num env = if meets a.width c (a.num env) (b.num env) then 1 else 0 := by
      rw [Term.num_ofFormula, Formula.eval_cmp_of_width hb]
    cases cs with
    | nil =>
      rw [comparisonTerm.choose, hc]
      cases wrap 4 (env.bits ("icmp_" ++ name)) - k with
      | zero => rfl
      | succ n => rfl
    | cons c' cs =>
      simp only [List.length_cons] at hk
      have heq : (Formula.cmp .eq (.var ("icmp_" ++ name) 4) (.const k 4)).eval env = true ↔
          wrap 4 (env.bits ("icmp_" ++ name)) = k := by
        rw [Formula.eval_cmp_of_width (a := .var ("icmp_" ++ name) 4) (b := .const k 4) rfl, meets_eq_iff,
          Term.num_var, Term.num_const, wrap_of_lt (by omega)]
      change (Term.ite _ _ (comparisonTerm.choose a b name (c' :: cs) (k + 1))).num env = _
      rw [Term.num_ite_of_width (width_choose name _ _), hc]
      by_cases hsel : wrap 4 (env.bits ("icmp_" ++ name)) = k
      · rw [if_pos (heq.2 hsel), hsel, Nat.sub_self]
        rfl
      · obtain ⟨n, hn⟩ : ∃ n, wrap 4 (env.bits ("icmp_" ++ name)) - k = n + 1 := ⟨_, (Nat.succ_pred (by omega)).symm⟩
        have hrest := ih (List.cons_ne_nil c' cs) (k := k + 1) (by simp only [List.length_cons]; omega) (by omega)
        rw [if_neg (heq.not.2 hsel), hn, List.getD_cons_succ, List.getLast_cons (List.cons_ne_nil c' cs)]
        rw [show wrap 4 (env.bits ("icmp_" ++ name)) - (k + 1) = n by omega] at hrest
        exact_mod_cast hrest

theorem width_comparisonTerm (register : String) (pred : Predicate) :
    (comparisonTerm register pred a b).width = 1 := by
  cases pred with
  | known c => rfl
  | any name => exact width_choose _ _ _

/-- A comparison gives the bit of the comparison that its predicate selects. -/
theorem num_comparisonTerm (register : String) (pred : Predicate) (hb : b.width = a.width) :
    (comparisonTerm register pred a b).num env =
      if meets a.width (selected env register pred) (a.num env) (b.num env) then 1 else 0 := by
  cases pred with
  | known c => rw [comparisonTerm, Term.num_ofFormula, Formula.eval_cmp_of_width hb, selected]
  | any name => exact num_choose (k := 0) hb (List.cons_ne_nil _ _) (by decide) (Nat.zero_le _)

end Peephole.Encode
