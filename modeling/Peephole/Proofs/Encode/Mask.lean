import Mathlib.Data.Nat.Factorization.Basic
import Peephole.Proofs.Encode.Access

/-!
# Shifted masks

A shifted mask is a run of ones with zeros above and below it.  The test fills the zeros below the lowest one, and looks
whether the next number has a bit in common with the result.

* `IsShiftedMask` : the word is a shifted mask.
* `shiftedMask_iff` : **the test accepts the shifted masks and zero**, as filling zero wraps around to all ones.
-/

namespace Peephole.Encode

open Logic Machine

variable {w n : Nat} {env : Env}

/-- The word is a run of ones, with zeros above and below it. -/
def IsShiftedMask (w n : Nat) : Prop := ∃ k s, 0 < k ∧ k + s ≤ w ∧ n = (2 ^ k - 1) * 2 ^ s

/-- A number and the one before it differ from the lowest set bit on downwards. -/
theorem odd_multiple_split (k q : Nat) : 2 ^ k * (2 * q + 1) - 1 = 2 ^ (k + 1) * q ||| (2 ^ k - 1) ∧
    2 ^ k * (2 * q + 1) = 2 ^ (k + 1) * q ||| 2 ^ k := by
  have hpos := Nat.two_pow_pos k
  have hlt : 2 ^ k < 2 ^ (k + 1) := Nat.pow_lt_pow_right (by decide) k.lt_succ_self
  have hself : 2 ^ k * (2 * q + 1) = 2 ^ (k + 1) * q + 2 ^ k := by ring
  rw [← Nat.two_pow_add_eq_or_of_lt hlt, ← Nat.two_pow_add_eq_or_of_lt ((Nat.sub_le _ 1).trans_lt hlt)]
  omega

/-- The zeros below the lowest set bit are filled with ones. -/
theorem pred_lor_add_one (k q : Nat) :
    (2 ^ k * (2 * q + 1) - 1 ||| 2 ^ k * (2 * q + 1)) + 1 = 2 ^ (k + 1) * (q + 1) := by
  have hpos := Nat.two_pow_pos k
  have hall : 2 ^ k - 1 ||| 2 ^ k = 2 ^ (k + 1) - 1 := by
    have hsum := Nat.two_pow_add_eq_or_of_lt (Nat.sub_lt hpos Nat.one_pos) 1
    rw [mul_one] at hsum
    rw [Nat.or_comm, ← hsum, pow_succ]
    omega
  have hlt : 2 ^ (k + 1) - 1 < 2 ^ (k + 1) := Nat.sub_lt (Nat.two_pow_pos _) Nat.one_pos
  have hjoin : ∀ x y z : Nat, x ||| y ||| (x ||| z) = x ||| (y ||| z) := fun x y z => by ac_rfl
  rw [(odd_multiple_split k q).1, (odd_multiple_split k q).2, hjoin, hall, ← Nat.two_pow_add_eq_or_of_lt hlt, mul_add]
  omega

/-- A word and the next one have no bit in common if all its ones stand at the low end. -/
theorem succ_mod_land_eq_zero_iff (hn : n < 2 ^ w) : (n + 1) % 2 ^ w &&& n = 0 ↔ (n + 1).isPowerOfTwo := by
  rcases Nat.lt_or_eq_of_le (Nat.succ_le_of_lt hn) with hlt | heq
  · simpa [Nat.mod_eq_of_lt hlt] using Nat.and_sub_one_eq_zero_iff_isPowerOfTwo n.succ_ne_zero
  · rw [show n + 1 = 2 ^ w from heq, Nat.mod_self, Nat.zero_and]
    exact ⟨fun _ => ⟨w, rfl⟩, fun _ => rfl⟩

/-- The ones of a word reach from its low end to its highest set bit once it is filled, unless there is a gap. -/
theorem isPowerOfTwo_filled_iff (hn : n ≠ 0) (hlt : n < 2 ^ w) :
    ((n - 1 ||| n) + 1).isPowerOfTwo ↔ IsShiftedMask w n := by
  constructor
  · rintro ⟨j, hj⟩
    have hor : (n - 1 ||| n) < 2 ^ w := Nat.or_lt_two_pow (by omega) hlt
    have hle : j ≤ w := (Nat.pow_le_pow_iff_right (by decide)).1 (by omega : 2 ^ j ≤ 2 ^ w)
    obtain ⟨s, m, ⟨q, rfl⟩, rfl⟩ := Nat.exists_eq_two_pow_mul_odd hn
    rw [pred_lor_add_one] at hj
    obtain ⟨i, rfl⟩ := Nat.exists_eq_add_of_le ((Nat.pow_dvd_pow_iff_le_right (by decide)).1 ⟨q + 1, hj.symm⟩)
    have hq : q + 1 = 2 ^ i := Nat.eq_of_mul_eq_mul_left (Nat.two_pow_pos (s + 1)) (hj.trans (pow_add _ _ _))
    refine ⟨i + 1, s, i.succ_pos, by omega, ?_⟩
    rw [mul_comm, pow_succ, ← hq]
    congr 1
    omega
  · rintro ⟨j, s, hj, hle, rfl⟩
    obtain ⟨i, rfl⟩ := Nat.exists_eq_succ_of_ne_zero hj.ne'
    have hodd : (2 ^ (i + 1) - 1) * 2 ^ s = 2 ^ s * (2 * (2 ^ i - 1) + 1) := by
      rw [mul_comm, pow_succ]
      congr 1
      have := Nat.two_pow_pos i
      omega
    rw [hodd, pred_lor_add_one, Nat.sub_add_cancel (Nat.two_pow_pos i), ← pow_add]
    exact ⟨_, rfl⟩

/-- **The conditions hold for the shifted masks and for zero.** -/
theorem shiftedMask_iff {a : Term} (ha : 0 < a.width) :
    (∀ p ∈ Formula.shiftedMask a, p.eval env = true) ↔ a.num env = 0 ∨ IsShiftedMask a.width (a.num env) := by
  have hone : 1 < 2 ^ a.width := Nat.one_lt_two_pow ha.ne'
  have hlt := a.num_lt env
  have hor : (Term.op .or (.op .sub a (.const 1 a.width)) a).num env =
      (if a.num env = 0 then 2 ^ a.width - 1 else a.num env - 1) ||| a.num env := by
    rw [← Term.num_pred]
    exact Term.num_op_of_width .or rfl
  have hwidth : (Term.op .or (.op .sub a (.const 1 a.width)) a).width = a.width := rfl
  rw [Formula.shiftedMask]
  generalize Term.op .or (.op .sub a (.const 1 a.width)) a = v at hor hwidth
  have hand : (Term.op .and (.op .add v (.const 1 a.width)) v).num env =
      (v.num env + 1) % 2 ^ v.width &&& v.num env := by
    rw [← num_next, numberLike, hwidth]
    exact Term.num_op_of_width .and rfl
  have hcmp : ∀ c (t : Term), t.width = a.width →
      (Formula.cmp c t (.const 0 a.width)).eval env = meets t.width c (t.num env) 0 := by
    intro c t ht
    rw [Formula.eval_cmp_of_width (b := .const 0 a.width) ht.symm, Term.num_const, wrap_zero]
  simp only [List.forall_mem_cons, List.not_mem_nil, false_implies, implies_true, and_true]
  rw [hcmp _ v hwidth, hcmp _ (.op .and (.op .add v _) v) hwidth, meets_ne_iff, meets_eq_iff, hand,
    succ_mod_land_eq_zero_iff (v.num_lt env), hor]
  by_cases hzero : a.num env = 0
  · rw [if_pos hzero, hzero, Nat.or_zero, Nat.sub_add_cancel hone.le]
    exact ⟨fun _ => .inl rfl, fun _ => ⟨by omega, a.width, rfl⟩⟩
  · rw [if_neg hzero, isPowerOfTwo_filled_iff hzero hlt]
    have hne : (a.num env - 1 ||| a.num env) ≠ 0 := fun h => hzero (Nat.or_eq_zero_iff.1 h).2
    simp [hne, hzero]

/-- The theorem at a word of eight bits that is zero: the conditions hold, and it is no shifted mask. -/
theorem zero_shiftedMask : (∀ p ∈ Formula.shiftedMask (.const 0 8), p.eval default = true) ∧ ¬IsShiftedMask 8 0 := by
  refine ⟨(shiftedMask_iff (a := .const 0 8) (by decide)).2 (.inl rfl), ?_⟩
  rintro ⟨k, s, hk, -, h⟩
  have hone : 1 < 2 ^ k := Nat.one_lt_two_pow hk.ne'
  have hpos := Nat.mul_pos (Nat.sub_pos_of_lt hone) (Nat.two_pow_pos s)
  omega

end Peephole.Encode
