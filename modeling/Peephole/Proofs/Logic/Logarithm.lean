import Mathlib.Data.Nat.Log
import Peephole.Proofs.Logic.Count

/-!
# The logarithm of a term

The term for the logarithm halves a range of bits around the highest set bit.

* `Term.num_log2Between` : the range keeps the highest set bit, so what is left of it is the logarithm.
* `Term.linearLog2` : the same search bit by bit.
* `Term.log2_floor` : **the term is the floor of the logarithm**, agrees with the search bit by bit, and the halving
  ends.
-/

namespace Peephole.Logic

open Machine

variable {env : Env}

namespace Term

theorem log2_eq_of_lt {n k : Nat} (hlt : n < 2 ^ (k + 1)) (hle : k ≠ 0 → 2 ^ k ≤ n) : n.log2 = k := by
  rcases eq_or_ne k 0 with rfl | hk
  · have hsmall : n = 0 ∨ n = 1 := by omega
    rcases hsmall with rfl | rfl <;> rfl
  · have hle := hle hk
    exact (Nat.log2_eq_iff (Nat.pos_iff_ne_zero.1 ((Nat.two_pow_pos k).trans_le hle))).2 ⟨hle, hlt⟩

theorem width_log2Between (v : Term) (out low n : Nat) : (log2Between v out low n).width = out := by
  fun_induction log2Between v out low n with
  | case1 => rfl
  | case2 low n hn half ih _ => exact ih

/-- The upper half of a range has a set bit just if the value, which has none above the range, reaches up to it. -/
theorem upper_half_iff (v : Term) {low half n : Nat} (hhalf : half < n) (hlt : v.num env < 2 ^ (low + n + 1)) :
    (Formula.cmp .ne (.extract (low + n) (low + half + 1) v) (.const 0 (n - half))).eval env = true ↔
      2 ^ (low + half + 1) ≤ v.num env := by
  have hsize : low + n - (low + half + 1) + 1 = n - half := by omega
  have hwidth : (const 0 (n - half)).width = (extract (low + n) (low + half + 1) v).width := by
    simp only [width]
    exact hsize.symm
  have hupper : v.num env / 2 ^ (low + half + 1) < 2 ^ (n - half) := by
    rw [Nat.div_lt_iff_lt_mul (Nat.two_pow_pos _), ← pow_add]
    rwa [show n - half + (low + half + 1) = low + n + 1 by omega]
  rw [Formula.eval_cmp_of_width hwidth, meets_ne_iff, num_extract, hsize, Nat.mod_eq_of_lt hupper, num_const, wrap_zero,
    Nat.ne_zero_iff_zero_lt, Nat.div_pos_iff]
  exact and_iff_right (Nat.two_pow_pos _)

/-- The highest set bit stays in the range. -/
theorem num_log2Between (v : Term) (out low n : Nat) (hlt : v.num env < 2 ^ (low + n + 1))
    (hle : low ≠ 0 → 2 ^ low ≤ v.num env) :
    (log2Between v out low n).num env = wrap out (v.num env).log2 := by
  fun_induction log2Between v out low n with
  | case1 low => rw [num_const, log2_eq_of_lt hlt hle]
  | case2 low n hn half ihUpper ihLower =>
    have hwidth : (log2Between v out low half).width = (log2Between v out (low + half + 1) (n - half - 1)).width := by
      rw [width_log2Between, width_log2Between]
    have hhalf : half < n := Nat.div_lt_self (Nat.pos_of_ne_zero hn) Nat.one_lt_two
    rw [num_ite_of_width hwidth]
    by_cases hupper : 2 ^ (low + half + 1) ≤ v.num env
    · rw [if_pos ((upper_half_iff v hhalf hlt).2 hupper)]
      refine ihUpper ?_ fun _ => hupper
      rwa [show low + half + 1 + (n - half - 1) + 1 = low + n + 1 by omega]
    · rw [if_neg ((upper_half_iff v hhalf hlt).not.2 hupper)]
      exact ihLower (not_le.1 hupper) hle

theorem num_lt_last (v : Term) : v.num env < 2 ^ (0 + (v.width - 1) + 1) :=
  (v.num_lt env).trans_le (Nat.pow_le_pow_right Nat.two_pos (by omega))

/-- The highest set bit among the bits up to `i`, one by one from the top; zero if there is none. -/
def linearLog2From (v : Term) (out : Nat) : Nat → Term
  | 0 => .const 0 out
  | i + 1 => .ite (bitSet (i + 1) v) (.const (i + 1 : Nat) out) (linearLog2From v out i)

/-- The position of the highest set bit, bit by bit. -/
def linearLog2 (v : Term) (out : Nat) : Term := linearLog2From v out (v.width - 1)

theorem num_linearLog2From (v : Term) (out i : Nat) (hlt : v.num env < 2 ^ (i + 1)) :
    (linearLog2From v out i).num env = wrap out (v.num env).log2 := by
  induction i with
  | zero => rw [linearLog2From, num_const, log2_eq_of_lt hlt nofun, Nat.cast_zero]
  | succ i ih =>
    have hwidth : (linearLog2From v out i).width = (const (i + 1 : Nat) out).width := by cases i <;> rfl
    rw [linearLog2From, num_ite_of_width hwidth, eval_bitSet]
    split
    · next hbit => rw [num_const, log2_eq_of_lt hlt fun _ => Nat.ge_two_pow_of_testBit hbit]
    · next hbit =>
      exact ih (not_le.1 fun hle => hbit (Nat.testBit_of_two_pow_le_and_two_pow_add_one_gt hle hlt))

/-- How many tests stand inside one another in front of a value. -/
def tests : Term → Nat
  | .ite _ a b => max a.tests b.tests + 1
  | _ => 0

/-- Each test leaves at most half of the range. -/
theorem tests_log2Between (v : Term) (out low n : Nat) : ∀ d, n < 2 ^ d → (log2Between v out low n).tests ≤ d := by
  fun_induction log2Between v out low n with
  | case1 => exact fun d _ => Nat.zero_le d
  | case2 low n hn half ihUpper ihLower =>
    rintro (_ | d) hd
    · omega
    · rw [pow_succ] at hd
      exact Nat.succ_le_succ (max_le (ihUpper d (by omega)) (ihLower d (by omega)))

/-- **The term is the floor of the logarithm**, modulo the power of two of its width, and zero for zero.  It agrees with
the search bit by bit, and the search by halves ends: a word of `n` bits takes at most `⌈log₂ n⌉` tests. -/
theorem log2_floor (v : Term) (out : Nat) (env : Env) :
    (log2 v out).num env = wrap out (v.num env).log2 ∧ (log2 v out).num env = (linearLog2 v out).num env ∧
      (log2 v out).tests ≤ Nat.clog 2 v.width := by
  have hlog : (log2 v out).num env = wrap out (v.num env).log2 :=
    num_log2Between v out 0 _ v.num_lt_last fun h => absurd rfl h
  have hlinear : (linearLog2 v out).num env = wrap out (v.num env).log2 :=
    num_linearLog2From v out _ (by simpa using v.num_lt_last)
  refine ⟨hlog, hlog.trans hlinear.symm, tests_log2Between v out 0 _ _ ?_⟩
  have hle := Nat.le_pow_clog Nat.one_lt_two v.width
  have hpos := Nat.two_pow_pos (Nat.clog 2 v.width)
  omega

end Term

end Peephole.Logic
