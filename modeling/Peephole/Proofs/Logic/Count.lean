import Mathlib.Data.Nat.Bitwise
import Mathlib.Data.Nat.Find
import Mathlib.Order.Bounds.Basic
import Peephole.Proofs.Logic.Number

/-!
# Counting bits

Each count looks at the bits of a word one by one, from the top or from the bottom, up to the first bit that is not as
it should be.  The term for a count can have any width, and the number is reduced modulo the power of two of this width.

* `stretches` : how far one can go through the places of a word.
* `signCount` : the number of bits at the top of a word that equal its sign bit.
* `Term.num_signBits` : the term for the sign bits counts them, up to the wrapping.
* `Term.counts_greatest` : **the terms for leading zeros, trailing zeros and sign bits are exact**.
-/

namespace Peephole.Logic

open Machine

variable {w n k : Nat} {env : Env}

/-- The numbers of places, out of `w`, such that all of them in front are as `p` says. -/
def stretches (w : Nat) (p : Nat → Prop) : Set Nat := {k | k ≤ w ∧ ∀ i < k, p i}

/-- A term that goes through the places and stops at the first one that is not as `p` says.  There are `m` places left
to look at, and those in front of them are as `p` says. -/
theorem exists_stretch {out : Nat} {p : Nat → Prop} [DecidablePred p] (f : Nat → Nat) (hzero : f 0 = wrap out w)
    (hsucc : ∀ m < w, f (m + 1) = if p (w - 1 - m) then f m else wrap out (w - 1 - m : Nat)) {m : Nat} (hm : m ≤ w)
    (hp : ∀ i < w - m, p i) : ∃ k, IsGreatest (stretches w p) k ∧ f m = wrap out k := by
  induction m with
  | zero => exact ⟨w, ⟨⟨le_rfl, hp⟩, fun k hk => hk.1⟩, hzero⟩
  | succ m ih =>
    rw [hsucc m hm]
    split
    · next h =>
      refine ih (by omega) fun i hi => ?_
      obtain rfl | hne := eq_or_ne i (w - 1 - m)
      · exact h
      · exact hp i (by omega)
    · next h =>
      refine ⟨w - 1 - m, ⟨⟨by omega, fun i hi => hp i (by omega)⟩, fun k hk => ?_⟩, rfl⟩
      exact not_lt.1 fun hlt => h (hk.2 _ hlt)

/-- The first `k` bits of a word, from the top, are equal. -/
def SignRun (w n k : Nat) : Prop := ∀ i < k, n.testBit (w - 1 - i) = n.testBit (w - 1)

instance (w n k : Nat) : Decidable (SignRun w n k) := inferInstanceAs (Decidable (∀ i < k, _))

/-- The number of bits from the top of a word that equal the first one. -/
def signCount (w n : Nat) : Nat := Nat.findGreatest (SignRun w n) w

theorem signCount_le (w n : Nat) : signCount w n ≤ w := Nat.findGreatest_le w

/-- A word of at least one bit has a sign bit. -/
theorem signCount_pos (hw : 0 < w) (n : Nat) : 0 < signCount w n := by
  refine Nat.findGreatest_pos.2 ⟨1, Nat.one_pos, hw, fun i hi => ?_⟩
  rw [Nat.lt_one_iff.1 hi, Nat.sub_zero]

theorem isGreatest_signCount (w n : Nat) :
    IsGreatest (stretches w fun i => n.testBit (w - 1 - i) = n.testBit (w - 1)) (signCount w n) :=
  ⟨⟨signCount_le w n, Nat.findGreatest_spec (Nat.zero_le w) (P := SignRun w n) nofun⟩,
    fun _ hk => Nat.le_findGreatest hk.1 hk.2⟩

/-- The first bit that differs ends the sign bits. -/
theorem signCount_eq (hrun : SignRun w n k) (hk : k ≤ w) (hend : k < w → n.testBit (w - 1 - k) ≠ n.testBit (w - 1)) :
    signCount w n = k := by
  refine (isGreatest_signCount w n).unique ⟨⟨hk, hrun⟩, fun m hm => not_lt.1 fun hkm => ?_⟩
  exact hend (hkm.trans_le hm.1) (hm.2 k hkm)

/-- A word is the sign extension of its low bits just if the bits in front of those equal the first one of them. -/
theorem signExtend_low_iff (x : BitVec w) (hk : k ≤ w) :
    (x.setWidth (w - k + 1)).signExtend w = x ↔ SignRun w x.toNat k := by
  have hiff : (x.setWidth (w - k + 1)).signExtend w = x ↔
      ∀ i < w, w - k ≤ i → x.toNat.testBit i = x.toNat.testBit (w - k) := by
    rw [BitVec.eq_of_getLsbD_eq_iff]
    refine forall₂_congr fun i hi => ?_
    rw [BitVec.getLsbD_signExtend, BitVec.msb_eq_getLsbD_last, BitVec.getLsbD_setWidth, BitVec.getLsbD_setWidth]
    by_cases hlow : i < w - k + 1
    · have hsame : w - k ≤ i → i = w - k := by omega
      simp only [hi, hlow, decide_true, Bool.true_and, if_true, true_iff]
      exact fun h => congrArg _ (hsame h)
    · have hle : w - k ≤ i := by omega
      simp only [hi, hlow, hle, decide_true, Bool.true_and, if_false, true_imp_iff, Nat.add_sub_cancel,
        Nat.lt_succ_self]
      exact eq_comm
  rw [hiff]
  constructor
  · intro h i hi
    rw [h (w - 1 - i) (by omega) (by omega), h (w - 1) (by omega) (by omega)]
  · intro h i hi hlow
    have hlast := h (k - 1) (by omega)
    have hbit := h (w - 1 - i) (by omega)
    rw [show w - 1 - (k - 1) = w - k by omega] at hlast
    rwa [show w - 1 - (w - 1 - i) = i by omega, ← hlast] at hbit

namespace Term

theorem eval_bitSet (i : Nat) (v : Term) : (bitSet i v).eval env = (v.num env).testBit i := by
  have hwidth : (const 1 1).width = (extract i i v).width := by simp [width]
  rw [bitSet, Formula.eval_cmp_of_width hwidth, Bool.eq_iff_iff, meets_eq_iff, num_extract, num_const,
    Nat.testBit_eq_decide_div_mod_eq]
  simp [wrap]

theorem width_leadingZerosFrom (v : Term) (out : Nat) (m : Nat) : (leadingZerosFrom v out m).width = out := by
  cases m <;> rfl

theorem width_trailingZerosFrom (v : Term) (out : Nat) (m : Nat) : (trailingZerosFrom v out m).width = out := by
  cases m <;> rfl

theorem num_leadingZeros (v : Term) (out : Nat) :
    ∃ k, IsGreatest (stretches v.width fun i => (v.num env).testBit (v.width - 1 - i) = false) k ∧
      (leadingZeros v out).num env = wrap out k := by
  refine exists_stretch (fun m => (leadingZerosFrom v out m).num env) (num_const _ _) (fun m hm => ?_) le_rfl
    (by simp)
  have hbit : v.width - 1 - (v.width - 1 - m) = m := by omega
  simp only [hbit]
  rw [leadingZerosFrom, num_ite_of_width (width_leadingZerosFrom v out m), eval_bitSet, num_const]
  cases (v.num env).testBit m <;> rfl

theorem num_trailingZeros (v : Term) (out : Nat) :
    ∃ k, IsGreatest (stretches v.width fun i => (v.num env).testBit i = false) k ∧
      (trailingZeros v out).num env = wrap out k := by
  refine exists_stretch (fun m => (trailingZerosFrom v out m).num env) (num_const _ _) (fun m hm => ?_) le_rfl
    (by simp)
  rw [trailingZerosFrom, num_ite_of_width (width_trailingZerosFrom v out m), eval_bitSet, num_const]
  cases (v.num env).testBit (v.width - 1 - m) <;> rfl

theorem width_signBitsFrom (v : Term) (out : Nat) : (m : Nat) → (signBitsFrom v out m).width = out
  | 0 => rfl
  | m + 1 => width_signBitsFrom v out m

theorem extract_eq_iff (v : Term) (i j : Nat) :
    (Formula.cmp .eq (.extract i i v) (.extract j j v)).eval env = true ↔
      (v.num env).testBit i = (v.num env).testBit j := by
  have hi : v.num env / 2 ^ i % 2 < 2 := Nat.mod_lt _ (by decide)
  have hj : v.num env / 2 ^ j % 2 < 2 := Nat.mod_lt _ (by decide)
  have hwidth : (extract j j v).width = (extract i i v).width := by simp [width]
  rw [Formula.eval_cmp_of_width hwidth, meets_eq_iff, num_extract, num_extract,
    Nat.testBit_eq_decide_div_mod_eq, Nat.testBit_eq_decide_div_mod_eq, decide_eq_decide]
  simp only [Nat.sub_self, Nat.zero_add, pow_one]
  omega

@[simp] theorem width_signBits (v : Term) (out : Nat) : (signBits v out).width = out := width_signBitsFrom v out _

/-- **The term for the sign bits counts them**, modulo the power of two of its width. -/
theorem num_signBits (v : Term) (out : Nat) :
    (signBits v out).num env = wrap out (signCount v.width (v.num env)) := by
  have hstep : ∀ m < v.width, (signBitsFrom v out (m + 1)).num env =
      if (v.num env).testBit (v.width - 1 - (v.width - 1 - m)) = (v.num env).testBit (v.width - 1)
      then (signBitsFrom v out m).num env else wrap out (v.width - 1 - m : Nat) := by
    intro m hm
    have hwidth : (const (v.width - 1 - m : Nat) out).width = (signBitsFrom v out m).width :=
      (width_signBitsFrom v out m).symm
    rw [show v.width - 1 - (v.width - 1 - m) = m by omega, signBitsFrom, num_ite_of_width hwidth, num_const]
    exact if_congr (extract_eq_iff v _ _) rfl rfl
  -- At most one bit stands above the others.
  have htop : SignRun v.width (v.num env) (v.width - (v.width - 1)) := fun i hi => by
    rw [show i = 0 by omega, Nat.sub_zero]
  obtain ⟨k, hk, hnum⟩ := exists_stretch (fun m => (signBitsFrom v out m).num env) (num_const _ _) hstep
    (Nat.sub_le v.width 1) htop
  rw [signBits, hnum, hk.unique (isGreatest_signCount _ _)]

/-- **The counts are exact**, modulo the power of two of the width of the term: the greatest number of bits at the top
that are zero, of bits at the bottom that are zero, and of bits at the top that are equal.  The last is also the
greatest `k` such that the value is the sign extension of all but its `k - 1` highest bits. -/
theorem counts_greatest (v : Term) (out : Nat) (env : Env) :
    (∃ k, IsGreatest {k | k ≤ v.width ∧ ∀ i < k, (v.num env).testBit (v.width - 1 - i) = false} k ∧
      (leadingZeros v out).num env = wrap out k) ∧
    (∃ k, IsGreatest {k | k ≤ v.width ∧ ∀ i < k, (v.num env).testBit i = false} k ∧
      (trailingZeros v out).num env = wrap out k) ∧
    ∃ k, IsGreatest {k | k ≤ v.width ∧ ∀ i < k, (v.num env).testBit (v.width - 1 - i) =
        (v.num env).testBit (v.width - 1)} k ∧
      IsGreatest {k | k ≤ v.width ∧ ((v.eval env).setWidth (v.width - k + 1)).signExtend v.width = v.eval env} k ∧
      (signBits v out).num env = wrap out k := by
  have hsigns := isGreatest_signCount v.width (v.num env)
  refine ⟨num_leadingZeros v out, num_trailingZeros v out, _, hsigns, ?_, num_signBits v out⟩
  convert hsigns using 1
  ext k
  exact and_congr_right fun hk => signExtend_low_iff (v.eval env) hk

end Term

end Peephole.Logic
