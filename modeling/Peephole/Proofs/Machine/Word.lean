import Mathlib.Algebra.Order.Group.Int
import Mathlib.Data.Int.ModEq
import Mathlib.Data.Int.Order.Basic
import Mathlib.Tactic.Linarith
import Mathlib.Tactic.Ring
import Peephole.Program.Value

/-!
# Words

What instructions do to words, in terms of numbers: a word of `w` bits is a number below `2 ^ w`, with a second,
signed reading.  Arithmetic is done on integers and wrapped afterwards.  At the points where an instruction has
undefined behaviour the result is the one of the theory of bit-vectors.

* `signed`, `wrap` : the signed reading of a word, and the word of an integer.
* `result`, `Undefined`, `Broken` : the result of an arithmetic instruction, when its behaviour is undefined, and
  when it breaks the promise of a flag.
* `signed_wrap`, `wrap_eq_wrap_iff`, `wrap_eq_iff_signed` : the two readings of a word determine each other.
* `ashr_shl_eq_iff`, `mul_sdiv_eq_iff` and the like : a shift or a division can be taken back if it lost nothing.
-/

namespace Peephole.Machine

open Program (ArithOp Flag ConvertOp)
open Logic (Comparison)

/-- The signed reading of a word. -/
def signed (w n : Nat) : Int := if 2 * n < 2 ^ w then n else n - 2 ^ w

/-- The word of `w` bits that agrees with an integer modulo `2 ^ w`. -/
def wrap (w : Nat) (z : Int) : Nat := (z % 2 ^ w).toNat

/-- The integer can be written as a signed word. -/
def FitsSigned (w : Nat) (z : Int) : Prop := -2 ^ w ≤ 2 * z ∧ 2 * z < 2 ^ w

instance (w : Nat) (z : Int) : Decidable (FitsSigned w z) := inferInstanceAs (Decidable (_ ∧ _))

/-! ### Instructions on words -/

def result (w : Nat) : ArithOp → Nat → Nat → Nat
  | .add, a, b => wrap w (a + b)
  | .sub, a, b => wrap w (a - b)
  | .mul, a, b => wrap w (a * b)
  | .udiv, a, b => if b = 0 then 2 ^ w - 1 else a / b
  | .sdiv, a, b =>
    if b = 0 then (if signed w a < 0 then 1 else 2 ^ w - 1) else wrap w ((signed w a).tdiv (signed w b))
  | .urem, a, b => a % b
  | .srem, a, b => wrap w ((signed w a).tmod (signed w b))
  | .shl, a, b => wrap w (a * 2 ^ b)
  | .lshr, a, b => a / 2 ^ b
  | .ashr, a, b => wrap w (signed w a / 2 ^ b)
  | .and, a, b => a &&& b
  | .or, a, b => a ||| b
  | .xor, a, b => a ^^^ b

/-- The instruction has undefined behaviour: it divides by zero, or the least signed word by minus one, or shifts
by the width or more. -/
def Undefined (w : Nat) : ArithOp → Nat → Nat → Prop
  | .udiv, _, b | .urem, _, b => b = 0
  | .sdiv, a, b | .srem, a, b => b = 0 ∨ signed w a = -2 ^ (w - 1) ∧ signed w b = -1
  | .shl, _, b | .lshr, _, b | .ashr, _, b => w ≤ b
  | .add, _, _ | .sub, _, _ | .mul, _, _ | .and, _, _ | .or, _, _ | .xor, _, _ => False

instance (w : Nat) : (op : ArithOp) → (a b : Nat) → Decidable (Undefined w op a b)
  | .udiv, _, b | .urem, _, b => inferInstanceAs (Decidable (b = 0))
  | .sdiv, a, b | .srem, a, b =>
    inferInstanceAs (Decidable (b = 0 ∨ signed w a = -2 ^ (w - 1) ∧ signed w b = -1))
  | .shl, _, b | .lshr, _, b | .ashr, _, b => inferInstanceAs (Decidable (w ≤ b))
  | .add, _, _ | .sub, _, _ | .mul, _, _ | .and, _, _ | .or, _, _ | .xor, _, _ =>
    inferInstanceAs (Decidable False)

/-- The instruction breaks the promise of a flag: its exact result cannot be written as a signed (`nsw`) or as an
unsigned (`nuw`) word, or its division leaves a remainder (`exact`).  With `newShift`, a one may be shifted into
the sign bit. -/
def Broken (newShift : Bool) (w : Nat) : ArithOp → Flag → Nat → Nat → Prop
  | .add, .nsw, a, b => ¬FitsSigned w (signed w a + signed w b)
  | .add, .nuw, a, b => 2 ^ w ≤ a + b
  | .sub, .nsw, a, b => ¬FitsSigned w (signed w a - signed w b)
  | .sub, .nuw, a, b => a < b
  | .mul, .nsw, a, b => ¬FitsSigned w (signed w a * signed w b)
  | .mul, .nuw, a, b => 2 ^ w ≤ a * b
  | .shl, .nsw, a, b => ¬FitsSigned w (signed w a * 2 ^ b) ∧ ¬(newShift = true ∧ a = 1 ∧ b = w - 1)
  | .shl, .nuw, a, b => 2 ^ w ≤ a * 2 ^ b
  | .udiv, .exact, a, b => ¬b ∣ a
  | .sdiv, .exact, a, b => ¬signed w b ∣ signed w a
  | .lshr, .exact, a, b => ¬2 ^ b ∣ a
  | .ashr, .exact, a, b => ¬(2 ^ b : Int) ∣ signed w a
  | _, _, _, _ => False

instance (newShift : Bool) (w : Nat) :
    (op : ArithOp) → (f : Flag) → (a b : Nat) → Decidable (Broken newShift w op f a b)
  | .add, .nsw, _, _ | .sub, .nsw, _, _ | .mul, .nsw, _, _ => inferInstanceAs (Decidable ¬FitsSigned w _)
  | .add, .nuw, a, b => inferInstanceAs (Decidable (2 ^ w ≤ a + b))
  | .sub, .nuw, a, b => inferInstanceAs (Decidable (a < b))
  | .mul, .nuw, a, b => inferInstanceAs (Decidable (2 ^ w ≤ a * b))
  | .shl, .nsw, a, b =>
    inferInstanceAs (Decidable (¬FitsSigned w (signed w a * 2 ^ b) ∧ ¬(newShift = true ∧ a = 1 ∧ b = w - 1)))
  | .shl, .nuw, a, b => inferInstanceAs (Decidable (2 ^ w ≤ a * 2 ^ b))
  | .udiv, .exact, a, b => inferInstanceAs (Decidable ¬b ∣ a)
  | .sdiv, .exact, a, b => inferInstanceAs (Decidable ¬signed w b ∣ signed w a)
  | .lshr, .exact, a, b => inferInstanceAs (Decidable ¬2 ^ b ∣ a)
  | .ashr, .exact, a, b => inferInstanceAs (Decidable ¬(2 ^ b : Int) ∣ signed w a)
  | .add, .exact, _, _ | .sub, .exact, _, _ | .mul, .exact, _, _ | .shl, .exact, _, _
  | .udiv, .nsw, _, _ | .udiv, .nuw, _, _ | .sdiv, .nsw, _, _ | .sdiv, .nuw, _, _
  | .lshr, .nsw, _, _ | .lshr, .nuw, _, _ | .ashr, .nsw, _, _ | .ashr, .nuw, _, _
  | .urem, _, _, _ | .srem, _, _, _ | .and, _, _, _ | .or, _, _, _ | .xor, _, _, _ =>
    inferInstanceAs (Decidable False)

/-- The widths between which a conversion goes. -/
def Convertible (m n : Nat) : ConvertOp → Prop
  | .trunc => n < m
  | .zext | .sext => m < n
  | .bitcast => n = m
  | .zextOrTrunc | .ptrToInt | .intToPtr => True

instance (m n : Nat) : (op : ConvertOp) → Decidable (Convertible m n op)
  | .trunc => inferInstanceAs (Decidable (n < m))
  | .zext | .sext => inferInstanceAs (Decidable (m < n))
  | .bitcast => inferInstanceAs (Decidable (n = m))
  | .zextOrTrunc | .ptrToInt | .intToPtr => inferInstanceAs (Decidable True)

/-- The result of a conversion of a word of `m` bits to `n` bits. -/
def converted (m n : Nat) : ConvertOp → Nat → Nat
  | .sext, a => wrap n (signed m a)
  | .zext, a | .bitcast, a => a
  | .trunc, a | .zextOrTrunc, a | .ptrToInt, a | .intToPtr, a => a % 2 ^ n

def meets (w : Nat) : Comparison → Nat → Nat → Bool
  | .eq, a, b => a = b
  | .ne, a, b => a ≠ b
  | .ugt, a, b => b < a
  | .uge, a, b => b ≤ a
  | .ult, a, b => a < b
  | .ule, a, b => a ≤ b
  | .sgt, a, b => signed w b < signed w a
  | .sge, a, b => signed w b ≤ signed w a
  | .slt, a, b => signed w a < signed w b
  | .sle, a, b => signed w a ≤ signed w b

@[simp] theorem meets_eq_iff {w a b : Nat} : meets w .eq a b = true ↔ a = b := decide_eq_true_iff

@[simp] theorem meets_ne_iff {w a b : Nat} : meets w .ne a b = true ↔ a ≠ b := decide_eq_true_iff

@[simp] theorem meets_ult_iff {w a b : Nat} : meets w .ult a b = true ↔ a < b := decide_eq_true_iff

/-! ### The two readings of a word -/

section Readings

variable {w n m : Nat} {x y z : Int}

theorem two_pow_pos_int (w : Nat) : (0 : Int) < 2 ^ w := by positivity

theorem wrap_cast (w : Nat) (z : Int) : (wrap w z : Int) = z % 2 ^ w :=
  Int.toNat_of_nonneg (Int.emod_nonneg z (two_pow_pos_int w).ne')

@[simp] theorem wrap_zero (w : Nat) : wrap w 0 = 0 := by simp [wrap]

theorem wrap_lt (w : Nat) (z : Int) : wrap w z < 2 ^ w := by
  have h := Int.emod_lt_of_pos z (two_pow_pos_int w)
  rw [← wrap_cast] at h
  exact_mod_cast h

theorem wrap_le (h : 0 ≤ z) : (wrap w z : Int) ≤ z := by
  obtain ⟨n, rfl⟩ := Int.eq_ofNat_of_zero_le h
  rw [wrap_cast]
  exact_mod_cast Nat.mod_le n (2 ^ w)

theorem wrap_eq_wrap_iff : wrap w x = wrap w y ↔ x ≡ y [ZMOD 2 ^ w] := by
  rw [← Nat.cast_inj (R := Int), wrap_cast, wrap_cast]
  rfl

theorem wrap_modEq (w : Nat) (z : Int) : (wrap w z : Int) ≡ z [ZMOD 2 ^ w] := by
  rw [wrap_cast]
  exact Int.mod_modEq z _

theorem signed_modEq (w n : Nat) : signed w n ≡ n [ZMOD 2 ^ w] := by
  unfold signed
  split
  · exact Int.ModEq.refl _
  · exact Int.sub_modulus_modEq_iff.2 (Int.ModEq.refl _)

theorem wrap_of_lt (h : n < 2 ^ w) : wrap w n = n := by
  have hn : (n : Int) < 2 ^ w := by exact_mod_cast h
  unfold wrap
  rw [Int.emod_eq_of_lt (Int.natCast_nonneg n) hn, Int.toNat_natCast]

/-- The signed reading can be written as a signed word. -/
theorem fitsSigned_signed (h : n < 2 ^ w) : FitsSigned w (signed w n) := by
  have hn : (n : Int) < 2 ^ w := by exact_mod_cast h
  unfold signed FitsSigned
  split
  · next hs =>
    have hs : 2 * (n : Int) < 2 ^ w := by exact_mod_cast hs
    omega
  · next hs =>
    have hs : (2 : Int) ^ w ≤ 2 * n := by exact_mod_cast not_lt.1 hs
    omega

/-- Integers that can be written as signed words are equal if they agree modulo `2 ^ w`. -/
theorem FitsSigned.eq_of_modEq (hx : FitsSigned w x) (hy : FitsSigned w y) (h : x ≡ y [ZMOD 2 ^ w]) : x = y := by
  obtain ⟨k, hk⟩ := Int.modEq_iff_dvd.1 h
  unfold FitsSigned at hx hy
  have hlt : -(2 ^ w : Int) < 2 ^ w * k := by omega
  have hk₀ : k = 0 := by
    rcases lt_trichotomy k 0 with hk | hk | hk
    · nlinarith
    · exact hk
    · nlinarith
  rw [hk₀] at hk
  omega

theorem signed_wrap (h : FitsSigned w z) : signed w (wrap w z) = z :=
  (fitsSigned_signed (wrap_lt w z)).eq_of_modEq h ((signed_modEq w _).trans (wrap_modEq w z))

theorem signed_wrap_eq_iff : signed w (wrap w z) = z ↔ FitsSigned w z :=
  ⟨fun h => h ▸ fitsSigned_signed (wrap_lt w z), signed_wrap⟩

theorem wrap_signed (h : n < 2 ^ w) : wrap w (signed w n) = n := by
  rw [← wrap_of_lt h, wrap_eq_wrap_iff, wrap_of_lt h]
  exact signed_modEq w n

/-- A word agrees with an integer modulo `2 ^ w` if its signed reading does. -/
theorem wrap_eq_iff_signed (hn : n < 2 ^ w) : wrap w z = n ↔ z ≡ signed w n [ZMOD 2 ^ w] := by
  rw [← wrap_signed hn, wrap_eq_wrap_iff, wrap_signed hn]

theorem signed_eq_zero_iff (hn : n < 2 ^ w) : signed w n = 0 ↔ n = 0 := by
  have h : (n : Int) < 2 ^ w := by exact_mod_cast hn
  unfold signed
  split
  · exact Int.natCast_eq_zero
  · next hs =>
    have hs : (2 : Int) ^ w ≤ 2 * n := by exact_mod_cast not_lt.1 hs
    omega

end Readings

/-! ### Taking an instruction back -/

section Back

variable {w n m : Nat} {x y z : Int}

theorem FitsSigned.mono {v : Nat} (h : FitsSigned w z) (hv : w ≤ v) : FitsSigned v z := by
  have hle : (2 : Int) ^ w ≤ 2 ^ v := pow_le_pow_right₀ (by norm_num) hv
  unfold FitsSigned at *
  omega

theorem fitsSigned_zero (w : Nat) : FitsSigned w 0 := by
  have := two_pow_pos_int w
  unfold FitsSigned
  omega

/-- A quotient by a positive number is no further from zero. -/
theorem FitsSigned.ediv (h : FitsSigned w z) {d : Int} (hd : 0 < d) : FitsSigned w (z / d) := by
  unfold FitsSigned at *
  rcases lt_or_ge z 0 with hz | hz
  · have hneg : z / d < 0 := Int.ediv_neg_of_neg_of_pos hz hd
    have : z ≤ z / d := Int.le_ediv_of_mul_le hd (by nlinarith)
    omega
  · have := Int.ediv_nonneg hz hd.le
    have := Int.ediv_le_self d hz
    omega

theorem wrap_eq_iff_of_fits (hz : FitsSigned w z) (hn : n < 2 ^ w) : wrap w z = n ↔ z = signed w n := by
  rw [wrap_eq_iff_signed hn]
  exact ⟨fun h => hz.eq_of_modEq (fitsSigned_signed hn) h, fun h => h ▸ Int.ModEq.refl _⟩

/-- Shifting back to the right gives the word again if no set bit was lost. -/
theorem lshr_shl_eq_iff (b : Nat) : wrap w (n * 2 ^ b) / 2 ^ b = n ↔ n * 2 ^ b < 2 ^ w := by
  have hpos : 0 < 2 ^ b := Nat.two_pow_pos b
  constructor
  · intro h
    calc n * 2 ^ b = wrap w (n * 2 ^ b) / 2 ^ b * 2 ^ b := by rw [h]
      _ ≤ wrap w (n * 2 ^ b) := Nat.div_mul_le_self _ _
      _ < 2 ^ w := wrap_lt w _
  · intro h
    have hwrap : wrap w (n * 2 ^ b) = n * 2 ^ b := by
      simpa using wrap_of_lt h
    rw [hwrap, Nat.mul_div_cancel _ hpos]

/-- Shifting back to the right gives the signed word again if the product can be written. -/
theorem ashr_shl_eq_iff (hn : n < 2 ^ w) (b : Nat) :
    wrap w (signed w (wrap w (n * 2 ^ b)) / 2 ^ b) = n ↔ FitsSigned w (signed w n * 2 ^ b) := by
  have hpos := two_pow_pos_int b
  have hword : wrap w (n * 2 ^ b) = wrap w (signed w n * 2 ^ b) :=
    wrap_eq_wrap_iff.2 ((signed_modEq w n).symm.mul_right _)
  rw [hword, wrap_eq_iff_of_fits ((fitsSigned_signed (wrap_lt w _)).ediv hpos) hn]
  constructor
  · intro h
    have hmod := (signed_modEq w _).trans (wrap_modEq w (signed w n * 2 ^ b))
    have hdvd : (2 : Int) ^ b ∣ signed w (wrap w (signed w n * 2 ^ b)) := by
      rcases le_total b w with hb | hb
      · exact (hmod.of_dvd (pow_dvd_pow 2 hb)).dvd_iff.2 (dvd_mul_left _ _)
      · -- the product is a multiple of `2 ^ w`, so that the word is zero
        have hzero : wrap w (signed w n * 2 ^ b) = 0 := by
          rw [← wrap_zero w, wrap_eq_wrap_iff, Int.modEq_zero_iff_dvd]
          exact (pow_dvd_pow 2 hb).mul_left _
        rw [hzero, (signed_eq_zero_iff (Nat.two_pow_pos w)).2 rfl]
        exact dvd_zero _
    rw [← signed_wrap_eq_iff, ← Int.ediv_mul_cancel hdvd, h]
  · intro h
    rw [signed_wrap h, Int.mul_ediv_cancel _ hpos.ne']

theorem shl_lshr_eq_iff (hn : n < 2 ^ w) (b : Nat) : wrap w ((n / 2 ^ b : Nat) * 2 ^ b) = n ↔ 2 ^ b ∣ n := by
  have hle : n / 2 ^ b * 2 ^ b < 2 ^ w := (Nat.div_mul_le_self n _).trans_lt hn
  have hwrap : wrap w ((n / 2 ^ b : Nat) * 2 ^ b) = n / 2 ^ b * 2 ^ b := by
    simpa using wrap_of_lt hle
  rw [hwrap, Nat.dvd_iff_div_mul_eq]

theorem shl_ashr_eq_iff (hn : n < 2 ^ w) (b : Nat) :
    wrap w (wrap w (signed w n / 2 ^ b) * 2 ^ b) = n ↔ (2 : Int) ^ b ∣ signed w n := by
  have hfits := fitsSigned_signed hn
  have hword : wrap w (wrap w (signed w n / 2 ^ b) * 2 ^ b) = wrap w (signed w n / 2 ^ b * 2 ^ b) :=
    wrap_eq_wrap_iff.2 ((wrap_modEq w _).mul_right _)
  rw [hword, wrap_eq_iff_signed hn]
  constructor
  · intro h
    rcases le_total b w with hb | hb
    · exact (h.of_dvd (pow_dvd_pow 2 hb)).dvd_iff.1 (dvd_mul_left _ _)
    · have hzero : signed w n = 0 := by
        refine hfits.eq_of_modEq (fitsSigned_zero w) (h.symm.trans ?_)
        exact Int.modEq_zero_iff_dvd.2 ((pow_dvd_pow 2 hb).mul_left _)
      rw [hzero]
      exact dvd_zero _
  · intro h
    rw [Int.ediv_mul_cancel h]

theorem mul_udiv_eq_iff (hn : n < 2 ^ w) : wrap w (result w .udiv n m * m) = n ↔ m ∣ n := by
  rw [result]
  split
  · next hm =>
    subst hm
    simp [eq_comm]
  · have hle : n / m * m < 2 ^ w := (Nat.div_mul_le_self n m).trans_lt hn
    have hwrap : wrap w ((n / m : Nat) * m) = n / m * m := by
      simpa using wrap_of_lt hle
    rw [hwrap, Nat.dvd_iff_div_mul_eq]

theorem mul_sdiv_eq_iff (hn : n < 2 ^ w) (hm : m < 2 ^ w) :
    wrap w (result w .sdiv n m * m) = n ↔ signed w m ∣ signed w n := by
  by_cases hzero : m = 0
  · have hsigned : signed w 0 = 0 := (signed_eq_zero_iff (Nat.two_pow_pos w)).2 rfl
    rw [hzero, hsigned, zero_dvd_iff, signed_eq_zero_iff hn]
    simp [eq_comm]
  have hword : wrap w (result w .sdiv n m * m) = wrap w ((signed w n).tdiv (signed w m) * signed w m) := by
    rw [result, if_neg hzero, wrap_eq_wrap_iff]
    exact (wrap_modEq w _).mul (signed_modEq w m).symm
  rw [hword, wrap_eq_iff_signed hn]
  constructor
  · intro h
    -- the remainder is a multiple of `2 ^ w` and less than the divisor
    have hrem : (2 : Int) ^ w ∣ (signed w n).tmod (signed w m) := by
      have hsum := Int.tmod_add_tdiv_mul (signed w n) (signed w m)
      have hdvd := Int.modEq_iff_dvd.1 h
      rwa [show signed w n - (signed w n).tdiv (signed w m) * signed w m = (signed w n).tmod (signed w m) by
        omega] at hdvd
    have hlt : |(signed w n).tmod (signed w m)| < 2 ^ w := by
      have hm' : signed w m ≠ 0 := fun h => hzero ((signed_eq_zero_iff hm).1 h)
      have hfits := fitsSigned_signed hm
      have hless : ((signed w n).tmod (signed w m)).natAbs < (signed w m).natAbs := by
        rw [Int.natAbs_tmod]
        exact Nat.mod_lt _ (Int.natAbs_pos.2 hm')
      unfold FitsSigned at hfits
      rw [Int.abs_eq_natAbs]
      omega
    exact Int.dvd_of_tmod_eq_zero (Int.eq_zero_of_abs_lt_dvd hrem hlt)
  · intro h
    rw [Int.tdiv_mul_cancel h]

end Back

end Peephole.Machine
