import Peephole.Proofs.Encode.Analysis

/-!
# Promises and exact results

The condition of a flag compares words of several widths, or shifts a word and shifts it back.  Here it is read as a
statement on the exact result of the instruction, for words of every width.

* `exactly`, `FitsUnsigned` : the exact result on integers, and what can be written as an unsigned word.
* `nsw_iff`, `nuw_iff`, `exact_iff` : a promise is kept if the exact result can be written, or if the division leaves no
  remainder.  They hold at all words, also where the behaviour of the instruction is undefined.
* `conditions_exact` : **the conditions of flags, of definedness and of predicates on overflow mean the same thing.**
-/

namespace Peephole.Machine

open Program (ArithOp)

/-- The integer can be written as an unsigned word. -/
def FitsUnsigned (w : Nat) (z : Int) : Prop := 0 ≤ z ∧ z < 2 ^ w

/-- The exact result of an instruction that can promise not to overflow.  A shift multiplies by a power of two. -/
def exactly : ArithOp → Int → Int → Int
  | .add, x, y => x + y
  | .sub, x, y => x - y
  | .mul, x, y => x * y
  | .shl, x, y => x * 2 ^ y.toNat
  | _, _, _ => 0

theorem fitsUnsigned_natCast {w n : Nat} : FitsUnsigned w n ↔ n < 2 ^ w := by
  unfold FitsUnsigned
  norm_cast
  exact and_iff_right (Nat.zero_le n)

end Peephole.Machine

namespace Peephole.Encode

open Logic Machine
open Program (ArithOp Flag Test)

section Words

variable {w : Nat} {a b : Term} (newShift : Bool) (hw : 0 < w) (ha : a.width = w) (hb : b.width = w) (env : Env)

include hw ha hb

theorem nsw_iff {op : ArithOp} (hop : .nsw ∈ op.flags) : (flagHolds newShift w op .nsw a b).eval env = true ↔
    FitsSigned w (exactly op (signed w (a.num env)) (if op = .shl then b.num env else signed w (b.num env))) ∨
      newShift = true ∧ op = .shl ∧ a.num env = 1 ∧ b.num env = w - 1 := by
  rw [flagHolds_iff newShift op .nsw hw ha hb]
  cases op with
  | add | sub | mul => simp [Broken, exactly]
  | shl => simp [Broken, exactly, or_iff_not_imp_left]
  | _ => cases hop <;> contradiction

theorem nuw_iff {op : ArithOp} (hop : .nuw ∈ op.flags) : (flagHolds newShift w op .nuw a b).eval env = true ↔
    FitsUnsigned w (exactly op (a.num env) (b.num env)) := by
  have hlt : (a.num env : Int) < 2 ^ w := by exact_mod_cast ha ▸ a.num_lt env
  rw [flagHolds_iff newShift op .nuw hw ha hb]
  cases op with
  | add | mul | shl =>
    simp only [Broken, exactly, not_le, Int.toNat_natCast]
    exact_mod_cast fitsUnsigned_natCast.symm
  | sub =>
    simp only [Broken, exactly, not_lt, FitsUnsigned]
    omega
  | _ => simp [ArithOp.flags] at hop

/-- A division leaves no remainder if it keeps the promise to be exact. -/
theorem exact_iff (m n : Nat) (hm : a.num env = m) (hn : b.num env = n) :
    ((flagHolds newShift w .udiv .exact a b).eval env = true ↔ n ∣ m) ∧
    ((flagHolds newShift w .sdiv .exact a b).eval env = true ↔ signed w n ∣ signed w m) ∧
    ((flagHolds newShift w .lshr .exact a b).eval env = true ↔ 2 ^ n ∣ m) ∧
    ((flagHolds newShift w .ashr .exact a b).eval env = true ↔ (2 ^ n : Int) ∣ signed w m) := by
  have hiff : ∀ op, (flagHolds newShift w op .exact a b).eval env = true ↔ ¬Broken newShift w op .exact m n := by
    intro op
    rw [flagHolds_iff newShift op .exact hw ha hb, hm, hn]
  exact ⟨(hiff .udiv).trans not_not, (hiff .sdiv).trans not_not, (hiff .lshr).trans not_not,
    (hiff .ashr).trans not_not⟩

end Words

/-- The promise that a predicate on overflow speaks of. -/
def promised : Test → Option (ArithOp × Flag)
  | .noSignedAdd => some (.add, .nsw)
  | .noUnsignedAdd => some (.add, .nuw)
  | .noSignedSub => some (.sub, .nsw)
  | .noUnsignedSub => some (.sub, .nuw)
  | .noSignedMul => some (.mul, .nsw)
  | .noUnsignedMul => some (.mul, .nuw)
  | .noUnsignedShl => some (.shl, .nuw)
  | _ => none

/-- **The conditions of arithmetic are exact.**  At words `m` and `n` of any width, a promise not to overflow is kept if
the exact result can be written, a promise to be exact if nothing remains, and an instruction is defined if it does not
divide by zero, nor the least word by minus one, nor shifts too far.  A predicate on overflow rests on the condition of
its flag. -/
theorem conditions_exact (newShift : Bool) {w : Nat} (hw : 0 < w) {a b : Term} (ha : a.width = w) (hb : b.width = w)
    (env : Env) (m n : Nat) (hm : a.num env = m) (hn : b.num env = n) :
    (∀ op : ArithOp, .nsw ∈ op.flags → ((flagHolds newShift w op .nsw a b).eval env = true ↔
      FitsSigned w (exactly op (signed w m) (if op = .shl then n else signed w n)) ∨
        newShift = true ∧ op = .shl ∧ m = 1 ∧ n = w - 1)) ∧
    (∀ op : ArithOp, .nuw ∈ op.flags → ((flagHolds newShift w op .nuw a b).eval env = true ↔
      FitsUnsigned w (exactly op m n))) ∧
    (((flagHolds newShift w .udiv .exact a b).eval env = true ↔ n ∣ m) ∧
      ((flagHolds newShift w .sdiv .exact a b).eval env = true ↔ signed w n ∣ signed w m) ∧
      ((flagHolds newShift w .lshr .exact a b).eval env = true ↔ 2 ^ n ∣ m) ∧
      ((flagHolds newShift w .ashr .exact a b).eval env = true ↔ (2 ^ n : Int) ∣ signed w m)) ∧
    (∀ op, holds env (arithDefined w op a b) = true ↔ ¬Undefined w op m n) ∧
    ∀ t op f, promised t = some (op, f) → ∀ call key given, testRequirement t call key given [a, b] =
      .ok (if answered t then analysed call given [a, b] (flagHolds newShift w op f a b)
        else ⟨given, [flagHolds newShift w op f a b]⟩) := by
  refine ⟨fun op hop => ?_, fun op hop => ?_, exact_iff newShift hw ha hb env m n hm hn, fun op => ?_, ?_⟩
  · rw [nsw_iff newShift hw ha hb env hop, hm, hn]
  · rw [nuw_iff newShift hw ha hb env hop, hm, hn]
  · rw [arithDefined_iff op hw ha hb, hm, hn]
  · intro t op f ht call key given
    cases t <;> cases ht <;> rfl

/-- A one shifted into the sign bit of a byte: the signed product cannot be written, and only the newer reading of the
flag lets it pass. -/
theorem signBit_conditions :
    (flagHolds true 8 .shl .nsw (.const 1 8) (.const 7 8)).eval default = true ∧
    (flagHolds false 8 .shl .nsw (.const 1 8) (.const 7 8)).eval default = false ∧
    holds default (arithDefined 8 .shl (.const 1 8) (.const 7 8)) = true := by
  have hshl := fun newShift => conditions_exact newShift (w := 8) (by decide) (a := .const 1 8) (b := .const 7 8) rfl rfl
    default 1 7 (by decide) (by decide)
  refine ⟨((hshl true).1 .shl (by decide)).2 (.inr (by decide)), ?_, ((hshl false).2.2.2.1 .shl).2 (by decide)⟩
  rw [← Bool.not_eq_true, (hshl false).1 .shl (by decide)]
  decide

end Peephole.Encode
