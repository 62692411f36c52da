import Peephole.Proofs.Encode.Constant
import Peephole.Proofs.Typing.Generate

/-!
# Literals keep their value

A literal without a given width may have every width of at most 64 bits that has room for its bits and, unless it is
negative, a sign bit.  That is enough for all numbers but one kind: a negative number needs a bit more than its absolute
value has, except for the powers of two.

* `constraint_literal` : the widths that a literal may have.
* `fitsSigned_iff_not_oneShort` : the numbers that fit into such a width.
* `literal_value_iff` : **in every width that it may have, a literal is encoded as its value, unless it is negative, no
  power of two, and the width is the least**.
-/

namespace Peephole.Typing

open Program

variable {α β : Type} {T T' : Table} {i : ValueId} {n : Int} {p : String}

theorem bind_of_ok {x : TableM α} {f : α → TableM β} {a : α} (h : x T = .ok (a, T')) : (x >>= f) T = f a T' := by
  change (x T >>= fun r => f r.1 r.2) = _
  rw [h]
  rfl

theorem read_own {t : PlacedTy} (h : (T.get i).type = some t) : (own i).read T = .ok (t, T) := by
  rw [Place.read, bind_of_ok (x := get) (a := T) rfl]
  simp only [own, h]
  rfl

theorem write_own (h : (T.get i).type = some ⟨p, .int none⟩) :
    ∃ T', (own i).write (.int none) T = .ok ((), T') ∧ (T'.get i).type = some ⟨p, .int none⟩ := by
  refine ⟨_, rfl, ?_⟩
  rcases Table.get_modify T i i _ with hget | ⟨-, hget⟩
  · rw [own, hget, h]
  · rw [own, hget, h]
    rfl

/-- The type at the place is an integer type of a width that the literal may have. -/
def MayHaveWidth (n : Int) (p : String) (σ : Assignment) : Prop :=
  σ (kindVar p) = 0 ∧ 0 < σ (sizeVar p) ∧ σ (sizeVar p) ≤ 64 ∧ (n = 0 ∨ signedBits n ≤ σ (sizeVar p))

theorem constraint_literal (hop : (T.get i).op = .literal n) (htype : (T.get i).type = some ⟨p, .int none⟩) :
    ∃ c T', constraint i T = .ok (c, T') ∧ ∀ σ, c.holds σ = true ↔ MayHaveWidth n p σ := by
  obtain ⟨T₁, hwrite, htype₁⟩ := write_own htype
  obtain ⟨T₂, hwrite₁, -⟩ := write_own htype₁
  have hplace : ∀ sub, placeConstraint sub (own i) T = .ok (intConstraint p none, T₁) := by
    intro sub
    rw [placeConstraint, bind_of_ok (read_own htype)]
    change ((own i).write (.int none) >>= fun _ => Pure.pure (intConstraint p none)) T = _
    rw [bind_of_ok hwrite]
    rfl
  have hint : ∀ σ, (intConstraint p none).holds σ = true ↔
      σ (kindVar p) = 0 ∧ 0 < σ (sizeVar p) ∧ σ (sizeVar p) ≤ 64 := by
    intro σ
    rw [intConstraint, Constraint.holds_and_cons, Constraint.holds_and_cons, widthRange, Constraint.holds_and_cons,
      Constraint.holds_and_cons, kindIs, Constraint.holds_varIs]
    simp only [Constraint.holds, Constraint.holdsAll, and_true]
    exact and_congr Iff.rfl (and_congr decide_eq_true_iff decide_eq_true_iff)
  have hrelated : relatedTo .ge (own i) (signedBits n) T₁ =
      .ok (.rel .ge (.var (sizeVar p)) (.const (signedBits n)), T₂) := by
    rw [relatedTo, bind_of_ok (read_own htype₁)]
    change ((own i).write (.int none) >>= fun _ => Pure.pure _) T₁ = _
    rw [bind_of_ok hwrite₁]
    rfl
  have hwidth : definedWidth i T₁ = .ok (none, T₁) := by
    rw [definedWidth, bind_of_ok (read_own htype₁)]
    rfl
  rw [constraint, valueConstraint, bind_of_ok (x := get) (a := T) rfl]
  simp only [hop]
  rw [bind_of_ok (hplace _)]
  by_cases hn : n = 0
  · rw [if_neg (not_not.2 hn)]
    refine ⟨_, _, rfl, fun σ => ?_⟩
    rw [hint, MayHaveWidth]
    simp only [hn, true_or, and_true]
  · rw [if_pos hn, bind_of_ok hwidth]
    dsimp only
    rw [bind_of_ok hrelated]
    refine ⟨_, _, rfl, fun σ => ?_⟩
    rw [Constraint.holds_and_cons, Constraint.holds_and_cons, hint, MayHaveWidth]
    simp only [hn, false_or, and_assoc, Constraint.holds, Constraint.holdsAll, and_true]
    exact and_congr Iff.rfl (and_congr Iff.rfl (and_congr Iff.rfl decide_eq_true_iff))

end Peephole.Typing

namespace Peephole.Encode

open Logic Machine Program Typing

/-- The width has room for the bits of the negative number but not for its sign. -/
def OneShort (w : Nat) (n : Int) : Prop := n < 0 ∧ w = n.natAbs.log2 + 1 ∧ n.natAbs ≠ 2 ^ n.natAbs.log2

theorem fitsSigned_iff_not_oneShort {w : Nat} {n : Int} (hw : 0 < w) (h : n = 0 ∨ signedBits n ≤ w) :
    FitsSigned w n ↔ ¬OneShort w n := by
  rcases eq_or_ne n 0 with rfl | hn
  · simp [fitsSigned_zero, OneShort]
  have habs : n.natAbs ≠ 0 := by omega
  have hlow : 2 ^ n.natAbs.log2 ≤ n.natAbs := Nat.log2_self_le habs
  have hhigh : n.natAbs < 2 ^ (n.natAbs.log2 + 1) := Nat.lt_log2_self
  have hbits := h.resolve_left hn
  simp only [signedBits, hn, if_false] at hbits
  rw [OneShort, FitsSigned]
  generalize n.natAbs.log2 = k at *
  have hlow' : (2 : Int) ^ k ≤ n.natAbs := by exact_mod_cast hlow
  have hhigh' : (n.natAbs : Int) < 2 ^ (k + 1) := by exact_mod_cast hhigh
  have heq : n.natAbs = 2 ^ k ↔ (n.natAbs : Int) = 2 ^ k := by norm_cast
  rw [ne_eq, heq]
  rcases Nat.lt_trichotomy w (k + 1) with hlt | rfl | hgt
  · omega
  · omega
  -- From here on there is room for all bits and the sign.
  · have hroom : (2 : Int) ^ (k + 2) ≤ 2 ^ w := pow_le_pow_right₀ (by norm_num) (by omega)
    have hpow' : (2 : Int) ^ (k + 2) = 2 * 2 ^ (k + 1) := pow_succ' 2 (k + 1)
    omega

/-- **A literal keeps its value in every width that it may have**, unless it is one bit short. -/
theorem literal_value_iff {T : Table} {i : ValueId} {n : Int} {p : String} (hop : (T.get i).op = .literal n)
    (htype : (T.get i).type = some ⟨p, .int none⟩) :
    ∃ c T', constraint i T = .ok (c, T') ∧ (∀ σ, c.holds σ = true ↔ MayHaveWidth n p σ) ∧
      ∀ s : Setting, s.table.get i = T.get i → c.holds s.shape.values = true → ∀ w, ∃ tm w',
        encode i s w = .ok (some tm, w') ∧ (tm.width : Int) = s.shape.values (sizeVar p) ∧
          ∀ env, (tm.eval env).toInt = n ↔ ¬OneShort tm.width n := by
  obtain ⟨c, T', hc, hwidths⟩ := constraint_literal hop htype
  refine ⟨c, T', hc, hwidths, fun s hs hholds w => ?_⟩
  obtain ⟨-, hpos, -, hbits⟩ := (hwidths _).1 hholds
  have hcast : ((s.shape.values (sizeVar p)).toNat : Int) = s.shape.values (sizeVar p) := Int.toNat_of_nonneg hpos.le
  have hconst : IsConst s.table (s.HasSize · (s.shape.values (sizeVar p)).toNat) i (.literal n) :=
    .literal (hs ▸ hop) ⟨_, hs ▸ htype, rfl⟩
  obtain ⟨tm, w', hrun, hwidth, hnum⟩ := encode_constant hconst w
  refine ⟨tm, w', hrun, by rw [hwidth, hcast], fun env => ?_⟩
  have hvalue : (tm.eval env).toNat = wrap tm.width n := (hnum env).trans (by rw [hwidth]; rfl)
  rw [toInt_eq_signed, hvalue, signed_wrap_eq_iff]
  exact fitsSigned_iff_not_oneShort (by omega) (by rwa [hwidth, hcast])

def minusThree : Table := ⟨#[⟨"-3", "-3", some ⟨"-3", .int none⟩, .literal (-3)⟩], 1⟩

/-- The theorem at `-3`: a width of 2 is allowed, and its value there is another one. -/
theorem minusThree_value : ∃ c T', constraint 0 minusThree = .ok (c, T') ∧
    c.holds (fun v => if v = kindVar "-3" then 0 else 2) = true ∧
      ∀ s : Setting, s.table = minusThree → c.holds s.shape.values = true → ∀ w, ∃ tm w',
        encode 0 s w = .ok (some tm, w') ∧ ∀ env, (tm.eval env).toInt = -3 ↔ tm.width ≠ 2 := by
  obtain ⟨c, T', hc, hwidths, hvalue⟩ := literal_value_iff (T := minusThree) (i := 0) rfl rfl
  refine ⟨c, T', hc, (hwidths _).2 ⟨rfl, by decide, by decide, .inr (by decide)⟩, fun s hs hholds w => ?_⟩
  obtain ⟨tm, w', hrun, -, hiff⟩ := hvalue s (by rw [hs]) hholds w
  have hshort : OneShort tm.width (-3) ↔ tm.width = 2 := by simp [OneShort, show Nat.log2 3 = 1 by decide]
  exact ⟨tm, w', hrun, fun env => (hiff env).trans (not_congr hshort)⟩

end Peephole.Encode
