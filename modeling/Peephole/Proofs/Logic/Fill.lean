import Peephole.Logic.Leading
import Peephole.Proofs.Logic.Memory

/-!
# Filling in memories

`fill τ` puts the memory `τ n` in the place of each array variable `n`, also a term over the index; then what was
selected from an array becomes a substitution for the index, and an update a condition on it.  It goes through all terms
that programs are encoded with; quantified formulas do not occur in these, and are replaced by one formula that is true.

* `Term.val_fill`, `Formula.eval_fill`, `Memory.byteAt_fill` : filling in memories is the same as reading their
  bytes from the environment (`Env.under`).
* the functions that build terms and formulas commute with `fill`.
-/

namespace Peephole.Logic

variable (τ : String → Memory)

mutual

/-- The term with the memories `τ` in place of array variables. -/
def Term.fill : Term → Term
  | .var n w => .var n w
  | .const v w => .const v w
  | .not a => .not a.fill
  | .neg a => .neg a.fill
  | .op o a b => .op o a.fill b.fill
  | .extract hi lo a => .extract hi lo a.fill
  | .zeroExt n a => .zeroExt n a.fill
  | .signExt n a => .signExt n a.fill
  | .concat a b => .concat a.fill b.fill
  | .ite c a b => .ite c.fill a.fill b.fill
  | .read m a => m.fill.read a.fill

/-- The formula with the memories `τ` in place of array variables; quantified formulas are left out. -/
def Formula.fill : Formula → Formula
  | .lit b => .lit b
  | .var n => .var n
  | .cmp c a b => .cmp c a.fill b.fill
  | .not p => .not p.fill
  | .and ps => .and (Formula.fillAll ps)
  | .or ps => .or (Formula.fillAll ps)
  | .implies p q => .implies p.fill q.fill
  | .ite c p q => .ite c.fill p.fill q.fill
  | .distinct ps => .distinct (Formula.fillAll ps)
  | .distinctTerms ts => .distinctTerms (Term.fillAll ts)
  | .all _ _ => .and []
  | .ex _ _ => .and []

/-- The memory that the array becomes with the memories `τ` in place of array variables. -/
def ArrayTerm.fill : ArrayTerm → Memory
  | .var n => τ n
  | .write c a v m => m.fill.write c.fill a.fill v.fill
  | .ite c a b => .choose c.fill a.fill b.fill

/-- Several formulas with the memories `τ` in place of array variables. -/
def Formula.fillAll : List Formula → List Formula
  | [] => []
  | p :: ps => p.fill :: Formula.fillAll ps

/-- Several terms with the memories `τ` in place of array variables. -/
def Term.fillAll : List Term → List Term
  | [] => []
  | t :: ts => t.fill :: Term.fillAll ts

end

def Memory.fill : Memory → Memory
  | .array m => m.fill τ
  | .byte t => .byte (t.fill τ)
  | .ifIndex p a v m => .ifIndex (p.fill τ) (a.fill τ) (v.fill τ) m.fill
  | .ite c a b => .ite (c.fill τ) a.fill b.fill

/-! ### Values -/

attribute [simp] Term.fill Formula.fill ArrayTerm.fill Memory.fill

@[simp] theorem Formula.fillAll_eq (ps : List Formula) : Formula.fillAll τ ps = ps.map (Formula.fill τ) := by
  induction ps with
  | nil => rfl
  | cons p ps ih => rw [Formula.fillAll, ih, List.map_cons]

@[simp] theorem Term.width_fill (t : Term) : (t.fill τ).width = t.width := by
  induction t using Term.width.induct with
  | case1 | case2 | case6 => rfl
  | case3 _ ih | case4 _ ih => exact ih
  | case5 _ _ _ ih => exact ih
  | case7 _ _ ih | case8 _ _ ih => exact congrArg (· + _) ih
  | case9 _ _ ih ih' => exact congrArg₂ (· + ·) ih ih'
  | case10 _ _ _ ih => exact ih
  | case11 => exact Memory.width_read

/-- The environment in which each array variable `n` holds the bytes of `τ n`. -/
def Env.under (env : Env) : Env := { env with byte := fun n a => ((τ n).byteAt env a).toNat }

/-- A bit-vector together with its width. -/
abbrev Sized := (w : Nat) × BitVec w

/-- The value of a term together with its width. -/
def Term.val (env : Env) (t : Term) : Sized := ⟨t.width, t.eval env⟩

theorem Memory.val_read (m : Memory) (x : Term) (env : Env) :
    (m.read x).val env = ⟨8, m.byteAt env (x.val env).2.toNat⟩ := by
  have hext : ∀ {n k : Nat} {a : BitVec n} {b : BitVec k}, n = k → a.toNat = b.toNat → (⟨n, a⟩ : Sized) = ⟨k, b⟩ := by
    rintro n _ a b rfl h
    rw [BitVec.eq_of_toNat_eq h]
  exact hext width_read num_read

/-- An array variable as a memory. -/
def Memory.var (n : String) : Memory := .array (.var n)

mutual

/-- **Filling in memories is the same as reading their bytes from the environment.** -/
theorem Term.val_fill (env : Env) : ∀ t : Term, (t.fill τ).val env = (t.fill .var).val (env.under τ)
  | .var _ _ => rfl
  | .const _ _ => rfl
  | .not a => congrArg (fun x : Sized => (⟨x.1, ~~~x.2⟩ : Sized)) (a.val_fill env)
  | .neg a => congrArg (fun x : Sized => (⟨x.1, -x.2⟩ : Sized)) (a.val_fill env)
  | .op o a b => congrArg₂ (fun x y : Sized => (⟨x.1, o.apply x.2 (y.2.setWidth x.1)⟩ : Sized))
      (a.val_fill env) (b.val_fill env)
  | .extract hi lo a =>
    congrArg (fun x : Sized => (⟨hi - lo + 1, x.2.extractLsb hi lo⟩ : Sized)) (a.val_fill env)
  | .zeroExt n a => congrArg (fun x : Sized => (⟨x.1 + n, x.2.setWidth (x.1 + n)⟩ : Sized)) (a.val_fill env)
  | .signExt n a => congrArg (fun x : Sized => (⟨x.1 + n, x.2.signExtend (x.1 + n)⟩ : Sized)) (a.val_fill env)
  | .concat a b =>
    congrArg₂ (fun x y : Sized => (⟨x.1 + y.1, x.2 ++ y.2⟩ : Sized)) (a.val_fill env) (b.val_fill env)
  | .ite c a b => by
    have h := congrArg₂ (fun x y : Sized => (⟨x.1, if (c.fill τ).eval env then x.2 else y.2.setWidth x.1⟩ : Sized))
      (a.val_fill env) (b.val_fill env)
    exact h.trans (by rw [c.eval_fill env]; rfl)
  | .read m a => by
    rw [Term.fill, Term.fill, Memory.val_read, Memory.val_read, m.byteAt_fill env]
    exact congrArg (fun x : Sized => (⟨8, (m.fill .var).byteAt (env.under τ) x.2.toNat⟩ : Sized)) (a.val_fill env)

/-- The truth of a formula after filling in memories. -/
theorem Formula.eval_fill (env : Env) : ∀ p : Formula, (p.fill τ).eval env = (p.fill .var).eval (env.under τ)
  | .lit _ => rfl
  | .var _ => rfl
  | .cmp c a b => congrArg₂ (fun x y : Sized => c.apply x.2 (y.2.setWidth x.1))
      (a.val_fill env) (b.val_fill env)
  | .not p => congrArg (!·) (p.eval_fill env)
  | .and ps => Formula.evalAll_fill env ps
  | .or ps => Formula.evalAny_fill env ps
  | .implies p q => congrArg₂ (fun x y => !x || y) (p.eval_fill env) (q.eval_fill env)
  | .ite c p q => by
    simp only [Formula.fill, Formula.eval, c.eval_fill env, p.eval_fill env, q.eval_fill env]
  | .distinct ps => congrArg pairwiseDistinct (Formula.values_fill env ps)
  | .distinctTerms ts => congrArg pairwiseDistinct (Term.values_fill env ts)
  | .all _ _ => rfl
  | .ex _ _ => rfl

theorem ArrayTerm.byteAt_fill (env : Env) : ∀ (m : ArrayTerm) (i : Nat),
    (m.fill τ).byteAt env i = (m.fill .var).byteAt (env.under τ) i
  | .var n, i => by simp [Memory.var, Memory.byteAt, ArrayTerm.byteAt, Env.under]
  | .write c a v m, i => by
    have ha : (a.fill τ).num env = (a.fill .var).num (env.under τ) :=
      congrArg (fun x : Sized => x.2.toNat) (a.val_fill env)
    have hv := congrArg (fun x : Sized => x.2.setWidth 8) (v.val_fill env)
    simp only [Term.val] at hv
    simp only [ArrayTerm.fill, Memory.byteAt_write, ha, hv, c.eval_fill env, m.byteAt_fill env i]
  | .ite c a b, i => by
    simp only [ArrayTerm.fill, Memory.byteAt_choose, c.eval_fill env, a.byteAt_fill env i, b.byteAt_fill env i]

theorem Formula.evalAll_fill (env : Env) : ∀ ps : List Formula,
    Formula.evalAll env (Formula.fillAll τ ps) = Formula.evalAll (env.under τ) (Formula.fillAll .var ps)
  | [] => rfl
  | p :: ps => congrArg₂ (· && ·) (p.eval_fill env) (Formula.evalAll_fill env ps)

theorem Formula.evalAny_fill (env : Env) : ∀ ps : List Formula,
    Formula.evalAny env (Formula.fillAll τ ps) = Formula.evalAny (env.under τ) (Formula.fillAll .var ps)
  | [] => rfl
  | p :: ps => congrArg₂ (· || ·) (p.eval_fill env) (Formula.evalAny_fill env ps)

theorem Formula.values_fill (env : Env) : ∀ ps : List Formula,
    Formula.values env (Formula.fillAll τ ps) = Formula.values (env.under τ) (Formula.fillAll .var ps)
  | [] => rfl
  | p :: ps => congrArg₂ List.cons (p.eval_fill env) (Formula.values_fill env ps)

theorem Term.values_fill (env : Env) : ∀ ts : List Term,
    Term.values env (Term.fillAll τ ts) = Term.values (env.under τ) (Term.fillAll .var ts)
  | [] => rfl
  | t :: ts => congrArg₂ List.cons (congrArg (fun x : Sized => x.2.toNat) (t.val_fill env))
      (Term.values_fill env ts)

end

theorem Memory.byteAt_fill (env : Env) (m : Memory) (i : Nat) :
    (m.fill τ).byteAt env i = (m.fill .var).byteAt (env.under τ) i := by
  induction m with
  | array m => exact m.byteAt_fill τ env i
  | byte t => exact congrArg (fun x : Sized => x.2.setWidth 8) (t.val_fill τ env)
  | ifIndex p a v m ih =>
    have ha := congrArg (fun x : Sized => x.2.toNat) (a.val_fill τ env)
    have hv := congrArg (fun x : Sized => x.2.setWidth 8) (v.val_fill τ env)
    simp only [Term.val] at ha hv
    simp only [fill, byteAt, ha, hv, p.eval_fill τ env, ih]
  | ite c a b iha ihb => simp only [fill, byteAt, c.eval_fill τ env, iha, ihb]

/-! ### Building terms and formulas -/

namespace Formula

@[simp] theorem isTrue_fill (p : Formula) : (p.fill τ).isTrue = p.isTrue := by
  cases p <;> rfl

@[simp] theorem isFalse_fill (p : Formula) : (p.fill τ).isFalse = p.isFalse := by
  cases p <;> rfl

@[simp] theorem fill_allOf (ps : List Formula) : (allOf ps).fill τ = allOf (ps.map (fill τ)) := by
  simp only [allOf, List.filter_map, Function.comp_def, isTrue_fill]
  rcases h : ps.filter fun p => !p.isTrue with _ | ⟨p, _ | ⟨q, qs⟩⟩ <;> simp [h]

@[simp] theorem fill_anyOf (ps : List Formula) : (anyOf ps).fill τ = anyOf (ps.map (fill τ)) := by
  simp only [anyOf, List.filter_map, Function.comp_def, isFalse_fill]
  rcases h : ps.filter fun p => !p.isFalse with _ | ⟨p, _ | ⟨q, qs⟩⟩ <;> simp [h]

@[simp] theorem fill_negate (p : Formula) : (negate p).fill τ = negate (p.fill τ) := by
  simp only [negate, isTrue_fill, isFalse_fill]
  split
  · rfl
  · split <;> rfl

@[simp] theorem fill_noSignedMulOverflow (a b : Term) :
    (noSignedMulOverflow a b).fill τ = noSignedMulOverflow (a.fill τ) (b.fill τ) := by
  simp [noSignedMulOverflow]

@[simp] theorem fill_noUnsignedMulOverflow (a b : Term) :
    (noUnsignedMulOverflow a b).fill τ = noUnsignedMulOverflow (a.fill τ) (b.fill τ) := by
  simp [noUnsignedMulOverflow]

@[simp] theorem fill_noSignedOverflow (o : BitOp) (a b : Term) :
    (noSignedOverflow o a b).fill τ = noSignedOverflow o (a.fill τ) (b.fill τ) := by
  simp [noSignedOverflow]

@[simp] theorem fill_noUnsignedOverflow (o : BitOp) (a b : Term) :
    (noUnsignedOverflow o a b).fill τ = noUnsignedOverflow o (a.fill τ) (b.fill τ) := by
  simp [noUnsignedOverflow]

@[simp] theorem fill_shiftedMask (a : Term) : (shiftedMask a).map (fill τ) = shiftedMask (a.fill τ) := by
  simp [shiftedMask]

end Formula

namespace Term

@[simp] theorem fill_ofFormula (p : Formula) : (ofFormula p).fill τ = ofFormula (p.fill τ) := by
  simp [ofFormula]

@[simp] theorem fill_bitSet (i : Nat) (t : Term) : (bitSet i t).fill τ = bitSet i (t.fill τ) := by
  simp [bitSet]

@[simp] theorem fill_resizeZero (t : Term) (w : Nat) : (t.resizeZero w).fill τ = (t.fill τ).resizeZero w := by
  unfold resizeZero
  split
  · simp_all
  · split <;> simp_all

@[simp] theorem fill_resizeSigned (t : Term) (w : Nat) : (t.resizeSigned w).fill τ = (t.fill τ).resizeSigned w := by
  unfold resizeSigned
  split
  · simp_all
  · split <;> simp_all

theorem fill_log2Between (v : Term) (out low n : Nat) :
    (log2Between v out low n).fill τ = log2Between (v.fill τ) out low n := by
  fun_induction log2Between v out low n with
  | case1 low => rw [log2Between, if_pos rfl, fill]
  | case2 low n hn half ih ih' =>
    conv_rhs => rw [log2Between, if_neg hn]
    simp [ih, ih', half]

@[simp] theorem fill_log2 (v : Term) (out : Nat) : (log2 v out).fill τ = log2 (v.fill τ) out := by
  rw [log2, log2, fill_log2Between, width_fill]

@[simp] theorem fill_leadingZeros (v : Term) (out : Nat) :
    (leadingZeros v out).fill τ = leadingZeros (v.fill τ) out := by
  have h : ∀ n, (leadingZerosFrom v out n).fill τ = leadingZerosFrom (v.fill τ) out n := by
    intro n
    induction n with
    | zero => simp [leadingZerosFrom]
    | succ n ih => simp [leadingZerosFrom, ih]
  rw [leadingZeros, leadingZeros, h, width_fill]

@[simp] theorem fill_trailingZeros (v : Term) (out : Nat) :
    (trailingZeros v out).fill τ = trailingZeros (v.fill τ) out := by
  have h : ∀ n, (trailingZerosFrom v out n).fill τ = trailingZerosFrom (v.fill τ) out n := by
    intro n
    induction n with
    | zero => simp [trailingZerosFrom]
    | succ n ih => simp [trailingZerosFrom, ih]
  rw [trailingZeros, trailingZeros, h, width_fill]

@[simp] theorem fill_signBits (v : Term) (out : Nat) : (signBits v out).fill τ = signBits (v.fill τ) out := by
  have h : ∀ n, (signBitsFrom v out n).fill τ = signBitsFrom (v.fill τ) out n := by
    intro n
    induction n with
    | zero => simp [signBitsFrom]
    | succ n ih => simp [signBitsFrom, ih]
  rw [signBits, signBits, h, width_fill]

@[simp] theorem fill_concatAll (ts : List Term) : concatAll (ts.map (fill τ)) = (concatAll ts).map (fill τ) := by
  cases ts with
  | nil => rfl
  | cons t ts =>
    have h : ∀ (us : List Term) (t : Term), (us.map (fill τ)).foldl concat (t.fill τ) = (us.foldl concat t).fill τ := by
      intro us
      induction us with
      | nil => simp
      | cons u us ih =>
        intro t
        rw [List.map_cons, List.foldl_cons, List.foldl_cons, ← ih, fill]
    simp [concatAll, h]

end Term

namespace Memory

@[simp] theorem fill_read (m : Memory) (x : Term) : (m.read x).fill τ = (m.fill τ).read (x.fill τ) := by
  induction m with
  | array => rfl
  | byte => simp [read]
  | ifIndex _ _ _ _ ih => simp [read, Formula.sameAddress, ih]
  | ite _ _ _ iha ihb => simp [read, iha, ihb]

@[simp] theorem fill_write (p : Formula) (a v : Term) (m : Memory) :
    (m.write p a v).fill τ = (m.fill τ).write (p.fill τ) (a.fill τ) (v.fill τ) := by
  cases m <;> rfl

@[simp] theorem fill_choose (c : Formula) (m m' : Memory) :
    (choose c m m').fill τ = choose (c.fill τ) (m.fill τ) (m'.fill τ) := by
  -- only two arrays are chosen from as arrays, and what is no array stays none
  cases m with
  | array m =>
    cases m' with
    | array => rfl
    | _ => cases h : m.fill τ <;> simp [choose, h]
  | _ => cases m' <;> rfl

@[simp] theorem fill_firstOf (es : List (Formula × Memory)) :
    firstOf (es.map fun e => (e.1.fill τ, e.2.fill τ)) = (firstOf es).map (fill τ) := by
  induction es with
  | nil => rfl
  | cons e es ih =>
    cases es with
    | nil => rfl
    | cons f es =>
      have hstep : ∀ (c : Formula) (m : Memory) (e : Formula × Memory) (es : List (Formula × Memory)),
          firstOf ((c, m) :: e :: es) = (firstOf (e :: es)).map (choose c m) :=
        fun _ _ _ _ => rfl
      simp only [List.map_cons] at ih
      simp only [List.map_cons, hstep, ih, Option.map_map, Function.comp_def, fill_choose]

end Memory

/-- What is read from the memories does not start with a constant symbol. -/
def Tame : Prop := ∀ n x, ((τ n).read x).startsWithC = false

theorem ArrayTerm.startsWithC_fill (hτ : Tame τ) (m : ArrayTerm) (x : Term) :
    ((m.fill τ).read x).startsWithC = false := by
  cases m with
  | var n => exact hτ n x
  | write c a v m => cases h : m.fill τ <;> simp [h, Memory.write, Memory.read, Term.startsWithC]
  | ite c m m' =>
    cases h : m.fill τ <;> cases h' : m'.fill τ <;> simp [h, h', Memory.choose, Memory.read, Term.startsWithC]

theorem Term.startsWithC_fill (hτ : Tame τ) : ∀ t : Term, (t.fill τ).startsWithC = t.startsWithC
  | .var _ _ | .const _ _ | .not _ | .neg _ | .extract _ _ _ | .zeroExt _ _ | .signExt _ _ | .concat _ _
  | .ite _ _ _ => rfl
  | .op o a b => by
    have ha := a.startsWithC_fill hτ
    simp only [Term.fill, Term.startsWithC]
    cases o.level? with
    | none => rfl
    | some l =>
      cases a with
      | op i x y => exact congrArg (o.bare i && ·) ha
      | read m x =>
        -- whatever the term is that is read now
        rw [Term.fill] at ha ⊢
        cases h : (m.fill τ).read (x.fill τ) <;> simp_all [Term.startsWithC]
      | _ => exact ha
  | .read m x => m.startsWithC_fill τ hτ (x.fill τ)

end Peephole.Logic
