import Mathlib.Algebra.Group.Nat.Defs
import Peephole.Proofs.Logic.Fill

/-!
# Renaming variables

A variable is known by its name and its width.  `rename ρ` gives each bit-vector variable of a term the name that `ρ`
says; quantified formulas do not occur in what programs are encoded with, and are left as they are.

* `Term.val_rename`, `Formula.eval_rename`, `ArrayTerm.byteAt_rename` : a renamed term has the value that the term has
  where each variable has the value of its new name (`Env.Copies`), if no old name is left in it.
* `Env.exists_choice` : there is a choice with given values for the variables.
-/

namespace Peephole.Logic

variable (ρ : String → Nat → String)

mutual

/-- The term with other names for its variables. -/
def Term.rename : Term → Term
  | .var n w => .var (ρ n w) w
  | .const v w => .const v w
  | .not a => .not a.rename
  | .neg a => .neg a.rename
  | .op o a b => .op o a.rename b.rename
  | .extract hi lo a => .extract hi lo a.rename
  | .zeroExt n a => .zeroExt n a.rename
  | .signExt n a => .signExt n a.rename
  | .concat a b => .concat a.rename b.rename
  | .ite c a b => .ite c.rename a.rename b.rename
  | .read m a => .read m.rename a.rename

/-- The formula with other names for its variables. -/
def Formula.rename : Formula → Formula
  | .lit b => .lit b
  | .var n => .var n
  | .cmp c a b => .cmp c a.rename b.rename
  | .not p => .not p.rename
  | .and ps => .and (Formula.renameAll ps)
  | .or ps => .or (Formula.renameAll ps)
  | .implies p q => .implies p.rename q.rename
  | .ite c p q => .ite c.rename p.rename q.rename
  | .distinct ps => .distinct (Formula.renameAll ps)
  | .distinctTerms ts => .distinctTerms (Term.renameAll ts)
  | .all vs p => .all vs p
  | .ex vs p => .ex vs p

/-- The array with other names for its variables. -/
def ArrayTerm.rename : ArrayTerm → ArrayTerm
  | .var n => .var n
  | .write c a v m => .write c.rename a.rename v.rename m.rename
  | .ite c a b => .ite c.rename a.rename b.rename

/-- Several formulas with other names for their variables. -/
def Formula.renameAll : List Formula → List Formula
  | [] => []
  | p :: ps => p.rename :: Formula.renameAll ps

/-- Several terms with other names for their variables. -/
def Term.renameAll : List Term → List Term
  | [] => []
  | t :: ts => t.rename :: Term.renameAll ts

end

/-- The variable with its other name. -/
def Var.rename (v : Var) : Var :=
  match v.kind with
  | .bits w => ⟨ρ v.name w, v.kind⟩
  | _ => v

theorem Formula.renameAll_eq (ps : List Formula) : Formula.renameAll ρ ps = ps.map (Formula.rename ρ) := by
  induction ps with
  | nil => rfl
  | cons p ps ih => rw [Formula.renameAll, ih, List.map_cons]

/-- In `e` each variable has the value that its other name has in `env`, unless this is one of the old names.  All
else is as in `env`. -/
structure Env.Copies (old : List String) (env e : Env) : Prop where
  renamed : ∀ n w, ρ n w ∉ old → BitVec.ofInt w (env.bits (ρ n w)) = BitVec.ofInt w (e.bits n)
  bits : ∀ n, n ∉ old → env.bits n = e.bits n
  truth : env.truth = e.truth
  byte : env.byte = e.byte

/-- None of the old names is left among the names. -/
def Gone (old ns : List String) : Prop := ∀ n ∈ ns, n ∉ old

variable {ρ} {old ns ms : List String} {env e : Env}

theorem Gone.left (h : Gone old (ns ++ ms)) : Gone old ns := fun n hn => h n (List.mem_append_left ms hn)

theorem Gone.right (h : Gone old (ns ++ ms)) : Gone old ms := fun n hn => h n (List.mem_append_right ns hn)

theorem Env.Copies.agree (h : Env.Copies ρ old env e) (hg : Gone old ns) : Env.AgreeOn ns env e :=
  ⟨fun n hn => h.bits n (hg n hn), h.truth, h.byte⟩

mutual

/-- **The value of a renamed term.** -/
theorem Term.val_rename (h : Env.Copies ρ old env e) : ∀ t : Term, Gone old (t.rename ρ).names →
    (t.rename ρ).val env = t.val e
  | .var n w, hg => congrArg (Sigma.mk w) (h.renamed n w (hg _ List.mem_cons_self))
  | .const _ _, _ => rfl
  | .not a, hg => congrArg (fun x : Sized => (⟨x.1, ~~~x.2⟩ : Sized)) (a.val_rename h hg)
  | .neg a, hg => congrArg (fun x : Sized => (⟨x.1, -x.2⟩ : Sized)) (a.val_rename h hg)
  | .op o a b, hg => congrArg₂ (fun x y : Sized => (⟨x.1, o.apply x.2 (y.2.setWidth x.1)⟩ : Sized))
      (a.val_rename h hg.left) (b.val_rename h hg.right)
  | .extract hi lo a, hg =>
    congrArg (fun x : Sized => (⟨hi - lo + 1, x.2.extractLsb hi lo⟩ : Sized)) (a.val_rename h hg)
  | .zeroExt n a, hg => congrArg (fun x : Sized => (⟨x.1 + n, x.2.setWidth (x.1 + n)⟩ : Sized)) (a.val_rename h hg)
  | .signExt n a, hg =>
    congrArg (fun x : Sized => (⟨x.1 + n, x.2.signExtend (x.1 + n)⟩ : Sized)) (a.val_rename h hg)
  | .concat a b, hg => congrArg₂ (fun x y : Sized => (⟨x.1 + y.1, x.2 ++ y.2⟩ : Sized))
      (a.val_rename h hg.left) (b.val_rename h hg.right)
  | .ite c a b, hg => by
    have hab := congrArg₂ (fun x y : Sized =>
        (⟨x.1, if (c.rename ρ).eval env then x.2 else y.2.setWidth x.1⟩ : Sized))
      (a.val_rename h hg.left.right) (b.val_rename h hg.right)
    exact hab.trans (by rw [c.eval_rename h hg.left.left]; rfl)
  | .read m a, hg => by
    have ha := congrArg (fun x : Sized => (⟨8, (m.rename ρ).byteAt env x.2.toNat⟩ : Sized)) (a.val_rename h hg.right)
    exact ha.trans (congrArg (Sigma.mk 8) (m.byteAt_rename h hg.left _))

theorem Formula.eval_rename (h : Env.Copies ρ old env e) : ∀ p : Formula, Gone old (p.rename ρ).names →
    (p.rename ρ).eval env = p.eval e
  | .lit _, _ => rfl
  | .var n, _ => congrFun h.truth n
  | .cmp c a b, hg => congrArg₂ (fun x y : Sized => c.apply x.2 (y.2.setWidth x.1))
      (a.val_rename h hg.left) (b.val_rename h hg.right)
  | .not p, hg => congrArg (!·) (p.eval_rename h hg)
  | .and ps, hg => by
    simpa [Formula.rename, Formula.renameAll_eq] using congrArg (List.all · id) (Formula.map_eval_rename h ps hg)
  | .or ps, hg => by
    simpa [Formula.rename, Formula.renameAll_eq] using congrArg (List.any · id) (Formula.map_eval_rename h ps hg)
  | .implies p q, hg => congrArg₂ (fun x y => !x || y) (p.eval_rename h hg.left) (q.eval_rename h hg.right)
  | .ite c p q, hg => by
    simp only [Formula.rename, Formula.eval, c.eval_rename h hg.left.left, p.eval_rename h hg.left.right,
      q.eval_rename h hg.right]
  | .distinct ps, hg => by
    simp only [Formula.rename, Formula.eval, Formula.values_eq, Formula.map_eval_rename h ps hg]
  | .distinctTerms ts, hg => congrArg pairwiseDistinct (Term.values_rename h ts hg)
  | .all vs p, hg => Formula.eval_eq_of_agree (.all vs p) (h.agree hg)
  | .ex vs p, hg => Formula.eval_eq_of_agree (.ex vs p) (h.agree hg)

theorem ArrayTerm.byteAt_rename (h : Env.Copies ρ old env e) : ∀ m : ArrayTerm, Gone old (m.rename ρ).names → ∀ i,
    (m.rename ρ).byteAt env i = m.byteAt e i
  | .var n, _, i => by rw [ArrayTerm.rename, ArrayTerm.byteAt, ArrayTerm.byteAt, h.byte]
  | .write c a v m, hg, i => by
    have ha := congrArg (fun x : Sized => x.2.toNat) (a.val_rename h hg.left.left.right)
    have hv := congrArg (fun x : Sized => x.2.setWidth 8) (v.val_rename h hg.left.right)
    simp only [Term.val] at ha hv
    simp only [ArrayTerm.rename, ArrayTerm.byteAt, ha, hv, c.eval_rename h hg.left.left.left,
      m.byteAt_rename h hg.right i]
  | .ite c a b, hg, i => by
    simp only [ArrayTerm.rename, ArrayTerm.byteAt, c.eval_rename h hg.left.left, a.byteAt_rename h hg.left.right i,
      b.byteAt_rename h hg.right i]

theorem Formula.map_eval_rename (h : Env.Copies ρ old env e) : ∀ ps : List Formula,
    Gone old (Formula.namesOf (Formula.renameAll ρ ps)) →
      (Formula.renameAll ρ ps).map (·.eval env) = ps.map (·.eval e)
  | [], _ => rfl
  | p :: ps, hg => congrArg₂ List.cons (p.eval_rename h hg.left) (Formula.map_eval_rename h ps hg.right)

theorem Term.values_rename (h : Env.Copies ρ old env e) : ∀ ts : List Term,
    Gone old (Term.namesOf (Term.renameAll ρ ts)) → Term.values env (Term.renameAll ρ ts) = Term.values e ts
  | [], _ => rfl
  | t :: ts, hg => congrArg₂ List.cons (congrArg (fun x : Sized => x.2.toNat) (t.val_rename h hg.left))
      (Term.values_rename h ts hg.right)

end

/-- There is a choice in which each variable has a given value, if no two variables have the same name. -/
theorem Env.exists_choice {vs : List Var} (hkind : ∀ v ∈ vs, ∃ w, v.kind = .bits w)
    (hname : ∀ v ∈ vs, ∀ v' ∈ vs, v.name = v'.name → v = v') (value : Var → Nat)
    (hvalue : ∀ v ∈ vs, ∀ w, v.kind = .bits w → value v < 2 ^ w) (env : Env) :
    ∃ e ∈ choices vs env, e.truth = env.truth ∧ e.byte = env.byte ∧
      (∀ n, n ∉ vs.map (·.name) → e.bits n = env.bits n) ∧ ∀ v ∈ vs, e.bits v.name = value v := by
  induction vs generalizing env with
  | nil => exact ⟨env, List.mem_singleton_self env, rfl, rfl, fun _ _ => rfl, nofun⟩
  | cons v vs ih =>
    obtain ⟨⟨w, hw⟩, hkind⟩ := List.forall_mem_cons.1 hkind
    obtain ⟨hv, hvalue⟩ := List.forall_mem_cons.1 hvalue
    obtain ⟨e, he, htruth, hbyte, hother, hset⟩ := ih hkind
      (fun u hu u' hu' => hname u (List.mem_cons_of_mem v hu) u' (List.mem_cons_of_mem v hu')) hvalue
      (env.setBits v.name (value v))
    have hmem : env.setBits v.name (value v) ∈ env.variants v := by
      simp only [variants, hw]
      refine List.mem_map.2 ⟨value v, List.mem_range.2 ?_, rfl⟩
      rw [Nat.one_shiftLeft]
      exact hv w hw
    refine ⟨e, List.mem_flatMap.2 ⟨_, hmem, he⟩, htruth, hbyte, fun n hn => ?_, fun u hu => ?_⟩
    · rw [List.map_cons, List.mem_cons, not_or] at hn
      rw [hother n hn.2]
      exact if_neg hn.1
    · by_cases hin : u.name ∈ vs.map (·.name)
      · obtain ⟨u', hu', hsame⟩ := List.mem_map.1 hin
        rw [hname u hu u' (List.mem_cons_of_mem v hu') hsame.symm]
        exact hset u' hu'
      · have huv : u = v := by
          rcases List.mem_cons.1 hu with rfl | hmem
          · rfl
          · exact absurd (List.mem_map_of_mem hmem) hin
        rw [hother u.name hin, huv]
        exact if_pos rfl

end Peephole.Logic
