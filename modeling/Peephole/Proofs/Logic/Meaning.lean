import Mathlib.Data.List.Forall2
import Peephole.Logic.Eval

/-!
# The meaning of built formulas

The functions that build formulas leave out what is plainly true or false.  Here their results are shown to
mean what their names say, and a quantifier to speak of all **choices** of values for its variables:

* `Formula.eval_allOf`, `Formula.eval_anyOf`, `Formula.eval_negate` : conjunction, disjunction, negation.
* `Env.choices` : the environments that differ from a given one only in some variables.
* `Formula.eval_forAll` : a quantified formula holds if its body holds for all choices.
* `Formula.eval_eq_of_agree` : the truth of a formula depends only on the names that occur in it, and so do
  the value of a term and the bytes of a memory.
-/

namespace Peephole.Logic

variable {env e e' : Env} {ns : List String}

namespace Formula

variable (env) (ps : List Formula)

theorem evalAll_eq : evalAll env ps = ps.all (·.eval env) := by
  induction ps with
  | nil => rfl
  | cons p ps ih => simp only [evalAll, ih, List.all_cons]

theorem evalAny_eq : evalAny env ps = ps.any (·.eval env) := by
  induction ps with
  | nil => rfl
  | cons p ps ih => simp only [evalAny, ih, List.any_cons]

theorem values_eq : values env ps = ps.map (·.eval env) := by
  induction ps with
  | nil => rfl
  | cons p ps ih => simp only [values, ih, List.map_cons]

theorem eq_of_isTrue {p : Formula} (h : p.isTrue = true) : p = .lit true := by
  unfold isTrue at h
  split at h
  · rfl
  · simp at h

theorem eq_of_isFalse {p : Formula} (h : p.isFalse = true) : p = .lit false := by
  unfold isFalse at h
  split at h
  · rfl
  · simp at h

@[simp] theorem eval_lit (b : Bool) : (lit b).eval env = b := rfl

@[simp] theorem eval_and : (and ps).eval env = ps.all (·.eval env) := evalAll_eq env ps

@[simp] theorem eval_or : (or ps).eval env = ps.any (·.eval env) := evalAny_eq env ps

@[simp] theorem eval_implies (p q : Formula) : (implies p q).eval env = (!p.eval env || q.eval env) := rfl

/-- What `allOf` leaves out holds anyway. -/
theorem all_filter_isTrue : (ps.filter fun p => !p.isTrue).all (·.eval env) = ps.all (·.eval env) := by
  induction ps with
  | nil => rfl
  | cons p ps ih =>
    by_cases h : p.isTrue = true
    · rw [eq_of_isTrue h, List.filter_cons_of_neg (by simp [isTrue]), ih]
      simp
    · rw [List.filter_cons_of_pos (by simpa using h), List.all_cons, List.all_cons, ih]

/-- What `anyOf` leaves out does not hold anyway. -/
theorem any_filter_isFalse : (ps.filter fun p => !p.isFalse).any (·.eval env) = ps.any (·.eval env) := by
  induction ps with
  | nil => rfl
  | cons p ps ih =>
    by_cases h : p.isFalse = true
    · rw [eq_of_isFalse h, List.filter_cons_of_neg (by simp [isFalse]), ih]
      simp
    · rw [List.filter_cons_of_pos (by simpa using h), List.any_cons, List.any_cons, ih]

@[simp] theorem eval_allOf : (allOf ps).eval env = ps.all (·.eval env) := by
  rw [← all_filter_isTrue env ps]
  unfold allOf
  split
  · next h => simp [h]
  · next h => simp [h]
  · next h => rw [eval_and]

@[simp] theorem eval_anyOf : (anyOf ps).eval env = ps.any (·.eval env) := by
  rw [← any_filter_isFalse env ps]
  unfold anyOf
  split
  · next h => simp [h]
  · next h => simp [h]
  · next h => rw [eval_or]

@[simp] theorem eval_negate (p : Formula) : p.negate.eval env = !p.eval env := by
  unfold negate
  split
  · next h => simp [eq_of_isFalse h]
  · split
    · next h => simp [eq_of_isTrue h]
    · rfl

end Formula

/-! ### Choices -/

namespace Env

/-- Varying a variable changes no memory and no other bit-vector. -/
theorem mem_variants {env e : Env} {v : Var} (h : e ∈ env.variants v) :
    e.byte = env.byte ∧ ∀ n, n ≠ v.name → e.bits n = env.bits n := by
  unfold variants at h
  cases hv : v.kind with
  | bits w =>
    simp only [hv, List.mem_map] at h
    obtain ⟨k, -, rfl⟩ := h
    exact ⟨rfl, fun n hn => if_neg hn⟩
  | truth =>
    simp only [hv, List.mem_cons, List.not_mem_nil, or_false] at h
    obtain rfl | rfl := h
    · exact ⟨rfl, fun _ _ => rfl⟩
    · exact ⟨rfl, fun _ _ => rfl⟩
  | bytes =>
    simp only [hv, List.mem_singleton] at h
    rw [h]
    exact ⟨rfl, fun _ _ => rfl⟩

/-- The environments that differ from `env` only in the variables. -/
def choices : List Var → Env → List Env
  | [], env => [env]
  | v :: vs, env => (env.variants v).flatMap (choices vs)

theorem forAll_eq (p : Env → Bool) (vs : List Var) (env : Env) :
    forAll p vs env = (choices vs env).all p := by
  induction vs generalizing env with
  | nil => simp [forAll, choices]
  | cons v vs ih => simp only [forAll, choices, List.all_flatMap, funext ih]

theorem thereIs_eq (p : Env → Bool) (vs : List Var) (env : Env) :
    thereIs p vs env = (choices vs env).any p := by
  induction vs generalizing env with
  | nil => simp [thereIs, choices]
  | cons v vs ih => simp only [thereIs, choices, List.any_flatMap, funext ih]

/-- There is a choice: no variable has an empty range. -/
theorem choices_ne_nil (vs : List Var) (env : Env) : choices vs env ≠ [] := by
  induction vs generalizing env with
  | nil => simp [choices]
  | cons v vs ih =>
    obtain ⟨e, he⟩ : ∃ e, e ∈ env.variants v := by
      unfold variants
      split
      · next w _ =>
        have hpos : 0 < 1 <<< w := by
          rw [Nat.one_shiftLeft]
          exact Nat.two_pow_pos w
        exact ⟨_, List.mem_map.2 ⟨0, List.mem_range.2 hpos, rfl⟩⟩
      · exact ⟨_, List.mem_cons_self⟩
      · exact ⟨_, List.mem_cons_self⟩
    intro h
    exact ih e (List.flatMap_eq_nil_iff.1 h e he)

/-- The environments give the same value to each of the names, and agree in all but bit-vectors. -/
structure AgreeOn (ns : List String) (e e' : Env) : Prop where
  bits : ∀ n ∈ ns, e.bits n = e'.bits n
  truth : e.truth = e'.truth
  byte : e.byte = e'.byte

theorem AgreeOn.left {ms : List String} (h : AgreeOn (ns ++ ms) e e') : AgreeOn ns e e' :=
  ⟨fun n hn => h.bits n (List.mem_append_left ms hn), h.truth, h.byte⟩

theorem AgreeOn.right {ms : List String} (h : AgreeOn (ns ++ ms) e e') : AgreeOn ms e e' :=
  ⟨fun n hn => h.bits n (List.mem_append_right ns hn), h.truth, h.byte⟩

theorem AgreeOn.trans {e'' : Env} (h : AgreeOn ns e e') (h' : AgreeOn ns e' e'') : AgreeOn ns e e'' :=
  ⟨fun n hn => (h.bits n hn).trans (h'.bits n hn), h.truth.trans h'.truth, h.byte.trans h'.byte⟩

theorem AgreeOn.setBits (h : AgreeOn ns e e') (name : String) (value : Int) :
    AgreeOn ns (e.setBits name value) (e'.setBits name value) := by
  refine ⟨fun n hn => ?_, h.truth, h.byte⟩
  simp only [Env.setBits, h.bits n hn]

theorem AgreeOn.setTruth (h : AgreeOn ns e e') (name : String) (value : Bool) :
    AgreeOn ns (e.setTruth name value) (e'.setTruth name value) := by
  refine ⟨h.bits, ?_, h.byte⟩
  simp only [Env.setTruth, h.truth]

/-- Varying one variable in both of two environments that agree keeps them in agreement. -/
theorem AgreeOn.variants (h : AgreeOn ns e e') (v : Var) :
    List.Forall₂ (AgreeOn ns) (e.variants v) (e'.variants v) := by
  unfold Env.variants
  split
  · rw [List.forall₂_map_left_iff, List.forall₂_map_right_iff]
    exact List.forall₂_same.2 fun n _ => h.setBits v.name n
  · exact .cons (h.setTruth v.name false) (.cons (h.setTruth v.name true) .nil)
  · exact .cons h .nil

theorem AgreeOn.choices (h : AgreeOn ns e e') (vs : List Var) :
    List.Forall₂ (AgreeOn ns) (choices vs e) (choices vs e') := by
  induction vs generalizing e e' with
  | nil => exact .cons h .nil
  | cons v vs ih => exact List.rel_flatMap (h.variants v) fun _ _ h => ih h

/-- What depends only on some names has the same values for the choices of environments that agree. -/
theorem map_choices_congr {p : Env → Bool}
    (hp : ∀ e e', AgreeOn ns e e' → p e = p e') (vs : List Var) (h : AgreeOn ns e e') :
    (choices vs e).map p = (choices vs e').map p :=
  List.forall₂_eq_eq_eq ▸ List.rel_map (fun e e' h => hp e e' h) (h.choices vs)

/-- A choice agrees with the environment on all names that are not varied, if no truth value is. -/
theorem agreeOn_of_mem_choices {vs : List Var} (hkind : ∀ v ∈ vs, v.kind ≠ .truth)
    (hname : ∀ v ∈ vs, v.name ∉ ns) (he : e ∈ choices vs env) : AgreeOn ns env e := by
  induction vs generalizing env with
  | nil =>
    obtain rfl : e = env := by simpa [choices] using he
    exact ⟨fun _ _ => rfl, rfl, rfl⟩
  | cons v vs ih =>
    obtain ⟨f, hf, he⟩ := List.mem_flatMap.1 he
    have hstep : AgreeOn ns env f := by
      unfold variants at hf
      split at hf
      · obtain ⟨n, -, rfl⟩ := List.mem_map.1 hf
        refine ⟨fun m hm => ?_, rfl, rfl⟩
        have : m ≠ v.name := fun h => hname v List.mem_cons_self (h ▸ hm)
        simp [setBits, this]
      · next h => exact absurd h (hkind v List.mem_cons_self)
      · obtain rfl : f = env := by simpa using hf
        exact ⟨fun _ _ => rfl, rfl, rfl⟩
    exact hstep.trans <| ih (fun u hu => hkind u (List.mem_cons_of_mem v hu))
      (fun u hu => hname u (List.mem_cons_of_mem v hu)) he

end Env

theorem Formula.eval_forAll (env : Env) (vs : List Var) (p : Formula) :
    (Formula.forAll vs p).eval env = (Env.choices vs env).all (p.eval ·) := by
  unfold Formula.forAll
  split
  · next h =>
    rw [List.isEmpty_iff.1 h]
    simp [Env.choices]
  · exact Env.forAll_eq _ vs env

/-! ### Names -/

mutual

/-- The names of bit-vector variables that occur in a term. -/
def Term.names : Term → List String
  | .var n _ => [n]
  | .const _ _ => []
  | .not a | .neg a | .extract _ _ a | .zeroExt _ a | .signExt _ a => a.names
  | .op _ a b | .concat a b => a.names ++ b.names
  | .ite c a b => c.names ++ a.names ++ b.names
  | .read m a => m.names ++ a.names

/-- The names of bit-vector variables that occur in a formula. -/
def Formula.names : Formula → List String
  | .lit _ | .var _ => []
  | .cmp _ a b => a.names ++ b.names
  | .not p | .all _ p | .ex _ p => p.names
  | .and ps | .or ps | .distinct ps => Formula.namesOf ps
  | .implies p q => p.names ++ q.names
  | .ite c p q => c.names ++ p.names ++ q.names
  | .distinctTerms ts => Term.namesOf ts

/-- The names of bit-vector variables that occur in an array. -/
def ArrayTerm.names : ArrayTerm → List String
  | .var _ => []
  | .write c a v m => c.names ++ a.names ++ v.names ++ m.names
  | .ite c a b => c.names ++ a.names ++ b.names

/-- The names of bit-vector variables that occur in formulas. -/
def Formula.namesOf : List Formula → List String
  | [] => []
  | p :: ps => p.names ++ Formula.namesOf ps

/-- The names of bit-vector variables that occur in terms. -/
def Term.namesOf : List Term → List String
  | [] => []
  | t :: ts => t.names ++ Term.namesOf ts

end

open Env (AgreeOn)

-- The environments are bound behind the colon, as a quantifier changes them.
mutual

theorem Term.eval_eq_of_agree : (t : Term) → ∀ {e e' : Env}, AgreeOn t.names e e' → t.eval e = t.eval e'
  | .var n w, _, _, h => by rw [Term.eval, Term.eval, h.bits n List.mem_cons_self]
  | .const _ _, _, _, _ => rfl
  | .not a, _, _, h | .neg a, _, _, h => by rw [Term.eval, Term.eval, Term.eval_eq_of_agree a h]
  | .op o a b, _, _, h => by
    rw [Term.eval, Term.eval, Term.eval_eq_of_agree a h.left, Term.eval_eq_of_agree b h.right]
  | .extract _ _ a, _, _, h => by rw [Term.eval, Term.eval, Term.eval_eq_of_agree a h]
  | .zeroExt _ a, _, _, h | .signExt _ a, _, _, h => by rw [Term.eval, Term.eval, Term.eval_eq_of_agree a h]
  | .concat a b, _, _, h => by
    rw [Term.eval, Term.eval, Term.eval_eq_of_agree a h.left, Term.eval_eq_of_agree b h.right]
  | .ite c a b, _, _, h => by
    rw [Term.eval, Term.eval, Formula.eval_eq_of_agree c h.left.left, Term.eval_eq_of_agree a h.left.right,
      Term.eval_eq_of_agree b h.right]
  | .read m a, _, _, h => by
    rw [Term.eval, Term.eval, Term.eval_eq_of_agree a h.right, ArrayTerm.byteAt_eq_of_agree m _ h.left]

theorem Formula.eval_eq_of_agree : (p : Formula) → ∀ {e e' : Env}, AgreeOn p.names e e' →
    p.eval e = p.eval e'
  | .lit _, _, _, _ => rfl
  | .var n, _, _, h => by rw [Formula.eval, Formula.eval, h.truth]
  | .cmp _ a b, _, _, h => by
    rw [Formula.eval, Formula.eval, Term.eval_eq_of_agree a h.left, Term.eval_eq_of_agree b h.right]
  | .not p, _, _, h => by rw [Formula.eval, Formula.eval, Formula.eval_eq_of_agree p h]
  | .and ps, _, _, h => by
    rw [Formula.eval_and, Formula.eval_and]
    simpa using congrArg (List.all · id) (Formula.map_eval_eq_of_agree ps h)
  | .or ps, _, _, h => by
    rw [Formula.eval_or, Formula.eval_or]
    simpa using congrArg (List.any · id) (Formula.map_eval_eq_of_agree ps h)
  | .implies p q, _, _, h => by
    rw [Formula.eval, Formula.eval, Formula.eval_eq_of_agree p h.left, Formula.eval_eq_of_agree q h.right]
  | .ite c p q, _, _, h => by
    rw [Formula.eval, Formula.eval, Formula.eval_eq_of_agree c h.left.left,
      Formula.eval_eq_of_agree p h.left.right, Formula.eval_eq_of_agree q h.right]
  | .distinct ps, _, _, h => by
    rw [Formula.eval, Formula.eval, Formula.values_eq, Formula.values_eq, Formula.map_eval_eq_of_agree ps h]
  | .distinctTerms ts, _, _, h => by
    rw [Formula.eval, Formula.eval, Term.values_eq_of_agree ts h]
  | .all vs p, _, _, h => by
    rw [Formula.eval, Formula.eval, Env.forAll_eq, Env.forAll_eq]
    have := Env.map_choices_congr (fun _ _ h => Formula.eval_eq_of_agree p h) vs h
    simpa using congrArg (List.all · id) this
  | .ex vs p, _, _, h => by
    rw [Formula.eval, Formula.eval, Env.thereIs_eq, Env.thereIs_eq]
    have := Env.map_choices_congr (fun _ _ h => Formula.eval_eq_of_agree p h) vs h
    simpa using congrArg (List.any · id) this

theorem ArrayTerm.byteAt_eq_of_agree : (m : ArrayTerm) → (address : Nat) → ∀ {e e' : Env}, AgreeOn m.names e e' →
    m.byteAt e address = m.byteAt e' address
  | .var n, _, _, _, h => by rw [ArrayTerm.byteAt, ArrayTerm.byteAt, h.byte]
  | .write c a v m, _, _, _, h => by
    rw [ArrayTerm.byteAt, ArrayTerm.byteAt, Formula.eval_eq_of_agree c h.left.left.left,
      Term.eval_eq_of_agree a h.left.left.right, Term.eval_eq_of_agree v h.left.right,
      ArrayTerm.byteAt_eq_of_agree m _ h.right]
  | .ite c a b, _, _, _, h => by
    rw [ArrayTerm.byteAt, ArrayTerm.byteAt, Formula.eval_eq_of_agree c h.left.left,
      ArrayTerm.byteAt_eq_of_agree a _ h.left.right, ArrayTerm.byteAt_eq_of_agree b _ h.right]

theorem Formula.map_eval_eq_of_agree : (ps : List Formula) → ∀ {e e' : Env},
    AgreeOn (Formula.namesOf ps) e e' → ps.map (·.eval e) = ps.map (·.eval e')
  | [], _, _, _ => rfl
  | p :: ps, _, _, h => by
    rw [List.map_cons, List.map_cons, Formula.eval_eq_of_agree p h.left,
      Formula.map_eval_eq_of_agree ps h.right]

theorem Term.values_eq_of_agree : (ts : List Term) → ∀ {e e' : Env}, AgreeOn (Term.namesOf ts) e e' →
    Term.values e ts = Term.values e' ts
  | [], _, _, _ => rfl
  | t :: ts, _, _, h => by
    rw [Term.values, Term.values, Term.eval_eq_of_agree t h.left, Term.values_eq_of_agree ts h.right]

end

end Peephole.Logic
