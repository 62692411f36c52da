import Mathlib.Logic.Function.Basic
import Peephole.Typing.Solve
import Peephole.Typing.Relate

/-!
# The meaning of typing constraints

* `Constraint.holds_negate`, `Constraint.holds_allOf`, `holds_anyOf` : what the functions that build constraints mean.
* `Constraint.holds_congr` : a constraint depends only on its variables.
* `mem_of_forced` : if a property holds of all assignments that agree with a given one on some variables, a variable
  that can break the property is among them.
-/

namespace Peephole.Typing

variable {σ τ : Assignment} {cs : List Constraint}

namespace Constraint

theorem holdsAll_eq (σ : Assignment) (cs : List Constraint) : holdsAll σ cs = cs.all (·.holds σ) := by
  induction cs with
  | nil => rfl
  | cons c cs ih => simp only [holdsAll, ih, List.all_cons]

theorem holdsAny_eq (σ : Assignment) (cs : List Constraint) : holdsAny σ cs = cs.any (·.holds σ) := by
  induction cs with
  | nil => rfl
  | cons c cs ih => simp only [holdsAny, ih, List.any_cons]

@[simp] theorem holds_lit (σ : Assignment) (b : Bool) : (lit b).holds σ = b := rfl

theorem holds_and : (and cs).holds σ = true ↔ ∀ c ∈ cs, c.holds σ = true := by
  rw [holds, holdsAll_eq, List.all_eq_true]

theorem holds_and_cons {c : Constraint} :
    (and (c :: cs)).holds σ = true ↔ c.holds σ = true ∧ (and cs).holds σ = true := by
  rw [holds, holdsAll, Bool.and_eq_true, holds]

theorem holds_or : (or cs).holds σ = true ↔ ∃ c ∈ cs, c.holds σ = true := by
  rw [holds, holdsAny_eq, List.any_eq_true]

theorem holdsAll_iff : holdsAll σ cs = true ↔ ∀ c ∈ cs, c.holds σ = true := by
  rw [holdsAll_eq, List.all_eq_true]

theorem holdsAll_append {ds : List Constraint} :
    holdsAll σ (cs ++ ds) = true ↔ holdsAll σ cs = true ∧ holdsAll σ ds = true := by
  simp only [holdsAll_iff, List.forall_mem_append]

theorem holds_varIs {v : String} {n : Int} : (varIs v n).holds σ = true ↔ σ v = n := by
  rw [varIs, holds, Relation.holds]
  exact decide_eq_true_iff

theorem Relation.holds_negate (r : Relation) (a b : Int) : r.negate.holds a b = !r.holds a b := by
  cases r with
  | eq | ne => simp [Relation.negate, Relation.holds]
  | lt | ge | le | gt =>
    simp only [Relation.negate, Relation.holds, ← decide_not]
    exact decide_eq_decide.2 (by omega)

mutual

@[simp] theorem holds_negate (σ : Assignment) : (c : Constraint) → c.negate.holds σ = !c.holds σ
  | lit b => rfl
  | rel r a b => Relation.holds_negate r _ _
  | and cs => by
    rw [negate, holds, holds]
    exact holdsAny_negateAll σ cs
  | or cs => by
    rw [negate, holds, holds]
    exact holdsAll_negateAll σ cs

theorem holdsAny_negateAll (σ : Assignment) : (cs : List Constraint) → holdsAny σ (negateAll cs) = !holdsAll σ cs
  | [] => rfl
  | c :: cs => by
    rw [negateAll, holdsAny, holdsAll, holds_negate σ c, holdsAny_negateAll σ cs, Bool.not_and]

theorem holdsAll_negateAll (σ : Assignment) : (cs : List Constraint) → holdsAll σ (negateAll cs) = !holdsAny σ cs
  | [] => rfl
  | c :: cs => by
    rw [negateAll, holdsAny, holdsAll, holds_negate σ c, holdsAll_negateAll σ cs, Bool.not_or]

end

theorem holds_of_isTrue {c : Constraint} (h : c.isTrue = true) : c.holds σ = true := by
  cases c with
  | lit b => exact h
  | rel _ _ _ | and _ | or _ => simp [isTrue] at h

theorem holds_allOf : (allOf cs).holds σ = true ↔ ∀ c ∈ cs, c.holds σ = true := by
  have hfilter : (∀ c ∈ cs.filter fun c => !c.isTrue, c.holds σ = true) ↔ ∀ c ∈ cs, c.holds σ = true := by
    refine ⟨fun h c hc => ?_, fun h c hc => h c (List.mem_filter.1 hc).1⟩
    by_cases ht : c.isTrue = true
    · exact holds_of_isTrue ht
    · exact h c (List.mem_filter.2 ⟨hc, by simpa using ht⟩)
  rw [← hfilter, allOf]
  split
  · next hnil => simp [hnil]
  · next c hone => simp [hone]
  · exact holds_and

end Constraint

theorem holds_anyOf (h : (anyOf cs).holds σ = true) : ∃ c ∈ cs, c.holds σ = true := by
  rw [anyOf] at h
  split at h
  · simp at h
  · next c hone =>
    have hmem := List.mem_singleton_self c
    rw [← hone] at hmem
    exact ⟨c, (List.mem_filter.1 hmem).1, h⟩
  · obtain ⟨c, hc, hholds⟩ := Constraint.holds_or.1 h
    exact ⟨c, (List.mem_filter.1 hc).1, hholds⟩

/-! ### Variables -/

/-- The assignments give the variables the same values. -/
def AgreeOn (vs : List String) (σ τ : Assignment) : Prop := ∀ v ∈ vs, τ v = σ v

theorem IntExpr.eval_congr {e : IntExpr} (h : AgreeOn e.vars σ τ) : e.eval τ = e.eval σ := by
  induction e with
  | var n => exact h n (by simp [vars])
  | const n => rfl
  | mul a b iha ihb =>
    rw [eval, eval, iha fun v hv => h v (List.mem_append_left _ hv), ihb fun v hv => h v (List.mem_append_right _ hv)]
  | ite v n a b iha ihb =>
    have hv : τ v = σ v := h v (by simp [vars])
    have ha : a.eval τ = a.eval σ := iha fun x hx => h x (by simp [vars, hx])
    have hb : b.eval τ = b.eval σ := ihb fun x hx => h x (by simp [vars, hx])
    rw [eval, eval, hv, ha, hb]

mutual

theorem Constraint.holds_congr : (c : Constraint) → AgreeOn c.vars σ τ → c.holds τ = c.holds σ
  | .lit b, _ => rfl
  | .rel r a b, h => by
    have ha := IntExpr.eval_congr (e := a) fun v hv => h v (List.mem_append_left _ hv)
    have hb := IntExpr.eval_congr (e := b) fun v hv => h v (List.mem_append_right _ hv)
    rw [holds, holds, ha, hb]
  | .and cs, h => by
    rw [holds, holds]
    exact (Constraint.holdsAll_congr cs h).1
  | .or cs, h => by
    rw [holds, holds]
    exact (Constraint.holdsAll_congr cs h).2

theorem Constraint.holdsAll_congr : (cs : List Constraint) → AgreeOn (varsOf cs) σ τ →
    holdsAll τ cs = holdsAll σ cs ∧ holdsAny τ cs = holdsAny σ cs
  | [], _ => ⟨rfl, rfl⟩
  | c :: cs, h => by
    have hc := Constraint.holds_congr c fun v hv => h v (List.mem_append_left _ hv)
    have hcs := Constraint.holdsAll_congr cs fun v hv => h v (List.mem_append_right _ hv)
    rw [holdsAll, holdsAll, holdsAny, holdsAny, hc, hcs.1, hcs.2]
    exact ⟨rfl, rfl⟩

end

/-- A variable that can break what agreement on `vs` ensures is one of `vs`. -/
theorem mem_of_forced {vs : List String} {P : Assignment → Prop} (h : ∀ τ, AgreeOn vs σ τ → P τ) {v : String} (n : Int)
    (hn : ¬P (Function.update σ v n)) : v ∈ vs := by
  by_contra hv
  refine hn (h _ fun x hx => Function.update_of_ne ?_ n σ)
  rintro rfl
  exact hv hx

end Peephole.Typing
