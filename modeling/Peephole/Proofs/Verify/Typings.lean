import Peephole.Proofs.Typing.Meaning
import Peephole.Verify.Typings

/-!
# The search through the typings

After a typing has been checked, a clause excludes it and all typings that agree with it on the variables that the
clause names.  These variables, together with those that occur in the precondition only, are enough to satisfy the
constraints, whatever the others are.

* `blockingClause_minimal` : **a clause is found for every model, excludes it and nothing that breaks the constraints, and
  names no literal in vain**; `keptLiterals_needed` is the loop behind it.
* `searchTypings_covers` : **a search that ends has excluded every typing**: each agrees with a checked one on the
  variables of its clause.
* `forAllTypings_covers` : the same of all typings of an optimization; agreement on the variables of the clause is
  enough to satisfy the constraints of the source and the target.
-/

namespace Peephole.Verify

open Typing

variable {solve : TypeSolver} {goal cs : List Constraint} {once : List String} {σ τ : Assignment}
variable {m : Model}

/-- The solver is always right: what it cannot solve has no solution, and otherwise it gives one, with one value for
each variable. -/
def SolvesTypes (solve : TypeSolver) : Prop :=
  ∀ cs, match solve cs with
    | some m => Constraint.holdsAll m.assignment cs = true ∧ ∀ l ∈ m, m.assignment l.1 = l.2
    | none => ∀ σ, Constraint.holdsAll σ cs = false

theorem SolvesTypes.of_some (hs : SolvesTypes solve) (h : solve cs = some m) :
    Constraint.holdsAll m.assignment cs = true ∧ ∀ l ∈ m, m.assignment l.1 = l.2 := by
  have hcs := hs cs
  rwa [h] at hcs

/-- The solver answers correctly whether there is a solution. -/
def AnswersTypes (solve : TypeSolver) : Prop :=
  ∀ cs, (solve cs).isSome = true ↔ ∃ σ, Constraint.holdsAll σ cs = true

theorem AnswersTypes.none_iff (hs : AnswersTypes solve) :
    solve cs = none ↔ ∀ σ, Constraint.holdsAll σ cs = false := by
  rw [← Option.not_isSome_iff_eq_none, hs cs, not_exists]
  simp only [Bool.not_eq_true]

theorem SolvesTypes.answers (hs : SolvesTypes solve) : AnswersTypes solve := by
  intro cs
  have hcs := hs cs
  cases hsolve : solve cs with
  | some m =>
    rw [hsolve] at hcs
    exact iff_of_true rfl ⟨_, hcs.1⟩
  | none =>
    rw [hsolve] at hcs
    simp [hcs]

theorem SolvesTypes.of_none (hs : SolvesTypes solve) (h : solve cs = none) (σ : Assignment) :
    Constraint.holdsAll σ cs = false := hs.answers.none_iff.1 h σ

/-! ### Literals -/

section Literals

variable {c : Constraint} {required ls : List (String × Int)} {l : String × Int}

/-- The literals leave no way to satisfy the constraint. -/
def Refute (ls : List (String × Int)) (c : Constraint) : Prop :=
  ∀ σ : Assignment, (∀ l ∈ ls, σ l.1 = l.2) → c.holds σ = false

theorem holdsAll_literals : Constraint.holdsAll σ (ls.map literal) = true ↔ ∀ l ∈ ls, σ l.1 = l.2 := by
  simp only [Constraint.holdsAll_iff, List.forall_mem_map, literal, Constraint.holds_varIs]

theorem AnswersTypes.refute_iff (hs : AnswersTypes solve) : solve (c :: ls.map literal) = none ↔ Refute ls c := by
  rw [hs.none_iff]
  refine forall_congr' fun σ => ?_
  rw [Constraint.holdsAll, Bool.and_eq_false_iff, ← holdsAll_literals]
  cases Constraint.holdsAll σ (ls.map literal) <;> simp

theorem keptLiterals_subset (c : Constraint) (required ls : List (String × Int)) :
    keptLiterals solve c required ls ⊆ ls := by
  induction ls generalizing required with
  | nil => exact List.Subset.refl _
  | cons l ls ih =>
    rw [keptLiterals]
    split
    · exact List.cons_subset_cons l (ih _)
    · exact List.subset_cons_of_subset l (ih _)

/-- What refutes the candidates is still refuted by those that are kept. -/
theorem keptLiterals_refute (hs : AnswersTypes solve) (h : Refute (required ++ ls) c) :
    Refute (required ++ keptLiterals solve c required ls) c := by
  induction ls generalizing required with
  | nil => exact h
  | cons l ls ih =>
    rw [keptLiterals]
    split
    · have hkept := @ih (required ++ [l]) (by simpa using h)
      simpa using hkept
    · next hnone => exact ih (hs.refute_iff.1 (Option.not_isSome_iff_eq_none.1 hnone))

/-- **No literal is kept in vain**: without it, the others do not refute the constraint. -/
theorem keptLiterals_needed (hs : AnswersTypes solve) (hl : l ∈ keptLiterals solve c required ls) :
    ∃ σ : Assignment, c.holds σ = true ∧
      ∀ l' ∈ required ++ keptLiterals solve c required ls, l' ≠ l → σ l'.1 = l'.2 := by
  induction ls generalizing required with
  | nil => cases hl
  | cons k ls ih =>
    rw [keptLiterals] at hl ⊢
    split at hl
    · next hsome =>
      rw [if_pos hsome]
      rcases List.mem_cons.1 hl with rfl | hl
      -- When the literal was tried, all those that are kept behind it were still there.
      · obtain ⟨σ, hσ⟩ := (hs _).1 hsome
        rw [Constraint.holdsAll, Bool.and_eq_true, holdsAll_literals] at hσ
        refine ⟨σ, hσ.1, fun l' hl' hne => hσ.2 l' ?_⟩
        rcases List.mem_append.1 hl' with hl' | hl'
        · exact List.mem_append_left _ hl'
        · exact List.mem_append_right _ (keptLiterals_subset _ _ _ ((List.mem_cons.1 hl').resolve_left hne))
      · simpa using ih hl
    · next hnone =>
      rw [if_neg hnone]
      exact ih hl

/-- Only variables on which the constraint depends are kept. -/
theorem keptLiterals_relevant (hs : AnswersTypes solve) {vs : List String}
    (hdep : ∀ {σ τ}, AgreeOn vs σ τ → c.holds τ = c.holds σ) (hτ : ∀ l ∈ required ++ ls, τ l.1 = l.2)
    (h : Refute (required ++ ls) c) (hl : l ∈ keptLiterals solve c required ls) : l.1 ∈ vs := by
  by_contra hvs
  -- An assignment without the literal could be changed to one with it, since nothing else depends on its variable.
  obtain ⟨σ, hσ, hothers⟩ := keptLiterals_needed hs hl
  have hkept : keptLiterals solve c required ls ⊆ ls := keptLiterals_subset _ _ _
  have hsame : AgreeOn vs σ (Function.update σ l.1 l.2) := by
    intro v hv
    refine Function.update_of_ne ?_ l.2 σ
    rintro rfl
    exact hvs hv
  have hfalse := keptLiterals_refute hs h (Function.update σ l.1 l.2) fun l' hl' => ?_
  · rw [hdep hsame, hσ] at hfalse
    cases hfalse
  · have hτ' := hτ l' (List.mem_append.2 ((List.mem_append.1 hl').imp_right (hkept ·)))
    by_cases heq : l'.1 = l.1
    · rw [heq, Function.update_self, ← hτ l (List.mem_append_right _ (hkept hl)), ← heq, hτ']
    · rw [Function.update_of_ne heq]
      exact hothers l' hl' fun hll => heq (congrArg Prod.fst hll)

end Literals

/-! ### Clauses -/

section Clauses

variable {c : Constraint}

/-- The literals of a model whose variables are picked once. -/
def fixedLiterals (once : List String) (m : Model) : List (String × Int) := m.filter fun l => once.contains l.1

/-- The literals of a model that its clause names. -/
def clauseLiterals (solve : TypeSolver) (goal : List Constraint) (once : List String) (m : Model) :
    List (String × Int) :=
  keptLiterals solve (Constraint.and goal).negate (fixedLiterals once m) (m.filter fun l => !once.contains l.1)

theorem mem_fixedLiterals {l : String × Int} : l ∈ fixedLiterals once m ↔ l ∈ m ∧ l.1 ∈ once := by
  rw [fixedLiterals, List.mem_filter, List.contains_iff_mem]

theorem mem_of_mem_clauseLiterals {l : String × Int} (h : l ∈ clauseLiterals solve goal once m) :
    l ∈ m ∧ l.1 ∉ once := by
  obtain ⟨hm, honce⟩ := List.mem_filter.1 (keptLiterals_subset _ _ _ h)
  simp only [List.contains_eq_mem, Bool.not_eq_true', decide_eq_false_iff_not] at honce
  exact ⟨hm, honce⟩

theorem holds_negate_and : (Constraint.and goal).negate.holds σ = false ↔ Constraint.holdsAll σ goal = true := by
  rw [Constraint.holds_negate, Bool.not_eq_false', Constraint.holds]

theorem clause_excludes_iff {ls : List (String × Int)} :
    (Constraint.allOf (ls.map literal)).negate.holds σ = false ↔ ∀ l ∈ ls, σ l.1 = l.2 := by
  simp only [Constraint.holds_negate, Bool.not_eq_false', Constraint.holds_allOf, List.forall_mem_map, literal,
    Constraint.holds_varIs]

theorem blockingClause_eq_ok_iff (hs : AnswersTypes solve) : blockingClause solve goal once m = .ok c ↔
    Refute (fixedLiterals once m ++ clauseLiterals solve goal once m) (Constraint.and goal).negate ∧
      c = (Constraint.allOf ((clauseLiterals solve goal once m).map literal)).negate := by
  rw [← hs.refute_iff]
  unfold blockingClause
  rw [List.partition_eq_filter_filter]
  change (do
    require (solve (_ :: (fixedLiterals once m ++ clauseLiterals solve goal once m).map literal)).isNone
    return (Constraint.allOf ((clauseLiterals solve goal once m).map literal)).negate) = _ ↔ _
  cases solve ((Constraint.and goal).negate ::
      (fixedLiterals once m ++ clauseLiterals solve goal once m).map literal) with
  | some m' => exact iff_of_false nofun nofun
  | none => exact ⟨fun h => ⟨rfl, (Except.ok.inj h).symm⟩, fun h => congrArg Except.ok h.2.symm⟩

/-- The values satisfy the constraints, whatever the variables without a value are. -/
structure IsModel (m : Model) (cs : List Constraint) : Prop where
  values : ∀ l ∈ m, m.assignment l.1 = l.2
  holds : ∀ σ : Assignment, (∀ l ∈ m, σ l.1 = l.2) → Constraint.holdsAll σ cs = true

theorem IsModel.of_vars (hm : ∀ l ∈ m, m.assignment l.1 = l.2) (hgoal : Constraint.holdsAll m.assignment goal = true)
    (hvars : ∀ v ∈ Constraint.varsOf goal, v ∈ m.map Prod.fst) : IsModel m goal := by
  refine ⟨hm, fun σ hσ => ?_⟩
  have hagree : AgreeOn (Constraint.varsOf goal) m.assignment σ := by
    intro v hv
    obtain ⟨l, hl, rfl⟩ := List.mem_map.1 (hvars v hv)
    rw [hm l hl, hσ l hl]
  rw [(Constraint.holdsAll_congr goal hagree).1, hgoal]

theorem IsModel.refute (h : IsModel m goal) (once : List String) :
    Refute (fixedLiterals once m ++ m.filter fun l => !once.contains l.1) (Constraint.and goal).negate := by
  refine fun σ hσ => holds_negate_and.2 (h.holds σ fun l hl => hσ l ?_)
  by_cases honce : l.1 ∈ once <;> simp [fixedLiterals, hl, honce]

theorem holdsAll_of_refute {ls : List (String × Int)}
    (h : Refute (fixedLiterals once m ++ ls) (Constraint.and goal).negate)
    (honce : ∀ l ∈ m, l.1 ∈ once → σ l.1 = l.2) (hσ : ∀ l ∈ ls, σ l.1 = l.2) :
    Constraint.holdsAll σ goal = true := by
  refine holds_negate_and.1 (h σ fun l hl => ?_)
  rcases List.mem_append.1 hl with hl | hl
  · exact honce l (mem_fixedLiterals.1 hl).1 (mem_fixedLiterals.1 hl).2
  · exact hσ l hl

/-- The variables, with those that are picked once, are enough to satisfy the constraints as `m` does. -/
def Enough (goal : List Constraint) (once : List String) (m : Model) (vs : List String) : Prop :=
  ∀ σ, AgreeOn (once ++ vs) m.assignment σ → Constraint.holdsAll σ goal = true

/-- A clause excludes a typing and all that agree with it on some variables, which are enough. -/
theorem blockingClause_ok (hs : SolvesTypes solve) (hm : ∀ l ∈ m, m.assignment l.1 = l.2)
    (h : blockingClause solve goal once m = .ok c) :
    ∃ vs, Enough goal once m vs ∧ ∀ σ, c.holds σ = false → AgreeOn vs m.assignment σ := by
  obtain ⟨hrefute, rfl⟩ := (blockingClause_eq_ok_iff hs.answers).1 h
  refine ⟨(clauseLiterals solve goal once m).map Prod.fst, fun σ hσ => ?_, fun σ hσ => ?_⟩
  · refine holdsAll_of_refute hrefute (fun l hl honce => ?_) fun l hl => ?_
    · rw [← hm l hl, hσ l.1 (List.mem_append_left _ honce)]
    · rw [← hm l (mem_of_mem_clauseLiterals hl).1, hσ l.1 (List.mem_append_right _ (List.mem_map_of_mem hl))]
  · intro v hv
    obtain ⟨l, hl, rfl⟩ := List.mem_map.1 hv
    rw [hm l (mem_of_mem_clauseLiterals hl).1]
    exact clause_excludes_iff.1 hσ l hl

/-- The clause of a model names none but the variables of the constraints. -/
theorem blockingClause_exists (hs : SolvesTypes solve) (h : IsModel m goal) :
    ∃ c, blockingClause solve goal once m = .ok c ∧
      ∀ σ, AgreeOn (Constraint.varsOf goal) m.assignment σ → c.holds σ = false := by
  have hdep : ∀ {σ τ : Assignment}, AgreeOn (Constraint.varsOf goal) σ τ →
      (Constraint.and goal).negate.holds τ = (Constraint.and goal).negate.holds σ := by
    intro σ τ h
    rw [Constraint.holds_negate, Constraint.holds_negate, Constraint.holds, Constraint.holds,
      (Constraint.holdsAll_congr goal h).1]
  have hrefute := h.refute once
  refine ⟨_, (blockingClause_eq_ok_iff hs.answers).2 ⟨keptLiterals_refute hs.answers hrefute, rfl⟩, fun σ hσ => ?_⟩
  refine clause_excludes_iff.2 fun l hl => ?_
  have hvalues : ∀ l ∈ fixedLiterals once m ++ m.filter (fun l => !once.contains l.1), m.assignment l.1 = l.2 := by
    intro l hl
    rcases List.mem_append.1 hl with hl | hl <;> exact h.values l (List.mem_filter.1 hl).1
  rw [hσ l.1 (keptLiterals_relevant hs.answers hdep hvalues hrefute hl)]
  exact h.values l (mem_of_mem_clauseLiterals hl).1

/-- **Excluding a model is sound and makes progress.**  For every model of the constraints a clause is found.  It excludes
the model; whatever else it excludes satisfies the constraints, if it agrees with the model on the variables that are
picked once; and it names no more than this needs: without any one of its literals, the others and the values that are
picked once leave a way to break the constraints. -/
theorem blockingClause_minimal (hs : AnswersTypes solve) (h : IsModel m goal) (once : List String) :
    ∃ kept : List (String × Int), (∀ l ∈ kept, l ∈ m ∧ l.1 ∉ once) ∧
      ∃ c, blockingClause solve goal once m = .ok c ∧ c.holds m.assignment = false ∧
        (∀ σ, c.holds σ = false ↔ ∀ l ∈ kept, σ l.1 = l.2) ∧
        (∀ σ : Assignment, (∀ l ∈ m, l.1 ∈ once → σ l.1 = l.2) → c.holds σ = false →
          Constraint.holdsAll σ goal = true) ∧
        ∀ l ∈ kept, ∃ σ : Assignment, Constraint.holdsAll σ goal = false ∧
          ∀ l' ∈ m, l'.1 ∈ once ∨ l' ∈ kept → l' ≠ l → σ l'.1 = l'.2 := by
  have hrefute := keptLiterals_refute hs (h.refute once)
  refine ⟨clauseLiterals solve goal once m, fun l hl => mem_of_mem_clauseLiterals hl, _,
    (blockingClause_eq_ok_iff hs).2 ⟨hrefute, rfl⟩, ?_, fun σ => clause_excludes_iff,
    fun σ honce hσ => holdsAll_of_refute hrefute honce (clause_excludes_iff.1 hσ), fun l hl => ?_⟩
  · exact clause_excludes_iff.2 fun l hl => h.values l (mem_of_mem_clauseLiterals hl).1
  · obtain ⟨σ, hσ, hothers⟩ := keptLiterals_needed hs hl
    rw [Constraint.holds_negate, Bool.not_eq_true', Constraint.holds] at hσ
    refine ⟨σ, hσ, fun l' hm hl' hne => hothers l' ?_ hne⟩
    exact List.mem_append.2 (hl'.imp (fun honce => mem_fixedLiterals.2 ⟨hm, honce⟩) id)

open Classical in
/-- A solver of typing constraints that is always right, and gives `m` where it can. -/
noncomputable def idealTypes (m : Model) : TypeSolver := fun cs =>
  if Constraint.holdsAll m.assignment cs then some m
  else if h : ∃ σ, Constraint.holdsAll σ cs = true then
    some ((Constraint.varsOf cs).map fun v => (v, h.choose v))
  else none

theorem assignment_map (σ : Assignment) {vs : List String} {v : String} (hv : v ∈ vs) :
    Model.assignment (vs.map fun v => (v, σ v)) v = σ v := by
  induction vs with
  | nil => cases hv
  | cons w vs ih =>
    rw [Model.assignment, List.map_cons, List.lookup_cons]
    by_cases h : v = w
    · simp [h]
    · have hne : (v == w) = false := beq_false_of_ne h
      rw [hne]
      exact ih ((List.mem_cons.1 hv).resolve_left h)

theorem idealTypes_solves (hm : ∀ l ∈ m, m.assignment l.1 = l.2) : SolvesTypes (idealTypes m) := by
  intro cs
  unfold idealTypes
  by_cases hholds : Constraint.holdsAll m.assignment cs = true
  · rw [if_pos hholds]
    exact ⟨hholds, hm⟩
  rw [if_neg hholds]
  by_cases hex : ∃ σ, Constraint.holdsAll σ cs = true
  · rw [dif_pos hex]
    refine ⟨?_, List.forall_mem_map.2 fun v hv => assignment_map _ hv⟩
    rw [(Constraint.holdsAll_congr cs fun v hv => assignment_map hex.choose hv).1]
    exact hex.choose_spec
  · rw [dif_neg hex]
    exact fun σ => Bool.eq_false_iff.2 fun h => hex ⟨σ, h⟩

/-- The values of three type variables, the first of which is picked once. -/
def eitherWidth : Model := [("size_p", 8), ("size_x", 1), ("size_y", 1)]

def eitherWidthGoal : List Constraint :=
  [.varIs "size_p" 8, .or [.varIs "size_x" 1, .varIs "size_y" 1]]

/-- The theorem at `eitherWidth`: the clause excludes it, and does not exclude a typing in which no width is 1. -/
theorem eitherWidth_minimal : ∃ c, blockingClause (idealTypes eitherWidth) eitherWidthGoal ["size_p"] eitherWidth = .ok c ∧
    c.holds eitherWidth.assignment = false ∧ c.holds (fun _ => 8) = true := by
  have hvalues : ∀ l ∈ eitherWidth, eitherWidth.assignment l.1 = l.2 := by decide
  have hmodel : IsModel eitherWidth eitherWidthGoal := .of_vars hvalues (by decide) (by decide)
  obtain ⟨kept, -, c, hc, hm, -, hsound, -⟩ :=
    blockingClause_minimal (idealTypes_solves hvalues).answers hmodel ["size_p"]
  refine ⟨c, hc, hm, eq_true_of_ne_false fun hfalse => ?_⟩
  exact absurd (hsound (fun _ => 8) (by decide) hfalse) (by decide)

end Clauses

/-! ### The search -/

section Search

variable {α : Type} {check : Model → Except Error (Option α)}

/-- The typing is covered by a checked one: they agree on variables that are enough. -/
def Covered (goal : List Constraint) (once : List String) (ms : List Model) (τ : Assignment) : Prop :=
  ∃ m ∈ ms, ∃ vs, Enough goal once m vs ∧ AgreeOn vs m.assignment τ

theorem searchTypings_covers (hs : SolvesTypes solve) {fuel checked n : Nat}
    (h : searchTypings solve check goal once fuel checked cs = .ok (.exhausted n)) :
    ∃ ms : List Model, checked + ms.length = n ∧
      (∀ m ∈ ms, Constraint.holdsAll m.assignment cs = true ∧ check m = .ok none) ∧
      ∀ τ, Constraint.holdsAll τ cs = true → Covered goal once ms τ := by
  induction fuel generalizing checked cs with
  | zero =>
    simp only [searchTypings] at h
    cases h
  | succ fuel ih =>
    rw [searchTypings] at h
    cases hm : solve cs with
    | none =>
      simp only [hm] at h
      cases h
      refine ⟨[], rfl, by simp, fun τ hτ => ?_⟩
      rw [hs.of_none hm τ] at hτ
      cases hτ
    | some m =>
      obtain ⟨hholds, hvalues⟩ := hs.of_some hm
      simp only [hm] at h
      cases hcheck : check m with
      | error e =>
        rw [hcheck] at h
        cases h
      | ok r =>
        rw [hcheck] at h
        cases r with
        | some reason => cases h
        | none =>
          cases hclause : blockingClause solve goal once m with
          | error e =>
            simp only [hclause] at h
            cases h
          | ok c =>
            simp only [hclause] at h
            obtain ⟨ms, hlen, hms, hcovered⟩ := ih h
            obtain ⟨vs, henough, hexcludes⟩ := blockingClause_ok hs hvalues hclause
            refine ⟨m :: ms, by simp only [List.length_cons]; omega, ?_, fun τ hτ => ?_⟩
            · refine List.forall_mem_cons.2 ⟨⟨hholds, hcheck⟩, fun m' hm' => ?_⟩
              obtain ⟨hall, hok⟩ := hms m' hm'
              exact ⟨(Constraint.holdsAll_append.1 hall).1, hok⟩
            -- A typing that the new clause excludes is covered by `m`, any other one by what follows.
            · cases hc : c.holds τ with
              | false => exact ⟨m, List.mem_cons_self, vs, henough, hexcludes τ hc⟩
              | true =>
                obtain ⟨m', hm', hrest⟩ := hcovered τ
                  (Constraint.holdsAll_append.2 ⟨hτ, by simp [Constraint.holdsAll, hc]⟩)
                exact ⟨m', List.mem_cons_of_mem m hm', hrest⟩

/-! ### All typings of an optimization -/

/-- The constraints on the typings that are checked: those of the optimization, with pointers of 32 or 64 bits. -/
def typingConstraints (p : TypeProblem) : List Constraint :=
  p.all ++ [.or [.varIs "ptrsize" 32, .varIs "ptrsize" 64]]

/-- The typing keeps to the widths that are chosen once for the precondition. -/
def KeepsWidths (solve : TypeSolver) (p : TypeProblem) (τ : Assignment) : Prop :=
  ∀ m, solve (typingConstraints p) = some m →
    Constraint.holdsAll τ (wideConstraints solve (typingConstraints p) (pickedOnce p) m) = true

/-- The values for the variables that are picked once do not matter for the source and the target. -/
theorem holdsAll_programs {p : TypeProblem} {vs : List String} (h : Enough p.all (pickedOnce p) m vs)
    (hσ : AgreeOn vs m.assignment σ) : Constraint.holdsAll σ (p.source ++ p.target) = true := by
  let picked : Assignment := fun v => if v ∈ pickedOnce p then m.assignment v else σ v
  have hagree : AgreeOn (pickedOnce p ++ vs) m.assignment picked := by
    intro v hv
    by_cases honce : v ∈ pickedOnce p
    · exact if_pos honce
    · exact (if_neg honce).trans (hσ v ((List.mem_append.1 hv).resolve_left honce))
  have hall := h picked hagree
  rw [TypeProblem.all, List.cons_append, Constraint.holdsAll, Bool.and_eq_true] at hall
  have hsame : AgreeOn (Constraint.varsOf (p.source ++ p.target)) picked σ := by
    intro v hv
    have honce : v ∉ pickedOnce p := by
      intro honce
      have hother := (List.mem_filter.1 honce).2
      simp [hv] at hother
    exact (if_neg honce).symm
  rw [(Constraint.holdsAll_congr _ hsame).1]
  exact hall.2

theorem forAllTypings_eq (p : TypeProblem) (limit : Nat) :
    forAllTypings solve p limit check = match solve (typingConstraints p) with
      | none => .ok (.exhausted 0)
      | some m =>
        let cs := typingConstraints p ++ wideConstraints solve (typingConstraints p) (pickedOnce p) m
        (do
          require (solve cs).isSome
          searchTypings solve check p.all (pickedOnce p) limit 0 cs) := rfl

theorem forAllTypings_covers (hs : SolvesTypes solve) {p : TypeProblem} {limit n : Nat}
    (h : forAllTypings solve p limit check = .ok (.exhausted n)) :
    ∃ ms : List Model, ms.length = n ∧
      (∀ m ∈ ms, Constraint.holdsAll m.assignment (typingConstraints p) = true ∧ check m = .ok none) ∧
      ∀ τ, Constraint.holdsAll τ (typingConstraints p) = true → KeepsWidths solve p τ →
        ∃ m ∈ ms, ∃ vs, AgreeOn vs m.assignment τ ∧
          ∀ σ, AgreeOn vs m.assignment σ → Constraint.holdsAll σ (p.source ++ p.target) = true := by
  rw [forAllTypings_eq] at h
  cases hm : solve (typingConstraints p) with
  | none =>
    simp only [hm] at h
    cases h
    refine ⟨[], rfl, by simp, fun τ hτ _ => ?_⟩
    rw [hs.of_none hm τ] at hτ
    cases hτ
  | some m₀ =>
    simp only [hm] at h
    generalize hwide : wideConstraints solve (typingConstraints p) (pickedOnce p) m₀ = wide at h
    cases hsat : (solve (typingConstraints p ++ wide)).isSome with
    | false =>
      rw [hsat] at h
      cases h
    | true =>
      rw [hsat] at h
      obtain ⟨ms, hlen, hms, hcovered⟩ := searchTypings_covers hs h
      refine ⟨ms, by omega, fun m hmem => ?_, fun τ hτ hwidths => ?_⟩
      · obtain ⟨hall, hok⟩ := hms m hmem
        exact ⟨(Constraint.holdsAll_append.1 hall).1, hok⟩
      · have hall := Constraint.holdsAll_append.2 ⟨hτ, hwide ▸ hwidths m₀ hm⟩
        obtain ⟨m, hmem, vs, henough, hagree⟩ := hcovered τ hall
        exact ⟨m, hmem, vs, hagree, fun σ hσ => holdsAll_programs henough hσ⟩

/-- **Where all types are given, one typing is checked**, with one width of pointers. -/
theorem forAllTypings_once (hs : SolvesTypes solve) {p : TypeProblem}
    (hsolve : solve (typingConstraints p) = some m) (hvars : ∀ v ∈ Constraint.varsOf p.all, v ∈ m.map Prod.fst)
    (honce : pickedOnce p = [])
    (hgiven : ∀ σ, Constraint.holdsAll σ p.all = true → AgreeOn (Constraint.varsOf p.all) m.assignment σ)
    (hcheck : check m = .ok none) (limit : Nat) :
    forAllTypings solve p (limit + 2) check = .ok (.exhausted 1) := by
  have hall : ∀ {σ}, Constraint.holdsAll σ (typingConstraints p) = true → Constraint.holdsAll σ p.all = true :=
    fun h => (Constraint.holdsAll_append.1 h).1
  obtain ⟨hholds, hvalues⟩ := hs.of_some hsolve
  obtain ⟨c, hclause, hexcludes⟩ : ∃ c, blockingClause solve p.all [] m = .ok c ∧
      ∀ σ, AgreeOn (Constraint.varsOf p.all) m.assignment σ → c.holds σ = false :=
    blockingClause_exists hs (.of_vars hvalues (hall hholds) hvars)
  have hnone : solve (typingConstraints p ++ [c]) = none := by
    refine Option.eq_none_iff_forall_ne_some.2 fun m' hm' => ?_
    obtain ⟨htrue, hc⟩ := Constraint.holdsAll_append.1 (hs.of_some hm').1
    rw [Constraint.holdsAll, hexcludes _ (hgiven _ (hall htrue))] at hc
    cases hc
  have hwide : wideConstraints solve (typingConstraints p) [] m = [] := by simp [wideConstraints]
  rw [forAllTypings_eq]
  simp only [hsolve, honce, hwide, List.append_nil]
  change searchTypings solve check p.all [] (limit + 2) 0 (typingConstraints p) = _
  rw [searchTypings]
  simp only [hsolve, hcheck]
  change (blockingClause solve p.all [] m >>= fun c =>
    searchTypings solve check p.all [] (limit + 1) 1 (typingConstraints p ++ [c])) = _
  rw [hclause]
  change searchTypings solve check p.all [] (limit + 1) 1 (typingConstraints p ++ [c]) = _
  rw [searchTypings]
  simp only [hnone]
  rfl

end Search

end Peephole.Verify
