import Peephole.Proofs.Encode.Run
import Peephole.Proofs.Logic.Meaning
import Peephole.Verify.Verdict

/-!
# What passed checks say

A check passes if its query cannot be satisfied.  Its query says: for all arbitrary choices of the source, the
source's value is defined and not poison, what is given holds, and the target is not as it should be.

* `runChecks_clean_iff` : with a solver that answers correctly, checks come out clean if no environment satisfies
  any of their queries.
* `checkTyping_eq_none_iff` : an optimization is accepted under a typing if it can be encoded and all its checks
  pass.
* `valueChecks_pass_iff_common` : if the target is independent of the source's choices, **the three checks of a value
  pass together if and only if one choice does for all of them**.
* `valueChecks_pass_iff` : **the three checks of a value together say that the target refines the source**, if the
  two sides share no arbitrary choice.  The checks quantify the choices of the source, wherever these occur, so
  for a choice that also occurs in the target they say less.
* `register_refines` : the same of a register of an optimization whose register checks come out clean.
-/

namespace Peephole.Verify

open Logic Encode
open Program (Dict)
open Elaborate (Optimization)

/-! ### Solvers -/

/-- The solver is always right: what it calls unsatisfiable has no environment, and otherwise it gives one. -/
def Answers (solve : Decide.Solver) : Prop :=
  ∀ p, match solve p with
    | .unsatisfiable => ∀ env, p.eval env = false
    | .satisfied env => p.eval env = true
    | .unknown _ => False

open Classical in
/-- A solver that is always right. -/
noncomputable def ideal : Decide.Solver := fun p =>
  if h : ∃ env, p.eval env = true then .satisfied h.choose else .unsatisfiable

theorem ideal_answers : Answers ideal := by
  intro p
  by_cases h : ∃ env, p.eval env = true
  · simpa [ideal, h] using h.choose_spec
  · have hnone : ∀ env, p.eval env = false := by simpa using h
    simpa [ideal, h] using hnone

/-- No environment is a counterexample. -/
def Check.Passes (c : Check) : Prop := ∀ env, c.query.eval env = false

theorem Answers.unsatisfiable_iff {solve : Decide.Solver} (hs : Answers solve) (p : Formula) :
    solve p = .unsatisfiable ↔ ∀ env, p.eval env = false := by
  have hp := hs p
  cases h : solve p with
  | unsatisfiable => simpa [h] using hp
  | satisfied env =>
    rw [h] at hp
    simp only [reduceCtorEq, false_iff, not_forall, Bool.not_eq_false]
    exact ⟨env, hp⟩
  | unknown reason => simp [h] at hp

theorem runChecks_clean_iff {solve : Decide.Solver} (hs : Answers solve) (cs : List Check) :
    runChecks solve cs = .clean ↔ ∀ c ∈ cs, c.Passes := by
  induction cs with
  | nil => simp [runChecks]
  | cons c cs ih =>
    rw [List.forall_mem_cons, ← ih]
    unfold Check.Passes
    rw [← hs.unsatisfiable_iff, runChecks]
    cases solve c.query with
    | unsatisfiable => simp
    | satisfied env => simp
    | unknown reason => simp

/-! ### Accepted optimizations -/

/-- All checks of an optimization under one typing, in the order in which they are run. -/
def allChecks (o : Optimization) (p : Problem) : List Check :=
  blockChecks p ++ registerChecks p (userConditions o) ++ memoryChecks p

theorem trouble?_eq_none_iff {m : Typing.Model} {p : Problem} (f : Findings) :
    f.trouble? m p = .ok none ↔ f = .clean := by
  cases f with
  | clean => exact iff_of_true rfl rfl
  | unknown reason =>
    refine iff_of_false ?_ ?_
    · rintro ⟨⟩
    · rintro ⟨⟩
  | failed c env =>
    refine iff_of_false (fun h => ?_) ?_
    · simp only [Findings.trouble?] at h
      cases hs : c.concern.summary m env with
      | error e => rw [hs] at h; cases h
      | ok s =>
        cases hl : exampleLines m p c env with
        | error e => rw [hs, hl] at h; cases h
        | ok l => rw [hs, hl] at h; cases h
    · rintro ⟨⟩

theorem troubleIn_eq_none_iff {solvers : Solvers} (hs : Answers solvers.terms) {m : Typing.Model} {p : Problem}
    (cs : List Check) : troubleIn solvers m p cs = .ok none ↔ ∀ c ∈ cs, c.Passes := by
  rw [troubleIn, trouble?_eq_none_iff, runChecks_clean_iff hs]

/-- Steps of a search for trouble find none together if and only if each of them finds none. -/
theorem search_eq_none_iff {x y : Except Error (Option Trouble)} :
    (x >>= fun
      | some t => pure (some t)
      | _ => y) = .ok none ↔ x = .ok none ∧ y = .ok none := by
  rcases x with e | _ | t
  · refine iff_of_false ?_ ?_
    · rintro ⟨⟩
    · rintro ⟨⟨⟩, -⟩
  · exact (and_iff_right rfl).symm
  · refine iff_of_false ?_ ?_
    · rintro ⟨⟩
    · rintro ⟨⟨⟩, -⟩

theorem checkTyping_eq_none_iff {solvers : Solvers} (hs : Answers solvers.terms) {o : Optimization}
    {options : Options} (hflags : options.inferFlags = false) {m : Typing.Model} :
    checkTyping solvers o options m = .ok none ↔
      ∃ p, encodeOptimization o (Shape.ofModel m) options = .ok p ∧ ∀ c ∈ allChecks o p, c.Passes := by
  cases hp : encodeOptimization o (Shape.ofModel m) options with
  | error e =>
    refine iff_of_false ?_ ?_
    · rw [checkTyping, hp]
      rintro ⟨⟩
    · rintro ⟨p, ⟨⟩, -⟩
  | ok p =>
    have hsearch : checkTyping solvers o options m = .ok none ↔
        troubleIn solvers m p (blockChecks p) = .ok none ∧
          troubleIn solvers m p (registerChecks p (userConditions o)) = .ok none ∧
          troubleIn solvers m p (memoryChecks p) = .ok none := by
      rw [← search_eq_none_iff, ← search_eq_none_iff, checkTyping, hp, hflags]
      exact Iff.rfl
    simp only [hsearch, troubleIn_eq_none_iff hs, Except.ok.injEq, exists_eq_left', allChecks,
      List.forall_mem_append, and_assoc]

/-! ### Queries -/

/-- A query fails in an environment if some choice makes one of its parts false. -/
theorem query_eval_eq_false_iff {vs : List Var} {ps : List Formula} {env : Env} :
    (query vs ps).eval env = false ↔ ∃ e ∈ Env.choices vs env, holds e ps = false := by
  rw [query, Formula.eval_forAll]
  simp [holds, List.all_eq_false]

def encodedNames (b : Encoded) : List String :=
  (b.value.elim [] Term.names) ++ Formula.namesOf b.conds.defined ++ Formula.namesOf b.conds.poison

/-- What the checks of a value take as given: the precondition, the allocations and the number of users. -/
def givenFor (p : Problem) (users : Dict (List Formula)) (k : String) : List Formula :=
  assumptions p ++ (users.get? k).getD []

/-- No arbitrary choice of the source occurs in the target or in what is given. -/
def Unshared (p : Problem) (users : Dict (List Formula)) (k : String) (a b : Encoded) : Prop :=
  ∀ v ∈ a.conds.free, v.name ∉ encodedNames b ++ Formula.namesOf (givenFor p users k)

instance (p : Problem) (users : Dict (List Formula)) (k : String) (a b : Encoded) :
    Decidable (Unshared p users k a b) :=
  inferInstanceAs (Decidable (∀ v ∈ a.conds.free, v.name ∉ _))

/-- The source's value in `e` allows the target's value in `env`: where it is defined and not poison, so is the
target's, and they are equal. -/
def Allows (e env : Env) (a b : Encoded) (x y : Term) : Prop :=
  holds e a.conds.defined = true → holds e a.conds.poison = true →
    holds env b.conds.defined = true ∧ holds env b.conds.poison = true ∧
      x.eval e = (y.eval env).setWidth x.width

theorem Allows.refl (env : Env) (a : Encoded) (x : Term) : Allows env env a a x x :=
  fun hd hp => ⟨hd, hp, (BitVec.setWidth_eq _).symm⟩

section Values

variable {p : Problem} {users : Dict (List Formula)} {k : String} {a b : Encoded} {x y : Term} {e env : Env}

theorem holds_eq_of_agree {ps : List Formula} (h : Env.AgreeOn (Formula.namesOf ps) env e) :
    holds env ps = holds e ps := by
  simpa [holds] using congrArg (List.all · id) (Formula.map_eval_eq_of_agree ps h)

/-- No arbitrary choice of the source occurs in the target. -/
def Independent (a b : Encoded) : Prop := ∀ v ∈ a.conds.free, v.name ∉ encodedNames b

instance (a b : Encoded) : Decidable (Independent a b) :=
  inferInstanceAs (Decidable (∀ v ∈ a.conds.free, v.name ∉ _))

/-- An environment that differs only in the source's choices gives the target the same value. -/
theorem Independent.agree (h : Independent a b) (hkind : ∀ v ∈ a.conds.free, v.kind ≠ .truth)
    (hy : b.value = some y) (he : e ∈ Env.choices a.conds.free env) :
    y.eval env = y.eval e ∧ holds env b.conds.defined = holds e b.conds.defined ∧
      holds env b.conds.poison = holds e b.conds.poison := by
  have hagree := Env.agreeOn_of_mem_choices hkind h he
  rw [encodedNames, hy] at hagree
  exact ⟨Term.eval_eq_of_agree y hagree.left.left, holds_eq_of_agree hagree.left.right,
    holds_eq_of_agree hagree.right⟩

theorem Unshared.independent (h : Unshared p users k a b) : Independent a b :=
  fun v hv hmem => h v hv (List.mem_append_left _ hmem)

/-- Neither does it change what is given, if this is independent of the choices too. -/
theorem Unshared.given_eq (h : Unshared p users k a b) (hkind : ∀ v ∈ a.conds.free, v.kind ≠ .truth)
    (he : e ∈ Env.choices a.conds.free env) : holds env (givenFor p users k) = holds e (givenFor p users k) :=
  holds_eq_of_agree (Env.agreeOn_of_mem_choices hkind h he).right

/-- One check of a value, by what it takes to be violated. -/
theorem valueCheck_eval_iff {violated : Formula} :
    (query a.conds.free ((a.conds.defined ++ a.conds.poison ++ assumptions p ++
      (users.get? k).getD []) ++ [violated])).eval env = false ↔
    ∃ e ∈ Env.choices a.conds.free env, holds e a.conds.defined = true →
      holds e a.conds.poison = true → holds e (givenFor p users k) = true → violated.eval e = false := by
  rw [query_eval_eq_false_iff]
  refine exists_congr fun e => and_congr_right fun _ => ?_
  have hone : holds e [violated] = violated.eval e := by simp [holds]
  rw [← Bool.not_eq_true]
  simp only [givenFor, holds_append, hone, Bool.and_eq_true, not_and, Bool.not_eq_true, and_imp]

theorem cmp_ne_eval (x y : Term) (e : Env) :
    (Formula.cmp .ne x y).eval e = false ↔ x.eval e = (y.eval e).setWidth x.width := by
  simp [Formula.eval, Comparison.apply]

/-- An environment is no counterexample to the checks of a value if and only if one choice of the source's variables
does for all three. -/
theorem valueChecks_eval_iff (h : Independent a b) (hkind : ∀ v ∈ a.conds.free, v.kind ≠ .truth)
    (hx : a.value = some x) (hy : b.value = some y) :
    (∀ c ∈ valueChecks p users k a b, c.query.eval env = false) ↔
      ∃ e ∈ Env.choices a.conds.free env, holds e (givenFor p users k) = true → Allows e e a b x y := by
  simp only [valueChecks, hx, hy, List.forall_mem_cons, List.not_mem_nil, false_imp_iff, implies_true, and_true,
    Check.query, valueCheck_eval_iff, Formula.eval_negate, Formula.eval_allOf, Bool.not_eq_false', cmp_ne_eval]
  constructor
  · rintro ⟨⟨e₁, he₁, h₁⟩, ⟨e₂, he₂, h₂⟩, e₃, he₃, h₃⟩
    obtain ⟨-, hd₁, -⟩ := h.agree hkind hy he₁
    obtain ⟨-, -, hp₂⟩ := h.agree hkind hy he₂
    obtain ⟨-, hd₃, hp₃⟩ := h.agree hkind hy he₃
    -- A choice for which the source is not defined or poison, or nothing is given, does for all checks.  If there
    -- is none among the three, the target is defined and not poison, and the last choice gives its value.
    by_cases hs₁ : holds e₁ (givenFor p users k) = true ∧ holds e₁ a.conds.defined = true ∧
        holds e₁ a.conds.poison = true
    · by_cases hs₂ : holds e₂ (givenFor p users k) = true ∧ holds e₂ a.conds.defined = true ∧
          holds e₂ a.conds.poison = true
      · refine ⟨e₃, he₃, fun hg hd hp => ⟨?_, ?_, h₃ hd hp hg⟩⟩
        · rw [← hd₃, hd₁]
          exact h₁ hs₁.2.1 hs₁.2.2 hs₁.1
        · rw [← hp₃, hp₂]
          exact h₂ hs₂.2.1 hs₂.2.2 hs₂.1
      · exact ⟨e₂, he₂, fun hg hd hp => absurd ⟨hg, hd, hp⟩ hs₂⟩
    · exact ⟨e₁, he₁, fun hg hd hp => absurd ⟨hg, hd, hp⟩ hs₁⟩
  · rintro ⟨e, he, hallows⟩
    exact ⟨⟨e, he, fun hd hp hg => (hallows hg hd hp).1⟩, ⟨e, he, fun hd hp hg => (hallows hg hd hp).2.1⟩,
      e, he, fun hd hp hg => (hallows hg hd hp).2.2⟩

/-- **The checks of a value have a choice in common**: they pass if and only if in every environment one choice of
the source's variables does for all three, where what is given may depend on the choice. -/
theorem valueChecks_pass_iff_common (h : Independent a b) (hkind : ∀ v ∈ a.conds.free, v.kind ≠ .truth)
    (hx : a.value = some x) (hy : b.value = some y) :
    (∀ c ∈ valueChecks p users k a b, c.Passes) ↔
      ∀ env, ∃ e ∈ Env.choices a.conds.free env, holds e (givenFor p users k) = true → Allows e e a b x y := by
  simp only [← valueChecks_eval_iff h hkind hx hy]
  exact ⟨fun h env c hc => h c hc env, fun h c hc env => h env c hc⟩

/-- An environment is no counterexample if there are no branches, choices of the source and writes to memory and the
source allows all values of the target. -/
theorem allChecks_eval {o : Optimization} (hentries : p.source.entries = [])
    (hmemory : p.source.memory = p.target.memory)
    (hvalues : ∀ e ∈ compared p, ∃ x y, e.2.1.value = some x ∧ e.2.2.value = some y ∧ e.2.1.conds.free = [] ∧
      Allows env env e.2.1 e.2.2 x y) : ∀ c ∈ allChecks o p, c.query.eval env = false := by
  rw [allChecks, List.forall_mem_append, List.forall_mem_append]
  refine ⟨⟨?_, ?_⟩, ?_⟩
  · simp [blockChecks, hentries]
  · intro c hc
    obtain ⟨⟨k, a, b⟩, he, hc⟩ := List.mem_flatMap.1 hc
    obtain ⟨x, y, hx, hy, hfree, hallows⟩ := hvalues _ he
    dsimp only at hfree
    refine (valueChecks_eval_iff (by simp [Independent, hfree]) (by simp [hfree]) hx hy).2 ?_ c hc
    exact ⟨env, by simp [hfree, Env.choices], fun _ => hallows⟩
  · unfold memoryChecks
    rw [hmemory]
    split
    · next m' n' hm hn =>
      obtain rfl := Option.some.inj (hm.symm.trans hn)
      refine List.forall_mem_singleton.2 ?_
      rw [query_eval_eq_false_iff]
      obtain ⟨e, he⟩ := List.exists_mem_of_ne_nil _ (Env.choices_ne_nil p.source.memoryFree env)
      exact ⟨e, he, by simp [holds, Formula.eval, Comparison.apply]⟩
    · exact List.forall_mem_nil _

/-- **The checks of a value pass if and only if the target refines the source**: in every environment the source
has a choice that allows what the target gives there. -/
theorem valueChecks_pass_iff (h : Unshared p users k a b) (hkind : ∀ v ∈ a.conds.free, v.kind ≠ .truth)
    (hx : a.value = some x) (hy : b.value = some y) :
    (∀ c ∈ valueChecks p users k a b, c.Passes) ↔
      ∀ env, holds env (givenFor p users k) = true →
        ∃ e ∈ Env.choices a.conds.free env, Allows e env a b x y := by
  rw [valueChecks_pass_iff_common h.independent hkind hx hy]
  refine forall_congr' fun env => ?_
  -- What is given and the target are the same for all choices.
  have hsame : ∀ e ∈ Env.choices a.conds.free env, (holds e (givenFor p users k) = holds env (givenFor p users k)) ∧
      (Allows e e a b x y ↔ Allows e env a b x y) := by
    intro e he
    obtain ⟨hy', hd', hp'⟩ := h.independent.agree hkind hy he
    refine ⟨(h.given_eq hkind he).symm, ?_⟩
    rw [Allows, Allows, hy', hd', hp']
  constructor
  · rintro ⟨e, he, hallows⟩ hgiven
    exact ⟨e, he, (hsame e he).2.1 (hallows ((hsame e he).1.trans hgiven))⟩
  · intro hall
    by_cases hgiven : holds env (givenFor p users k) = true
    · obtain ⟨e, he, hallows⟩ := hall hgiven
      exact ⟨e, he, fun _ => (hsame e he).2.2 hallows⟩
    · obtain ⟨e, he⟩ := List.exists_mem_of_ne_nil _ (Env.choices_ne_nil a.conds.free env)
      exact ⟨e, he, fun hge => absurd ((hsame e he).1.symm.trans hge) hgiven⟩

/-- **The three checks of a value decide one refinement.**  Let the source's choices be bit-vectors that do not occur
in the target.  The checks come out clean if and only if for all values of the other variables there is one choice
for which a source that is defined and not poison, where what is given holds, has a target that is defined, not
poison and equal to it.  What is given may depend on the choice. -/
theorem valueChecks_clean_iff_common {solve : Decide.Solver} (hs : Answers solve) (h : Independent a b)
    (hkind : ∀ v ∈ a.conds.free, ∃ w, v.kind = .bits w) (hx : a.value = some x) (hy : b.value = some y) :
    runChecks solve (valueChecks p users k a b) = .clean ↔
      ∀ env, ∃ e ∈ Env.choices a.conds.free env,
        holds e (a.conds.defined ++ a.conds.poison ++ givenFor p users k) = true →
          holds e b.conds.defined = true ∧ holds e b.conds.poison = true ∧
            x.eval e = (y.eval e).setWidth x.width := by
  have hkind' : ∀ v ∈ a.conds.free, v.kind ≠ .truth := by
    intro v hv htruth
    obtain ⟨w, hw⟩ := hkind v hv
    cases hw.symm.trans htruth
  rw [runChecks_clean_iff hs, valueChecks_pass_iff_common h hkind' hx hy]
  refine forall_congr' fun env => exists_congr fun e => and_congr_right fun _ => ?_
  simp only [Allows, holds_append, Bool.and_eq_true, and_imp]
  exact ⟨fun h hd hp hg => h hg hd hp, fun h hg hd hp => h hd hp hg⟩

end Values

/-! ### Registers -/

/-- A variable that encoding makes up is a bit-vector. -/
theorem made_kind_ne {t : Program.Table} {v : Var} (h : Made t v) : v.kind ≠ .truth := by
  cases h with
  | undefined | pointer | contents => simp

theorem mem_compared {p : Problem} {k : String} {a b : Encoded} (hk : k.startsWith "%" = true)
    (ha : (k, a) ∈ p.source.vars) (hb : p.target.vars.get? k = some b) : (k, a, b) ∈ compared p := by
  have hC : k.startsWith "C" = false := by
    rw [String.startsWith_string_eq_false_iff]
    rintro ⟨l, hl⟩
    obtain ⟨m, hm⟩ := String.startsWith_string_iff.1 hk
    rw [← hl] at hm
    exact absurd (List.head_eq_of_cons_eq hm) (by decide)
  refine List.mem_filterMap.2 ⟨(k, a), List.mem_filter.2 ⟨ha, ?_⟩, ?_⟩
  · simp [hk]
  · simp [hC, hb]

theorem of_mem_compared {p : Problem} {k : String} {a b : Encoded} (h : (k, a, b) ∈ compared p) :
    (k, a) ∈ p.source.vars ∧ p.target.vars.get? k = some b := by
  obtain ⟨⟨k', a'⟩, hitem, hsome⟩ := List.mem_filterMap.1 h
  dsimp only at hsome
  split at hsome
  · cases hsome
  · obtain ⟨b', hb, heq⟩ := Option.map_eq_some_iff.1 hsome
    cases heq
    exact ⟨(List.mem_filter.1 hitem).1, hb⟩

/-- **Clean register checks mean refinement.**  Let the register checks of an optimization come out clean.  Then for
every register that both programs have and whose sides share no arbitrary choice, and in every environment in which
the precondition, the constraints of the allocations and the conditions on the number of users hold, there are
values for the source's choices such that the target's value is defined, not poison and equal to the source's,
if the source's is defined and not poison. -/
theorem register_refines {solve : Decide.Solver} (hs : Answers solve) {o : Optimization} {shape : Shape}
    {options : Options} {p : Problem} (hp : encodeOptimization o shape options = .ok p)
    (hclean : runChecks solve (registerChecks p (userConditions o)) = .clean)
    {k : String} {a b : Encoded} {x y : Term} (hk : k.startsWith "%" = true) (ha : (k, a) ∈ p.source.vars)
    (hb : p.target.vars.get? k = some b) (hx : a.value = some x) (hy : b.value = some y)
    (hshare : Unshared p (userConditions o) k a b) (env : Env)
    (hgiven : holds env (givenFor p (userConditions o) k) = true) :
    ∃ e ∈ Env.choices a.conds.free env, Allows e env a b x y := by
  have hkind : ∀ v ∈ a.conds.free, v.kind ≠ .truth :=
    (encodeOptimization_chosen (fun _ => made_kind_ne) hp).1 (k, a) ha
  refine (valueChecks_pass_iff hshare hkind hx hy).1 (fun c hc => ?_) env hgiven
  exact (runChecks_clean_iff hs _).1 hclean c (List.mem_flatMap.2 ⟨(k, a, b), mem_compared hk ha hb, hc⟩)

/-- `%r = xor i1 undef, %x` becomes `%r = %x`. -/
def xorUndef : Optimization :=
  { (default : Optimization) with
    table := ⟨#[⟨"%x", "%x", some ⟨"%x", .int (some 1)⟩, .input⟩,
      ⟨"undef", "undef_0", some ⟨"undef_0", .int (some 1)⟩, .undefined⟩,
      ⟨"%r", "%r", some ⟨"%r", .int (some 1)⟩, .arith .xor 1 0 []⟩,
      ⟨"%r", "%r", some ⟨"%r", .int (some 1)⟩, .copy 0⟩], 1⟩
    pre := .always
    source := [("", [("%r", 2)])]
    target := [("", [("%r", 3)])]
    sourceNames := [("%x", 0), ("undef_0", 1), ("%r", 2)]
    targetNames := [("%x", 0), ("%r", 3)] }

/-- The register of `xorUndef` in the target, which is its input. -/
def xorUndefTarget : Encoded := ⟨some (.var "%x" 1), .none⟩

def xorUndefSource : Encoded :=
  ⟨some (.op .xor (.var "undef0" 1) (.var "%x" 1)), ⟨[], [], [⟨"undef0", .bits 1⟩]⟩⟩

def xorUndefProblem : Problem :=
  let u : Encoded := ⟨some (.var "undef0" 1), xorUndefSource.conds⟩
  let m : Option Memory := some (.byte (.var "mem0" 8))
  ⟨⟨[("%x", xorUndefTarget), ("undef_0", u), ("%r", xorUndefSource)], [], [], [], [], m⟩,
    ⟨[("%x", xorUndefTarget), ("%r", xorUndefTarget)], [], [], [], [], m⟩, ⟨[], []⟩, default⟩

theorem xorUndef_encoded : encodeOptimization xorUndef default {} = .ok xorUndefProblem := by
  with_unfolding_all rfl

theorem xorUndef_compared :
    compared xorUndefProblem = [("%x", xorUndefTarget, xorUndefTarget), ("%r", xorUndefSource, xorUndefTarget)] := by
  with_unfolding_all rfl

theorem xorUndef_zero (env : Env) : env.setBits "undef0" 0 ∈ Env.choices xorUndefSource.conds.free env :=
  List.mem_flatMap.2 ⟨_, List.mem_map.2 ⟨0, by decide, rfl⟩, List.mem_singleton_self _⟩

/-- With zero for `undef` the source of `xorUndef` gives the target's value. -/
theorem xorUndef_clean : runChecks ideal (registerChecks xorUndefProblem (userConditions xorUndef)) = .clean := by
  rw [runChecks_clean_iff ideal_answers, registerChecks, xorUndef_compared]
  simp only [List.flatMap_cons, List.flatMap_nil, List.append_nil, List.forall_mem_append]
  constructor
  · refine (valueChecks_pass_iff_common (by decide) (List.forall_mem_nil _) rfl rfl).2 fun env => ?_
    exact ⟨env, List.mem_singleton_self env, fun _ => .refl env _ _⟩
  · refine (valueChecks_pass_iff_common (by decide) (by simp [xorUndefSource]) rfl rfl).2 fun env => ?_
    have hxor : ∀ b : BitVec 1, 0#1 ^^^ b.setWidth 1 = b.setWidth 1 := by decide
    exact ⟨_, xorUndef_zero env, fun _ _ _ => ⟨rfl, rfl, hxor (BitVec.ofInt 1 (env.bits "%x"))⟩⟩

/-- The theorem at `xorUndef` where the choice is given not to be zero: zero does for all three checks, as nothing is
asked for it. -/
theorem xorUndef_common :
    runChecks ideal (valueChecks
      { xorUndefProblem with pre := ⟨[.cmp .ne (.var "undef0" 1) (.const 0 1)], []⟩ } [] "%r"
      xorUndefSource xorUndefTarget) = .clean := by
  refine (valueChecks_clean_iff_common ideal_answers (by decide) (by simp [xorUndefSource]) rfl rfl).2 fun env => ?_
  have hzero : (Formula.cmp .ne (.var "undef0" 1) (.const 0 1)).eval (env.setBits "undef0" 0) = false := rfl
  exact ⟨env.setBits "undef0" 0, xorUndef_zero env, by simp [holds, givenFor, assumptions, hzero]⟩

/-- The theorem at `xorUndef`, where the source has a choice that the target has not. -/
theorem xorUndef_refines :
    Unshared xorUndefProblem (userConditions xorUndef) "%r" xorUndefSource xorUndefTarget ∧
      ∃ e ∈ Env.choices [⟨"undef0", .bits 1⟩] ((default : Env).setBits "%x" 1),
        Allows e ((default : Env).setBits "%x" 1) xorUndefSource xorUndefTarget
          (.op .xor (.var "undef0" 1) (.var "%x" 1)) (.var "%x" 1) :=
  have hshare : Unshared xorUndefProblem (userConditions xorUndef) "%r" xorUndefSource xorUndefTarget := by decide
  ⟨hshare, register_refines ideal_answers xorUndef_encoded xorUndef_clean
    (String.startsWith_string_iff.2 ⟨['r'], rfl⟩) (by simp [xorUndefProblem]) rfl rfl rfl hshare _ (by decide)⟩

end Peephole.Verify
