import Mathlib
import Peephole.Proofs.Encode.Refill
import Peephole.Proofs.Verify.Refinement

/-!
# The two encodings of memory

Memories are arrays, and the initial one is any; or they are terms over the index, and the initial one is the same byte
`mem0` everywhere.  The second encoding is the first one with the memory `flat` filled in: it substitutes for the index
where the first one selects from an array, and puts conditions on the index where the first one updates an array.  So its
checks are those of the first encoding, put to **uniform** memories only.

* `query_fill` : filling memories into a query is reading their bytes from the environment, if the memories do not
  depend on the quantified variables (`Apart`).
* `allChecks_fill` : the checks of an optimization with memories filled in.
* `checkTyping_flat_eq_none_iff` : with the same byte everywhere, an optimization is accepted if no uniform memory is
  a counterexample to the checks with any memory.
* `reading_uniform` : **in a uniform memory both encodings of a program say the same**: the values, the branches and
  the bytes of the final memory.
* `memories_agree_iff` : **the two verdicts are the same if and only if** an optimization with a counterexample has
  one with a uniform memory.

`twoLoads` shows that they differ: bytes behind two pointers are always equal only if all bytes are.
-/

namespace Peephole.Verify

open Logic Encode
open Program (Dict Table ValueId PlacedTy)
open Elaborate (Optimization)

variable {o : Optimization} {p : Problem} {env : Env}

/-! ### Filling in memories behind quantifiers -/

/-- The bytes of the memories do not depend on the variable. -/
def Apart (τ : String → Memory) (v : Var) : Prop :=
  ∀ env, ∀ e ∈ Env.variants env v, ∀ n a, (τ n).byteAt e a = (τ n).byteAt env a

/-- The memory that holds one byte everywhere, in place of the initial memory. -/
def flat (n : String) : Memory := if n = "mem0" then .byte (.var "mem0" 8) else .var n

theorem apart_var (v : Var) : Apart .var v := by
  intro env e he n a
  simp only [Memory.var, Memory.byteAt, ArrayTerm.byteAt, (Env.mem_variants he).1]

theorem apart_flat {v : Var} (hv : v.name ≠ "mem0") : Apart flat v := by
  intro env e he n a
  by_cases hn : n = "mem0"
  · have hbits : e.bits "mem0" = env.bits "mem0" := (Env.mem_variants he).2 _ (Ne.symm hv)
    simp [flat, hn, Memory.byteAt, Term.eval, hbits]
  · simpa [flat, hn] using apart_var v env e he n a

theorem variants_under {τ : String → Memory} {v : Var} (hv : Apart τ v) (env : Env) :
    (env.under τ).variants v = (env.variants v).map (Env.under τ) := by
  -- `setBits` and `setTruth` leave the bytes alone, so only the bytes of `τ` could differ.
  have hbyte : ∀ e ∈ env.variants v, (e.under τ).byte = (env.under τ).byte := by
    intro e he
    funext n a
    exact congrArg (fun b : BitVec 8 => (b.toNat : Int)) (hv env e he n a)
  unfold Env.variants at hbyte ⊢
  cases hk : v.kind with
  | bits w =>
    simp only [hk, List.forall_mem_map] at hbyte
    simp only [List.map_map]
    refine List.map_congr_left fun n hn => ?_
    exact congrArg (Env.mk _ _) (hbyte n hn).symm
  | truth =>
    simp only [hk, List.forall_mem_cons, List.not_mem_nil, false_imp_iff, implies_true, and_true] at hbyte
    exact congrArg₂ (fun x y => [Env.mk _ _ x, Env.mk _ _ y]) hbyte.1.symm hbyte.2.symm
  | bytes => rfl

/-- The environments that differ in some variables, before and after the memories are read from them. -/
theorem choices_under {τ : String → Memory} {vs : List Var} (hvs : ∀ v ∈ vs, Apart τ v) (env : Env) :
    Env.choices vs (env.under τ) = (Env.choices vs env).map (Env.under τ) := by
  induction vs generalizing env with
  | nil => rfl
  | cons v vs ih =>
    obtain ⟨hv, hvs⟩ := List.forall_mem_cons.1 hvs
    simp only [Env.choices, variants_under hv, List.flatMap_map, List.map_flatMap, ih hvs]

/-- Filling in memories is the same as reading their bytes from the environment, also behind quantifiers. -/
theorem query_fill {τ : String → Memory} (vs : List Var) (hvs : ∀ v ∈ vs, Apart τ v) (ps : List Formula)
    (env : Env) :
    (query vs (ps.map (Formula.fill τ))).eval env = (query vs (ps.map (Formula.fill .var))).eval (env.under τ) := by
  simp only [query, Formula.eval_forAll, choices_under hvs, List.all_map, Formula.eval_allOf, Function.comp_def,
    Formula.eval_fill τ]

/-! ### The checks of an optimization -/

section Fill

variable {τ : String → Memory}

def Shown.fill (τ : String → Memory) : Shown → Shown
  | term t => term (t.fill τ)
  | truth p => truth (p.fill τ)
  | word s => word s

/-- The check with memories filled in. -/
def Check.fill (τ : String → Memory) (c : Check) : Check :=
  ⟨c.concern, c.vars, c.parts.map (Formula.fill τ), c.source.fill τ, c.target.fill τ⟩

theorem assumptions_fill : assumptions (p.fill τ) = (assumptions p).map (Formula.fill τ) := by
  have halloca : ∀ st : State, (st.fill τ).allocaConstraints = st.allocaConstraints.map (Formula.fill τ) := by
    intro st
    simp [State.allocaConstraints, State.fill, Block.ptr, List.map_flatMap, Function.comp_def]
  simp [assumptions, Problem.fill, Requirement.fill, halloca]

theorem blockChecks_fill : blockChecks (p.fill τ) = (blockChecks p).map (Check.fill τ) := by
  have hget : ∀ k, (p.fill τ).target.entries.get? k =
      (p.target.entries.get? k).map (List.map fun m => (m.1.fill τ, m.2.fill τ)) := fun k => get?_map _ _ _
  have hentries : (p.fill τ).source.entries =
      List.map (fun e => (e.1, e.2.map fun m => (m.1.fill τ, m.2.fill τ))) p.source.entries := rfl
  rw [blockChecks, hentries]
  simp [blockChecks, blockCheck, assumptions_fill, hget, List.filterMap_map, List.map_filterMap, Function.comp_def,
    Check.fill, Shown.fill]

theorem compared_fill : compared (p.fill τ) = (compared p).map fun e => (e.1, e.2.1.fill τ, e.2.2.fill τ) := by
  simp [compared, State.items, Problem.fill, State.fill, List.filter_map, List.filterMap_map, List.map_filterMap,
    Function.comp_def, get?_map, apply_ite]

theorem valueChecks_fill {users : Dict (List Formula)} {k : String}
    (husers : ((users.get? k).getD []).map (Formula.fill τ) = (users.get? k).getD []) (a b : Encoded) :
    valueChecks (p.fill τ) users k (a.fill τ) (b.fill τ) = (valueChecks p users k a b).map (Check.fill τ) := by
  simp only [valueChecks, Encoded.fill, assumptions_fill]
  rcases a.value with _ | x
  · rfl
  · rcases b.value with _ | y
    · rfl
    · simp [Check.fill, Shown.fill, Conditions.fill, husers]

theorem memoryChecks_fill : memoryChecks (p.fill τ) = (memoryChecks p).map (Check.fill τ) := by
  simp only [memoryChecks, assumptions_fill]
  simp only [Problem.fill, State.fill]
  rcases p.source.memory with _ | m
  · rfl
  · rcases p.target.memory with _ | n
    · rfl
    · simp [Check.fill, Shown.fill]

theorem allChecks_fill (o : Optimization) : allChecks o (p.fill τ) = (allChecks o p).map (Check.fill τ) := by
  have husers : ∀ k, (((userConditions o).get? k).getD []).map (Formula.fill τ) =
      ((userConditions o).get? k).getD [] := by
    intro k
    cases hk : (userConditions o).get? k with
    | none => rfl
    | some ps =>
      obtain ⟨e, -, he⟩ := List.mem_map.1 (Program.mem_of_get? hk)
      obtain ⟨-, rfl⟩ := Prod.mk.inj he
      dsimp only [Option.getD_some]
      split
      · split <;> simp [usersVar]
      · rfl
  simp only [allChecks, registerChecks, List.map_append, blockChecks_fill, memoryChecks_fill, compared_fill,
    List.flatMap_map, List.map_flatMap, valueChecks_fill (husers _)]

end Fill

/-! ### Initial memories -/

/-- The initial memory holds the byte `mem0` everywhere.  (With any memory, only memories are called `mem0`, so that
the bit-vector of this name stands for nothing else.) -/
def Uniform (env : Env) : Prop :=
  ∀ a, BitVec.ofInt 8 (env.byte "mem0" a) = BitVec.ofInt 8 (env.bits "mem0")

theorem byteAt_flat (env : Env) (a : Nat) : (flat "mem0").byteAt env a = BitVec.ofInt 8 (env.bits "mem0") :=
  BitVec.setWidth_eq _

theorem uniform_under_flat (env : Env) : Uniform (env.under flat) := by
  intro a
  show BitVec.ofInt 8 ((flat "mem0").byteAt env a).toNat = BitVec.ofInt 8 (env.bits "mem0")
  rw [byteAt_flat, BitVec.ofInt_natCast, BitVec.ofNat_toNat, BitVec.setWidth_eq]

theorem Uniform.under_eq (h : Uniform env) : env.under flat = env.under .var := by
  refine congrArg (Env.mk _ _) ?_
  funext n a
  by_cases hn : n = "mem0"
  · rw [hn, byteAt_flat, ← h a]
    rfl
  · simp [hn, flat]

/-- A check with the same byte everywhere is the check with any memory, put to uniform memories only. -/
theorem fill_flat_iff {c : Check} (hc : ∀ v ∈ c.vars, v.name ≠ "mem0") :
    (∀ env, (c.fill flat).query.eval env = false) ↔ ∀ env, Uniform env → (c.fill .var).query.eval env = false := by
  have hflat := query_fill c.vars (fun v hv => apart_flat (hc v hv)) c.parts
  have hvar := query_fill c.vars (fun v _ => apart_var v) c.parts
  constructor
  · intro h env hu
    rw [Check.fill, hvar, ← hu.under_eq, ← hflat]
    exact h env
  · intro h env
    rw [Check.fill, hflat]
    exact h _ (uniform_under_flat env)

theorem fills_flat (newShift flags : Bool) : Fills flat ⟨true, newShift, flags⟩ ⟨false, newShift, flags⟩ := by
  refine ⟨rfl, rfl, rfl, fun n x => ?_⟩
  unfold flat
  split
  · show ("mem0" : String).startsWith "C" = false
    rw [String.startsWith_string_eq_false_iff]
    decide
  · rfl

theorem fills_var (options : Options) : Fills .var options options := by
  refine ⟨rfl, rfl, ?_, fun n x => rfl⟩
  unfold State.initialMemory
  split <;> rfl

/-- Nothing is changed when memory variables are filled in for themselves. -/
theorem fill_var_of_encoded {shape : Shape} {options : Options}
    (hp : encodeOptimization o shape options = .ok p) : p.fill .var = p := by
  have h := encodeOptimization_fill (fills_var options) o shape
  rw [hp] at h
  exact (Except.ok.inj h).symm

/-! ### Readings -/

/-- What a program comes to in an environment: each value, with whether it is defined and whether it is free of
poison, for each label whether the branches to it are taken, and the bytes of the memory. -/
structure Reading where
  values : List (String × Option Sized × Bool × Bool)
  branches : List (String × List Bool)
  bytes : Option (Nat → BitVec 8)

/-- What the state of encoding a program says in an environment. -/
def reading (env : Env) (st : State) : Reading where
  values := st.vars.map fun e =>
    (e.1, e.2.value.map (Term.val env), holds env e.2.conds.defined, holds env e.2.conds.poison)
  branches := st.entries.map fun e => (e.1, e.2.map fun m => m.1.eval env)
  bytes := st.memory.map fun m a => m.byteAt env a

theorem reading_fill (τ : String → Memory) (env : Env) (st : State) :
    reading env (st.fill τ) = reading (env.under τ) (st.fill .var) := by
  simp [reading, State.fill, Encoded.fill, Conditions.fill, holds, Function.comp_def, Term.val_fill τ,
    Formula.eval_fill τ, Memory.byteAt_fill τ]

theorem Uniform.reading_fill (h : Uniform env) (st : State) :
    reading env (st.fill flat) = reading env (st.fill .var) := by
  rw [Verify.reading_fill flat, h.under_eq, ← Verify.reading_fill .var]

/-- Encode a program from the start, with arrays or with terms over the index. -/
def encodeFrom (s : Setting) (fresh : Nat) (names : Dict ValueId) (p : Program.Code) (anyMemory : Bool) :
    Except Error State :=
  ((encodeProgram names p).run { s with options := { s.options with anyMemory := anyMemory } }
    |>.run ⟨.start, .none, fresh⟩).map (·.2.state)

/-- **In a uniform memory both encodings of a program say the same.**  The two encodings fail with the same error, or
all values, their conditions, the branches and the bytes of the final memory agree in every environment whose initial
memory holds the byte `mem0` everywhere. -/
theorem reading_uniform {env : Env} (h : Uniform env) (s : Setting) (fresh : Nat) (names : Dict ValueId)
    (p : Program.Code) :
    (encodeFrom s fresh names p false).map (reading env) = (encodeFrom s fresh names p true).map (reading env) := by
  have hflat := Follows.encodeProgram (fills_flat s.options.newShift s.options.inferFlags) names p
    (s := { s with options := { s.options with anyMemory := true } }) ⟨.start, .none, fresh⟩
  have hvar := Follows.encodeProgram (fills_var { s.options with anyMemory := true }) names p
    (s := { s with options := { s.options with anyMemory := true } }) ⟨.start, .none, fresh⟩
  change encodeProgram names p _ ⟨.start, .none, fresh⟩ = _ at hflat hvar
  rw [encodeFrom, encodeFrom, StateT.run, ReaderT.run, StateT.run, ReaderT.run, hflat]
  -- Encoding with any memory is its own filling with memory variables.
  cases hrun : encodeProgram names p { s with options := { s.options with anyMemory := true } }
      ⟨.start, .none, fresh⟩ with
  | error e => rfl
  | ok r =>
    rw [hrun] at hvar
    have hself : r.2.state = r.2.state.fill .var := congrArg (·.2.state) (Except.ok.inj hvar)
    refine congrArg Except.ok ((h.reading_fill r.2.state).trans ?_)
    rw [← hself]

/-! ### Verdicts -/

/-- The environment is a counterexample to one of the checks. -/
def Counterexample (o : Optimization) (p : Problem) (env : Env) : Prop :=
  ∃ c ∈ allChecks o p, c.query.eval env = true

theorem passes_iff_no_counterexample : (∀ c ∈ allChecks o p, c.Passes) ↔ ∀ env, ¬Counterexample o p env := by
  simp only [Counterexample, Check.Passes, not_exists, not_and, Bool.not_eq_true]
  exact ⟨fun h env c hc => h c hc env, fun h c hc env => h env c hc⟩

/-- No made-up variable is called like the initial memory, if no value is. -/
theorem made_name_ne {t : Table} {v : Var} (hname : ∀ x ∈ t.values, x.name ≠ "mem0") (h : Made t v) :
    v.name ≠ "mem0" := by
  have hstart : ∀ start rest : String, start.toList.head? ≠ some 'm' → start ≠ "" → start ++ rest ≠ "mem0" := by
    intro start rest hhead hne heq
    have hlist := congrArg String.toList heq
    rw [String.toList_append] at hlist
    cases hs : start.toList with
    | nil => exact hne (String.toList_eq_nil_iff.1 hs)
    | cons c cs =>
      rw [hs] at hlist hhead
      exact hhead (congrArg some (List.head_eq_of_cons_eq hlist))
  cases h with
  | undefined x n => exact hstart _ _ (by decide) (by decide)
  | pointer h n =>
    rename_i i _ _ _
    show (t.values.getD i default).name ≠ "mem0"
    rw [Array.getD]
    split
    · exact hname _ (Array.getElem_mem _)
    · decide
  | contents name n => exact hstart _ _ (by decide) (by decide)

/-- The checks quantify no variable that is called like the initial memory. -/
theorem vars_name_ne {shape : Shape} {options : Options}
    (hname : ∀ v ∈ o.table.values, v.name ≠ "mem0") (hp : encodeOptimization o shape options = .ok p) :
    ∀ c ∈ allChecks o p, ∀ v ∈ c.vars, v.name ≠ "mem0" := by
  obtain ⟨hvars, hmemory⟩ := encodeOptimization_chosen (fun _ => made_name_ne hname) hp
  intro c hc
  rw [allChecks, registerChecks, List.mem_append, List.mem_append, List.mem_flatMap] at hc
  rcases hc with (hblock | ⟨⟨k, a, b⟩, hcompared, hvalue⟩) | hfinal
  · obtain ⟨e, -, he⟩ := List.mem_filterMap.1 hblock
    obtain ⟨fs, -, rfl⟩ := Option.map_eq_some_iff.1 he
    exact List.forall_mem_nil _
  · have hc : c.vars = a.conds.free := by
      dsimp only [valueChecks] at hvalue
      split at hvalue
      · simp only [List.mem_cons, List.not_mem_nil, or_false] at hvalue
        obtain rfl | rfl | rfl := hvalue <;> rfl
      · cases hvalue
    rw [hc]
    exact hvars _ (of_mem_compared hcompared).1
  · unfold memoryChecks at hfinal
    split at hfinal
    · obtain rfl := List.mem_singleton.1 hfinal
      exact hmemory
    · cases hfinal

section Verdicts

variable {solvers : Solvers}

/-- **With the same byte everywhere, a counterexample is one with a uniform memory**: the optimization is accepted
with the same byte everywhere if it can be encoded with any memory and no uniform memory gives a counterexample. -/
theorem checkTyping_flat_eq_none_iff (hs : Answers solvers.terms) (hname : ∀ v ∈ o.table.values, v.name ≠ "mem0")
    (newShift : Bool) (m : Typing.Model) :
    checkTyping solvers o ⟨false, newShift, false⟩ m = .ok none ↔
      ∃ p, encodeOptimization o (Shape.ofModel m) ⟨true, newShift, false⟩ = .ok p ∧
        ∀ env, Uniform env → ¬Counterexample o p env := by
  rw [checkTyping_eq_none_iff hs rfl, encodeOptimization_fill (fills_flat newShift false)]
  cases hp : encodeOptimization o (Shape.ofModel m) ⟨true, newShift, false⟩ with
  | error e =>
    refine iff_of_false ?_ ?_
    · rintro ⟨p, ⟨⟩, -⟩
    · rintro ⟨p, ⟨⟩, -⟩
  | ok p =>
    have hfill : ∀ τ : String → Memory, ∀ env, ¬Counterexample o (p.fill τ) env ↔
        ∀ c ∈ allChecks o p, (c.fill τ).query.eval env = false := by
      intro τ env
      simp [Counterexample, allChecks_fill]
    -- Both problems are fillings of `p`, which makes their checks fillings of the same checks.
    have hself : p.fill .var = p := fill_var_of_encoded hp
    simp only [Except.map, Except.ok.injEq, exists_eq_left', passes_iff_no_counterexample]
    calc (∀ env, ¬Counterexample o (p.fill flat) env)
        ↔ ∀ c ∈ allChecks o p, ∀ env, (c.fill flat).query.eval env = false := by
          simp only [hfill]
          exact ⟨fun h c hc env => h env c hc, fun h env c hc => h c hc env⟩
      _ ↔ ∀ c ∈ allChecks o p, ∀ env, Uniform env → (c.fill .var).query.eval env = false :=
          forall₂_congr fun c hc => fill_flat_iff (vars_name_ne hname hp c hc)
      _ ↔ ∀ env, Uniform env → ¬Counterexample o (p.fill .var) env := by
          simp only [hfill]
          exact ⟨fun h env hu c hc => h c hc env hu, fun h c hc env hu => h env hu c hc⟩
      _ ↔ ∀ env, Uniform env → ¬Counterexample o p env := by rw [hself]

/-- **When the two initial memories give the same verdict.**  An optimization that is wrong with the same byte
everywhere is wrong with any memory.  The converse holds, so that both give an error or neither does, if and only
if some uniform memory gives a counterexample whenever any memory does.  No value may be called `mem0`: registers,
symbols and constants never are. -/
theorem memories_agree_iff (hs : Answers solvers.terms) (hname : ∀ v ∈ o.table.values, v.name ≠ "mem0")
    (newShift : Bool) (m : Typing.Model) :
    (checkTyping solvers o ⟨false, newShift, false⟩ m ≠ .ok none →
      checkTyping solvers o ⟨true, newShift, false⟩ m ≠ .ok none) ∧
    ((checkTyping solvers o ⟨false, newShift, false⟩ m ≠ .ok none ↔
      checkTyping solvers o ⟨true, newShift, false⟩ m ≠ .ok none) ↔
      ∀ p, encodeOptimization o (Shape.ofModel m) ⟨true, newShift, false⟩ = .ok p →
        (∃ env, Counterexample o p env) → ∃ env, Uniform env ∧ Counterexample o p env) := by
  have hflat := checkTyping_flat_eq_none_iff hs hname newShift m
  have hany : checkTyping solvers o ⟨true, newShift, false⟩ m = .ok none ↔ _ := checkTyping_eq_none_iff hs rfl
  simp only [passes_iff_no_counterexample] at hany
  cases hp : encodeOptimization o (Shape.ofModel m) ⟨true, newShift, false⟩ with
  | error e => simp [hflat, hany, hp]
  | ok p =>
    have huniform : (∃ env, Uniform env ∧ Counterexample o p env) → ∃ env, Counterexample o p env :=
      fun ⟨env, _, hc⟩ => ⟨env, hc⟩
    simp only [ne_eq, hflat, hany, hp, Except.ok.injEq, exists_eq_left', forall_eq', not_forall, not_not,
      exists_prop]
    exact ⟨huniform, fun h => h.2, fun h => ⟨huniform, h⟩⟩

end Verdicts

/-! ### Two loads -/

/-- `%r = sub (load %p), (load %q)` becomes `%r = 0`. -/
def twoLoads : Optimization :=
  { (default : Optimization) with
    table := ⟨#[⟨"%p", "%p", some ⟨"%p", .ptr (.int (some 8))⟩, .input⟩,
      ⟨"%a", "%a", some ⟨"%a", .int (some 8)⟩, .load ⟨"%p", .ptr (.int (some 8))⟩ 0 0⟩,
      ⟨"%q", "%q", some ⟨"%q", .ptr (.int (some 8))⟩, .input⟩,
      ⟨"%b", "%b", some ⟨"%b", .int (some 8)⟩, .load ⟨"%q", .ptr (.int (some 8))⟩ 2 0⟩,
      ⟨"%r", "%r", some ⟨"%r", .int (some 8)⟩, .arith .sub 1 3 []⟩,
      ⟨"0", "0", some ⟨"0", .int (some 8)⟩, .literal 0⟩,
      ⟨"%r", "%r", some ⟨"%r", .int (some 8)⟩, .copy 5⟩], 0⟩
    pre := .always
    source := [("", [("%a", 1), ("%b", 3), ("%r", 4)])]
    target := [("", [("%a", 1), ("%b", 3), ("%r", 6)])]
    sourceNames := [("%p", 0), ("%a", 1), ("%q", 2), ("%b", 3), ("%r", 4)]
    targetNames := [("%p", 0), ("%a", 1), ("%q", 2), ("%b", 3), ("0", 5), ("%r", 6)] }

/-- The byte of the initial memory behind a pointer. -/
def byteBehind (pointer : String) : Term :=
  .read (.var "mem0") (.op .add (.var pointer 32) (.const 0 32))

/-- A pointer can be accessed: it is not null, and each of two blocks may be behind it. -/
def accessible (pointer : String) : List Formula :=
  [.cmp .ne (.var pointer 32) (.const 0 32), .or [.lit true, .lit true]]

/-- The encodings of the pointers and the loads, which both programs of `twoLoads` have. -/
def twoLoadsPointers : Dict Encoded := [("%p", ⟨some (.var "%p" 32), .none⟩), ("%q", ⟨some (.var "%q" 32), .none⟩)]

@[inherit_doc twoLoadsPointers]
def twoLoadsLoads : Dict Encoded :=
  [("%a", ⟨some (byteBehind "%p"), ⟨accessible "%p" ++ accessible "%p", [], []⟩⟩),
    ("%b", ⟨some (byteBehind "%q"), ⟨accessible "%p" ++ accessible "%q" ++ accessible "%q", [], []⟩⟩)]

def twoLoadsSource : Encoded :=
  ⟨some (.op .sub (byteBehind "%p") (byteBehind "%q")),
    ⟨accessible "%p" ++ accessible "%q" ++ (accessible "%p" ++ accessible "%p") ++
      (accessible "%p" ++ accessible "%q" ++ accessible "%q"), [], []⟩⟩

/-- The zero that takes its place. -/
def twoLoadsTarget : Encoded := ⟨some (.const 0 8), ⟨accessible "%p" ++ accessible "%q", [], []⟩⟩

/-- The encoding of `twoLoads` with any memory. -/
def twoLoadsProblem : Problem :=
  let state (vars : Dict Encoded) : State :=
    ⟨vars, accessible "%p" ++ accessible "%q", [⟨"%p", 32, false, 32, 7, 1⟩, ⟨"%q", 32, false, 32, 7, 1⟩], [], [],
      some (.array (.var "mem0"))⟩
  ⟨state (twoLoadsPointers ++ twoLoadsLoads ++ [("%r", twoLoadsSource)]),
    state (twoLoadsPointers ++ [("0", ⟨some (.const 0 8), .none⟩)] ++ twoLoadsLoads ++ [("%r", twoLoadsTarget)]),
    ⟨[], []⟩, Shape.ofModel [("ptrsize", 32)]⟩

theorem twoLoads_encoded :
    encodeOptimization twoLoads (Shape.ofModel [("ptrsize", 32)]) ⟨true, false, false⟩ = .ok twoLoadsProblem := by
  cbv

theorem twoLoads_compared :
    compared twoLoadsProblem = (twoLoadsPointers ++ twoLoadsLoads).map (fun e => (e.1, e.2, e.2)) ++
      [("%r", twoLoadsSource, twoLoadsTarget)] := by
  cbv

/-- With the same byte behind both pointers the difference is zero. -/
theorem Uniform.allows_twoLoads (h : Uniform env) :
    Allows env env twoLoadsSource twoLoadsTarget (.op .sub (byteBehind "%p") (byteBehind "%q")) (.const 0 8) := by
  intro hd _
  have hboth : holds env (accessible "%p" ++ accessible "%q") = true := by
    simp only [twoLoadsSource, holds_append, Bool.and_eq_true] at hd ⊢
    exact hd.1.1
  refine ⟨hboth, rfl, ?_⟩
  have hsub : ∀ b c : BitVec 8, b = c → b - c.setWidth 8 = BitVec.setWidth 8 (0#8) := by
    rintro b _ rfl
    rw [BitVec.setWidth_eq, BitVec.sub_self]
    rfl
  exact hsub _ _ ((h _).trans (h _).symm)

theorem twoLoads_uniform (h : Uniform env) : ¬Counterexample twoLoads twoLoadsProblem env := by
  have hvalues : ∀ e ∈ compared twoLoadsProblem, ∃ x y, e.2.1.value = some x ∧ e.2.2.value = some y ∧
      e.2.1.conds.free = [] ∧ Allows env env e.2.1 e.2.2 x y := by
    rw [twoLoads_compared, List.forall_mem_append, List.forall_mem_map]
    refine ⟨fun e he => ?_, List.forall_mem_singleton.2 ⟨_, _, rfl, rfl, rfl, h.allows_twoLoads⟩⟩
    have hsome : ∀ e ∈ twoLoadsPointers ++ twoLoadsLoads, e.2.value.isSome ∧ e.2.conds.free = [] := by
      simp [twoLoadsPointers, twoLoadsLoads, Conditions.none]
    obtain ⟨hx, hfree⟩ := hsome e he
    obtain ⟨x, hx⟩ := Option.isSome_iff_exists.1 hx
    exact ⟨x, x, hx, hx, hfree, .refl env e.2 x⟩
  rintro ⟨c, hc, htrue⟩
  exact absurd htrue (by simp [allChecks_eval rfl rfl hvalues c hc])

/-- The contents of each address are its number. -/
def counting : Env := ⟨fun n => if n = "%p" then 1 else 2, fun _ => false, fun _ a => a⟩

theorem counting_counterexample : Counterexample twoLoads twoLoadsProblem counting := by
  have h : ((allChecks twoLoads twoLoadsProblem).any fun c => c.query.eval counting) = true := by cbv
  simpa [Counterexample] using h

def sevens : Env := ⟨fun _ => 7, fun _ => false, fun _ _ => 7⟩

/-- The encoding of the source of `twoLoads`. -/
def twoLoadsState (anyMemory : Bool) : Except Error State :=
  encodeFrom ⟨twoLoads.table, Shape.ofModel [("ptrsize", 32)], {}, true⟩ 0 twoLoads.sourceNames twoLoads.source
    anyMemory

/-- The two loads of `twoLoads` read seven in both encodings. -/
theorem twoLoads_reading :
    Uniform sevens ∧ (twoLoadsState true).isOk = true ∧
      (twoLoadsState false).map (reading sevens) = (twoLoadsState true).map (reading sevens) :=
  ⟨fun _ => rfl, by cbv, reading_uniform (fun _ => rfl) _ _ _ _⟩

/-- The verdicts on `twoLoads` differ: it is accepted with the same byte everywhere only. -/
theorem twoLoads_differs :
    (∀ v ∈ twoLoads.table.values, v.name ≠ "mem0") ∧
      ¬(checkTyping ⟨Typing.find?, ideal, 1⟩ twoLoads ⟨false, false, false⟩ [("ptrsize", 32)] ≠ .ok none ↔
        checkTyping ⟨Typing.find?, ideal, 1⟩ twoLoads ⟨true, false, false⟩ [("ptrsize", 32)] ≠ .ok none) := by
  have hname : ∀ v ∈ twoLoads.table.values, v.name ≠ "mem0" := by decide
  refine ⟨hname, ?_⟩
  rw [(memories_agree_iff ideal_answers hname false [("ptrsize", 32)]).2]
  intro h
  obtain ⟨env, hu, hc⟩ := h _ twoLoads_encoded ⟨_, counting_counterexample⟩
  exact twoLoads_uniform hu hc

end Peephole.Verify
