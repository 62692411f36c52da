import Peephole.Proofs.Encode.Edges
import Peephole.Proofs.Encode.Precondition
import Peephole.Proofs.Verify.Refinement

/-!
# What the checks of basic blocks compare

What is done in a basic block is defined only if **some** edge into it is taken (`holds_enter`).  The check of the
block compares whether **all** edges into it are taken in the source and in the target.

* `blockCheck_passes_iff` : the check of a label passes if and only if, wherever the assumptions hold, the source
  takes all edges into it exactly if the target does.
* `block_reached_iff` : **the check compares when the block is reached**, if in each program the edges into it are
  taken all or none.  In particular this is so of a block with one incoming edge in each program.  Two edges that
  exclude each other are never both taken, so the check of a block where they meet compares nothing.
-/

namespace Peephole.Verify

open Logic Encode
open Elaborate (Optimization)

variable {p : Problem} {k : String} {es fs : List (Formula × Memory)} {env : Env}

/-- A label with incoming edges in both programs has one check. -/
theorem mem_blockChecks_iff (hentries : Entries p.source.entries) (hes : p.source.entries.get? k = some es)
    (hfs : p.target.entries.get? k = some fs) {c : Check} :
    c ∈ blockChecks p ∧ c.concern = .block k ↔ c = blockCheck p k es fs := by
  constructor
  · rintro ⟨hc, hconcern⟩
    obtain ⟨⟨k', es'⟩, hmem, hsome⟩ := List.mem_filterMap.1 hc
    obtain ⟨fs', hfs', rfl⟩ := Option.map_eq_some_iff.1 hsome
    cases hconcern
    have hes' := Program.get?_of_mem hentries.nodup hmem
    rw [hes] at hes'
    rw [hfs] at hfs'
    cases hes'
    cases hfs'
    rfl
  · rintro rfl
    exact ⟨List.mem_filterMap.2 ⟨_, Program.mem_of_get? hes, by simp [hfs]⟩, rfl⟩

def allTaken (env : Env) (es : List (Formula × Memory)) : Bool := es.all (·.1.eval env)

def someTaken (env : Env) (es : List (Formula × Memory)) : Bool := es.any (·.1.eval env)

theorem blockCheck_passes_iff :
    (blockCheck p k es fs).Passes ↔ ∀ env, holds env (assumptions p) = true → allTaken env es = allTaken env fs := by
  refine forall_congr' fun env => ?_
  have hdistinct : (Formula.distinct [.allOf (es.map (·.1)), .allOf (fs.map (·.1))]).eval env =
      (allTaken env es != allTaken env fs) := by
    have hall : ∀ es : List (Formula × Memory), (Formula.allOf (es.map (·.1))).eval env = allTaken env es := by
      intro es
      simp [allTaken, Function.comp_def]
    simp only [Formula.eval, Formula.values, hall]
    cases allTaken env es <;> cases allTaken env fs <;> rfl
  have hchoices : (blockCheck p k es fs).query.eval env = false ↔
      holds env (.distinct [.allOf (es.map (·.1)), .allOf (fs.map (·.1))] :: assumptions p) = false := by
    simp [blockCheck, query_eval_eq_false_iff, Env.choices]
  rw [hchoices, ← List.singleton_append, holds_append]
  simp only [holds, List.all_cons, List.all_nil, Bool.and_true, hdistinct]
  cases h : (assumptions p).all (·.eval env) with
  | false | true => simp

/-- What is done in a basic block is defined if some edge into it is taken. -/
theorem holds_enter {st : State} {o : Options} (h : st.entries.get? k = some es) :
    holds env (st.enter o k).defined = someTaken env es := by
  simp [State.enter, h, holds, someTaken, Function.comp_def]

/-- The edges are taken all or none. -/
def AllOrNone (env : Env) (es : List (Formula × Memory)) : Prop :=
  ∀ e ∈ es, ∀ f ∈ es, e.1.eval env = f.1.eval env

theorem AllOrNone.allTaken_eq (h : AllOrNone env es) (hne : es ≠ []) : allTaken env es = someTaken env es := by
  obtain ⟨e, he⟩ := List.exists_mem_of_ne_nil es hne
  cases heval : e.1.eval env with
  | true =>
    have hall : allTaken env es = true := List.all_eq_true.2 fun f hf => (h f hf e he).trans heval
    have hsome : someTaken env es = true := List.any_eq_true.2 ⟨e, he, heval⟩
    rw [hall, hsome]
  | false =>
    have hall : allTaken env es = false := List.all_eq_false.2 ⟨e, he, by simp [heval]⟩
    have hsome : someTaken env es = false :=
      List.any_eq_false.2 fun f hf => by simp [(h f hf e he).trans heval]
    rw [hall, hsome]

/-- **The check of a basic block compares when it is reached**, if where the assumptions hold each program takes all
edges into it or none.  A label with incoming edges in both programs is checked; with a solver that answers correctly
its check passes if and only if, wherever the assumptions hold, what is done in the block is defined in the source
exactly if it is in the target. -/
theorem block_reached_iff {solve : Decide.Solver} (hs : Answers solve) {o : Optimization} {shape : Shape}
    {options : Options} {p : Problem} (hp : encodeOptimization o shape options = .ok p)
    {k : String} {es fs : List (Formula × Memory)} (hes : p.source.entries.get? k = some es)
    (hfs : p.target.entries.get? k = some fs)
    (huniform : ∀ env, holds env (assumptions p) = true → AllOrNone env es ∧ AllOrNone env fs) :
    (∃ c ∈ blockChecks p, c.concern = .block k) ∧
      ∀ c ∈ blockChecks p, c.concern = .block k → (solve c.query = .unsatisfiable ↔
        ∀ env, holds env (assumptions p) = true →
          holds env (p.source.enter options k).defined = holds env (p.target.enter options k).defined) := by
  obtain ⟨src, tgt, w, hsrc, htgt, hpre, hproblem⟩ := encodeOptimization_ok hp
  have hsource : Entries p.source.entries := by
    have hrecords : w.state.entries = src.state.entries := (encodeCondition_records hpre).2
    rw [hproblem]
    exact hrecords ▸ Entries.encodeProgram hsrc
  have htarget : Entries p.target.entries := by
    rw [hproblem]
    exact Entries.encodeProgram htgt
  have hmem := fun c => mem_blockChecks_iff hsource hes hfs (c := c)
  refine ⟨⟨blockCheck p k es fs, (hmem _).2 rfl⟩, fun c hc hconcern => ?_⟩
  obtain rfl := (hmem c).1 ⟨hc, hconcern⟩
  rw [hs.unsatisfiable_iff]
  refine blockCheck_passes_iff.trans (forall_congr' fun env => imp_congr_right fun hgiven => ?_)
  obtain ⟨hall, hall'⟩ := huniform env hgiven
  rw [holds_enter hes, holds_enter hfs, hall.allTaken_eq (hsource.edges _ (Program.mem_of_get? hes)),
    hall'.allTaken_eq (htarget.edges _ (Program.mem_of_get? hfs))]

/-- A branch on `%c` to `a` or `b` becomes a branch on its negation to `b` or `a`. -/
def flippedBranch : Optimization :=
  { (default : Optimization) with
    table := ⟨#[⟨"%c", "%c", some ⟨"%c", .int (some 1)⟩, .input⟩,
      ⟨"true", "true_0", some ⟨"true_0", .int (some 1)⟩, .literal 1⟩,
      ⟨"br_", "br_", none, .br 0 "%a" "%b"⟩,
      ⟨"%n", "%n", some ⟨"%n", .int (some 1)⟩, .arith .xor 0 1 []⟩,
      ⟨"br_", "br_", none, .br 3 "%b" "%a"⟩], 1⟩
    pre := .always
    source := [("", [("br_", 2)]), ("a", []), ("b", [])]
    target := [("", [("%n", 3), ("br_", 4)]), ("a", []), ("b", [])]
    sourceNames := [("%c", 0), ("br_", 2)]
    targetNames := [("%c", 0), ("true_0", 1), ("%n", 3), ("br_", 4)] }

def bitIs (r : Comparison) (t : Term) : Formula := .cmp r t (.const 0 1)

/-- The encoding of `flippedBranch`. -/
def flippedProblem : Problem :=
  let c : Term := .var "%c" 1
  let n : Term := .op .xor c (.const 1 1)
  let m : Memory := .byte (.var "mem0" 8)
  let plain (t : Option Term) (d : List Formula) : Encoded := ⟨t, ⟨d, [], []⟩⟩
  let reached (l : String) (p : Formula) : String × List (Formula × Memory) := (l, [(p, m)])
  ⟨⟨[("%c", plain c []), ("br_", plain none [])], [.anyOf [bitIs .eq c]], [], [],
      [reached "a" (bitIs .ne c), reached "b" (bitIs .eq c)], m⟩,
    ⟨[("%c", plain c []), ("true_0", plain (some (.const 1 1)) []), ("%n", plain n []), ("br_", plain none [])],
      [.anyOf [bitIs .ne n]], [], [], [reached "b" (bitIs .ne n), reached "a" (bitIs .eq n)], m⟩,
    ⟨[], []⟩, default⟩

theorem flippedBranch_encoded : encodeOptimization flippedBranch default {} = .ok flippedProblem := by
  cbv

/-- The theorem at `flippedBranch`: both programs reach `a` where `%c` is set, so the check of `a` passes. -/
theorem flippedBranch_reached :
    ∃ c ∈ blockChecks flippedProblem, c.concern = .block "a" ∧ ideal c.query = .unsatisfiable := by
  have huniform : ∀ env p m, AllOrNone env [(p, m)] := by
    intro env p m e he f hf
    rw [List.mem_singleton.1 he, List.mem_singleton.1 hf]
  obtain ⟨⟨c, hc, hconcern⟩, hiff⟩ := block_reached_iff ideal_answers flippedBranch_encoded (k := "a") rfl rfl
    fun env _ => ⟨huniform env _ _, huniform env _ _⟩
  refine ⟨c, hc, hconcern, (hiff c hc hconcern).2 fun env _ => ?_⟩
  have hbit : ∀ b : BitVec 1, (b != 0#1 || false) = (b ^^^ 1#1 == 0#1 || false) := by decide
  rw [holds_enter (show flippedProblem.source.entries.get? "a" = some _ from rfl),
    holds_enter (show flippedProblem.target.entries.get? "a" = some _ from rfl)]
  exact hbit (BitVec.ofInt 1 (env.bits "%c"))

end Peephole.Verify
