import Peephole.Proofs.Emit.Binding
import Peephole.Proofs.Encode.Run

/-!
# Scopes of rules

A rule declares the variables that the match of the source binds; its body defines one variable for each instruction
of the target.  Names are given to values when they are first asked for, whether or not anything declares them, so that
a rule is well scoped only if its target can be created in the order in which it is written.

* `ScopedAll` : each statement uses known words and names that statements before it have defined.
* `Matches.over` : the tests of the source use what the match binds.
* `.exprFor` : **the expression of a value uses the names of the values that it mentions.**
* `rule_wellScoped` : **if each instruction of the target mentions only parts of the source and instructions created
  before it, and the precondition mentions only parts of the source, then the rule is well scoped**, unless one of its
  tests cannot be written.

The condition cannot be left out.  The new root is created last, so that with the target `%r = add %z, 2`,
`%s = add %r, 1` the variable of `%s` is defined by an expression that uses the name of `%r` before its definition; and
a value of the source that the root does not depend on is never declared.
-/

namespace Peephole.Emit

open Program Cpp
open Elaborate (Optimization)
open Encode (argsOf argsOfAll)

variable {α β : Type} {t : Table} {g g' n : Generator} {D D' : String → Prop} {x : String} {es : List Expr} {e : Expr}
  {op : BinaryOp} {ss : List Stmt} {rule : Nat} {i j r : ValueId} {is : List ValueId}
  {C : String → Prop}

/-! ### Scopes -/

/-- All words of the expression are known. -/
def Over (D : String → Prop) (e : Expr) : Prop := ∀ w ∈ words e, D w

@[simp] theorem over_var : Over D (.var x) ↔ D x := by simp [Over, words]

@[simp] theorem over_call {fn : String} : Over D (.call fn es) ↔ ∀ e ∈ es, Over D e := by
  unfold Over
  rw [words]
  induction es with
  | nil => simp [allWords]
  | cons e es ih => simp only [allWords, List.mem_append, List.forall_mem_cons, or_imp, forall_and, ih]

@[simp] theorem over_method {arrow : Bool} {o : Expr} {name : String} :
    Over D (.method arrow o name es) ↔ Over D o ∧ ∀ e ∈ es, Over D e := by
  rw [← @over_call D es name]
  simp only [Over, words, List.mem_append, or_imp, forall_and]

@[simp] theorem over_unary {op : String} : Over D (.unary op e) ↔ Over D e := by simp [Over, words]

@[simp] theorem over_binary {a b : Expr} : Over D (.binary op a b) ↔ Over D a ∧ Over D b := by
  simp only [Over, words, List.mem_append, or_imp, forall_and]

theorem Over.mono (h : Over D e) (hD : ∀ w, D w → D' w) : Over D' e := fun w hw => hD w (h w hw)

theorem over_joined (h : Expr.joined? op es = some e) (hes : ∀ e ∈ es, Over D e) : Over D e := by
  cases es with
  | nil => cases h
  | cons a es =>
    obtain rfl := Option.some.inj h
    clear h
    rw [List.forall_mem_cons] at hes
    obtain ⟨ha, hes⟩ := hes
    induction es generalizing a with
    | nil => exact ha
    | cons b es ih =>
      obtain ⟨hb, hes⟩ := List.forall_mem_cons.1 hes
      exact ih (.binary op a b) (over_binary.2 ⟨ha, hb⟩) hes

/-- The name of the variable in a definition, behind the stars of its type. -/
def definedName? : Expr → Option String
  | .var x => some x
  | .unary _ e => definedName? e
  | .assign target _ => definedName? target
  | _ => none

/-- The words of the initial value in a definition. -/
def initialWords : Expr → List String
  | .assign _ value => words value
  | _ => []

/-- The names that a statement defines for those after it. -/
def defined : Stmt → List String
  | .define _ vars => vars.filterMap definedName?
  | _ => []

mutual

/-- The statement uses known words. -/
def Scoped (D : String → Prop) : Stmt → Prop
  | .expr e => Over D e
  | .ite cond thenBlock elseBlock => Over D cond ∧ ScopedAll D thenBlock ∧ ScopedAll D elseBlock
  | .define _ vars => ∀ e ∈ vars, ∀ w ∈ initialWords e, D w
  | .ret (some e) => Over D e
  | .ret none => True

/-- Each statement uses known words and the names that statements before it have defined. -/
def ScopedAll (D : String → Prop) : List Stmt → Prop
  | [] => True
  | s :: ss => Scoped D s ∧ ScopedAll (fun w => D w ∨ w ∈ defined s) ss

end

theorem scopedAll_append {ss' : List Stmt} :
    ScopedAll D (ss ++ ss') ↔ ScopedAll D ss ∧ ScopedAll (fun w => D w ∨ w ∈ ss.flatMap defined) ss' := by
  induction ss generalizing D with
  | nil => simp [ScopedAll]
  | cons s ss ih => simp [ScopedAll, ih, and_assoc, or_assoc]

/-- Statements that define nothing. -/
theorem scopedAll_of_forall (h : ∀ s ∈ ss, Scoped D s ∧ defined s = []) : ScopedAll D ss := by
  induction ss with
  | nil => trivial
  | cons s ss ih =>
    obtain ⟨⟨hs, hnone⟩, hss⟩ := List.forall_mem_cons.1 h
    refine ⟨hs, ?_⟩
    simp only [hnone, List.not_mem_nil, or_false]
    exact ih hss

theorem definedName?_decorate (type : CType) (x : String) : definedName? (type.decorate (.var x)) = some x := by
  induction type with
  | named => rfl
  | pointer type ih => exact ih

theorem defined_init (type : CType) (x : String) (e : Expr) : defined (.init type (.var x) e) = [x] := by
  simp [Stmt.init, defined, definedName?, definedName?_decorate]

theorem scoped_init {type : CType} : Scoped D (.init type (.var x) e) ↔ Over D e := by
  simp [Stmt.init, Scoped, initialWords, Over]

/-- Each variable is declared once. -/
theorem addToBlock_perm (type : String) (e : Expr) (ds : List (String × List Expr)) :
    ((Stmt.addToBlock type e ds).flatMap Prod.snd).Perm (e :: ds.flatMap Prod.snd) := by
  induction ds with
  | nil => simp [Stmt.addToBlock]
  | cons d ds ih =>
    rw [Stmt.addToBlock]
    split
    · simp only [List.flatMap_cons, List.append_assoc]
      exact List.perm_middle
    · exact (ih.append_left _).trans List.perm_middle

theorem exists_defineAll (vars : List (CType × String)) : ∃ ds : List (String × List Expr),
    Stmt.defineAll (vars.map fun v => (v.1, .var v.2)) = ds.map (fun d => .define (.named d.1) d.2) ∧
      (ds.flatMap Prod.snd).Perm (vars.map fun v => v.1.decorate (.var v.2)) := by
  have hall : ∀ ds, (((vars.map fun v => (v.1, Expr.var v.2)).foldl
      (fun ds v => Stmt.addToBlock v.1.underlying (v.1.decorate v.2) ds) ds).flatMap Prod.snd).Perm
        ((vars.map fun v => v.1.decorate (.var v.2)) ++ ds.flatMap Prod.snd) := by
    induction vars with
    | nil => exact fun _ => .refl _
    | cons v vars ih =>
      intro ds
      refine (ih _).trans (((addToBlock_perm _ _ ds).append_left _).trans ?_)
      exact List.perm_middle
  exact ⟨_, rfl, by simpa using hall []⟩

theorem defined_defineAll (vars : List (CType × String)) :
    ((Stmt.defineAll (vars.map fun v => (v.1, Expr.var v.2))).flatMap defined).Perm (vars.map Prod.snd) := by
  obtain ⟨ds, heq, hperm⟩ := exists_defineAll vars
  have hnames := hperm.filterMap definedName?
  rw [heq, List.flatMap_map]
  simpa [List.filterMap_flatMap, List.filterMap_map, Function.comp_def, definedName?_decorate, defined] using hnames

theorem initialWords_decorate (type : CType) (x : String) : initialWords (type.decorate (.var x)) = [] := by
  cases type <;> rfl

/-- A block of declarations uses nothing. -/
theorem scopedAll_defineAll (vars : List (CType × String)) :
    ScopedAll D (Stmt.defineAll (vars.map fun v => (v.1, Expr.var v.2))) := by
  obtain ⟨ds, heq, hperm⟩ := exists_defineAll vars
  have hblocks : ∀ d ∈ ds, ∀ e ∈ d.2, initialWords e = [] := fun d hd e he => by
    obtain ⟨v, -, rfl⟩ := List.mem_map.1 (hperm.subset (List.mem_flatMap.2 ⟨d, hd, he⟩))
    exact initialWords_decorate v.1 v.2
  rw [heq]
  clear heq hperm
  induction ds generalizing D with
  | nil => trivial
  | cons d ds ih =>
    obtain ⟨hd, hds⟩ := List.forall_mem_cons.1 hblocks
    refine ⟨fun e he w hw => ?_, ih hds⟩
    rw [hd e he] at hw
    cases hw

/-- The words that generated code can use without defining them. -/
inductive IsFixed (rule : Nat) : String → Prop
  /-- The instruction that is matched, the builder, the data layout, and what the analyses are asked for. -/
  | known {w : String} (h : w ∈ ["I", "*I", "Builder", "DL", "true", "OverflowResult::NeverOverflows"]) :
    IsFixed rule w
  | counter : IsFixed rule ("Rule" ++ toString rule)
  | predicate (c : Logic.Comparison) : IsFixed rule (predicateName c)
  | number (n : Int) : IsFixed rule (toString n)

/-- The rule uses only what it declares, what its body has defined before, and fixed words; it gives each name to one
variable. -/
structure Rule.WellScoped (rule : Nat) (rl : Rule) : Prop where
  inScope : ScopedAll (IsFixed rule) (Stmt.defineAll rl.vars ++ [.ite rl.cond rl.body []])
  distinct : ((Stmt.defineAll rl.vars ++ rl.body).flatMap defined).Nodup

/-! ### The tests of the source -/

def Known (rule : Nat) (g : Generator) (w : String) : Prop := IsFixed rule w ∨ w ∈ g.names.taken

theorem Known.mono {w : String} (h : Known rule g w) (hkeeps : g.Keeps g') : Known rule g' w :=
  h.imp_right (hkeeps.taken w)

theorem words_eq_flatMap (e : Expr) : words e = (conjuncts e).flatMap words := by
  fun_induction conjuncts e with
  | case1 a b iha ihb => rw [words, iha, ihb, List.flatMap_append]
  | case2 e => exact (List.append_nil _).symm

theorem Clause.over {bound : List ValueId} (h : Clause t g i e bound g') (hg : g.Tidy) : Over (Known rule g') e := by
  obtain ⟨y, hy, pattern, tests, hconj, huses, htests⟩ := h.opens hg
  have hliteral : ∀ w, IsLiteral w → Known rule g' w := by
    rintro w (⟨n, rfl⟩ | ⟨c, rfl⟩)
    · exact .inl (.number n)
    · exact .inl (.predicate c)
  have hold : ∀ w ∈ g.names.taken, Known rule g' w := fun w hw => .inr ((h.leaves hg).keeps.taken w hw)
  have hpattern : Over (Known rule g') pattern := by
    rw [Over, words_eq_uses, List.forall_mem_map]
    rintro (w | w) hw
    · exact (huses.reads w hw).elim (hold w) (hliteral w)
    · exact .inr ((huses.binds w).2 (.inr hw))
  rw [Over, words_eq_flatMap, hconj, List.forall_mem_flatMap, List.forall_mem_cons]
  refine ⟨over_call.2 (by simpa using ⟨hold y (hg.value_taken hy), hpattern⟩), fun x hx => ?_⟩
  obtain ⟨a, b, rfl, ha, hb⟩ := htests x hx
  exact over_binary.2 ⟨over_var.2 (.inr ha), over_var.2 (hb.elim .inr (hliteral b))⟩

/-- The tests of the source use fixed words and what is bound. -/
theorem Matches.over (rule : Nat) {todo : List ValueId} (h : Matches t g todo is es g')
    (hg : g.Tidy) : ∀ e ∈ es, Over (Known rule g') e := by
  induction h with
  | nil => exact nofun
  | @instr g g₁ g₂ g' i e bound todo is es hi hc hsame hrest ih =>
    have htidy₁ := (hc.leaves hg).tidy
    have htidy₂ := htidy₁.of_naming hsame
    have hkeeps := ((Generator.Keeps.refl g₁).of_naming hsame).trans (hrest.leaves htidy₂).keeps
    exact List.forall_mem_cons.2 ⟨(hc.over hg).mono fun w hw => hw.mono hkeeps, ih htidy₂⟩
  | other hi hsame hrest ih => exact ih (hg.of_naming hsame)

/-! ### Expressions behind the match -/

/-- The state holds the names of `n`, and its tests of types use known words. -/
def Settled (D : String → Prop) (n g : Generator) : Prop :=
  { g.naming with clauses := [] } = n ∧ ∀ e ∈ g.clauses, Over D e

theorem Settled.valueNames (h : Settled D n g) : g.valueNames = n.valueNames :=
  (congrArg Generator.valueNames h.1 :)

theorem Settled.bound (h : Settled D n g) : g.bound = n.bound := (congrArg Generator.bound h.1 :)

theorem Settled.of_naming (h : Settled D n g) (hsame : g'.naming = g.naming) : Settled D n g' := by
  have hclauses : g'.clauses = g.clauses := (congrArg Generator.clauses hsame :)
  exact ⟨hsame ▸ h.1, hclauses ▸ h.2⟩

/-- Fixed words and bound names are known; bound names are not given to other values. -/
structure Env (rule : Nat) (D : String → Prop) (n : Generator) : Prop where
  fixed : ∀ {w}, IsFixed rule w → D w
  bound : ∀ {w}, n.bound.has w = true → D w
  taken : ∀ {w}, n.bound.has w = true → w ∈ n.names.taken

/-- The value has a known name. -/
def Usable (D : String → Prop) (n : Generator) (i : ValueId) : Prop := ∃ x, n.valueNames.get? i = some x ∧ D x

/-- The values from which a constant expression is computed; of the width of a value, only the type is used. -/
def constantParts : Op → List ValueId
  | .unary _ x => [x]
  | .binary _ x y => [x, y]
  | .call .width _ => []
  | .call _ args => args
  | _ => []

/-- The expression of `i` uses the name of `j`. -/
inductive Mentions (t : Table) : ValueId → ValueId → Prop
  | self {i : ValueId} (h : ((t.get i).op.isInput || (t.get i).op.isInstr) = true) : Mentions t i i
  | part {i j k : ValueId} (hk : k ∈ constantParts (t.get i).op) (h : Mentions t k j) : Mentions t i j

section Expressions

theorem Yields.nameExpr (hi : Usable D n i) : Yields t (Settled C n) (nameExpr i) (Over D) := by
  intro g e g' hg h
  obtain ⟨x, hname, hx⟩ := hi
  rw [← hg.valueNames] at hname
  obtain ⟨rfl, rfl⟩ := runs_nameExpr_of_named hname h
  exact ⟨hg, over_var.2 hx⟩

variable (henv : Env rule D n)

include henv

/-- The type of a value is read off a value that is bound. -/
theorem Yields.typeExpr (i : ValueId) : Yields t (Settled C n) (typeExpr i) (Over D) := by
  intro g e g' hg h
  obtain ⟨r, x, hr, -, hx, rfl⟩ := runs_typeExpr h
  have hg' := hg.of_naming (representative_naming hr)
  rw [hg'.bound] at hx
  exact ⟨hg', by simpa using henv.bound hx⟩

theorem Yields.widthExpr (i : ValueId) : Yields t (Settled C n) (widthExpr i) (Over D) :=
  .bind (.typeExpr henv i) fun a ha => .pure (by simpa using ha)

theorem Yields.constantOf (i : ValueId) {number : EmitM Expr} (h : Yields t (Settled C n) number (Over D)) :
    Yields t (Settled C n) (constantOf i number) (Over D) :=
  .bind (.typeExpr henv i) fun a ha => .bind h fun b hb => .pure (by simp [ha, hb])

theorem Yields.wideOf (i : ValueId) {number : EmitM Expr} (h : Yields t (Settled C n) number (Over D)) :
    Yields t (Settled C n) (wideOf i number) (Over D) :=
  .bind (.widthExpr henv i) fun a ha => .bind h fun b hb => .pure (by simp [ha, hb])

theorem Yields.plainIn (use : Use) (i : ValueId) {number : EmitM Expr} (h : Yields t (Settled C n) number (Over D)) :
    Yields t (Settled C n) (plainIn use i number) (Over D) := by
  cases use with
  | operand => exact .constantOf henv i h
  | wide => exact .wideOf henv i h
  | number => exact h

theorem Yields.callExpr {sub : Use → ValueId → EmitM Expr} {fn : ConstFn} {args : List ValueId}
    (hsub : ∀ u, ∀ j ∈ constantParts (.call fn args), Yields t (Settled C n) (sub u j) (Over D)) :
    Yields t (Settled C n) (callExpr sub i fn args) (Over D) := by
  have hI : D "I" := henv.fixed (.known (by simp))
  unfold Emit.callExpr
  split
  all_goals first
    | exact .fail _
    | exact .widthExpr henv _
    | refine .bind (hsub _ _ (by simp [constantParts])) fun a ha => ?_
      first
        | exact .pure (by simp [onNumber, ha, hI])
        | refine .bind (hsub _ _ (by simp [constantParts])) fun b hb => ?_
          exact .pure (by simp [onNumber, ha, hb])
        | exact .bind (.widthExpr henv i) fun b hb => .pure (by simp [onNumber, ha, hb])

theorem Yields.exprWith {sub : Use → ValueId → EmitM Expr} (use : Use)
    (hself : ((t.get i).op.isInput || (t.get i).op.isInstr) = true → Usable D n i)
    (hsub : ∀ u, ∀ j ∈ constantParts (t.get i).op, Yields t (Settled C n) (sub u j) (Over D)) :
    Yields t (Settled C n) (exprWith sub use i) (Over D) := by
  unfold Emit.exprWith
  refine .bind (.valueAt i) fun v hv => ?_
  subst hv
  generalize hop : (t.get i).op = op at hself hsub
  cases op with
  | input =>
    have hname := Yields.nameExpr (t := t) (C := C) (hself rfl)
    cases use with
    | operand => exact hname
    | wide | number =>
      dsimp only
      split
      · exact .bind hname fun a ha => .pure (by simpa using ha)
      · exact .unsupported _
  | literal k => exact .plainIn henv use i (.pure (over_var.2 (henv.fixed (.number k))))
  | undefined =>
    cases use with
    | operand => exact .bind (.typeExpr henv i) fun a ha => .pure (by simpa using ha)
    | wide | number => exact .plainIn henv _ i (.unsupported _)
  | unary op x =>
    have hx := fun u => hsub u x (by simp [constantParts])
    cases use with
    | wide => exact .bind (hx _) fun a ha => .pure (by simpa using ha)
    | operand | number =>
      exact .plainIn henv _ i (.bind (hx _) fun a ha => .pure (by simpa using ha))
  | binary op x y =>
    have hnumber : Yields t (Settled C n) (do
        let a ← sub .wide x
        return binaryExpr op a (← sub (if plainSecond op then .number else .wide) y)) (Over D) := by
      refine .bind (hsub _ x (by simp [constantParts])) fun a ha => ?_
      refine .bind (hsub _ y (by simp [constantParts])) fun b hb => .pure fun w hw => ?_
      rw [words_binaryExpr, List.mem_append] at hw
      exact hw.elim (ha w) (hb w)
    cases use with
    | operand => exact .constantOf henv i hnumber
    | wide | number => exact hnumber
  | call fn args =>
    have hcall := Yields.callExpr (i := i) henv hsub
    cases use with
    | operand => exact .constantOf henv i hcall
    | number => exact hcall
    | wide =>
      refine .bind hcall fun e he => ?_
      split
      · exact .wideOf henv i (.pure he)
      · exact .pure he
  | count => exact .fail _
  | _ =>
    cases use with
    | operand => exact .nameExpr (hself rfl)
    | wide | number => exact .fail _

theorem Yields.exprFor (h : ∀ j, Mentions t i j → Usable D n j) (use : Use) :
    Yields t (Settled C n) (exprFor use i) (Over D) := by
  induction i using Nat.strongRecOn generalizing use with
  | ind i ih =>
    rw [Emit.exprFor]
    refine .exprWith henv use (fun hi => h i (.self hi)) fun u j hj => ?_
    split
    · next hlt => exact ih j hlt (fun k hk => h k (.part hj hk)) u
    · exact .fail _

theorem Yields.operands (h : ∀ i ∈ is, ∀ j, Mentions t i j → Usable D n j) :
    Yields t (Settled C n) (is.mapM operandExpr) fun es => ∀ e ∈ es, Over D e :=
  .mapM fun i hi => .exprFor henv (h i hi) _

theorem Yields.argExprs {ks : List ArgKind} (h : ∀ i ∈ is, ∀ j, Mentions t i j → Usable D n j) :
    Yields t (Settled C n) (argExprs ks is) fun es => ∀ e ∈ es, Over D e := by
  induction ks generalizing is with
  | nil => exact .pure nofun
  | cons k ks ih =>
    cases is with
    | nil => exact .pure nofun
    | cons i is =>
      obtain ⟨hi, his⟩ := List.forall_mem_cons.1 h
      refine .bind (.exprFor henv hi _) fun e he => .bind (ih his) fun es hes => ?_
      exact .pure (List.forall_mem_cons.2 ⟨he, hes⟩)

theorem Yields.testExpr {test : Test} {args : List ValueId} (h : ∀ i ∈ args, ∀ j, Mentions t i j → Usable D n j) :
    Yields t (Settled C n) (testExpr test args) (Over D) := by
  have hfixed : ∀ w ∈ ["I", "*I", "Builder", "DL", "true", "OverflowResult::NeverOverflows"], D w :=
    fun w hw => henv.fixed (.known hw)
  simp only [List.forall_mem_cons] at hfixed
  obtain ⟨hI, hI', -, hDL, htrue, hnever, -⟩ := hfixed
  have hone : ∀ use x, args = [x] → Yields t (Settled C n) (Emit.exprFor use x) (Over D) := by
    rintro use x rfl
    exact .exprFor henv (h x (List.mem_singleton_self x)) use
  have hoverflows : ∀ fn, Yields t (Settled C n) (neverOverflows fn args) (Over D) := fun fn =>
    .bind (.operands henv h) fun es hes =>
      .pure (by simpa [or_imp, forall_and, hI, hnever] using hes)
  unfold Emit.testExpr
  split
  · exact .unsupported _
  · refine .bind (.valueAt _) fun v hv => ?_
    split
    · exact .bind (hone _ _ rfl) fun a ha => .pure (by simpa [onNumber] using ha)
    · exact .bind (hone _ _ rfl) fun a ha => .pure (by simp [ha, hDL])
  · exact .bind (hone _ _ rfl) fun a ha => .pure (by simp [ha, hDL, htrue])
  · exact hoverflows _
  · exact hoverflows _
  · exact .bind (.operands henv h) fun es hes =>
      .pure (by simpa [or_imp, forall_and, hI'] using hes)
  · refine .bind (.argExprs henv h) fun es hes => ?_
    split
    all_goals exact .pure (by simpa [onNumber, or_imp, forall_and, hI'] using hes)

omit henv in
theorem runs_joinedExpr (h : Runs (joinedExpr op es) t g e g') : Expr.joined? op es = some e ∧ g' = g := by
  unfold joinedExpr at h
  split at h
  · next e' he =>
    obtain ⟨rfl, rfl⟩ := runs_pure.1 h
    exact ⟨he, rfl⟩
  · exact absurd h runs_fail

omit henv in
theorem Yields.joinedExpr (h : ∀ e ∈ es, Over D e) : Yields t (Settled C n) (joinedExpr op es) (Over D) := by
  intro g e g' hg hrun
  obtain ⟨he, rfl⟩ := runs_joinedExpr hrun
  exact ⟨hg, over_joined he h⟩

theorem Yields.compare {op : CompareOp} {x y : ValueId} (h : ∀ i ∈ [x, y], ∀ j, Mentions t i j → Usable D n j) :
    Yields t (Settled C n) (conditionExpr (.compare op x y)) (Over D) := by
  have hx := h x (by simp)
  have hy := h y (by simp)
  rw [Emit.conditionExpr]
  refine .bind (.valueAt x) fun v _ => .bind (.valueAt y) fun w _ => ?_
  split
  all_goals
    refine .bind (.exprFor henv hx _) fun a ha => .bind (.exprFor henv hy _) fun b hb => ?_
  · exact .pure (by simp [ha, hb])
  · refine .pure ?_
    cases op <;> simp [compareExpr, onNumber, ha, hb]

/-! ### Types behind the match -/

/-- Behind the match, the tests of types use what is bound. -/
theorem typeBlind_settled : TypeBlind t (Settled D n) := by
  refine ⟨fun hsame hg => hg.of_naming hsame, fun r s g u g' hg h => ?_⟩
  rw [testTypes, runs_get_bind] at h
  split at h
  · obtain ⟨a, g₁, ha, h₁⟩ := runs_bind.1 h
    obtain ⟨hg₁, hoverA⟩ := Yields.typeExpr henv r g a g₁ hg ha
    obtain ⟨b, g₂, hb, h₂⟩ := runs_bind.1 h₁
    obtain ⟨hg₂, hoverB⟩ := Yields.typeExpr henv s g₁ b g₂ hg₁ hb
    obtain rfl := runs_modify.1 h₂
    refine ⟨⟨hg₂.1, fun e he => ?_⟩, trivial⟩
    rcases List.mem_append.1 he with he | he
    · exact hg₂.2 e he
    · rw [List.mem_singleton.1 he]
      exact over_binary.2 ⟨hoverA, hoverB⟩
  · obtain ⟨-, rfl⟩ := runs_pure.1 h
    exact ⟨hg, trivial⟩

/-- The words, and the one that stands for a test which cannot be written. -/
def orPlaceholder (D : String → Prop) (w : String) : Prop := D w ∨ w = "<int-or-ptr>"

omit henv in
theorem over_checks {required guaranteed : Ty} (henv : ∀ {w}, IsFixed rule w → D w)
    (he : Over D e) (h : checks e required guaranteed = .ok es) : ∀ e ∈ es, Over (orPlaceholder D) e := by
  have hnumber : ∀ w : Nat, D w.repr := fun w => henv (.number w)
  have he : Over (orPlaceholder D) e := he.mono fun _ => .inl
  unfold checks at h
  split at h
  all_goals cases h
  all_goals first
    | simp [he, hnumber, orPlaceholder]; done
    | split_ifs <;> simp [orPlaceholder]

theorem Yields.typeTests : Yields t (Settled C n) typeTests fun es => ∀ e ∈ es, Over (orPlaceholder D) e := by
  refine .get fun g _ => .bind (.mapM (P := fun es => ∀ e ∈ es, Over (orPlaceholder D) e)
    fun entry _ => ?_) fun tests htests => .pure fun e he => ?_
  · refine .get fun g _ => ?_
    split
    · refine .bind (.typeExpr henv _) fun e he => .get fun g _ => ?_
      split
      · exact .outcome fun es hes => over_checks henv.fixed he hes
      · exact .fail _
    · exact .pure nofun
  · obtain ⟨es, hes, he⟩ := List.mem_flatten.1 he
    exact htests es hes e he

end Expressions

/-! ### Preconditions -/

mutual

/-- The test of a precondition uses the names of the values that it mentions. -/
theorem Yields.conditionExpr (henv : Env rule D n) (c : Condition)
    (h : ∀ i ∈ argsOf c, ∀ j, Mentions t i j → Usable D n j) :
    Yields t (Settled C n) (conditionExpr c) (Over D) := by
  cases c with
  | always =>
    rw [Emit.conditionExpr]
    exact .pure (over_var.2 (henv.fixed (.known (by simp))))
  | not c =>
    rw [argsOf] at h
    rw [Emit.conditionExpr]
    exact .bind (.conditionExpr henv c h) fun a ha => .pure (over_unary.2 ha)
  | both cs | either cs =>
    rw [argsOf] at h
    rw [Emit.conditionExpr]
    exact .bind (.conditionExprs henv cs h) fun es hes => .joinedExpr hes
  | compare op x y =>
    rw [argsOf] at h
    exact .compare henv h
  | test test args =>
    rw [argsOf] at h
    rw [Emit.conditionExpr]
    exact .testExpr henv h

theorem Yields.conditionExprs (henv : Env rule D n) (cs : List Condition)
    (h : ∀ i ∈ argsOfAll cs, ∀ j, Mentions t i j → Usable D n j) :
    Yields t (Settled C n) (conditionExprs cs) fun es => ∀ e ∈ es, Over D e := by
  cases cs with
  | nil =>
    rw [Emit.conditionExprs]
    exact .pure nofun
  | cons c cs =>
    simp only [argsOfAll, List.mem_append, or_imp, forall_and] at h
    rw [Emit.conditionExprs]
    refine .bind (.conditionExpr henv c h.1) fun e he => ?_
    refine .bind (.conditionExprs henv cs h.2) fun es hes => ?_
    exact .pure (List.forall_mem_cons.2 ⟨he, hes⟩)

end

mutual

theorem Yields.registerCondition {I : Generator → Prop} (hI : TypeBlind t I) (c : Condition) :
    Maintains t I (registerCondition c) := by
  cases c with
  | always =>
    rw [Emit.registerCondition]
    exact .pure trivial
  | not c =>
    rw [Emit.registerCondition]
    exact .registerCondition hI c
  | both cs | either cs =>
    rw [Emit.registerCondition]
    exact .registerConditions hI cs
  | compare op x y =>
    rw [Emit.registerCondition]
    refine .bind (.register hI x) fun _ _ => .bind (.register hI y) fun _ _ => ?_
    exact .unify hI _
  | test test args =>
    unfold Emit.registerCondition
    refine .bind (.forM fun i _ => .register hI i) fun _ _ => ?_
    split
    all_goals first | exact .unify hI _ | exact .pure trivial

theorem Yields.registerConditions {I : Generator → Prop} (hI : TypeBlind t I) (cs : List Condition) :
    Maintains t I (registerConditions cs) := by
  cases cs with
  | nil =>
    rw [Emit.registerConditions]
    exact .pure trivial
  | cons c cs =>
    rw [Emit.registerConditions]
    exact .bind (.registerCondition hI c) fun _ _ => .registerConditions hI cs

end

/-! ### The instructions of the target -/

/-- The value `i` is called `x`; if it had no name in `n`, it has a fresh one in `n'`. -/
inductive Calls (t : Table) (n : Generator) (i : ValueId) : String → Generator → Prop
  | old {x : String} (h : n.valueNames.get? i = some x) : Calls t n i x n
  | new (h : n.valueNames.get? i = none) :
    Calls t n i (n.nameFor (t.get i).name)
      { n with names := (n.names.choose (t.get i).name).2, valueNames := n.valueNames.put i (n.nameFor (t.get i).name) }

theorem Calls.get?_self {n' : Generator} (h : Calls t n i x n') : n'.valueNames.get? i = some x := by
  cases h with
  | old h => exact h
  | new h => exact Slots.get?_put_self _ _ _

theorem calls_of_runs (hg : Settled C n g) (h : Runs (nameExpr i) t g e g') :
    ∃ x n', Calls t n i x n' ∧ Settled C n' g' ∧ e = .var x := by
  obtain ⟨rfl, hclauses⟩ := hg
  cases hname : g.valueNames.get? i with
  | some x =>
    obtain ⟨rfl, rfl⟩ := runs_nameExpr_of_named hname h
    exact ⟨x, _, .old hname, ⟨rfl, hclauses⟩, rfl⟩
  | none =>
    obtain ⟨x, g₁, hx, h₁⟩ := runs_bind.1 h
    obtain ⟨rfl, rfl⟩ := runs_nameOf_of_unnamed hname hx
    obtain ⟨rfl, rfl⟩ := runs_pure.1 h₁
    exact ⟨_, _, .new hname, ⟨rfl, hclauses⟩, rfl⟩

/-- The statements use known words and define one variable, that of the value `i`. -/
def Creates (t : Table) (C D : String → Prop) (n : Generator) (i : ValueId) (ss : List Stmt) (g' : Generator) : Prop :=
  ∃ x n', Calls t n i x n' ∧ Settled C n' g' ∧ ScopedAll D ss ∧ ss.flatMap defined = [x]

/-- The results of the computation create the value `i`. -/
def Makes (t : Table) (C D : String → Prop) (n : Generator) (i : ValueId) (x : EmitM (List Stmt)) : Prop :=
  ∀ g ss g', Settled C n g → Runs x t g ss g' → Creates t C D n i ss g'

theorem makes_bind {x : EmitM α} {f : α → EmitM (List Stmt)} {P : α → Prop}
    (hx : Yields t (Settled C n) x P) (hf : ∀ a, P a → Makes t C D n i (f a)) : Makes t C D n i (x >>= f) := by
  intro g ss g' hg h
  obtain ⟨a, g₁, h₁, h₂⟩ := runs_bind.1 h
  obtain ⟨hg₁, ha⟩ := hx g a g₁ hg h₁
  exact hf a ha g₁ ss g' hg₁ h₂

theorem makes_fail (f : Fault) : Makes t C D n i (fail f) := fun _ _ _ _ h => absurd h runs_fail

theorem makes_definition {cls : String} (he : Over D e) : Makes t C D n i (do return [← definition cls i e]) := by
  intro g ss g' hg h
  obtain ⟨s, hs, rfl⟩ := runs_bind_pure.1 h
  obtain ⟨a, ha, rfl⟩ := runs_bind_pure.1 hs
  obtain ⟨x, n', hcalls, hg', rfl⟩ := calls_of_runs hg ha
  exact ⟨x, n', hcalls, hg', ⟨scoped_init.2 he, trivial⟩, by simp [defined_init]⟩

/-- Flags are set by calls of methods of the new variable. -/
theorem makes_withFlags {cls : String} {flags : List Flag} (htrue : D "true") (he : Over D e) : Makes t C D n i (do
      let first ← definition cls i e
      let setters ← flags.mapM fun f =>
        return Stmt.expr (.method true (← nameExpr i) (flagSetter f) [.var "true"])
      return first :: setters) := by
  intro g ss g' hg h
  obtain ⟨s, g₁, hs, h₁⟩ := runs_bind.1 h
  obtain ⟨a, ha, rfl⟩ := runs_bind_pure.1 hs
  obtain ⟨x, n', hcalls, hg₂, rfl⟩ := calls_of_runs hg ha
  obtain ⟨setters, hsetters, rfl⟩ := runs_bind_pure.1 h₁
  have hyields : Yields t (Settled C n') (flags.mapM fun f =>
      return Stmt.expr (.method true (← nameExpr i) (flagSetter f) [.var "true"]))
      fun ss => ∀ s ∈ ss, Scoped (fun w => D w ∨ w ∈ [x]) s ∧ defined s = [] := by
    refine .mapM fun f _ => ?_
    refine .bind (.nameExpr (D := fun w => D w ∨ w ∈ [x]) ⟨x, hcalls.get?_self, by simp⟩) fun a ha => ?_
    exact .pure ⟨over_method.2 ⟨ha, by simp [htrue]⟩, rfl⟩
  obtain ⟨hg₃, hall⟩ := hyields _ setters _ hg₂ hsetters
  refine ⟨x, n', hcalls, hg₃, ⟨scoped_init.2 he, ?_⟩, ?_⟩
  · rw [defined_init]
    exact scopedAll_of_forall hall
  · rw [List.flatMap_cons, defined_init, List.flatMap_eq_nil_iff.2 fun s hs => (hall s hs).2]
    rfl

/-- An unknown predicate that the target uses was bound by the match. -/
theorem makes_predicate (henv : Env rule D n) {key : String} {f : String → EmitM (List Stmt)}
    (hf : ∀ p, D p → Makes t C D n i (f p)) : Makes t C D n i (do
      let p ← keyName key
      ensure (← isBoundName p)
      f p) := by
  intro g ss g' hg h
  obtain ⟨p, g₁, hp, h₁⟩ := runs_bind.1 h
  obtain ⟨b, g₂, hb, h₂⟩ := runs_bind.1 h₁
  obtain ⟨rfl, rfl⟩ := runs_isBoundName.1 hb
  obtain ⟨hyes, h₃⟩ := runs_ensure_bind.1 h₂
  cases hkey : g.keyNames.get? key with
  | some q =>
    obtain ⟨rfl, rfl⟩ := runs_keyName_of_named hp hkey
    rw [hg.bound] at hyes
    exact hf p (henv.bound hyes) g₂ ss g' hg h₃
  | none =>
    obtain ⟨rfl, rfl⟩ := runs_keyName_of_unnamed hp hkey
    have hnames : g.names = n.names := (congrArg Generator.names hg.1 :)
    refine absurd (henv.taken (w := g.nameFor key) ?_) (hnames ▸ g.nameFor_fresh key)
    rw [← hg.bound]
    exact hyes

theorem over_inserted {isRoot : Bool} (hbuilder : D "Builder") (he : Over D e) : Over D (inserted isRoot e) := by
  unfold inserted
  split <;> simp [he, hbuilder]

/-- The statements of an instruction use the names of the values that its operands mention. -/
theorem makes_construct (henv : Env rule D n) {isRoot : Bool}
    (h : ∀ k ∈ (t.get i).op.operands, ∀ j, Mentions t k j → Usable D n j) : Makes t C D n i (construct isRoot i) := by
  have hbuilder : D "Builder" := henv.fixed (.known (by simp))
  have htrue : D "true" := henv.fixed (.known (by simp))
  have hexpr : ∀ k ∈ (t.get i).op.operands, Yields t (Settled C n) (operandExpr k) (Over D) :=
    fun k hk => .exprFor henv (h k hk) _
  unfold construct
  refine makes_bind (.valueAt i) fun v hv => ?_
  subst hv
  generalize (t.get i).op = op at hexpr
  cases op with
  | copy x =>
    refine makes_bind (hexpr x (by simp [Op.operands])) fun a ha => ?_
    exact makes_bind (.valueAt x) fun _ _ => makes_definition ha
  | arith op x y flags =>
    refine makes_bind (hexpr x (by simp [Op.operands])) fun a ha => ?_
    refine makes_bind (hexpr y (by simp [Op.operands])) fun b hb => ?_
    exact makes_withFlags htrue (over_inserted hbuilder (by simp [ha, hb]))
  | convert op source x =>
    dsimp only
    split
    · intro g ss g' hg hrun
      obtain ⟨u, g₁, hu, h₁⟩ := runs_bind.1 hrun
      obtain ⟨-, rfl⟩ := runs_ensure.1 hu
      refine makes_bind (hexpr x (by simp [Op.operands])) (fun a ha => ?_) g₁ ss g' hg h₁
      refine makes_bind (.typeExpr henv i) fun b hb => ?_
      exact makes_definition (by simp [ha, hb, hbuilder])
    · refine makes_bind (hexpr x (by simp [Op.operands])) fun a ha => ?_
      refine makes_bind (.typeExpr henv i) fun b hb => ?_
      exact makes_definition (over_inserted hbuilder (by simp [ha, hb]))
  | icmp pred operand x y =>
    have hrest : ∀ p, D p → Makes t C D n i (do
        let a ← operandExpr x
        let b ← operandExpr y
        return [← definition "Instruction" i (inserted isRoot (.call "new ICmpInst" [.var p, a, b]))]) := by
      intro p hp
      refine makes_bind (hexpr x (by simp [Op.operands])) fun a ha => ?_
      refine makes_bind (hexpr y (by simp [Op.operands])) fun b hb => ?_
      exact makes_definition (over_inserted hbuilder (by simp [ha, hb, hp]))
    cases pred with
    | any name => exact makes_predicate henv hrest
    | known c => exact hrest _ (henv.fixed (.predicate c))
  | select c x y =>
    refine makes_bind (hexpr c (by simp [Op.operands])) fun p hp => ?_
    refine makes_bind (hexpr x (by simp [Op.operands])) fun a ha => ?_
    refine makes_bind (hexpr y (by simp [Op.operands])) fun b hb => ?_
    exact makes_definition (over_inserted hbuilder (by simp [ha, hb, hp]))
  | _ => exact makes_fail _

theorem isInstr_of_construct {isRoot : Bool} (h : Runs (construct isRoot i) t g ss g') :
    (t.get i).op.isInstr = true := by
  have h₁ := runs_valueAt_bind.1 h
  split at h₁
  all_goals first
    | exact absurd h₁ runs_fail
    | next hop => rw [hop]; rfl

/-! ### The body -/

/-- The names that a rule declares: those that are bound, except for `I`. -/
def declaredNames (n : Generator) : List String := (n.bound.filter fun e => e.1 != "I").map Prod.fst

/-- The words that are known when the declared names and `ds` are defined. -/
def Visible (rule : Nat) (n : Generator) (ds : List String) (w : String) : Prop :=
  (IsFixed rule w ∨ n.bound.has w = true) ∨ w ∈ ds

/-- What the match leaves behind: the parts of the source have names, which are bound. -/
structure Matched (t : Table) (r : ValueId) (n : Generator) : Prop where
  root : n.valueNames.get? r = some "I"
  value_bound : ∀ i x, n.valueNames.get? i = some x → n.bound.has x = true
  named : ∀ i, Reachable t r i → ((t.get i).op.isInput || (t.get i).op.isInstr) = true →
    ∃ x, n.valueNames.get? i = some x
  reachable : ∀ i x, n.valueNames.get? i = some x → Reachable t r i
  taken : ∀ x, n.bound.has x = true → x ∈ n.names.taken
  nodup : n.bound.keys.Nodup

/-- After a match with the names of `n₀`, the body has created the values `done`; their variables are `ds`. -/
structure Made (n₀ : Generator) (r : ValueId) (done : List ValueId) (ds : List String) (n : Generator) : Prop where
  bound : n.bound = n₀.bound
  keeps : ∀ i x, n₀.valueNames.get? i = some x → n.valueNames.get? i = some x
  named : ∀ i ∈ done, ∃ x ∈ ds, n.valueNames.get? i = some x
  since : ∀ i x, n.valueNames.get? i = some x → n₀.valueNames.get? i = some x ∨ i ∈ done
  taken : ∀ x, n₀.bound.has x = true ∨ x ∈ ds → x ∈ n.names.taken
  distinct : (declaredNames n₀ ++ ds).Nodup
  /-- A variable in the place of `I` is that of the root. -/
  root : "I" ∈ ds → r ∈ done

/-- Each value is created once, and mentions only parts of the source and values created before it. -/
def Orderly (t : Table) (r : ValueId) : List ValueId → List ValueId → Prop
  | _, [] => True
  | done, i :: is => (i ∉ done ∧ (Reachable t r i → i = r) ∧
      ∀ k ∈ (t.get i).op.operands, ∀ j, Mentions t k j → Reachable t r j ∨ j ∈ done) ∧ Orderly t r (i :: done) is

section Body

variable {n₀ n' : Generator} {r i : ValueId} {done : List ValueId} {ds : List String} {x : String}

theorem mem_declaredNames {w : String} : w ∈ declaredNames n ↔ n.bound.has w = true ∧ w ≠ "I" := by
  simp only [declaredNames, Dict.has, List.mem_map, List.mem_filter, List.any_eq_true, beq_iff_eq, bne_iff_ne]
  constructor
  · rintro ⟨e, ⟨he, hne⟩, rfl⟩
    exact ⟨⟨e, he, rfl⟩, hne⟩
  · rintro ⟨⟨e, he, rfl⟩, hne⟩
    exact ⟨e, ⟨he, hne⟩, rfl⟩

theorem Matched.made (h : Matched t r n) : Made n r [] [] n := by
  refine ⟨rfl, fun _ _ hx => hx, nofun, fun _ _ hx => .inl hx, ?_, ?_,
    nofun⟩
  · simpa using h.taken
  · rw [List.append_nil, declaredNames]
    exact h.nodup.sublist (List.filter_sublist.map _)

theorem Calls.keeps (h : Calls t n i x n') {y : String} (hy : n.valueNames.get? j = some y) :
    n'.valueNames.get? j = some y := by
  cases h with
  | old h => exact hy
  | new h => exact Slots.get?_put_of_none h hy _

theorem Calls.env (h : Calls t n i x n') (henv : Env rule D n) : Env rule D n' := by
  cases h with
  | old h => exact henv
  | new h => exact ⟨henv.fixed, henv.bound, fun hw => Names.mem_taken_choose.2 (.inl (henv.taken hw))⟩

/-- One more value is created. -/
theorem Made.step (hm : Made n₀ r done ds n) (hn₀ : Matched t r n₀) (hnew : i ∉ done)
    (hreach : Reachable t r i → i = r) (h : Calls t n i x n') : Made n₀ r (i :: done) (ds ++ [x]) n' := by
  have hI := hn₀.value_bound r "I" hn₀.root
  have hname := h.get?_self
  -- The variable is `I` itself, or it is fresh.
  have hx : (i = r ∧ x = "I" ∧ n' = n) ∨
      (x ∉ n.names.taken ∧ ∀ j, j ≠ i → n'.valueNames.get? j = n.valueNames.get? j) := by
    cases h with
    | old h =>
      refine .inl ?_
      have hold := (hm.since i x h).resolve_right hnew
      obtain rfl := hreach (hn₀.reachable i x hold)
      exact ⟨rfl, Option.some.inj (hold.symm.trans hn₀.root), rfl⟩
    | new h => exact .inr ⟨n.nameFor_fresh _, fun j hj => Slots.get?_put_of_ne _ hj _⟩
  have hmem : ∀ y, y ∈ n.names.taken ∨ y = x → y ∈ n'.names.taken := by
    cases h with
    | old h =>
      obtain ⟨-, rfl, -⟩ | ⟨hfresh, -⟩ := hx
      · rintro y (hy | rfl)
        · exact hy
        · exact hm.taken _ (.inl hI)
      · exact absurd (hm.taken x (.inl (hn₀.value_bound i x ((hm.since i x h).resolve_right hnew)))) hfresh
    | new h => exact fun y hy => Names.mem_taken_choose.2 hy
  have hnotIn : x ∉ declaredNames n₀ ++ ds := by
    intro hmem
    rcases List.mem_append.1 hmem with hd | hd
    · obtain ⟨hbound, hne⟩ := mem_declaredNames.1 hd
      obtain ⟨-, rfl, -⟩ | ⟨hfresh, -⟩ := hx
      · exact hne rfl
      · exact hfresh (hm.taken x (.inl hbound))
    · obtain ⟨rfl, rfl, -⟩ | ⟨hfresh, -⟩ := hx
      · exact hnew (hm.root hd)
      · exact hfresh (hm.taken x (.inr hd))
  refine ⟨?_, fun j y hy => h.keeps (hm.keeps j y hy), fun j hj => ?_, fun j y hy => ?_, fun y hy => ?_, ?_,
    fun hd => ?_⟩
  · cases h with
    | old | new => exact hm.bound
  · rcases List.mem_cons.1 hj with rfl | hj
    · exact ⟨x, List.mem_append_right _ (List.mem_singleton_self x), hname⟩
    · obtain ⟨y, hy, hget⟩ := hm.named j hj
      exact ⟨y, List.mem_append_left _ hy, h.keeps hget⟩
  · by_cases hji : j = i
    · exact .inr (hji ▸ List.mem_cons_self)
    · have hget : n.valueNames.get? j = some y := by
        obtain ⟨-, -, rfl⟩ | ⟨-, hother⟩ := hx
        · exact hy
        · rwa [hother j hji] at hy
      exact (hm.since j y hget).imp_right (List.mem_cons_of_mem i)
  · rcases hy with hy | hy
    · exact hmem y (.inl (hm.taken y (.inl hy)))
    · refine hmem y ((List.mem_append.1 hy).imp (fun hy => hm.taken y (.inr hy)) List.mem_singleton.1)
  · rw [← List.append_assoc]
    exact List.nodup_append.2 ⟨hm.distinct, List.nodup_singleton x, fun y hy z hz hyz =>
      hnotIn (List.mem_singleton.1 hz ▸ hyz ▸ hy)⟩
  · rcases List.mem_append.1 hd with hd | hd
    · exact List.mem_cons_of_mem _ (hm.root hd)
    · obtain ⟨rfl, -, -⟩ | ⟨hfresh, -⟩ := hx
      · exact List.mem_cons_self
      · exact absurd (hm.taken _ (.inl hI)) (List.mem_singleton.1 hd ▸ hfresh)

theorem Made.env (hm : Made n₀ r done ds n) : Env rule (Visible rule n₀ ds) n where
  fixed h := .inl (.inl h)
  bound h := .inl (.inr (hm.bound ▸ h))
  taken h := hm.taken _ (.inl (hm.bound ▸ h))

theorem Mentions.isNamed (h : Mentions t i j) : ((t.get j).op.isInput || (t.get j).op.isInstr) = true := by
  induction h with
  | self h => exact h
  | part _ _ ih => exact ih

theorem Made.usable (rule : Nat) (hm : Made n₀ r done ds n) (hn₀ : Matched t r n₀) {k : ValueId} (hj : Mentions t k j)
    (h : Reachable t r j ∨ j ∈ done) : Usable (Visible rule n₀ ds) n j := by
  rcases h with h | h
  · obtain ⟨y, hy⟩ := hn₀.named j h hj.isNamed
    exact ⟨y, hm.keeps j y hy, .inl (.inr (hn₀.value_bound j y hy))⟩
  · obtain ⟨y, hy, hget⟩ := hm.named j h
    exact ⟨y, hget, .inr hy⟩

/-- What one instruction of the target adds. -/
theorem Made.create (hm : Made n₀ r done ds n) (hn₀ : Matched t r n₀) (hnew : i ∉ done)
    (hreach : Reachable t r i → i = r) (h : Creates t C (Visible rule n₀ ds) n i ss g') :
    ∃ x n', Made n₀ r (i :: done) (ds ++ [x]) n' ∧ Settled C n' g' ∧ ScopedAll (Visible rule n₀ ds) ss ∧
      ss.flatMap defined = [x] := by
  obtain ⟨x, n', hcalls, hg', hscoped, hdefined⟩ := h
  exact ⟨x, n', hm.step hn₀ hnew hreach hcalls, hg', hscoped, hdefined⟩

theorem scopedAll_visible_append {ss' : List Stmt} (h : ScopedAll (Visible rule n ds) ss)
    (h' : ScopedAll (Visible rule n (ds ++ ss.flatMap defined)) ss') : ScopedAll (Visible rule n ds) (ss ++ ss') := by
  refine scopedAll_append.2 ⟨h, ?_⟩
  have hsame : (fun w => Visible rule n ds w ∨ w ∈ ss.flatMap defined) = Visible rule n (ds ++ ss.flatMap defined) := by
    funext w
    simp only [Visible, List.mem_append, or_assoc]
  rw [hsame]
  exact h'

/-- The instructions that the body creates before the new root `n`. -/
def isCreated (t : Table) (n i : ValueId) : Bool := (t.get i).op.isInstr && i ≠ n

theorem made_of_runs (rule : Nat) {newRoot : ValueId} {added rest : List ValueId} {sss : List (List Stmt)}
    (hn₀ : Matched t r n₀) (hm : Made n₀ r done ds n) (hg : Settled C n g)
    (horder : Orderly t r done (added.filter (isCreated t newRoot) ++ rest))
    (h : Runs (added.mapM fun i => do
      if (← valueAt i).op.isInstr && i ≠ newRoot then construct false i else return []) t g sss g') :
    ∃ done' n', Orderly t r done' rest ∧ Made n₀ r done' (ds ++ sss.flatten.flatMap defined) n' ∧ Settled C n' g' ∧
      ScopedAll (Visible rule n₀ ds) sss.flatten := by
  induction added generalizing done ds n g sss with
  | nil =>
    rw [List.mapM_nil] at h
    obtain ⟨rfl, rfl⟩ := runs_pure.1 h
    exact ⟨done, n, horder, by simpa using hm, hg, trivial⟩
  | cons i added ih =>
    rw [List.mapM_cons] at h
    obtain ⟨ss, g₁, hss, h₁⟩ := runs_bind.1 h
    obtain ⟨sss', hrest, rfl⟩ := runs_bind_pure.1 h₁
    obtain ⟨v, g₃, hv, hif⟩ := runs_bind.1 hss
    obtain ⟨rfl, rfl⟩ := runs_valueAt.1 hv
    have hif : Runs (if isCreated t newRoot i = true then construct false i else pure []) t g₃ ss g₁ := hif
    by_cases hi : isCreated t newRoot i = true
    · rw [if_pos hi] at hif
      rw [List.filter_cons_of_pos hi, List.cons_append] at horder
      obtain ⟨⟨hnew, hreach, hops⟩, horder⟩ := horder
      have hmakes : Makes t C (Visible rule n₀ ds) n i (construct false i) :=
        makes_construct hm.env fun k hk j hj => hm.usable rule hn₀ hj (hops k hk j hj)
      obtain ⟨x, n₁, hm₁, hg₁, hscoped, hdefined⟩ := hm.create hn₀ hnew hreach (hmakes g₃ ss g₁ hg hif)
      obtain ⟨done', n', horder', hm', hg', hscoped'⟩ := ih hm₁ hg₁ horder hrest
      refine ⟨done', n', horder', ?_, hg', ?_⟩
      · rw [List.flatten_cons, List.flatMap_append, hdefined, ← List.append_assoc]
        exact hm'
      · rw [List.flatten_cons]
        exact scopedAll_visible_append hscoped (hdefined ▸ hscoped')
    · rw [if_neg hi] at hif
      obtain ⟨rfl, rfl⟩ := runs_pure.1 hif
      rw [List.filter_cons_of_neg hi] at horder
      exact (ih hm hg horder hrest :)

/-- A new root that is a copy replaces the root of the source. -/
theorem makes_replacement {x : ValueId} (henv : Env rule D n) (hx : ∀ j, Mentions t x j → Usable D n j) :
    Makes t C D n i (do
      let target ← nameExpr i
      let e ← operandExpr x
      return [Stmt.init (pointerTo "Instruction") target (.call "replaceInstUsesWith" [.var "*I", e])]) := by
  intro g ss g' hg h
  obtain ⟨target, g₁, htarget, h₁⟩ := runs_bind.1 h
  obtain ⟨y, n', hcalls, hg₁, rfl⟩ := calls_of_runs hg htarget
  obtain ⟨e, he, rfl⟩ := runs_bind_pure.1 h₁
  have husable : ∀ j, Mentions t x j → Usable D n' j := fun j hj => by
    obtain ⟨z, hz, hD⟩ := hx j hj
    exact ⟨z, hcalls.keeps hz, hD⟩
  obtain ⟨hg', hover⟩ := Yields.exprFor (hcalls.env henv) husable .operand g₁ e _ hg₁ he
  have hI : D "*I" := henv.fixed (.known (by simp))
  exact ⟨y, n', hcalls, hg', ⟨scoped_init.2 (by simp [hI, hover]), trivial⟩, by simp [defined_init]⟩

theorem eq_of_mentions_instr (hi : (t.get i).op.isInstr = true) (h : Mentions t i j) : j = i := by
  cases h with
  | self => rfl
  | part hk =>
    cases hop : (t.get i).op <;> simp_all [Op.isInstr, constantParts]

/-- The body uses what the rule declares and what it has defined before. -/
theorem scopedAll_ruleBody {settings : Settings} {added : List ValueId} {newRoot : ValueId} {body : List Stmt}
    (hn₀ : Matched t r n₀) (hg : Settled C n₀ g)
    (horder : Orderly t r [] (added.filter (isCreated t newRoot) ++ [newRoot]))
    (h : Runs (ruleBody settings rule added newRoot) t g body g') :
    ScopedAll (Visible rule n₀ []) body ∧ (declaredNames n₀ ++ body.flatMap defined).Nodup ∧ g'.bound = n₀.bound := by
  obtain ⟨sss, g₁, hsss, h₁⟩ := runs_bind.1 h
  have h₂ := runs_valueAt_bind.1 h₁
  extract_lets finish at h₂
  obtain ⟨done, n, ⟨⟨hnew, hreach, hops⟩, -⟩, hm, hg₁, hothers⟩ := made_of_runs rule hn₀ hn₀.made hg horder hsss
  have husable := fun k hk j hj => hm.usable rule hn₀ hj (hops k hk j hj)
  -- Both forms of the new root end with its return.
  have hfinish : ∀ last g₃, (t.get newRoot).op.isInstr = true →
      Creates t C (Visible rule n₀ ([] ++ sss.flatten.flatMap defined)) n newRoot last g₃ →
      Runs (finish last) t g₃ body g' → ScopedAll (Visible rule n₀ []) body ∧
        (declaredNames n₀ ++ body.flatMap defined).Nodup ∧ g'.bound = n₀.bound := by
    intro last g₃ hinstr hcreates h₃
    obtain ⟨x, n', hm', hg₃, hlast, hdefined⟩ := hm.create hn₀ hnew hreach hcreates
    obtain ⟨e, he, rfl⟩ := runs_bind_pure.1 h₃
    have hroot : ∀ j, Mentions t newRoot j → Usable (Visible rule n₀ ([] ++ sss.flatten.flatMap defined ++ [x])) n' j :=
      fun j hj => hm'.usable rule hn₀ hj (.inr (eq_of_mentions_instr hinstr hj ▸ List.mem_cons_self))
    obtain ⟨hg', hover⟩ := Yields.exprFor hm'.env hroot .operand g₃ e _ hg₃ he
    have hcounter : Visible rule n₀ [] ("Rule" ++ toString rule) := .inl (.inl .counter)
    have hcount : ScopedAll (Visible rule n₀ [])
        (if settings.stats = true then [Stmt.expr (Expr.unary "++" (counter rule))] else []) ∧
        (if settings.stats = true then [Stmt.expr (Expr.unary "++" (counter rule))] else []).flatMap defined = [] := by
      split
      · exact ⟨⟨over_unary.2 (over_var.2 hcounter), trivial⟩, rfl⟩
      · exact ⟨trivial, rfl⟩
    refine ⟨?_, ?_, hg'.bound.trans hm'.bound⟩
    · simp only [List.append_assoc]
      refine scopedAll_visible_append hcount.1 ?_
      rw [hcount.2]
      refine scopedAll_visible_append hothers (scopedAll_visible_append hlast ?_)
      rw [hdefined]
      exact ⟨hover, trivial⟩
    · have hdistinct := hm'.distinct
      simpa [hcount.2, hdefined, defined] using hdistinct
  split at h₂
  · next x hop =>
    obtain ⟨target, g₃, htarget, h₃⟩ := runs_bind.1 h₂
    obtain ⟨e, g₄, he, h₄⟩ := runs_bind.1 h₃
    obtain ⟨last, g₅, hlast, h₅⟩ := runs_bind.1 h₄
    refine hfinish last g₅ (by rw [hop]; rfl) ?_ h₅
    refine makes_replacement hm.env (husable x (by simp [hop, Op.operands])) _ last g₅ hg₁ ?_
    exact runs_bind.2 ⟨target, g₃, htarget, runs_bind.2 ⟨e, g₄, he, hlast⟩⟩
  · obtain ⟨last, g₃, hlast, h₃⟩ := runs_bind.1 h₂
    exact hfinish last g₃ (isInstr_of_construct hlast) (makes_construct hm.env husable _ last g₃ hg₁ hlast) h₃

end Body

/-! ### Rules -/

/-- What the match of the source leaves behind. -/
theorem matched_of_runs (rule : Nat) {o : Optimization} {found : List Expr}
    (h : Runs (matchSource o) o.table .start (r, found) g) :
    g.clauses = [] ∧ Matched o.table r { g.naming with inSource := false } ∧
      ∀ e ∈ found, Over (Visible rule { g.naming with inSource := false } []) e := by
  obtain ⟨hr, is, hmatches, ⟨-, hnamed⟩, -⟩ := exists_matches h
  have htidy := tidy_rooted o.table r
  have hleaves := hmatches.leaves htidy
  have hroot : g.valueNames.get? r = some "I" := hleaves.keeps.value r "I" (get?_rooted.2 ⟨rfl, rfl⟩)
  refine ⟨hleaves.tidy.no_clauses, ⟨hroot, hleaves.tidy.value_bound, fun i hi hkind => ?_, hnamed,
    fun x => (hleaves.tidy.bound_iff_taken x).1, hleaves.tidy.bound_nodup⟩,
    fun e he => (hmatches.over rule htidy e he).mono fun w hw => ?_⟩
  · cases hi with
    | root => exact ⟨"I", hroot⟩
    | @operand j _ hj hmem =>
      obtain ⟨hop, hall⟩ := hmatches.isOperand_of_reachable hr hj
      refine hleaves.operands j (hall (hop.isInstr hmem)) i hmem fun n hn => ?_
      rw [hn] at hkind
      cases hkind
  · exact .inl (hw.imp_right (hleaves.tidy.bound_iff_taken w).2)

/-- The target of an optimization can be created where its source is found: in the order of the body, each instruction
mentions only parts of the source and instructions created before it, and the precondition mentions only parts of the
source.  Here `r` is the root of the source and `n` that of the target. -/
structure Creatable (o : Optimization) (r n : ValueId) : Prop where
  root : root o = .ok r
  newRoot : o.targetNames.get? (o.table.name r) = some n
  pre : ∀ i ∈ argsOf o.pre, ∀ j, Mentions o.table i j → Reachable o.table r j
  body : Orderly o.table r [] ((addedValues o).filter (isCreated o.table n) ++ [n])

/-- A rule is well scoped if its condition and its body are where the names of the match are declared. -/
theorem wellScoped_of_parts {name : String} {cond : Expr} {body : List Stmt}
    (hcond : Over (Visible rule n []) cond) (hbody : ScopedAll (Visible rule n []) body)
    (hdistinct : (declaredNames n ++ body.flatMap defined).Nodup) :
    Rule.WellScoped rule ⟨name, (n.bound.filter fun e => e.1 != "I").map fun e => (e.2, .var e.1), cond, body⟩ := by
  have hvars : (n.bound.filter fun e => e.1 != "I").map (fun e => (e.2, Expr.var e.1)) =
      ((n.bound.filter fun e => e.1 != "I").map fun e => (e.2, e.1)).map fun v => (v.1, Expr.var v.2) := by
    rw [List.map_map]
    rfl
  have hperm : ((Stmt.defineAll ((n.bound.filter fun e => e.1 != "I").map
      fun e => (e.2, Expr.var e.1))).flatMap defined).Perm (declaredNames n) := by
    rw [hvars]
    refine (defined_defineAll _).trans (.of_eq ?_)
    rw [List.map_map]
    rfl
  constructor
  · refine scopedAll_append.2 ⟨hvars ▸ scopedAll_defineAll _, ?_⟩
    have hvisible : (fun w => IsFixed rule w ∨ w ∈ (Stmt.defineAll ((n.bound.filter fun e => e.1 != "I").map
        fun e => (e.2, Expr.var e.1))).flatMap defined) = Visible rule n [] := by
      funext w
      have hI : w = "I" → IsFixed rule w := fun hw => .known (by simp [hw])
      rw [hperm.mem_iff, Visible, mem_declaredNames]
      simp only [List.not_mem_nil, or_false, eq_iff_iff]
      by_cases hw : w = "I"
      · simp [hI hw]
      · simp [hw]
    rw [hvisible]
    exact ⟨⟨hcond, hbody, trivial⟩, trivial⟩
  · rw [List.flatMap_append]
    exact (hperm.append_right _).nodup_iff.2 hdistinct

theorem wellScoped_of_runs {settings : Settings} {o : Optimization} {newRoot : ValueId} {rl : Rule}
    (ho : Creatable o r newRoot) (h : Runs (buildRule settings rule o) o.table .start rl g')
    (hwords : "<int-or-ptr>" ∉ words rl.cond) : rl.WellScoped rule := by
  unfold buildRule at h
  extract_lets added limit build at h
  have hbuild : Runs (build ()) o.table .start rl g' := by
    split at h
    · obtain ⟨u, g₁, hu, -⟩ := runs_bind.1 h
      exact absurd hu runs_unsupported
    · exact h
  obtain ⟨⟨r', found⟩, g₁, hsource, h₁⟩ := runs_bind.1 hbuild
  obtain rfl : r' = r := Except.ok.inj ((runs_matchSource hsource).1.symm.trans ho.root)
  obtain ⟨hclauses, hn₀, hfound⟩ := matched_of_runs rule hsource
  generalize hn : { g₁.naming with inSource := false } = n₀ at hn₀ hfound
  have henv : Env rule (Visible rule n₀ []) n₀ := hn₀.made.env
  have hblind := typeBlind_settled (t := o.table) henv
  obtain ⟨u₂, g₂, hu₂, h₂⟩ := runs_bind.1 h₁
  have hg₂ : Settled (Visible rule n₀ []) n₀ g₂ := by
    obtain rfl := runs_modify.1 hu₂
    refine ⟨?_, fun e he => ?_⟩
    · rw [← hn, Generator.naming, Generator.naming, hclauses]
    · rw [show _ = [] from hclauses] at he
      cases he
  obtain ⟨u₃, g₃, hu₃, h₃⟩ := runs_bind.1 h₂
  have hg₃ := (Yields.registerCondition hblind o.pre _ _ _ hg₂ hu₃).1
  have h₄ := runs_get_bind.1 h₃
  obtain ⟨u₅, g₅, hu₅, h₅⟩ := runs_bind.1 h₄
  have hg₅ := (Yields.forM (fun e _ => .unify hblind e.2) _ _ _ hg₃ hu₅).1
  obtain ⟨u₆, g₆, hu₆, h₆⟩ := runs_bind.1 h₅
  have hg₆ := (Yields.forM (fun i _ => .register hblind i) _ _ _ hg₅ hu₆).1
  rw [ho.newRoot] at h₆
  obtain ⟨i, g₇, hi, h₇⟩ := runs_bind.1 h₆
  obtain ⟨rfl, rfl⟩ := runs_pure.1 hi
  obtain ⟨u₈, g₈, hu₈, h₈⟩ := runs_bind.1 h₇
  have hg₈ := (Yields.unify hblind _ _ _ _ hg₆ hu₈).1
  have h₉ := runs_get_bind.1 h₈
  obtain ⟨types, g₁₀, htypes, h₁₀⟩ := runs_bind.1 h₉
  obtain ⟨hg₁₀, htypes⟩ := Yields.typeTests henv _ _ _ hg₈ htypes
  extract_lets finish at h₁₀
  have hlimit : ∀ e ∈ limit, Over (Visible rule n₀ []) e := by
    have hcounter : Visible rule n₀ [] ("Rule" ++ toString rule) := .inl (.inl .counter)
    have hnumber : Visible rule n₀ [] "10000" := .inl (.inl (.number 10000))
    intro e he
    dsimp only [limit] at he
    split at he
    · rw [List.mem_singleton.1 he]
      exact over_binary.2 ⟨over_var.2 hcounter, over_var.2 hnumber⟩
    · cases he
  have hfinish : ∀ pre g₁₁, Settled (Visible rule n₀ []) n₀ g₁₁ → (∀ e ∈ pre, Over (Visible rule n₀ []) e) →
      Runs (finish pre) o.table g₁₁ rl g' → rl.WellScoped rule := by
    intro pre g₁₁ hg₁₁ hpre h₁₁
    obtain ⟨body, g₁₂, hbody, h₁₂⟩ := runs_bind.1 h₁₁
    obtain ⟨cond, g₁₃, hcond, h₁₃⟩ := runs_bind.1 h₁₂
    obtain ⟨hjoined, rfl⟩ := runs_joinedExpr hcond
    have h₁₄ := runs_get_bind.1 h₁₃
    obtain ⟨rfl, rfl⟩ := runs_pure.1 h₁₄
    obtain ⟨hscoped, hdistinct, hbound⟩ := scopedAll_ruleBody hn₀ hg₁₁ ho.body hbody
    rw [hbound]
    have hplain : ∀ e, Over (Visible rule n₀ []) e → Over (orPlaceholder (Visible rule n₀ [])) e :=
      fun e he => he.mono fun _ => .inl
    have hover : Over (orPlaceholder (Visible rule n₀ [])) cond := by
      refine over_joined hjoined ?_
      simp only [List.mem_append, or_imp, forall_and]
      exact ⟨⟨⟨⟨fun e he => hplain e (hfound e he), fun e he => hplain e (hg₈.2 e he)⟩, htypes⟩,
        fun e he => hplain e (hpre e he)⟩, fun e he => hplain e (hlimit e he)⟩
    exact wellScoped_of_parts (fun w hw => (hover w hw).resolve_right fun h => hwords (h ▸ hw)) hscoped hdistinct
  have hpre : ∀ k ∈ argsOf o.pre, ∀ j, Mentions o.table k j → Usable (Visible rule n₀ []) n₀ j :=
    fun k hk j hj => hn₀.made.usable rule hn₀ hj (.inl (ho.pre k hk j hj))
  split at h₁₀
  · obtain ⟨pre, g₁₁, hpure, h₁₁⟩ := runs_bind.1 h₁₀
    obtain ⟨rfl, rfl⟩ := runs_pure.1 hpure
    exact hfinish [] _ hg₁₀ (nofun) h₁₁
  · obtain ⟨e, g₁₁, he, h₁₁⟩ := runs_bind.1 h₁₀
    obtain ⟨hg₁₁, hover⟩ := Yields.conditionExpr henv o.pre hpre _ e g₁₁ hg₁₀ he
    obtain ⟨pre, g₁₂, hpure, h₁₂⟩ := runs_bind.1 h₁₁
    obtain ⟨rfl, rfl⟩ := runs_pure.1 hpure
    exact hfinish [e] _ hg₁₁ (List.forall_mem_singleton.2 hover) h₁₂

/-- If the target can be created where the source is found, the rule of the optimization is well scoped, unless its
condition has a test that cannot be written. -/
theorem rule_wellScoped {settings : Settings} {rule : Nat} {o : Optimization} {r n : ValueId} {text : String}
    (h : ruleText settings rule o = .ok text) (ho : Creatable o r n) :
    ∃ rl g', Runs (buildRule settings rule o) o.table .start rl g' ∧
      text = rl.doc.render Layout.defaultWidth 0 ∧ ("<int-or-ptr>" ∉ words rl.cond → rl.WellScoped rule) := by
  rcases hrun : buildRule settings rule o o.table .start with ⟨result, g'⟩
  unfold ruleText at h
  rw [show ((buildRule settings rule o).run o.table).run Generator.start = _ from hrun] at h
  cases result with
  | error e => cases h
  | ok rl =>
    have h : (do require rl.doc.wellFormed; return rl.doc.render Layout.defaultWidth 0 : Except Error String) =
      .ok text := h
    refine ⟨rl, g', hrun, ?_, wellScoped_of_runs ho hrun⟩
    cases hw : rl.doc.wellFormed with
    | false =>
      rw [hw] at h
      cases h
    | true =>
      rw [hw] at h
      exact (Except.ok.inj h).symm

theorem Reachable.mem_of_closed {parts : List ValueId} (h : Reachable t r i) (hr : r ∈ parts)
    (hparts : ∀ i ∈ parts, ∀ j ∈ (t.get i).op.operands, j ∈ parts) : i ∈ parts := by
  induction h with
  | root => exact hr
  | operand _ hj ih => exact hparts _ ih _ hj

theorem Mentions.mem_of_closed {parts : List ValueId} (h : Mentions t i j) (hi : i ∈ parts)
    (hparts : ∀ i ∈ parts, ∀ k ∈ constantParts (t.get i).op, k ∈ parts) : j ∈ parts := by
  induction h with
  | self => exact hi
  | part hk _ ih => exact ih (hparts _ hi _ hk)

/-- The optimization of `%a = xor %x, C`, `%r = add nsw %a, %y` to `%b = add %x, %y`, `%r = sub nuw %b, C - 1` where
`C != 0`. -/
def twoStepTarget : Optimization :=
  let byte (place : String) : Option PlacedTy := some ⟨place, .int (some 8)⟩
  { (default : Optimization) with
    pre := .compare .ne 1 9
    table := ⟨#[⟨"%x", "%x", byte "%x", .input⟩, ⟨"C", "C", byte "C", .input⟩,
      ⟨"%a", "%a", byte "%a", .arith .xor 0 1 []⟩, ⟨"%y", "%y", byte "%y", .input⟩,
      ⟨"%r", "%r", byte "%r", .arith .add 2 3 [.nsw]⟩, ⟨"1", "1", byte "1", .literal 1⟩,
      ⟨"%b", "%b", byte "%b", .arith .add 0 3 []⟩, ⟨"C - 1", "C - 1", byte "C - 1", .binary .sub 1 5⟩,
      ⟨"%r", "%r", byte "%r", .arith .sub 6 7 [.nuw]⟩, ⟨"0", "0", byte "0", .literal 0⟩], 0⟩
    source := [("", [("%a", 2), ("%r", 4)])]
    target := [("", [("%b", 6), ("%r", 8)])]
    sourceNames := [("%x", 0), ("C", 1), ("%a", 2), ("%y", 3), ("%r", 4)]
    targetNames := [("%x", 0), ("C", 1), ("%a", 2), ("%y", 3), ("1", 5), ("%b", 6), ("C - 1", 7), ("%r", 8)]
    targetSkipped := ["%a"] }

theorem creatable_twoStepTarget : Creatable twoStepTarget 4 8 := by
  have hsource : ∀ j ∈ [0, 1, 3], Reachable twoStepTarget.table 4 j := by
    have ha : Reachable twoStepTarget.table 4 2 := .operand .root (List.mem_cons_self ..)
    simp only [List.forall_mem_cons]
    exact ⟨.operand ha (by decide), .operand ha (by decide), .operand .root (by decide), by simp⟩
  have hpart : ∀ i, Reachable twoStepTarget.table 4 i → i ∈ [0, 1, 2, 3, 4] :=
    fun i hi => hi.mem_of_closed (by decide) (by decide)
  -- Constant expressions mention symbols only.
  have hmentions : ∀ i ∈ [0, 1, 3, 5, 7, 9], ∀ j, Mentions twoStepTarget.table i j →
      Reachable twoStepTarget.table 4 j := by
    intro i hi j hj
    have hnamed : ∀ j ∈ [0, 1, 3, 5, 7, 9], ((twoStepTarget.table.get j).op.isInput ||
      (twoStepTarget.table.get j).op.isInstr) = true → j ∈ [0, 1, 3] := by decide
    exact hsource j (hnamed j (hj.mem_of_closed hi (by decide)) hj.isNamed)
  have hcreated : (addedValues twoStepTarget).filter (isCreated twoStepTarget.table 8) ++ [8] = [6, 8] := by
    decide +kernel
  have hpre : ∀ i ∈ argsOf twoStepTarget.pre, i ∈ [0, 1, 3, 5, 7, 9] := by decide +kernel
  have hfirst : ∀ k ∈ (twoStepTarget.table.get 6).op.operands, k ∈ [0, 1, 3, 5, 7, 9] := by decide
  have hsecond : ∀ k ∈ (twoStepTarget.table.get 8).op.operands, k = 6 ∨ k ∈ [0, 1, 3, 5, 7, 9] := by decide
  refine ⟨by decide +kernel, by decide +kernel, fun i hi => hmentions i (hpre i hi), ?_⟩
  rw [hcreated]
  refine ⟨⟨List.not_mem_nil, fun h => absurd (hpart 6 h) (by decide), fun k hk j hj => .inl ?_⟩,
    ⟨by decide, fun h => absurd (hpart 8 h) (by decide), fun k hk j hj => ?_⟩, trivial⟩
  · exact hmentions k (hfirst k hk) j hj
  · rcases hsecond k hk with rfl | hk
    · exact .inr (eq_of_mentions_instr (by decide) hj ▸ List.mem_singleton_self _)
    · exact .inl (hmentions k hk j hj)

/-- The theorem at a target of two instructions, with a constant expression and a precondition. -/
theorem twoStepTarget_wellScoped : ∃ text rl g', ruleText {} 1 twoStepTarget = .ok text ∧ Creatable twoStepTarget 4 8 ∧
    Runs (buildRule {} 1 twoStepTarget) twoStepTarget.table .start rl g' ∧
      text = rl.doc.render Layout.defaultWidth 0 ∧ rl.WellScoped 1 := by
  have hok : (ruleText {} 1 twoStepTarget).toOption.isSome = true := by decide +kernel
  have hwords : (((buildRule {} 1 twoStepTarget twoStepTarget.table .start).1.toOption.map
    (words ·.cond)).getD []).contains "<int-or-ptr>" = false := by decide +kernel
  cases htext : ruleText {} 1 twoStepTarget with
  | error e =>
    rw [htext] at hok
    cases hok
  | ok text =>
    obtain ⟨rl, g', hrun, hrender, hscoped⟩ := rule_wellScoped htext creatable_twoStepTarget
    rw [hrun] at hwords
    exact ⟨text, rl, g', rfl, creatable_twoStepTarget, hrun, hrender, hscoped (by simpa [Except.toOption] using hwords)⟩

end Peephole.Emit
