import Peephole.Proofs.Emit.Instance

/-!
# Binding before use

The tests of the source are read from left to right, and each of them may use the variables that those in front of it
have bound.  A match reads the variable of its instruction and those of values that were bound by earlier matches; it
binds a variable for each operand that is new.

* `uses` : the variables that a test reads or binds.
* `BindsFirst` : each test reads variables that are bound in front of it.
* `Clause.opens` : the test of an instruction is one match, with comparisons behind it.
* `source_binds_first` : **the tests bind before they use, and there is one match for each instruction that the root
  depends on.**
-/

namespace Peephole.Emit

open Program Cpp
open Elaborate (Optimization)

variable {t : Table} {g g₁ g' g₀ : Generator} {p p' : Pattern} {i r : ValueId} {e : Expr} {y : String}
  {is todo : List ValueId} {es : List Expr}

/-! ### Variables of tests -/

/-- How a test uses a variable. -/
inductive VarUse where
  | reads (w : String)
  | binds (w : String)

def VarUse.word : VarUse → String
  | reads w | binds w => w

/-- The patterns that bind their first argument. -/
def binders : List String := ["m_Value", "m_ConstantInt", "m_ICmp"]

mutual

/-- The variables that a test uses, from left to right. -/
def uses : Expr → List VarUse
  | .call fn args => argUses (binders.contains fn) args
  | .binary _ a b => uses a ++ uses b
  | e => (words e).map .reads

/-- The variables that arguments use, where the first one may be a variable to be bound. -/
def argUses (first : Bool) : List Expr → List VarUse
  | [] => []
  | e :: es => (if first then (words e).map .binds else uses e) ++ argUses false es

end

mutual

theorem words_eq_uses (e : Expr) : words e = (uses e).map VarUse.word := by
  cases e with
  | call fn args => exact allWords_eq_argUses _ args
  | binary op a b => rw [words, uses, List.map_append, ← words_eq_uses a, ← words_eq_uses b]
  | _ => simp [uses, Function.comp_def, VarUse.word]

theorem allWords_eq_argUses (first : Bool) (es : List Expr) : allWords es = (argUses first es).map VarUse.word := by
  cases es with
  | nil => rfl
  | cons e es =>
    rw [allWords, argUses, List.map_append, ← allWords_eq_argUses false es]
    cases first <;> simp [words_eq_uses e, Function.comp_def, VarUse.word]

end

/-- A number or a predicate, which is no variable. -/
def IsLiteral (w : String) : Prop := (∃ n : Int, w = toString n) ∨ ∃ c, w = predicateName c

/-- Each test reads variables that are bound in front of it. -/
def BindsFirst (bound : String → Prop) : List Expr → Prop
  | [] => True
  | e :: es => (∀ w, .reads w ∈ uses e → bound w ∨ IsLiteral w) ∧ BindsFirst (fun w => bound w ∨ .binds w ∈ uses e) es

/-- The tests of a conjunction, from left to right. -/
def conjuncts : Expr → List Expr
  | .binary .and a b => conjuncts a ++ conjuncts b
  | e => [e]

theorem conjuncts_joined (hes : ∀ x ∈ es, conjuncts x = [x]) (a : Expr) :
    conjuncts (es.foldl (.binary .and) a) = conjuncts a ++ es := by
  induction es generalizing a with
  | nil => simp
  | cons b es ih =>
    obtain ⟨hb, hes⟩ := List.forall_mem_cons.1 hes
    rw [List.foldl_cons, ih hes, conjuncts, hb, List.append_assoc, List.singleton_append]

theorem conjuncts_withExtras (hes : ∀ x ∈ es, conjuncts x = [x]) : conjuncts (withExtras e es) = conjuncts e ++ es := by
  cases es with
  | nil => exact (List.append_nil _).symm
  | cons x es =>
    obtain ⟨hx, hes⟩ := List.forall_mem_cons.1 hes
    show conjuncts (.binary .and e (es.foldl (.binary .and) x)) = _
    rw [conjuncts, conjuncts_joined hes, hx, List.singleton_append]

/-! ### Patterns of operands -/

/-- From the state `g`, in a match that began in `g₀`, the uses lead to the state `g'`: what is read was taken before
the match, and what is bound is taken now. -/
structure Uses (g₀ g : Generator) (us : List VarUse) (g' : Generator) : Prop where
  reads : ∀ w, .reads w ∈ us → w ∈ g₀.names.taken ∨ IsLiteral w
  binds : ∀ w, w ∈ g'.names.taken ↔ w ∈ g.names.taken ∨ .binds w ∈ us

theorem Uses.append {us us' : List VarUse} (h : Uses g₀ g us g₁) (h' : Uses g₀ g₁ us' g') :
    Uses g₀ g (us ++ us') g' where
  reads w hw := (List.mem_append.1 hw).elim (h.reads w) (h'.reads w)
  binds w := by rw [h'.binds, h.binds, List.mem_append, or_assoc]

/-- The order of the uses does not matter. -/
theorem Uses.congr {us us' : List VarUse} (h : Uses g₀ g us g') (hus : ∀ u, u ∈ us' ↔ u ∈ us) : Uses g₀ g us' g' :=
  ⟨fun w hw => h.reads w ((hus _).1 hw), fun w => by rw [h.binds, hus]⟩

theorem Uses.nil : Uses g₀ g [] g := ⟨nofun, fun w => by simp⟩

theorem Uses.read {w : String} (hw : w ∈ g₀.names.taken ∨ IsLiteral w) : Uses g₀ g [.reads w] g :=
  ⟨fun w' hw' => by simp_all, fun w' => by simp⟩

theorem Uses.bind {hint : String} (h : g'.names = (g.names.choose hint).2) :
    Uses g₀ g [.binds (g.nameFor hint)] g' := by
  refine ⟨fun w hw => by simp at hw, fun w => ?_⟩
  rw [h, Names.mem_taken_choose, List.mem_singleton, VarUse.binds.injEq]
  rfl

theorem uses_leafPattern (v : Value) (x : String) : uses (leafPattern v x) = [.binds x] := by
  unfold leafPattern
  split <;> rfl

/-- The pattern of an operand reads what was bound before the match, and binds what gets a name. -/
theorem Subpattern.uses (h : Subpattern t g p i e p' g') (hm : Midway t g₀ p g) : Uses g₀ g (Emit.uses e) g' := by
  cases h with
  | literal hop => exact .read (.inr (.inl ⟨_, rfl⟩))
  | earlier hop hmem hx => exact .read (.inl (hm.start.value_taken ((hm.since i _ hx).resolve_left hmem)))
  | again | first =>
    rw [uses_leafPattern]
    exact .bind rfl

theorem Subpatterns.uses (h : Subpatterns t g p is es p' g') (hm : Midway t g₀ p g) :
    Uses g₀ g (argUses false es) g' := by
  induction h with
  | nil => exact .nil
  | cons h hs ih => exact (h.uses hm).append (ih (h.step hm).1)

/-- A pattern without variables of its own uses what the patterns of the operands do. -/
theorem Plain.uses {op : Op} {pattern : Expr} (h : Plain op es pattern) (u : VarUse) :
    u ∈ Emit.uses pattern ↔ u ∈ argUses false es := by
  cases h with
  | @arith op x y flags a b =>
    cases op <;> unfold arithPattern <;> split_ifs <;> simp [arithName, Emit.uses, argUses, binders]
  | @convert op source x a pattern h => cases op <;> cases h <;> simp [Emit.uses, argUses, binders]
  | select => rfl

/-! ### Tests of instructions -/

/-- The test is one match of the variable `y`, with comparisons behind it.  The match reads what was bound before, and
binds what gets a name. -/
def Opens (g : Generator) (y : String) (e : Expr) (g' : Generator) : Prop :=
  ∃ pattern tests, conjuncts e = matchTest y pattern :: tests ∧ Uses g g (uses pattern) g' ∧
    ∀ x ∈ tests, ∃ a b, x = sameName a b ∧ a ∈ g'.names.taken ∧ (b ∈ g'.names.taken ∨ IsLiteral b)

/-- A comparison binds its predicate when the operands have matched. -/
theorem Uses.icmp {x : String} {a b : Expr} (h : Uses g₀ g₀ (argUses false [a, b]) g) (hx : Uses g₀ g [.binds x] g') :
    Uses g₀ g₀ (Emit.uses (.call "m_ICmp" [.var x, a, b])) g' := by
  refine (h.append hx).congr fun u => ?_
  show u ∈ .binds x :: argUses false [a, b] ↔ _
  rw [List.mem_cons, List.mem_append, List.mem_singleton, or_comm]

theorem Head.opens {v : Value} (h : Head v g p y es e p' g') (hes : Uses g₀ g₀ (argUses false es) g) :
    Opens g₀ y e g' := by
  cases h with
  | plain h => exact ⟨_, [], rfl, hes.congr h.uses, nofun⟩
  | @known c =>
    refine ⟨_, _, rfl, hes.icmp (.bind rfl), List.forall_mem_singleton.2 ?_⟩
    exact ⟨_, _, rfl, g.nameFor_mem_taken _, .inr (.inr ⟨c, rfl⟩)⟩
  | unknown | repeated => exact ⟨_, [], rfl, hes.icmp (.bind rfl), nofun⟩

theorem Clause.opens {bound : List ValueId} (h : Clause t g i e bound g') (hg : g.Tidy) :
    ∃ y, g.valueNames.get? i = some y ∧ Opens g y e g' := by
  cases h with
  | @intro y es e p p' g₁ _ hy hops hhead =>
    have hm' := (hhead.step (hops.step (.nil hg)).1).1
    obtain ⟨pattern, tests, hconj, huses, htests⟩ := hhead.opens (hops.uses (.nil hg))
    refine ⟨y, hy, pattern, tests ++ p'.extras, ?_, huses, List.forall_mem_append.2 ⟨htests, fun x hx => ?_⟩⟩
    · rw [conjuncts_withExtras, hconj, List.cons_append]
      intro x hx
      obtain ⟨a, b, rfl, -⟩ := hm'.extras x hx
      rfl
    · obtain ⟨a, b, hab, ha, hb⟩ := hm'.extras x hx
      exact ⟨a, b, hab, ha, .inl hb⟩

/-! ### The worklist -/

/-- Comparisons bind nothing. -/
theorem bindsFirst_tests {bound : String → Prop} {tests : List Expr}
    (htests : ∀ x ∈ tests, ∃ a b, x = sameName a b ∧ bound a ∧ (bound b ∨ IsLiteral b)) (h : BindsFirst bound es) :
    BindsFirst bound (tests ++ es) := by
  induction tests with
  | nil => exact h
  | cons x tests ih =>
    obtain ⟨⟨a, b, rfl, ha, hb⟩, hrest⟩ := List.forall_mem_cons.1 htests
    simpa [BindsFirst, sameName, uses, words, ha, hb] using ih hrest

/-- The test of the instruction is one match of its variable, with comparisons behind it. -/
def IsMatchOf (g : Generator) (i : ValueId) (e : Expr) : Prop :=
  ∃ y pattern tests, g.valueNames.get? i = some y ∧ conjuncts e = matchTest y pattern :: tests ∧
    ∀ x ∈ tests, ∃ a b, x = sameName a b

/-- A run of the worklist binds before it uses, if all names that are taken are bound. -/
theorem Matches.bindsFirst {bound : String → Prop} (h : Matches t g todo is es g') (hg : g.Tidy)
    (hbound : ∀ w ∈ g.names.taken, bound w) :
    BindsFirst bound (es.flatMap conjuncts) ∧ List.Forall₂ (IsMatchOf g') is es := by
  induction h generalizing bound with
  | nil => exact ⟨trivial, .nil⟩
  | @instr g g₁ g₂ g' i e bound₁ todo is es hi hc hsame hrest ih =>
    have htidy := (hc.leaves hg).tidy.of_naming hsame
    have hkeeps := ((hc.leaves hg).keeps.of_naming hsame).trans (hrest.leaves htidy).keeps
    have hnames : g₂.names = g₁.names := (congrArg Generator.names hsame :)
    obtain ⟨y, hy, pattern, tests, hconj, huses, htests⟩ := hc.opens hg
    have hmatch : uses (matchTest y pattern) = .reads y :: uses pattern := by
      simp [matchTest, uses, argUses, binders, words]
    -- What is taken behind the match was bound in front of it or is bound by it.
    have hbound₁ : ∀ w ∈ g₁.names.taken, bound w ∨ .binds w ∈ uses (matchTest y pattern) := fun w hw =>
      ((huses.binds w).1 hw).imp (hbound w) fun h => hmatch ▸ List.mem_cons_of_mem _ h
    obtain ⟨hfirst, hmatches⟩ := ih htidy (hnames ▸ hbound₁)
    refine ⟨?_, .cons ⟨y, pattern, tests, hkeeps.value i y hy, hconj, fun x hx => ?_⟩ hmatches⟩
    · rw [List.flatMap_cons, hconj]
      refine ⟨fun w hw => ?_, bindsFirst_tests (fun x hx => ?_) hfirst⟩
      · rw [hmatch, List.mem_cons, VarUse.reads.injEq] at hw
        rcases hw with rfl | hw
        · exact .inl (hbound w (hg.value_taken hy))
        · exact (huses.reads w hw).imp_left (hbound w)
      · obtain ⟨a, b, hab, ha, hb⟩ := htests x hx
        exact ⟨a, b, hab, hbound₁ a ha, hb.imp_left (hbound₁ b)⟩
    · obtain ⟨a, b, hab, -⟩ := htests x hx
      exact ⟨a, b, hab⟩
  | @other g g₁ g' i todo is es hi hsame hrest ih =>
    have hnames : g₁.names = g.names := (congrArg Generator.names hsame :)
    exact ih (hg.of_naming hsame) (hnames ▸ hbound)

/-- Each match leaves one instruction less to be matched. -/
theorem Matches.length_le (h : Matches t g todo is es g') (hg : g.Tidy) :
    is.length + (unnamedInstrs t g').length ≤ instrCount t todo + (unnamedInstrs t g).length := by
  induction h with
  | nil => simp [instrCount]
  | instr hi hc hsame hrest ih =>
    have hleaves := hc.leaves hg
    have hcount := hleaves.count_le
    have hrest := ih (hleaves.tidy.of_naming hsame)
    simp only [unnamedInstrs_of_naming hsame, instrCount, List.countP_append, List.countP_cons, hi, if_true,
      List.length_cons] at hcount hrest ⊢
    omega
  | other hi hsame hrest ih => simpa [unnamedInstrs_of_naming hsame, instrCount, hi] using ih (hg.of_naming hsame)

/-- No instruction is matched twice: there are as many instructions as are matched or have no name. -/
theorem Matches.nodup (h : Matches t (.rooted t r) [r] is es g') (hr : (t.get r).op.isInstr = true) : is.Nodup := by
  have hleaves := h.leaves (tidy_rooted t r)
  let instrs := (List.range t.values.size).filter fun j => (t.get j).op.isInstr
  have hinstrs : instrs.Nodup := List.nodup_range.filter _
  have hsub : instrs ⊆ is ++ unnamedInstrs t g' := by
    intro j hj
    have hj : (t.get j).op.isInstr = true := (List.mem_filter.1 hj).2
    cases hname : g'.valueNames.get? j with
    | none => exact List.mem_append_right _ (by simp [unnamedInstrs, hj, hname, Table.lt_of_isInstr hj])
    | some x =>
      refine List.mem_append_left _ ((hleaves.since j x hname hj).elim id fun hold => ?_)
      rw [(get?_rooted.1 hold).1]
      exact hleaves.todo r (List.mem_singleton_self r) hr
  have hlen : (is ++ unnamedInstrs t g').length ≤ instrs.length := by
    have hle := h.length_le (tidy_rooted t r)
    -- The root has a name from the start.
    have hroot : (unnamedInstrs t (.rooted t r)).length < instrs.length := by
      have hfilter : unnamedInstrs t (.rooted t r) =
          instrs.filter fun j => ((Generator.rooted t r).valueNames.get? j).isNone := by
        simp [unnamedInstrs, instrs, List.filter_filter, Bool.and_comm]
      rw [hfilter]
      refine List.length_filter_lt_length_iff_exists.2 ⟨r, ?_, by simp [get?_rooted.2 ⟨rfl, rfl⟩]⟩
      exact List.mem_filter.2 ⟨List.mem_range.2 (Table.lt_of_isInstr hr), hr⟩
    simp only [instrCount, List.countP_singleton, hr, if_true] at hle
    rw [List.length_append]
    omega
  exact (((hinstrs.subperm hsub).perm_of_length_le hlen).nodup_iff.1 hinstrs).of_append_left

/-- **The tests of the source bind before they use.**  There is one match for each instruction that the root depends on;
what it reads is the root, a literal, or bound by the tests in front of it.  The worklist has come to its end: with more
steps it does the same. -/
theorem source_binds_first {o : Optimization} {found : List Expr}
    (h : Runs (matchSource o) o.table .start (r, found) g') :
    BindsFirst (· = "I") (found.flatMap conjuncts) ∧
    (∃ is, is.Nodup ∧ (∀ i, i ∈ is ↔ Reachable o.table r i ∧ (o.table.get i).op.isInstr = true) ∧
      List.Forall₂ (IsMatchOf g') is found) ∧
    ∀ extra, Runs (matchAll (2 * o.table.values.size * (o.table.values.size + 1) + 1 + extra) [r]) o.table
      (.rooted o.table r) found g' := by
  obtain ⟨hr, is, hmatches, ⟨hreach, -⟩, hmore⟩ := exists_matches h
  obtain ⟨hfirst, hall⟩ := hmatches.bindsFirst (tidy_rooted o.table r) fun w hw => List.mem_singleton.1 hw
  refine ⟨hfirst, ⟨is, hmatches.nodup hr, fun i => ⟨fun hi => ?_, fun hi => ?_⟩, hall⟩, hmore⟩
  · exact ⟨hreach i hi, hmatches.isInstr i hi⟩
  · exact (hmatches.isOperand_of_reachable hr hi.1).2 hi.2

/-- The theorem at a source with a value that occurs twice in one match and again in another. -/
theorem clampSource_binds_first : ∃ found g', Runs (matchSource clampSource) clampSource.table .start (4, found) g' ∧
    BindsFirst (· = "I") (found.flatMap conjuncts) ∧ ∃ is, is.Nodup ∧ List.Forall₂ (IsMatchOf g') is found := by
  obtain ⟨found, g', hrun⟩ := exists_clampSource
  obtain ⟨hfirst, ⟨is, hnodup, -, hall⟩, -⟩ := source_binds_first hrun
  exact ⟨found, g', hrun, hfirst, is, hnodup, hall⟩

end Peephole.Emit
