import Peephole.Proofs.Encode.Course

/-!
# Runs of encoding

Encoding a program is a list of **tasks**, done one after another: the inputs and constants are encoded, and then
for each basic block it is entered and its instructions are encoded.

* `encodeProgram_ok` : encoding a program succeeds if its tasks do, one after another.
* `Chain.invariant` : what each task keeps, the whole run keeps.
* `encodeProgram_choices` : where the variables that stand for arbitrary choices come from.
-/

namespace Peephole.Encode

open Logic Program
open Elaborate (Optimization)

variable {α : Type} {s : Setting} {w w' : Work} {I : Work → Prop} {o : Options}

/-! ### Invariants -/

/-- What holds before a run that succeeds holds behind it. -/
def Keeps (s : Setting) (I : Work → Prop) (x : EncodeM α) : Prop :=
  ∀ w a w', I w → x s w = .ok (a, w') → I w'

section Keeps

variable {β : Type} {I : Work → Prop}

theorem Keeps.pure (a : α) : Keeps s I (Pure.pure a) := by
  intro w b w' hw h
  cases h
  exact hw

theorem Keeps.stop (f : Fault) : Keeps s I (stop f : EncodeM α) := by
  intro w a w' _ h
  simp at h

theorem Keeps.bind {x : EncodeM α} {f : α → EncodeM β} (hx : Keeps s I x) (hf : ∀ a, Keeps s I (f a)) :
    Keeps s I (x >>= f) := by
  intro w b w' hw h
  obtain ⟨⟨a, w₁⟩, h₁, h₂⟩ := bind_ok.1 h
  exact hf a w₁ b w' (hx w a w₁ hw h₁) h₂

theorem Keeps.mapM {f : α → EncodeM β} {as : List α} (hf : ∀ a ∈ as, Keeps s I (f a)) :
    Keeps s I (as.mapM f) := by
  induction as with
  | nil =>
    rw [List.mapM_nil]
    exact .pure []
  | cons a as ih =>
    have hrest := ih fun b hb => hf b (List.mem_cons_of_mem a hb)
    rw [List.mapM_cons]
    exact .bind (hf a List.mem_cons_self) fun _ => .bind hrest fun _ => .pure _

theorem Keeps.subTerm {sub : ValueId → EncodeM (Option Term)} {i : ValueId} (h : Keeps s I (sub i)) :
    Keeps s I (subTerm sub i) := by
  refine .bind h fun t => ?_
  cases t with
  | none => exact .stop _
  | some t => exact .pure t

theorem Keeps.valueSize (v : Value) : Keeps s I (valueSize v) := by
  intro w n w' hw h
  obtain ⟨-, rfl⟩ := valueSize_ok h
  exact hw

theorem Keeps.read : Keeps s I read := by
  intro w a w' hw h
  cases h
  exact hw

theorem Keeps.check (r : Except Error α) : Keeps s I (check r) := by
  intro w a w' hw h
  rw [check_run, bind_ok] at h
  obtain ⟨_, -, h⟩ := h
  cases h
  exact hw

/-- The call of a function changes nothing but the conditions under which the value is defined. -/
theorem Keeps.callTerm (hI : ∀ w ds, I w → I { w with conds.defined := ds }) (v : Value) (fn : ConstFn)
    (ts : List Term) : Keeps s I (callTerm v fn ts) := by
  have hadd : ∀ ps, Keeps s I (addDefined ps) := by
    intro ps w a w' hw h
    cases h
    exact hI w _ hw
  refine .bind (.valueSize v) fun n => ?_
  split
  case h_2 | h_3 | h_4 => exact .bind (hadd _) fun _ => .pure _
  case h_14 =>
    refine .bind ?_ fun _ => .pure _
    intro w a w' hw h
    cases h
    exact hI w _ hw
  case h_15 => exact .stop _
  all_goals exact .pure _

end Keeps

/-! ### Chains -/

/-- The computations for the members of a list succeed one after another. -/
def Chain (s : Setting) (f : α → EncodeM Unit) : List α → Work → Work → Prop
  | [], w, w' => w' = w
  | a :: as, w, w' => ∃ w₁, f a s w = .ok ((), w₁) ∧ Chain s f as w₁ w'

theorem Chain.append {f : α → EncodeM Unit} {as bs : List α} :
    Chain s f (as ++ bs) w w' ↔ ∃ w₁, Chain s f as w w₁ ∧ Chain s f bs w₁ w' := by
  induction as generalizing w with
  | nil => simp [Chain]
  | cons a as ih =>
    simp only [List.cons_append, Chain, ih]
    constructor
    · rintro ⟨w₁, h₁, w₂, h₂, h₃⟩
      exact ⟨w₂, ⟨w₁, h₁, h₂⟩, h₃⟩
    · rintro ⟨w₂, ⟨w₁, h₁, h₂⟩, h₃⟩
      exact ⟨w₁, h₁, w₂, h₂, h₃⟩

theorem Chain.invariant {f : α → EncodeM Unit} {as : List α}
    (hstep : ∀ a ∈ as, Keeps s I (f a)) (h : Chain s f as w w') (hw : I w) : I w' := by
  induction as generalizing w with
  | nil => exact h ▸ hw
  | cons a as ih =>
    obtain ⟨w₁, h₁, h⟩ := h
    exact ih (fun b hb => hstep b (List.mem_cons_of_mem a hb)) h (hstep a List.mem_cons_self w () w₁ hw h₁)

theorem seq_ok {β : Type} {x : EncodeM Unit} {y : Unit → EncodeM β} {r : β × Work} :
    (x >>= y) s w = .ok r ↔ ∃ w₁, x s w = .ok ((), w₁) ∧ y () s w₁ = .ok r := by
  rw [bind_run, bind_ok]
  exact ⟨fun ⟨⟨_, w₁⟩, h⟩ => ⟨w₁, h⟩, fun ⟨w₁, h⟩ => ⟨((), w₁), h⟩⟩

theorem forM_ok {f : α → EncodeM Unit} {as : List α} : as.forM f s w = .ok ((), w') ↔ Chain s f as w w' := by
  induction as generalizing w with
  | nil => simp [List.forM, Chain, eq_comm]
  | cons a as ih =>
    rw [List.forM, seq_ok, Chain]
    simp only [ih]

theorem chain_map {β : Type} {f : β → EncodeM Unit} (g : α → β) {as : List α} :
    Chain s f (as.map g) w w' ↔ Chain s (fun a => f (g a)) as w w' := by
  induction as generalizing w with
  | nil => rfl
  | cons a as ih => simp only [List.map_cons, Chain, ih]

/-! ### Tasks -/

/-- A part of encoding a program. -/
inductive Task where
  /-- Encode an input or a constant. -/
  | leaf (i : ValueId)
  /-- Start a basic block. -/
  | enter (label : String)
  /-- Encode an instruction. -/
  | value (i : ValueId)

def Task.perform (o : Options) : Task → EncodeM Unit
  | leaf i => addLeaf i
  | enter label => modifyState (State.enter o label)
  | value i => addValue i

/-- The tasks for the inputs and constants under `names`. -/
def leafTasks (t : Table) (names : Dict ValueId) : List Task := (leavesOf t names).map .leaf

/-- The tasks for the instructions of a basic block. -/
def blockTasks (b : Dict ValueId) : List Task := b.map fun e => .value e.2

def tasks (t : Table) (names : Dict ValueId) (p : Code) : List Task :=
  leafTasks t names ++ p.flatMap fun b => .enter b.1 :: blockTasks b.2

theorem encodeBlock_ok {b : String × Dict ValueId} : encodeBlock o b s w = .ok ((), w') ↔
      Chain s (Task.perform o) (.enter b.1 :: blockTasks b.2) w w' := by
  rw [Chain, blockTasks, encodeBlock, seq_ok]
  simp only [forM_ok, chain_map, Task.perform]

theorem chain_blocks {p : Code} : Chain s (encodeBlock o) p w w' ↔
      Chain s (Task.perform o) (p.flatMap fun b => .enter b.1 :: blockTasks b.2) w w' := by
  induction p generalizing w with
  | nil => rfl
  | cons b p ih =>
    rw [List.flatMap_cons, Chain.append]
    simp only [← encodeBlock_ok, ← ih]
    rfl

/-- **Encoding a program is doing its tasks**: it succeeds if they do, one after another. -/
theorem encodeProgram_ok {names : Dict ValueId} {p : Code} :
    encodeProgram names p s w = .ok ((), w') ↔
      Chain s (Task.perform s.options) (tasks s.table names p) w w' := by
  rw [tasks, Chain.append, encodeProgram, bind_run, read_run, ok_bind, seq_ok]
  simp only [forM_ok, ← chain_blocks, leafTasks, chain_map, Task.perform]

/-! ### What encoding a value can do -/

/-- The variables that encoding makes up for arbitrary choices. -/
inductive Made (t : Table) : Var → Prop
  | undefined {i : ValueId} (h : (t.get i).op = .undefined) (n : Nat) : Made t ⟨undefVar (t.get i), .bits n⟩
  | pointer {i : ValueId} {ty : PlacedTy} {c : ValueId} {a : Nat} (h : (t.get i).op = .alloca ty c a) (n : Nat) :
      Made t ⟨(t.get i).name, .bits n⟩
  /-- What stands in an allocated block. -/
  | contents {i : ValueId} {ty : PlacedTy} {c : ValueId} {a : Nat} (h : (t.get i).op = .alloca ty c a) (name : String)
    (n : Nat) : Made t ⟨"alloca" ++ name, .bits n⟩

/-- The variable stands for an arbitrary choice in what was encoded so far, or is made up. -/
def Work.MayChoose (w : Work) (t : Table) (v : Var) : Prop :=
  v ∈ w.conds.free ∨ v ∈ w.state.memoryFree ∨ (∃ e ∈ w.state.vars, v ∈ e.2.conds.free) ∨ Made t v

/-- **All that encoding a value can do**: it changes the conditions of the value, the memory and the number for fresh
names, and adds conditions of the basic block, choices and blocks of memory.  What these keep, encoding keeps
(`Stable.encode`). -/
structure Stable (t : Table) (I : Work → Prop) : Prop where
  defined : ∀ w ps, I w → I { w with conds.defined := ps }
  poison : ∀ w ps, I w → I { w with conds.poison := ps }
  reached : ∀ w ps, I w → I { w with state.defined := w.state.defined ++ ps }
  memory : ∀ w f, I w → I { w with state.memory := w.state.memory.map f }
  fresh : ∀ w n, I w → I { w with fresh := n }
  block : ∀ w b, I w → I { w with state.blocks := w.state.blocks ++ [b] }
  free : ∀ w vs, I w → (∀ v ∈ vs, w.MayChoose t v) → I { w with conds.free := w.conds.free ++ vs }
  memoryFree : ∀ w vs, I w → (∀ v ∈ vs, w.MayChoose t v) →
    I { w with state.memoryFree := w.state.memoryFree ++ vs }

section Stable

variable {I : Work → Prop} (hI : Stable s.table I)

include hI

theorem Stable.adopt (hw : I w) (c : Conditions) (hc : ∀ v ∈ c.free, w.MayChoose s.table v) :
    I (w.adopt c) := by
  have hdefined := hI.defined w (w.conds.defined ++ c.defined) hw
  have hpoison := hI.poison _ (w.conds.poison ++ c.poison) hdefined
  exact hI.free _ c.free hpoison hc

theorem Stable.adoptAll {xs : List ValueId} {es : List Encoded} (hw : I w)
    (h : Found s w.state.vars xs es) : I (w.adoptAll es) := by
  obtain ⟨d, hd⟩ : ∃ d, w.state.vars = d := ⟨_, rfl⟩
  rw [hd] at h
  induction h generalizing w with
  | nil => exact hw
  | cons he _ ih =>
    exact ih (hI.adopt hw _ fun v hv => .inr (.inr (.inl ⟨_, hd ▸ mem_of_get? he, hv⟩))) hd

theorem Stable.accessed (hw : I w) (ps : List Formula) : I (w.accessed ps) :=
  hI.reached _ (w.conds.defined ++ ps) (hI.defined w (w.conds.defined ++ ps) hw)

theorem Stable.arithTerm (v : Value) (op : ArithOp) (x y : ValueId) (flags : List Flag) :
    Keeps s I (arithTerm v op x y flags) := by
  intro w t w' hw h
  obtain ⟨e, e', a, b, n, hfound, -, -, -, -, rfl⟩ := arithTerm_ok h
  exact hI.adopt (hI.adoptAll hw hfound) _ (by simp)

theorem Stable.allocaTerm {i : ValueId} {ty : PlacedTy} {c : ValueId} {align : Nat}
    (hop : (s.table.get i).op = .alloca ty c align) :
    Keeps s I (allocaTerm (s.table.get i) c align) := by
  intro w t w' hw h
  obtain ⟨b, hb, -, ⟨-, rfl⟩ | ⟨-, aligned, -, rfl⟩⟩ := allocaTerm_eq hop h
  · obtain ⟨_, _, _, _, _, -, -, -, -, hpointer, -⟩ := Setting.allocation_some hb
    rw [hpointer]
    exact hI.free _ _ hw (List.forall_mem_singleton.2 (.inr (.inr (.inr (.pointer hop _)))))
  · have hmade : Made s.table (b.contents w.fresh) := by
      rw [Block.contents, String.append_assoc, String.append_assoc]
      exact .contents hop _ _
    have hfree := hI.memoryFree w [b.contents w.fresh] hw (List.forall_mem_singleton.2 (.inr (.inr (.inr hmade))))
    exact hI.memory _ _ (hI.block _ b (hI.fresh _ _ (hI.defined _ _ hfree)))

theorem Stable.loadTerm (v : Value) (x : ValueId) (align : Nat) : Keeps s I (loadTerm v x align) := by
  intro w t w' hw h
  obtain ⟨e, a, n, m, hfound, -, -, -, -, rfl⟩ := loadTerm_ok h
  have hfree := hI.free w w.state.memoryFree hw fun v hv => .inr (.inl hv)
  exact hI.accessed (hI.adoptAll (w := { w with conds.free := _ }) hfree hfound) _

theorem Stable.storeBytes (stored : PlacedTy) (x y : ValueId) (align : Nat) :
    Keeps s I (storeBytes stored x y align) := by
  intro w t w' hw h
  obtain ⟨e, e', a, b, n, hfound, -, -, -, rfl⟩ := storeBytes_ok h
  refine hI.memory _ _ (hI.accessed (hI.memoryFree _ _ (hI.adoptAll hw hfound) fun v hv => .inl ?_) _)
  rw [Work.adoptAll_free]
  exact List.mem_append_right _ (by simpa using hv)

theorem Stable.pointsToBlock (v : Value) (pointer : String) (width : Nat) {free : List Var}
    (hfree : ∀ v ∈ free, Made s.table v) : Keeps s I (pointsToBlock v pointer width free) := by
  intro w r w' hw h
  obtain ⟨_ | b, -, rfl⟩ := pointsToBlock_eq h
  · exact hw
  · rw [Option.elim_some, State.addInputBlock]
    split
    · exact hw
    · exact hI.memoryFree _ free (hI.block w b hw) fun v hv => .inr (.inr (.inr (hfree v hv)))

end Stable

theorem Stable.encode (hI : Stable s.table I) (i : ValueId) : Keeps s I (encode i) := by
  -- The operands of a constant expression have smaller numbers.
  induction i using Nat.strongRecOn with
  | _ i ih =>
    intro w t w' hw h
    have hargs : ∀ {is : List ValueId} {us w₁}, (∀ j ∈ is, j < i) →
        is.mapM (subTerm Encode.encode) s w = .ok (us, w₁) → I w₁ :=
      fun hlt hus => Keeps.mapM (fun j hj => .subTerm (ih j (hlt j hj))) w _ _ hw hus
    cases encode_course h with
    | input _ _ hp => exact hI.pointsToBlock _ _ _ (by simp) _ _ _ hw hp
    | @undefined n _ hop _ hp =>
      have hmade : Made s.table ⟨undefVar (s.table.get i), .bits n⟩ := .undefined hop n
      have hfree := hI.free w _ hw (List.forall_mem_singleton.2 (.inr (.inr (.inr hmade))))
      exact hI.pointsToBlock _ _ _ (List.forall_mem_singleton.2 hmade) _ _ _ hfree hp
    | unary _ hlt hus | binary _ hlt hus => exact hargs hlt hus
    | call _ hlt hus hcall => exact Keeps.callTerm hI.defined _ _ _ _ _ _ (hargs hlt hus) hcall
    | quiet _ hes => exact hI.adoptAll hw hes
    | arith _ ha => exact hI.arithTerm _ _ _ _ _ _ _ _ hw ha
    | alloca hop ha => exact hI.allocaTerm hop _ _ _ hw ha
    | load _ ha => exact hI.loadTerm _ _ _ _ _ _ hw ha
    | store _ hst => exact hI.storeBytes _ _ _ _ _ _ _ hw hst
    | unreachable _ => exact hI.defined w _ hw

/-- The second state has recorded no more than the first, and has its blocks of memory and the conditions of its basic
block; it has a memory if the first does. -/
structure State.Grows (a b : State) : Prop where
  vars : b.vars = a.vars
  entries : b.entries = a.entries
  blocks : a.blocks.Sublist b.blocks
  defined : a.defined ⊆ b.defined
  memory : a.memory.isSome → b.memory.isSome

theorem State.Grows.refl (a : State) : a.Grows a := ⟨rfl, rfl, .refl _, List.Subset.refl _, id⟩

theorem stable_grows (t : Table) (a : State) : Stable t fun w => a.Grows w.state := by
  constructor
  case block => exact fun _ _ h => ⟨h.vars, h.entries, h.blocks.trans (List.sublist_append_left ..), h.defined, h.memory⟩
  case reached => exact fun _ _ h => ⟨h.vars, h.entries, h.blocks, List.subset_append_of_subset_left _ h.defined,
    h.memory⟩
  case memory => exact fun _ _ h => ⟨h.vars, h.entries, h.blocks, h.defined, fun hm => by simpa using h.memory hm⟩
  case memoryFree => exact fun _ _ h _ => ⟨h.vars, h.entries, h.blocks, h.defined, h.memory⟩
  case free => exact fun _ _ h _ => h
  all_goals exact fun _ _ h => h

theorem encode_grows {t : Option Term} (h : encode i s w = .ok (t, w')) : w.state.Grows w'.state :=
  (stable_grows s.table w.state).encode i w t w' (.refl _) h

/-! ### Preconditions -/

mutual

/-- The values that a precondition compares or tests. -/
def argsOf : Condition → List ValueId
  | .always => []
  | .not c => argsOf c
  | .both cs | .either cs => argsOfAll cs
  | .compare _ x y => [x, y]
  | .test _ args => args

/-- The values that preconditions compare or test. -/
def argsOfAll : List Condition → List ValueId
  | [] => []
  | c :: cs => argsOf c ++ argsOfAll cs

end

/-- What encoding a value keeps is also kept if its conditions are set aside before and taken up again behind. -/
def Apart (s : Setting) (I : Work → Prop) : Prop := ∀ x : EncodeM (List Term), Keeps s I x → Keeps s I (apart x)

theorem Keeps.argTerms (hapart : Apart s I) {args : List ValueId}
    (h : ∀ i ∈ args, Keeps s I (Encode.encode i)) : Keeps s I (argTerms args) :=
  .bind (hapart _ (.mapM fun i hi => .subTerm (h i hi))) fun _ => .pure _

mutual

/-- What encoding its arguments keeps, encoding a precondition keeps. -/
theorem Keeps.encodeCondition (hapart : Apart s I) :
    (c : Condition) → (∀ i ∈ argsOf c, Keeps s I (Encode.encode i)) → Keeps s I (encodeCondition c)
  | .always, _ => by
    rw [Encode.encodeCondition]
    exact .pure _
  | .not c, h => by
    rw [argsOf] at h
    rw [Encode.encodeCondition]
    exact .bind (Keeps.encodeCondition hapart c h) fun _ => .pure _
  | .both cs, h | .either cs, h => by
    rw [argsOf] at h
    rw [Encode.encodeCondition]
    exact .bind (Keeps.encodeConditions hapart cs h) fun _ => .pure _
  | .compare op x y, h => by
    rw [argsOf] at h
    rw [Encode.encodeCondition]
    refine .bind (.argTerms hapart h) fun ⟨ts, given⟩ => ?_
    dsimp only
    split
    · exact .pure _
    · exact .stop _
  | .test t args, h => by
    rw [argsOf] at h
    rw [Encode.encodeCondition]
    exact .bind (.argTerms hapart h) fun r => .bind .read fun _ => .check _

theorem Keeps.encodeConditions (hapart : Apart s I) :
    (cs : List Condition) → (∀ i ∈ argsOfAll cs, Keeps s I (Encode.encode i)) → Keeps s I (encodeConditions cs)
  | [], _ => by
    rw [Encode.encodeConditions]
    exact .pure _
  | c :: cs, h => by
    rw [argsOfAll, List.forall_mem_append] at h
    rw [Encode.encodeConditions]
    exact .bind (Keeps.encodeCondition hapart c h.1) fun _ =>
      .bind (Keeps.encodeConditions hapart cs h.2) fun _ => .pure _

end

/-! ### Choices -/

/-- All variables that stand for arbitrary choices have the property. -/
structure Work.Chosen (P : Var → Prop) (w : Work) : Prop where
  conds : ∀ v ∈ w.conds.free, P v
  memory : ∀ v ∈ w.state.memoryFree, P v
  vars : ∀ e ∈ w.state.vars, ∀ v ∈ e.2.conds.free, P v

section Chosen

variable {P : Var → Prop}

theorem Work.Chosen.start (n : Nat) : Work.Chosen P ⟨.start, .none, n⟩ :=
  ⟨by simp [Conditions.none], by simp [State.start], by simp [State.start]⟩

/-- Only the choices matter: the conditions of a value can be set aside and taken up again. -/
theorem Work.Chosen.withConds {c : Conditions} (hw : w.Chosen P) (hc : ∀ v ∈ c.free, P v) :
    ({ w with conds := c } : Work).Chosen P := ⟨hc, hw.memory, hw.vars⟩

theorem Work.Chosen.record {c : Conditions} (hw : w.Chosen P) (hc : ∀ v ∈ c.free, P v) (key : String)
    (t : Option Term) : (w.record key t c).Chosen P := by
  refine ⟨hw.conds, hw.memory, fun e he => ?_⟩
  rcases mem_put he with rfl | he
  · exact hc
  · exact hw.vars e he

theorem Keeps.chosen_apart {x : EncodeM α} (hx : Keeps s (Work.Chosen P) x) :
    Keeps s (Work.Chosen P) (apart x) := by
  intro w r w' hw h
  obtain ⟨w₁, hw₁, -, rfl⟩ := apart_ok (a := r.1) (c := r.2) h
  have hstart : ({ w with conds := .none } : Work).Chosen P := hw.withConds (by simp [Conditions.none])
  exact (hx _ _ _ hstart hw₁).withConds hw.conds

variable (hP : ∀ v, Made s.table v → P v)

include hP

theorem Stable.chosen : Stable s.table (Work.Chosen P) := by
  have hmay : ∀ {w : Work} {v : Var}, w.Chosen P → w.MayChoose s.table v → P v := by
    rintro w v hw (hv | hv | ⟨e, he, hv⟩ | hv)
    · exact hw.conds v hv
    · exact hw.memory v hv
    · exact hw.vars e he v hv
    · exact hP v hv
  constructor
  case free => exact fun w vs hw hvs =>
    ⟨List.forall_mem_append.2 ⟨hw.conds, fun v hv => hmay hw (hvs v hv)⟩, hw.memory, hw.vars⟩
  case memoryFree => exact fun w vs hw hvs =>
    ⟨hw.conds, List.forall_mem_append.2 ⟨hw.memory, fun v hv => hmay hw (hvs v hv)⟩, hw.vars⟩
  all_goals exact fun w _ hw => ⟨hw.conds, hw.memory, hw.vars⟩

theorem chosen_perform (o : Options) (task : Task) : Keeps s (Work.Chosen P) (task.perform o) := by
  have hencode := (Stable.chosen hP).encode
  intro w r w' hw h
  have hstart : ({ w with conds := .none } : Work).Chosen P := hw.withConds (by simp [Conditions.none])
  cases task with
  | leaf i =>
    obtain ⟨t, w₁, h₁, -, -, rfl⟩ := addLeaf_ok h
    have hw₁ := hencode i _ t w₁ hstart h₁
    exact (hw₁.withConds hw.conds).record hw₁.conds _ _
  | enter label =>
    cases h
    obtain ⟨ds, m, he⟩ := State.enter_eq o label w.state
    dsimp only
    rw [he]
    exact ⟨hw.conds, hw.memory, hw.vars⟩
  | value i =>
    obtain ⟨t, w₁, entries, h₁, rfl⟩ := addValue_ok h
    have hw₁ := hencode i _ t w₁ hstart h₁
    have hrecord := (hw₁.withConds hw.conds).record hw₁.conds (s.table.get i).key t
    exact ⟨hrecord.conds, hrecord.memory, hrecord.vars⟩

theorem chosen_encodeProgram {names : Dict ValueId} {p : Code}
    (h : encodeProgram names p s w = .ok ((), w')) (hw : w.Chosen P) : w'.Chosen P :=
  (encodeProgram_ok.1 h).invariant (fun task _ => chosen_perform hP s.options task) hw

theorem chosen_encodeCondition (c : Condition) : Keeps s (Work.Chosen P) (encodeCondition c) :=
  .encodeCondition (fun _ => .chosen_apart) c fun i _ => (Stable.chosen hP).encode i

end Chosen

theorem encodeOptimization_ok {o : Optimization} {shape : Shape} {options : Options} {p : Problem}
    (h : encodeOptimization o shape options = .ok p) :
    ∃ src tgt w,
      encodeProgram o.sourceNames o.source ⟨o.table, shape, options, true⟩ ⟨.start, .none, 0⟩ = .ok ((), src) ∧
      encodeProgram o.targetNames o.target ⟨o.table, shape, options, false⟩ ⟨.start, .none, src.fresh⟩ =
        .ok ((), tgt) ∧
      encodeCondition o.pre ⟨o.table, shape, options, false⟩ ⟨src.state, .none, tgt.fresh⟩ = .ok (p.pre, w) ∧
      p = ⟨w.state, tgt.state, p.pre, shape⟩ := by
  obtain ⟨⟨_, src⟩, hsrc, h⟩ := bind_ok.1 h
  obtain ⟨⟨_, tgt⟩, htgt, h⟩ := bind_ok.1 h
  obtain ⟨⟨pre, w⟩, hpre, h⟩ := bind_ok.1 h
  cases h
  exact ⟨src, tgt, w, hsrc, htgt, hpre, rfl⟩

/-- **Where arbitrary choices come from**: what holds of the variables that encoding makes up holds of all choices
in the source. -/
theorem encodeOptimization_chosen {o : Optimization} {shape : Shape} {options : Options} {p : Problem}
    {P : Var → Prop} (hP : ∀ v, Made o.table v → P v) (h : encodeOptimization o shape options = .ok p) :
    (∀ e ∈ p.source.vars, ∀ v ∈ e.2.conds.free, P v) ∧ ∀ v ∈ p.source.memoryFree, P v := by
  obtain ⟨src, tgt, w, hsrc, -, hpre, hp⟩ := encodeOptimization_ok h
  have hchosen : src.Chosen P := chosen_encodeProgram hP hsrc (.start 0)
  have hstart : Work.Chosen P ⟨src.state, .none, tgt.fresh⟩ :=
    ⟨nofun, hchosen.memory, hchosen.vars⟩
  have hw : w.Chosen P := chosen_encodeCondition hP o.pre _ _ _ hstart hpre
  rw [hp]
  exact ⟨hw.vars, hw.memory⟩

end Peephole.Encode
