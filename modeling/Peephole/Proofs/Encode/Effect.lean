import Mathlib.Data.List.Forall2
import Peephole.Encode.Observe
import Peephole.Proofs.Program.Dict

/-!
# The effect of encoding

For each part of the encoding, what a run that succeeds has found and how it has changed the state.  Proofs about
encodings use these statements and do not look into the definitions again.

* `bind_ok` : a sequence succeeds if its parts do.
* `operand_ok` : an operand is looked up by its key, and its conditions are taken over (`Work.adopt`).
* `arithTerm_ok`, `gepTerm_iff`, `loadTerm_ok`, `storeBytes_ok` : the instructions.
* `addBranch_eq` : a branch records, for each of its two targets, the condition under which control goes there and the
  memory it goes there with.
* `addValue_eq`, `addLeaf_ok` : a value is recorded with the conditions of the basic block in front of its own, and its
  branch if it is one (`Branches`).
-/

namespace Peephole.Encode

open Logic Program

variable {α β : Type} {s : Setting} {w w' : Work} {i x : ValueId} {a t : Term} {v : Value} {n : Nat} {m : Memory}
  {r : Unit}

/-! ### Sequences -/

@[simp] theorem bind_run (x : EncodeM α) (f : α → EncodeM β) :
    (x >>= f) s w = (x s w).bind fun r => f r.1 s r.2 := rfl

@[simp] theorem map_run (x : EncodeM α) (f : α → β) :
    (f <$> x) s w = (x s w).bind fun r => .ok (f r.1, r.2) := rfl

@[simp] theorem ok_bind (a : α) (f : α → Except Error β) : (Except.ok a).bind f = f a := rfl

@[simp] theorem error_bind (e : Error) (f : α → Except Error β) : (Except.error e).bind f = .error e := rfl

theorem bind_ok {x : Except Error α} {f : α → Except Error β} {b : β} :
    x.bind f = .ok b ↔ ∃ a, x = .ok a ∧ f a = .ok b := by
  cases x with
  | error e => simp
  | ok a => simp

@[simp] theorem pure_run (a : α) : (pure a : EncodeM α) s w = .ok (a, w) := rfl

@[simp] theorem read_run : (read : EncodeM Setting) s w = .ok (s, w) := rfl

@[simp] theorem get_run : (get : EncodeM Work) s w = .ok (w, w) := rfl

@[simp] theorem modify_run (f : Work → Work) : (modify f : EncodeM Unit) s w = .ok ((), f w) := rfl

@[simp] theorem stop_run (f : Fault) : (stop f : EncodeM α) s w = .error (.fault f) := rfl

@[simp] theorem valueAt_run (i : ValueId) : valueAt i s w = .ok (s.table.get i, w) := rfl

theorem valueAt_bind (i : ValueId) (f : Value → EncodeM α) : (valueAt i >>= f) s w = f (s.table.get i) s w := rfl

@[simp] theorem modifyState_run (f : State → State) :
    modifyState f s w = .ok ((), { w with state := f w.state }) := rfl

@[simp] theorem addDefined_run (ps : List Formula) :
    addDefined ps s w = .ok ((), { w with conds.defined := w.conds.defined ++ ps }) := rfl

@[simp] theorem addPoison_run (ps : List Formula) :
    addPoison ps s w = .ok ((), { w with conds.poison := w.conds.poison ++ ps }) := rfl

@[simp] theorem addFree_run (vs : List Var) :
    addFree vs s w = .ok ((), { w with conds.free := w.conds.free ++ vs }) := rfl

@[simp] theorem check_run (r : Except Error α) : check r s w = r.bind fun a => .ok (a, w) := by
  cases r with
  | ok a => rfl
  | error e => rfl

/-! ### Tables and conditions -/

theorem holds_append (env : Env) (ps qs : List Formula) :
    holds env (ps ++ qs) = (holds env ps && holds env qs) := by
  simp [holds]

/-! ### Operands -/

def Conditions.append (c d : Conditions) : Conditions :=
  ⟨c.defined ++ d.defined, c.poison ++ d.poison, c.free ++ d.free⟩

/-- The work with further conditions on the value being encoded. -/
def Work.adopt (w : Work) (c : Conditions) : Work := { w with conds := w.conds.append c }

/-- The work after the conditions of several operands have been taken over. -/
def Work.adoptAll (w : Work) (es : List Encoded) : Work := es.foldl (fun w e => w.adopt e.conds) w

@[simp] theorem Work.adopt_state (w : Work) (c : Conditions) : (w.adopt c).state = w.state := rfl

@[simp] theorem Work.adoptAll_nil (w : Work) : w.adoptAll [] = w := rfl

@[simp] theorem Work.adoptAll_cons (w : Work) (e : Encoded) (es : List Encoded) :
    w.adoptAll (e :: es) = (w.adopt e.conds).adoptAll es := rfl

@[simp] theorem Work.adoptAll_state (w : Work) (es : List Encoded) : (w.adoptAll es).state = w.state := by
  induction es generalizing w with
  | nil => rfl
  | cons e es ih => rw [adoptAll_cons, ih, adopt_state]

@[simp] theorem Work.adoptAll_defined (w : Work) (es : List Encoded) :
    (w.adoptAll es).conds.defined = w.conds.defined ++ es.flatMap (·.conds.defined) := by
  induction es generalizing w with
  | nil => simp
  | cons e es ih => simp [ih, adopt, Conditions.append]

@[simp] theorem Work.adoptAll_poison (w : Work) (es : List Encoded) :
    (w.adoptAll es).conds.poison = w.conds.poison ++ es.flatMap (·.conds.poison) := by
  induction es generalizing w with
  | nil => simp
  | cons e es ih => simp [ih, adopt, Conditions.append]

@[simp] theorem Work.adoptAll_free (w : Work) (es : List Encoded) :
    (w.adoptAll es).conds.free = w.conds.free ++ es.flatMap (·.conds.free) := by
  induction es generalizing w with
  | nil => simp
  | cons e es ih => simp [ih, adopt, Conditions.append]

/-- The encodings of values that were encoded before. -/
def Found (s : Setting) (d : Dict Encoded) : List ValueId → List Encoded → Prop :=
  List.Forall₂ fun i e => d.get? (s.table.get i).key = some e

theorem operand_run {e : Encoded} (he : w.state.vars.get? (s.table.get i).key = some e) (ht : e.value = some t) :
    operand i s w = .ok (t, w.adopt e.conds) := by
  simp [operand, he, ht, Work.adopt, Conditions.append]

theorem operand_ok (h : operand i s w = .ok (t, w')) :
    ∃ e, w.state.vars.get? (s.table.get i).key = some e ∧ e.value = some t ∧ w' = w.adopt e.conds := by
  rcases he : w.state.vars.get? (s.table.get i).key with _ | e
  · simp [operand, he] at h
  · rcases ht : e.value with _ | u
    · simp [operand, he, ht] at h
    · rw [operand_run he ht] at h
      cases h
      exact ⟨e, rfl, ht, rfl⟩

/-! ### Sizes -/

def Setting.HasSize (s : Setting) (v : Value) (n : Nat) : Prop := ∃ t, v.type = some t ∧ s.sizeOf t = .ok n

@[simp] theorem sizeOf_run (t : PlacedTy) : sizeOf t s w = (s.sizeOf t).bind fun n => .ok (n, w) := by
  simp [sizeOf]

theorem valueSize_run (h : s.HasSize v n) : valueSize v s w = .ok (n, w) := by
  obtain ⟨t, ht, hn⟩ := h
  simp [valueSize, typeOf, ht, hn]

theorem valueSize_ok (h : valueSize v s w = .ok (n, w')) : s.HasSize v n ∧ w' = w := by
  rcases ht : v.type with _ | t
  · simp [valueSize, typeOf, ht] at h
  · simp only [valueSize, typeOf, ht, bind_run, pure_run, ok_bind, sizeOf_run, bind_ok] at h
    obtain ⟨m, hm, h⟩ := h
    cases h
    exact ⟨⟨t, ht, hm⟩, rfl⟩

theorem typeOf_ok {t : PlacedTy} (h : typeOf v s w = .ok (t, w')) : v.type = some t ∧ w' = w := by
  rcases ht : v.type with _ | u
  · simp [typeOf, ht] at h
  · simp only [typeOf, ht, pure_run] at h
    cases h
    exact ⟨rfl, rfl⟩

/-! ### Arithmetic -/

theorem arithTerm_run {op : ArithOp} {y : ValueId} {flags : List Flag} {e e' : Encoded}
    {b : Term} (he : w.state.vars.get? (s.table.get x).key = some e) (ha : e.value = some a)
    (he' : w.state.vars.get? (s.table.get y).key = some e') (hb : e'.value = some b) (hn : s.HasSize v n) :
    arithTerm v op x y flags s w = .ok (.op (bitOp op) a b,
      (w.adoptAll [e, e']).adopt ⟨arithDefined n op a b, promises s v op flags n a b, []⟩) := by
  simp only [arithTerm, bind_run, operand_run he ha, ok_bind]
  rw [operand_run (w := w.adopt e.conds) he' hb, ok_bind, valueSize_run hn, ok_bind, read_run, ok_bind]
  simp [Work.adopt, Conditions.append]

theorem arithTerm_ok {op : ArithOp} {y : ValueId} {flags : List Flag} (h : arithTerm v op x y flags s w = .ok (t, w')) :
    ∃ e e' a b n, Found s w.state.vars [x, y] [e, e'] ∧ e.value = some a ∧ e'.value = some b ∧
      s.HasSize v n ∧ t = .op (bitOp op) a b ∧
      w' = (w.adoptAll [e, e']).adopt ⟨arithDefined n op a b, promises s v op flags n a b, []⟩ := by
  have h' := h
  simp only [arithTerm, bind_run, bind_ok] at h
  obtain ⟨⟨a, w₁⟩, ha, ⟨b, w₂⟩, hb, ⟨n, w₃⟩, hn, -⟩ := h
  obtain ⟨e, he, hea, rfl⟩ := operand_ok ha
  obtain ⟨e', he', heb, rfl⟩ := operand_ok hb
  obtain ⟨hn, -⟩ := valueSize_ok hn
  rw [arithTerm_run he hea he' heb hn] at h'
  cases h'
  exact ⟨e, e', a, b, n, .cons he (.cons he' .nil), hea, heb, hn, rfl, rfl⟩

/-! ### Memory -/

def Work.setMemory (w : Work) (m : Memory) : Work := { w with state.memory := some m }

theorem memory_run (hm : w.state.memory = some m) : memory s w = .ok (m, w) := by
  simp [memory, hm]

theorem memory_ok (h : memory s w = .ok (m, w')) : w.state.memory = some m ∧ w' = w := by
  rcases hm : w.state.memory with _ | m'
  · simp [memory, hm] at h
  · rw [memory_run hm] at h
    cases h
    exact ⟨rfl, rfl⟩

/-- The work after an access under further conditions: they are recorded for the value, and all conditions of the
value for the rest of the basic block. -/
def Work.accessed (w : Work) (ps : List Formula) : Work :=
  { w with
    conds.defined := w.conds.defined ++ ps
    state.defined := w.state.defined ++ (w.conds.defined ++ ps) }

@[simp] theorem access_run (size align : Int) (a : Term) :
    access size align a s w = .ok ((), w.accessed (accessConditions w.state size align a)) := rfl

section Address

variable {place q : String} {ty u : Ty} {xs : List ValueId} {d : Dict Encoded} {es : List Encoded}
  {steps : List (Nat × Term)}

/-- A type that points to something is made of it. -/
theorem underlying_of_pointee {sh : Shape} (h : sh.pointee place ty = .ok (q, u)) :
    sh.underlying place ty = .ok (q, u) := by
  obtain ⟨⟨p, v⟩, hsettle, h⟩ := bind_ok.1 h
  unfold Shape.underlying
  rw [hsettle]
  cases v with
  | ptr v => exact h
  | _ => cases h

/-- Each index steps through a pointer, over values of a size in bits. -/
inductive Steps (s : Setting) (d : Dict Encoded) :
    String → Ty → List ValueId → List Encoded → List (Nat × Term) → Prop
  | nil {place : String} {ty : Ty} : Steps s d place ty [] [] []
  | cons {place q : String} {ty u : Ty} {x : ValueId} {xs : List ValueId} {e : Encoded} {es : List Encoded} {m : Nat}
    {a : Term} {steps : List (Nat × Term)} (hp : s.shape.pointee place ty = .ok (q, u))
    (hm : s.sizeOf ⟨q, u⟩ = .ok m) (he : d.get? (s.table.get x).key = some e) (ha : e.value = some a)
    (h : Steps s d q u xs es steps) : Steps s d place ty (x :: xs) (e :: es) ((m, a) :: steps)

/-- The address behind a step. -/
def stepTerm (ptr : Term) (step : Nat × Term) : Term :=
  .op .add ptr (.op .mul (.const (bytes (allocSize step.1)) ptr.width) (step.2.resizeSigned ptr.width))

theorem Steps.found (h : Steps s d place ty xs es steps) : Found s d xs es ∧ ∀ e ∈ es, e.value.isSome = true := by
  induction h with
  | nil => exact ⟨.nil, by simp⟩
  | cons _ _ he ha _ ih => exact ⟨.cons he ih.1, List.forall_mem_cons.2 ⟨by simp [ha], ih.2⟩⟩

theorem gepTerm_iff {ptr : Term} : gepTerm ptr place ty xs s w = .ok (t, w') ↔
    ∃ es steps, Steps s w.state.vars place ty xs es steps ∧ t = steps.foldl stepTerm ptr ∧ w' = w.adoptAll es := by
  induction xs generalizing w ptr place ty with
  | nil =>
    constructor
    · rintro ⟨⟩
      exact ⟨[], [], .nil, rfl, rfl⟩
    · rintro ⟨_, _, ⟨⟩, rfl, rfl⟩
      rfl
  | cons x xs ih =>
    -- behind the last index nothing is left to step through
    have hcons {e : Encoded} {a : Term} {m : Nat} {q : String} {u : Ty}
        (he : w.state.vars.get? (s.table.get x).key = some e) (ha : e.value = some a)
        (hp : s.shape.pointee place ty = .ok (q, u)) (hm : s.sizeOf ⟨q, u⟩ = .ok m) :
        gepTerm ptr place ty (x :: xs) s w = gepTerm (stepTerm ptr (m, a)) q u xs s (w.adopt e.conds) := by
      simp only [gepTerm, bind_run, operand_run he ha, read_run, check_run, hp, sizeOf_run, hm, ok_bind]
      split
      · next hnil =>
        rw [List.isEmpty_iff.1 hnil]
        rfl
      · simp only [bind_run, check_run, underlying_of_pointee hp, ok_bind]
        rfl
    constructor
    · intro h
      have hrun := h
      simp only [gepTerm, bind_run, read_run, ok_bind, check_run, sizeOf_run, bind_ok] at h
      obtain ⟨⟨a, w₁⟩, ha, _, ⟨⟨q, u⟩, hp, h₁⟩, _, ⟨m, hm, -⟩, -⟩ := h
      cases h₁
      obtain ⟨e, he, ha, -⟩ := operand_ok ha
      obtain ⟨es, steps, hsteps, ht, hw⟩ := ih.1 ((hcons he ha hp hm).symm.trans hrun)
      exact ⟨e :: es, (m, a) :: steps, .cons hp hm he ha hsteps, ht, hw⟩
    · rintro ⟨_, _, hsteps, rfl, rfl⟩
      cases hsteps with
      | cons hp hm he ha h => exact (hcons he ha hp hm).trans (ih.2 ⟨_, _, h, rfl, rfl⟩)

end Address

/-- The work after a load of `n` bits from the address `a`. -/
def Work.loaded (w : Work) (e : Encoded) (a : Term) (n align : Nat) : Work :=
  (({ w with conds.free := w.conds.free ++ w.state.memoryFree } : Work).adopt e.conds).accessed
    (accessConditions w.state (allocSize n) align a)

theorem loadTerm_eq {e : Encoded} (align : Nat)
    (he : w.state.vars.get? (s.table.get x).key = some e) (ha : e.value = some a) (hn : s.HasSize v n)
    (hm : w.state.memory = some m) : loadTerm v x align s w =
      ((Term.concatAll (loadParts m a n)).elim (stop .brokenInvariant) pure : EncodeM Term) s
        (w.loaded e a n align) := by
  have hoperand : ∀ c, operand x s { w with conds := c } = .ok (a, ({ w with conds := c } : Work).adopt e.conds) :=
    fun c => operand_run (w := { w with conds := c }) he ha
  have hmemory : memory s (w.loaded e a n align) = .ok (m, w.loaded e a n align) :=
    memory_run (w := w.loaded e a n align) hm
  rw [loadTerm]
  simp only [bind_run, get_run, ok_bind, addFree_run, access_run, hoperand, valueSize_run hn]
  change (memory s (w.loaded e a n align)).bind _ = _
  rw [hmemory, ok_bind]
  cases Term.concatAll (loadParts m a n) with
  | none => rfl
  | some t => rfl

theorem loadTerm_ok {align : Nat} (h : loadTerm v x align s w = .ok (t, w')) :
    ∃ e a n m, Found s w.state.vars [x] [e] ∧ e.value = some a ∧ s.HasSize v n ∧ w.state.memory = some m ∧
      Term.concatAll (loadParts m a n) = some t ∧ w' = w.loaded e a n align := by
  have hrun := h
  simp only [loadTerm, bind_run, get_run, ok_bind, addFree_run, access_run, bind_ok] at h
  obtain ⟨⟨a, w₁⟩, ha, ⟨n, w₂⟩, hn, ⟨m, w₃⟩, hm, -⟩ := h
  obtain ⟨e, he, hea, rfl⟩ := operand_ok ha
  obtain ⟨hsize, rfl⟩ := valueSize_ok hn
  replace hm : w.state.memory = some m := (memory_ok hm).1
  rw [loadTerm_eq (w := w) align he hea hsize hm] at hrun
  cases hc : Term.concatAll (loadParts m a n) with
  | none =>
    rw [hc] at hrun
    cases hrun
  | some u =>
    rw [hc] at hrun
    cases hrun
    exact ⟨e, a, n, m, .cons he .nil, hea, hsize, hm, hc, rfl⟩

/-- The work after a store of `n` bits to the address `b`, but for the memory. -/
def Work.stored (w : Work) (e e' : Encoded) (b : Term) (n align : Nat) : Work :=
  ({ w.adoptAll [e, e'] with state.memoryFree := w.state.memoryFree ++ (e.conds.free ++ e'.conds.free) } :
    Work).accessed (accessConditions w.state (allocSize n) align b)

theorem storeBytes_ok {ty : PlacedTy} {y : ValueId} {align : Nat} (h : storeBytes ty x y align s w = .ok ((), w')) :
    ∃ e e' a b n, Found s w.state.vars [x, y] [e, e'] ∧ e.value = some a ∧ e'.value = some b ∧
      s.sizeOf ty = .ok n ∧ w' = { w.stored e e' b n align with
        state.memory := w.state.memory.map (writeWord (.allOf (w.stored e e' b n align).state.defined) a b n) } := by
  simp only [storeBytes, bind_run, get_run, modifyState_run, access_run, sizeOf_run, ok_bind, bind_ok] at h
  obtain ⟨⟨a, w₁⟩, hx, ⟨b, w₂⟩, hy, ⟨n, w₃⟩, ⟨_, hn, hn'⟩, h⟩ := h
  obtain ⟨e, he, hea, rfl⟩ := operand_ok hx
  obtain ⟨e', he', heb, rfl⟩ := operand_ok hy
  cases hn'
  have hdrop : ((w.adopt e.conds).adopt e'.conds).conds.free.drop w.conds.free.length =
      e.conds.free ++ e'.conds.free := by
    simp [Work.adopt, Conditions.append]
  simp only [hdrop] at h
  cases h
  exact ⟨e, e', a, b, n, .cons he (.cons he' .nil), hea, heb, hn, rfl⟩

theorem freshNumber_run : freshNumber s w = .ok (w.fresh, { w with fresh := w.fresh + 1 }) := rfl

/-! ### Values -/

theorem apart_ok {x : EncodeM α} {a : α} {c : Conditions} (h : apart x s w = .ok ((a, c), w')) :
    ∃ w₁, x s { w with conds := .none } = .ok (a, w₁) ∧ c = w₁.conds ∧ w' = { w₁ with conds := w.conds } := by
  simp only [apart, bind_run, get_run, modify_run, pure_run, ok_bind, bind_ok] at h
  obtain ⟨⟨b, w₁⟩, hb, h⟩ := h
  cases h
  exact ⟨w₁, hb, rfl, rfl⟩

/-- Entering a basic block changes only the memory and the conditions for what is done in it. -/
theorem State.enter_eq (o : Options) (label : String) (st : State) :
    ∃ ds m, st.enter o label = { st with defined := ds, memory := m } := by
  unfold State.enter
  split
  · exact ⟨_, _, rfl⟩
  · exact ⟨_, _, rfl⟩

theorem addBranch_eq {c : ValueId} {l₁ l₂ : String} (h : addBranch c l₁ l₂ s w = .ok (r, w')) :
    ∃ e t m, w.state.vars.get? (s.table.get c).key = some e ∧ e.value = some t ∧ w.state.memory = some m ∧
      w' = { w with state.entries :=
        branchEntries w.state.entries l₁ l₂ (e.conds.taken t .ne) (e.conds.taken t .eq) m } := by
  simp only [addBranch, bind_run, bind_ok] at h
  obtain ⟨⟨⟨t, cs⟩, w₁⟩, ht, h⟩ := h
  obtain ⟨w₂, hw₂, rfl, rfl⟩ := apart_ok ht
  obtain ⟨e, he, het, rfl⟩ := operand_ok hw₂
  dsimp only at h
  split at h
  · simp at h
  · simp only [bind_run, bind_ok, modifyState_run] at h
    obtain ⟨⟨m, w₃⟩, hm, h⟩ := h
    obtain ⟨hmem, rfl⟩ := memory_ok hm
    cases h
    exact ⟨e, t, m, he, het, hmem, rfl⟩

/-- What a value does to the conditions of basic blocks: nothing, unless it is a branch. -/
def Branches (s : Setting) (i : ValueId) (w w' : Work) : Prop :=
  match (s.table.get i).op with
  | .br c l₁ l₂ => ∃ e t m, w.state.vars.get? (s.table.get c).key = some e ∧ e.value = some t ∧
      w.state.memory = some m ∧
      w' = { w with state.entries :=
        branchEntries w.state.entries l₁ l₂ (e.conds.taken t .ne) (e.conds.taken t .eq) m }
  | _ => w' = w

theorem addValue_eq (h : addValue i s w = .ok (r, w')) : ∃ t w₁, encode i s { w with conds := .none } = .ok (t, w₁) ∧
      Branches s i (({ w₁ with conds := w.conds } : Work).record (s.table.get i).key t w₁.conds) w' := by
  simp only [addValue, bind_run, valueAt_run, ok_bind, bind_ok, modify_run] at h
  obtain ⟨⟨⟨t, c⟩, w₁⟩, ht, h⟩ := h
  obtain ⟨w₂, hw₂, rfl, rfl⟩ := apart_ok ht
  dsimp only at h
  refine ⟨t, w₂, hw₂, ?_⟩
  unfold Branches
  cases hop : (s.table.get i).op
  case br x l₁ l₂ =>
    simp only [hop] at h
    exact addBranch_eq h
  all_goals
    simp only [hop, pure_run] at h
    cases h
    rfl

/-- A value is recorded under its key; a branch also changes the conditions of its targets. -/
theorem addValue_ok (h : addValue i s w = .ok (r, w')) :
    ∃ t w₁ entries, encode i s { w with conds := .none } = .ok (t, w₁) ∧
      w' = { ({ w₁ with conds := w.conds } : Work).record (s.table.get i).key t w₁.conds with
        state.entries := entries } := by
  obtain ⟨t, w₁, henc, hbranch⟩ := addValue_eq h
  unfold Branches at hbranch
  split at hbranch
  · obtain ⟨_, _, _, -, -, -, rfl⟩ := hbranch
    exact ⟨t, w₁, _, henc, rfl⟩
  · exact ⟨t, w₁, _, henc, hbranch⟩

theorem addLeaf_ok (h : addLeaf i s w = .ok (r, w')) :
    ∃ t w₁, encode i s { w with conds := .none } = .ok (t, w₁) ∧ w₁.conds.defined = [] ∧
      w₁.conds.poison = [] ∧
      w' = ({ w₁ with conds := w.conds } : Work).record (s.table.get i).key t w₁.conds := by
  simp only [addLeaf, bind_run, valueAt_run, ok_bind, bind_ok] at h
  obtain ⟨⟨⟨t, c⟩, w₁⟩, ht, h⟩ := h
  obtain ⟨w₂, hw₂, rfl, rfl⟩ := apart_ok ht
  dsimp only at h
  split at h
  · simp at h
  · next hc =>
    simp only [Bool.not_eq_true, Bool.not_eq_false', Bool.and_eq_true, List.isEmpty_iff] at hc
    cases h
    exact ⟨t, w₂, hw₂, hc.1, hc.2, rfl⟩

end Peephole.Encode
