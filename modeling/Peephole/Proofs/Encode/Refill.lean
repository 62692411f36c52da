import Peephole.Proofs.Encode.Run
import Peephole.Proofs.Logic.Fill

/-!
# Encoding with another initial memory

Encoding does not look into the initial memory: to encode with another one is the same as to encode and then fill
in the other memory.

* `Follows` : a computation does what another one does, with memories filled in.  There is one lemma for each
  function of the encoder, and loops and branches keep the relation.
* `encodeOptimization_fill` : **encoding an optimization with another initial memory is filling it in**.
-/

namespace Peephole.Encode

open Logic Program
open Elaborate (Optimization)

section Fill

variable (τ : String → Memory)

def Conditions.fill (c : Conditions) : Conditions :=
  ⟨c.defined.map (Formula.fill τ), c.poison.map (Formula.fill τ), c.free⟩

def Encoded.fill (e : Encoded) : Encoded := ⟨e.value.map (Term.fill τ), e.conds.fill τ⟩

def State.fill (st : State) : State where
  vars := List.map (fun e => (e.1, e.2.fill τ)) st.vars
  defined := st.defined.map (Formula.fill τ)
  blocks := st.blocks
  memoryFree := st.memoryFree
  entries := List.map (fun e => (e.1, e.2.map fun m => (m.1.fill τ, m.2.fill τ))) st.entries
  memory := st.memory.map (Memory.fill τ)

def Work.fill (w : Work) : Work := ⟨w.state.fill τ, w.conds.fill τ, w.fresh⟩

/-- The precondition with memories filled in. -/
def Requirement.fill (r : Requirement) : Requirement :=
  ⟨r.given.map (Formula.fill τ), r.asked.map (Formula.fill τ)⟩

/-! ### Operators -/

@[simp] theorem fill_numberLike (n : Int) (t : Term) : (numberLike n t).fill τ = numberLike n (t.fill τ) := by
  simp [numberLike]

@[simp] theorem fill_arithDefined (n : Nat) (op : ArithOp) (a b : Term) :
    (arithDefined n op a b).map (Formula.fill τ) = arithDefined n op (a.fill τ) (b.fill τ) := by
  cases op <;> simp [arithDefined, divisionDefined]

@[simp] theorem fill_shiftsBack (there back : BitOp) (a b : Term) :
    (shiftsBack there back a b).fill τ = shiftsBack there back (a.fill τ) (b.fill τ) := by
  simp [shiftsBack]

@[simp] theorem fill_flagHolds (newShift : Bool) (n : Nat) (op : ArithOp) (f : Flag) (a b : Term) :
    (flagHolds newShift n op f a b).fill τ = flagHolds newShift n op f (a.fill τ) (b.fill τ) := by
  unfold flagHolds
  split <;> try simp
  split <;> simp

@[simp] theorem fill_comparisonTerm (register : String) (pred : Predicate) (a b : Term) :
    (comparisonTerm register pred a b).fill τ = comparisonTerm register pred (a.fill τ) (b.fill τ) := by
  cases pred with
  | known c => simp [comparisonTerm]
  | any name => simp [comparisonTerm, comparisonTerm.choose, comparisons]

@[simp] theorem fill_convertTerm (op : ConvertOp) (m n : Nat) (a : Term) :
    (convertTerm op m n a).fill τ = convertTerm op m n (a.fill τ) := by
  cases op <;> simp [convertTerm]

@[simp] theorem fill_alignedTo? (t : Term) (align : Int) :
    (alignedTo? t align).map (Formula.fill τ) = alignedTo? (t.fill τ) align := by
  unfold alignedTo?
  split
  · rfl
  · split <;> simp

@[simp] theorem fill_accessConditions (st : State) (size align : Int) (t : Term) :
    (accessConditions st size align t).map (Formula.fill τ) =
      accessConditions (st.fill τ) size align (t.fill τ) := by
  simp [accessConditions, State.fill, Block.ptr, Function.comp_def, apply_ite (Formula.fill τ)]

theorem fill_loadParts (m : Memory) (a : Term) (n : Nat) :
    (loadParts m a n).map (Term.fill τ) = loadParts (m.fill τ) (a.fill τ) n := by
  unfold loadParts
  split <;> simp [Function.comp_def]

theorem fill_writeAll (g : Formula) (a v : Nat → Term) (is : List Nat) (m : Memory) :
    (writeAll g a v is m).fill τ =
      writeAll (g.fill τ) (fun i => (a i).fill τ) (fun i => (v i).fill τ) is (m.fill τ) := by
  induction is generalizing m with
  | nil => rfl
  | cons i is ih =>
    rw [writeAll, List.foldl_cons, ← writeAll, ih, Memory.fill_write]
    rfl

theorem fill_writeWord (g : Formula) (a b : Term) (n : Nat) (m : Memory) :
    (writeWord g a b n m).fill τ = writeWord (g.fill τ) (a.fill τ) (b.fill τ) n (m.fill τ) := by
  rw [writeWord, fill_writeAll]
  split <;> simp [writeWord, *]

end Fill

/-! ### Computations -/

/-- With `o'` in place of `o`, the initial memory is the one with the memories `τ` filled in. -/
structure Fills (τ : String → Memory) (o o' : Options) : Prop where
  newShift : o'.newShift = o.newShift
  inferFlags : o'.inferFlags = o.inferFlags
  memory : State.initialMemory o' = (State.initialMemory o).fill τ
  tame : Tame τ

/-- The second computation does with the options `o'` what the first one does, with memories filled in; `g` fills
them into the result. -/
def Follows {α β : Type} (τ : String → Memory) (s : Setting) (o' : Options) (g : α → β) (x : EncodeM α)
    (x' : EncodeM β) : Prop :=
  ∀ w, x' { s with options := o' } (w.fill τ) = (x s w).map fun r => (g r.1, r.2.fill τ)

section Follows

variable {α β γ δ : Type} {τ : String → Memory} {s : Setting} {o' : Options}

/-- To fill memories in before the computation is to fill them in afterwards. -/
abbrev Commutes (τ : String → Memory) (s : Setting) (o' : Options) (g : α → α) (x : EncodeM α) : Prop :=
  Follows τ s o' g x x

theorem Follows.pure {g : α → β} {a : α} {b : β} (h : b = g a) : Follows τ s o' g (pure a) (pure b) := by
  intro w
  rw [h]
  rfl

theorem Follows.stop (g : α → β) (f : Fault) : Follows τ s o' g (stop f) (stop f) := fun _ => rfl

theorem Follows.bind {g : α → β} {h : γ → δ} {x : EncodeM α} {x' : EncodeM β} {f : α → EncodeM γ}
    {f' : β → EncodeM δ} (hx : Follows τ s o' g x x') (hf : ∀ a, Follows τ s o' h (f a) (f' (g a))) :
    Follows τ s o' h (x >>= f) (x' >>= f') := by
  intro w
  rw [bind_run, bind_run, hx w]
  cases x s w with
  | error e => rfl
  | ok r => exact hf r.1 r.2

theorem Follows.read {g : α → β} {f : Setting → EncodeM α} {f' : Setting → EncodeM β}
    (h : Follows τ s o' g (f s) (f' { s with options := o' })) : Follows τ s o' g (read >>= f) (read >>= f') := h

theorem Follows.get : Commutes τ s o' (Work.fill τ) get := fun _ => rfl

theorem Follows.modify {f f' : Work → Work} (h : ∀ w, f' (w.fill τ) = (f w).fill τ) :
    Follows τ s o' id (modify f) (modify f') := by
  intro w
  rw [modify_run, modify_run, h]
  rfl

theorem Follows.check {g : α → β} {r : Except Error α} {r' : Except Error β} (h : r' = r.map g) :
    Follows τ s o' g (check r) (check r') := by
  intro w
  rw [h]
  cases r with
  | error e => rfl
  | ok a => rfl

theorem Follows.check_same (r : Except Error α) : Commutes τ s o' id (Encode.check r) := by
  refine .check ?_
  cases r <;> rfl

theorem Follows.stop_bind {f : α → EncodeM γ} {f' : β → EncodeM δ} (g : γ → δ) (e : Fault) :
    Follows τ s o' g (Encode.stop e >>= f) (Encode.stop e >>= f') := fun _ => rfl

theorem Follows.ite {c : Prop} [Decidable c] {g : α → β} {x y : EncodeM α} {x' y' : EncodeM β}
    (hx : Follows τ s o' g x x') (hy : Follows τ s o' g y y') :
    Follows τ s o' g (if c then x else y) (if c then x' else y') := by
  split
  · exact hx
  · exact hy

theorem Follows.valueAt (i : ValueId) : Commutes τ s o' id (valueAt i) := fun _ => rfl

theorem Follows.typeOf (v : Value) : Commutes τ s o' id (typeOf v) := by
  unfold Encode.typeOf
  cases v.type with
  | none => exact .stop _ _
  | some t => exact .pure rfl

theorem Follows.sizeOf (t : PlacedTy) : Commutes τ s o' id (sizeOf t) := by
  exact .read (.check_same _)

theorem Follows.valueSize (v : Value) : Commutes τ s o' id (valueSize v) :=
  .bind (.typeOf v) fun t => .sizeOf t

theorem Follows.addDefined {ps ps' : List Formula} (h : ps' = ps.map (Formula.fill τ)) :
    Follows τ s o' id (addDefined ps) (addDefined ps') := by
  refine .modify fun w => ?_
  simp [Work.fill, Conditions.fill, h]

theorem Follows.addPoison {ps ps' : List Formula} (h : ps' = ps.map (Formula.fill τ)) :
    Follows τ s o' id (addPoison ps) (addPoison ps') := by
  refine .modify fun w => ?_
  simp [Work.fill, Conditions.fill, h]

theorem Follows.addFree (vs : List Var) : Commutes τ s o' id (addFree vs) :=
  .modify fun _ => rfl

theorem Follows.clearDefined : Commutes τ s o' id clearDefined := .modify fun _ => rfl

theorem Follows.modifyState {f f' : State → State} (h : ∀ st, f' (st.fill τ) = (f st).fill τ) :
    Follows τ s o' id (modifyState f) (modifyState f') := by
  refine .modify fun w => ?_
  simp [Work.fill, h]

theorem get?_map (d : Dict α) (f : α → β) (k : String) :
    Dict.get? (List.map (fun e => (e.1, f e.2)) d) k = (d.get? k).map f := by
  simp [Dict.get?, List.find?_map, Function.comp_def]

theorem Follows.operand (i : ValueId) : Commutes τ s o' (Term.fill τ) (operand i) := by
  refine .bind .get fun w => .bind (.valueAt i) fun v => ?_
  have hget : (w.fill τ).state.vars.get? (id v).key = (w.state.vars.get? v.key).map (Encoded.fill τ) :=
    get?_map _ _ _
  rw [hget]
  cases w.state.vars.get? v.key with
  | none => exact .stop _ _
  | some e =>
    refine .bind (.addDefined rfl) fun _ => .bind (.addPoison rfl) fun _ => .bind (.addFree _) fun _ => ?_
    cases h : e.value with
    | none => simpa [Encoded.fill, h] using .stop _ _
    | some t => simpa [Encoded.fill, h] using .pure rfl

theorem Follows.mapM {g : β → γ} {f : α → EncodeM β} {f' : α → EncodeM γ} (h : ∀ a, Follows τ s o' g (f a) (f' a))
    (as : List α) : Follows τ s o' (List.map g) (as.mapM f) (as.mapM f') := by
  induction as with
  | nil =>
    rw [List.mapM_nil, List.mapM_nil]
    exact .pure rfl
  | cons a as ih =>
    rw [List.mapM_cons, List.mapM_cons]
    exact .bind (h a) fun b => .bind ih fun bs => .pure rfl

theorem Follows.forM {f f' : α → EncodeM Unit} (h : ∀ a, Follows τ s o' id (f a) (f' a)) (as : List α) :
    Follows τ s o' id (as.forM f) (as.forM f') := by
  induction as with
  | nil => exact .pure rfl
  | cons a as ih => exact .bind (h a) fun _ => ih

/-! ### Memory -/

theorem Follows.freshNumber : Commutes τ s o' id freshNumber := fun _ => rfl

theorem Follows.memory : Commutes τ s o' (Memory.fill τ) memory := by
  refine .bind .get fun w => ?_
  cases h : w.state.memory with
  | none => simpa [Work.fill, State.fill, h] using .stop _ _
  | some m => simpa [Work.fill, State.fill, h] using .pure rfl

theorem Follows.access (size align : Int) {a a' : Term} (h : a' = a.fill τ) :
    Follows τ s o' id (access size align a) (access size align a') := by
  refine .bind .get fun w => .bind (.addDefined ?_) fun _ => .bind .get fun w₁ => .modifyState fun st => ?_
  · rw [h, fill_accessConditions]
    rfl
  · simp [State.fill, Work.fill, Conditions.fill]

/-! ### Values -/

theorem Follows.arithTerm (ho : Fills τ s.options o') (v : Value) (op : ArithOp) (x y : ValueId)
    (flags : List Flag) : Commutes τ s o' (Term.fill τ) (arithTerm v op x y flags) := by
  refine .bind (.operand x) fun a => .bind (.operand y) fun b => .bind (.valueSize v) fun n => .read
    (.bind (.addPoison ?_) fun _ => .bind (.addDefined (by simp)) fun _ => .pure (by simp))
  simp only [promises, ho.newShift, ho.inferFlags]
  split <;> simp

theorem Follows.gepTerm {t t' : Term} (h : t' = t.fill τ) (place : String) (ty : Ty) (xs : List ValueId) :
    Follows τ s o' (Term.fill τ) (gepTerm t place ty xs) (gepTerm t' place ty xs) := by
  induction xs generalizing t t' place ty with
  | nil => exact .pure h
  | cons x xs ih =>
    simp only [Encode.gepTerm]
    refine .read (.bind (.operand x) fun a => .bind (.check_same _) fun q => .bind (.sizeOf _) fun n => .ite ?_ ?_)
    · refine .pure ?_
      simp [h]
    · refine .bind (.check_same _) fun q' => ih ?_ _ _
      simp [h]

theorem Follows.allocaTerm (v : Value) (count : ValueId) (align : Nat) :
    Commutes τ s o' (Term.fill τ) (allocaTerm v count align) := by
  refine .read (.bind (.check_same _) fun b => .ite (.bind (.addFree _) fun _ => .pure rfl) ?_)
  have hfill := fill_alignedTo? τ b.ptr align
  dsimp only [id_eq, Block.ptr, Term.fill] at hfill ⊢
  cases ha : alignedTo? (Term.var b.pointer b.pointerWidth) align with
  | none => exact .stop _ _
  | some p =>
    have hp : p.fill τ = p := by
      rw [ha] at hfill
      exact Option.some.inj hfill
    refine .bind (.addDefined ?_) fun _ => .bind .freshNumber fun k => .bind (.modifyState fun st => ?_) fun _ =>
      .pure rfl
    · simp [Block.placed, Block.ptr, apply_ite (List.map (Formula.fill τ)), hp]
    · cases h : st.memory with
      | none => simp [State.fill, h]
      | some m => simp [State.fill, h, Block.fill, Block.ptr, fill_writeAll]

theorem Follows.loadTerm (v : Value) (x : ValueId) (align : Nat) :
    Commutes τ s o' (Term.fill τ) (loadTerm v x align) := by
  refine .bind .get fun w => .bind (.addFree _) fun _ => .bind (.operand x) fun a => .bind (.valueSize v) fun n =>
    .bind (.access _ _ rfl) fun _ => ?_
  refine .bind .memory fun m => ?_
  rw [id_eq, ← fill_loadParts, Term.fill_concatAll]
  cases Term.concatAll (loadParts m a n) with
  | none => exact .stop _ _
  | some t => exact .pure rfl

theorem Follows.storeBytes (stored : PlacedTy) (x y : ValueId) (align : Nat) :
    Commutes τ s o' id (storeBytes stored x y align) := by
  refine .bind .get fun w => .bind (.operand x) fun a => .bind (.operand y) fun b => .bind .get fun w₁ =>
    .bind (.modifyState fun _ => rfl) fun _ => .bind (.sizeOf stored) fun n => .bind (.access _ _ rfl) fun _ =>
    .modifyState fun st => ?_
  cases h : st.memory with
  | none => simp [State.fill, h]
  | some m => simp [State.fill, h, fill_writeWord]

theorem Follows.pointsToBlock (v : Value) (pointer : String) (width : Nat) (free : List Var) :
    Commutes τ s o' id (pointsToBlock v pointer width free) := by
  refine .read (.bind (.check_same _) fun b => ?_)
  cases b with
  | none => exact .pure rfl
  | some b =>
    refine .modifyState fun st => ?_
    unfold State.addInputBlock
    rw [apply_ite (State.fill τ)]
    rfl

theorem Follows.callTerm (v : Value) (fn : ConstFn) (ts : List Term) :
    Follows τ s o' (Term.fill τ) (callTerm v fn ts) (callTerm v fn (ts.map (Term.fill τ))) := by
  refine .bind (.valueSize v) fun n => ?_
  dsimp only [id_eq]
  rcases ts with _ | ⟨a, _ | ⟨b, _ | ⟨c, ts⟩⟩⟩
  · cases fn <;> exact .stop _ _
  · cases fn with
    | signBits | knownOnes | knownZeros => exact .bind (.addDefined (by simp)) fun _ => .pure (by simp)
    | width => exact .bind .clearDefined fun _ => .pure (by simp)
    | abs | leadingZeros | trailingZeros | log2 | sext | zext | trunc => exact .pure (by simp)
    | lshr | max | umax => exact .stop _ _
  · cases fn with
    | lshr | max | umax => exact .pure (by simp)
    | _ => exact .stop _ _
  · cases fn <;> exact .stop _ _

theorem Follows.subTerm {sub sub' : ValueId → EncodeM (Option Term)}
    (h : ∀ i, Follows τ s o' (Option.map (Term.fill τ)) (sub i) (sub' i)) (i : ValueId) :
    Follows τ s o' (Term.fill τ) (subTerm sub i) (subTerm sub' i) := by
  refine .bind (h i) fun t => ?_
  cases t with
  | none => exact .stop _ _
  | some t => exact .pure rfl

theorem Follows.apart {g : α → β} {x : EncodeM α} {x' : EncodeM β} (h : Follows τ s o' g x x') :
    Follows τ s o' (Prod.map g (Conditions.fill τ)) (apart x) (apart x') :=
  .bind .get fun _ => .bind (.modify fun _ => rfl) fun _ => .bind h fun _ => .bind .get fun _ =>
    .bind (.modify fun _ => rfl) fun _ => .pure rfl

theorem fill_analysed (ht : Tame τ) (call : String) {given : List Formula} {ts ts' : List Term} {p p' : Formula}
    (hts : ts' = ts.map (Term.fill τ)) (hp : p' = p.fill τ) :
    analysed call (given.map (Formula.fill τ)) ts' p' = (analysed call given ts p).fill τ := by
  have hc : ts'.all Term.startsWithC = ts.all Term.startsWithC := by
    simp [hts, List.all_map, Function.comp_def, Term.startsWithC_fill τ ht]
  unfold analysed
  rw [hc, hp]
  split <;> simp [Requirement.fill]

theorem fill_testRequirement (ht : Tame τ) (t : Test) (call key : String) (given : List Formula)
    (ts : List Term) :
    testRequirement t call key (given.map (Formula.fill τ)) (ts.map (Term.fill τ)) =
      (testRequirement t call key given ts).map (Requirement.fill τ) := by
  rcases ts with _ | ⟨a, _ | ⟨b, _ | ⟨c, ts⟩⟩⟩
  · rfl
  · cases t with
    | isPowerOf2 | isPowerOf2OrZero =>
      exact congrArg Except.ok (fill_analysed ht call rfl (by simp [atMostOneBit]))
    | isShiftedMask | isSignBit | hasOneUse => simp [testRequirement, Except.map, Requirement.fill, usersVar]
    | _ => rfl
  · cases t with
    | equivalentAddresses | maskedIsZero | noSignedAdd | noUnsignedAdd | noSignedSub | noUnsignedSub | noSignedMul
    | noUnsignedMul => exact congrArg Except.ok (fill_analysed ht call rfl (by simp))
    | noUnsignedShl => simp [testRequirement, Except.map, Requirement.fill]
    | _ => rfl
  · rfl

theorem put_map (d : Dict α) (f : α → β) (k : String) (a : α) :
    Dict.put (List.map (fun e => (e.1, f e.2)) d) k (f a) = List.map (fun e => (e.1, f e.2)) (d.put k a) := by
  induction d with
  | nil => rfl
  | cons e d ih =>
    simp only [List.map_cons, Dict.put, ih]
    split <;> rfl

theorem Follows.addBranch (c : ValueId) (l₁ l₂ : String) : Commutes τ s o' id (addBranch c l₁ l₂) := by
  have hentry : ∀ (es : Dict (List (Formula × Memory))) (l : String) (p : Formula) (m : Memory),
      addEntry (List.map (fun e => (e.1, e.2.map fun m => (m.1.fill τ, m.2.fill τ))) es) l (p.fill τ) (m.fill τ) =
        List.map (fun e => (e.1, e.2.map fun m => (m.1.fill τ, m.2.fill τ))) (addEntry es l p m) := by
    intro es l p m
    rw [addEntry, addEntry, ← put_map, get?_map]
    cases es.get? (labelOf l) <;> simp
  refine .bind (.apart (.operand c)) fun r => ?_
  obtain ⟨t, conds⟩ := r
  dsimp only [Prod.map, Conditions.fill]
  refine .ite (.stop_bind _ _) (.bind .memory fun m => .modifyState fun st => ?_)
  simp only [State.fill, branchEntries, ← hentry]
  simp [Conditions.taken]

theorem fill_record (w : Work) (k : String) (t : Option Term) (c : Conditions) :
    (w.fill τ).record k (t.map (Term.fill τ)) (c.fill τ) = (w.record k t c).fill τ := by
  simp only [Work.record, Work.fill, State.fill, ← put_map]
  simp [Encoded.fill, Conditions.fill]

section Options

variable (ho : Fills τ s.options o')

include ho

theorem Follows.encodeWith {sub sub' : ValueId → EncodeM (Option Term)}
    (h : ∀ i, Follows τ s o' (Option.map (Term.fill τ)) (sub i) (sub' i)) (i : ValueId) :
    Follows τ s o' (Option.map (Term.fill τ)) (encodeWith sub i) (encodeWith sub' i) := by
  refine .bind (.valueAt i) fun v => ?_
  dsimp only [id_eq]
  cases v.op with
  | input => exact .bind (.valueSize v) fun n => .bind (.pointsToBlock _ _ _ _) fun _ => .pure rfl
  | literal k => exact .bind (.valueSize v) fun n => .pure rfl
  | undefined =>
    exact .bind (.valueSize v) fun n => .bind (.addFree _) fun _ => .bind (.pointsToBlock _ _ _ _) fun _ => .pure rfl
  | unary op x =>
    refine .bind (.subTerm h x) fun a => .pure ?_
    cases op <;> rfl
  | binary op x y => exact .bind (.subTerm h x) fun a => .bind (.subTerm h y) fun b => .pure rfl
  | call fn args => exact .bind (.mapM (.subTerm h) args) fun ts => .bind (.callTerm v fn ts) fun t => .pure rfl
  | count v lo hi var => exact .stop _ _
  | copy x => exact .bind (.operand x) fun a => .pure rfl
  | arith op x y flags => exact .bind (.arithTerm ho v op x y flags) fun t => .pure rfl
  | convert op source x =>
    refine .bind (.operand x) fun a => .bind (.sizeOf source) fun m => .bind (.valueSize v) fun n => .pure ?_
    simp
  | icmp pred ty x y =>
    refine .bind (.operand x) fun a => .bind (.operand y) fun b => .pure ?_
    simp
  | select c x y =>
    refine .bind (.operand c) fun p => .bind (.operand x) fun a => .bind (.operand y) fun b => .pure ?_
    simp
  | alloca ty n align => exact .bind (.allocaTerm v n align) fun t => .pure rfl
  | gep p indices inbounds =>
    exact .bind (.operand p) fun a => .bind (.typeOf v) fun t => .bind (.gepTerm rfl _ _ _) fun b => .pure rfl
  | load ty x align => exact .bind (.loadTerm v x align) fun t => .pure rfl
  | store stored x y align => exact .bind (.storeBytes stored x y align) fun _ => .pure rfl
  | skip => exact .pure rfl
  | unreachable => exact .bind (.addDefined rfl) fun _ => .pure rfl
  | br c l₁ l₂ => exact .pure rfl
  | ret x => exact .bind (.operand x) fun a => .pure rfl

theorem Follows.encode (i : ValueId) : Commutes τ s o' (Option.map (Term.fill τ)) (encode i) := by
  induction i using Nat.strongRecOn with
  | ind i ih =>
    rw [Encode.encode]
    refine .encodeWith ho (fun j => ?_) i
    split
    · next hj => exact ih j hj
    · exact .stop _ _

/-! ### Preconditions and programs -/

theorem Follows.argTerms (args : List ValueId) :
    Commutes τ s o' (Prod.map (List.map (Term.fill τ)) (List.map (Formula.fill τ))) (argTerms args) :=
  .bind (.apart (.mapM (.subTerm (.encode ho)) args)) fun _ => .pure rfl

theorem Follows.addValue (i : ValueId) : Commutes τ s o' id (addValue i) := by
  refine .bind (.valueAt i) fun v => .bind (.apart (.encode ho i)) fun r =>
    .bind (.modify fun w => fill_record w _ r.1 r.2) fun _ => ?_
  dsimp only [id_eq]
  cases v.op with
  | br c l₁ l₂ => exact .addBranch c l₁ l₂
  | _ => exact .pure rfl

theorem Follows.addLeaf (i : ValueId) : Commutes τ s o' id (addLeaf i) := by
  refine .bind (.valueAt i) fun v => .bind (.apart (.encode ho i)) fun r => ?_
  obtain ⟨t, conds⟩ := r
  dsimp only [Prod.map, Conditions.fill, id_eq]
  rw [List.isEmpty_map, List.isEmpty_map]
  exact .ite (.stop_bind _ _) (.modify fun w => fill_record w _ t conds)

theorem fill_enter (label : String) (st : State) :
    (st.fill τ).enter o' label = (st.enter s.options label).fill τ := by
  unfold State.enter
  have hget : (st.fill τ).entries.get? label =
      (st.entries.get? label).map (List.map fun m => (m.1.fill τ, m.2.fill τ)) := get?_map _ _ _
  rw [hget]
  cases st.entries.get? label with
  | none => simp [State.fill, ho.memory]
  | some es => simp [State.fill, Function.comp_def]

theorem Follows.encodeProgram (names : Dict ValueId) (p : Code) : Commutes τ s o' id (encodeProgram names p) := by
  refine .read (.bind (.forM (.addLeaf ho) _) fun _ => .forM (fun b => ?_) _)
  exact .bind (.modifyState fun st => fill_enter ho _ _) fun _ => .forM (fun e => .addValue ho _) _

end Options

mutual

theorem Follows.encodeCondition (ho : Fills τ s.options o') : ∀ c : Condition,
    Commutes τ s o' (Requirement.fill τ) (encodeCondition c)
  | .always => .pure rfl
  | .not c => .bind (Follows.encodeCondition ho c) fun r => .pure (by simp [Requirement.fill])
  | .both cs => .bind (Follows.encodeConditions ho cs) fun rs => .pure (by
      simp [Requirement.fill, List.flatMap_map, List.map_flatMap])
  | .either cs => .bind (Follows.encodeConditions ho cs) fun rs => .pure (by
      simp [Requirement.fill, List.flatMap_map, List.map_flatMap, Function.comp_def])
  | .compare op x y => by
    refine .bind (.argTerms ho [x, y]) fun r => ?_
    obtain ⟨ts, given⟩ := r
    rcases ts with _ | ⟨a, _ | ⟨b, _ | ⟨c, ts⟩⟩⟩
    · exact .stop _ _
    · exact .stop _ _
    · exact .pure rfl
    · exact .stop _ _
  | .test t args =>
    .bind (.argTerms ho args) fun r => .read (.check (fill_testRequirement ho.tame t _ _ r.2 r.1))

theorem Follows.encodeConditions (ho : Fills τ s.options o') : ∀ cs : List Condition,
    Commutes τ s o' (List.map (Requirement.fill τ)) (encodeConditions cs)
  | [] => .pure rfl
  | c :: cs => .bind (Follows.encodeCondition ho c) fun _ => .bind (Follows.encodeConditions ho cs) fun _ => .pure rfl

end

end Follows

def Problem.fill (τ : String → Memory) (p : Problem) : Problem :=
  ⟨p.source.fill τ, p.target.fill τ, p.pre.fill τ, p.shape⟩

theorem bind_eq_map {α β γ δ : Type} {x : Except Error α} {x' : Except Error β} {f : α → Except Error γ}
    {f' : β → Except Error δ} {g : α → β} {h : γ → δ} (hx : x' = x.map g) (hf : ∀ a, f' (g a) = (f a).map h) :
    (x' >>= f') = (x >>= f).map h := by
  rw [hx]
  cases x with
  | error e => rfl
  | ok a => exact hf a

theorem encodeOptimization_fill {τ : String → Memory} {options o' : Options} (ho : Fills τ options o')
    (o : Optimization) (shape : Shape) :
    encodeOptimization o shape o' = (encodeOptimization o shape options).map (Problem.fill τ) :=
  bind_eq_map (Follows.encodeProgram (s := ⟨o.table, shape, options, true⟩) ho _ _ ⟨.start, .none, 0⟩) fun src =>
    bind_eq_map (Follows.encodeProgram (s := ⟨o.table, shape, options, false⟩) ho _ _ ⟨.start, .none, src.2.fresh⟩)
      fun tgt => bind_eq_map (Follows.encodeCondition (s := ⟨o.table, shape, options, false⟩) ho _
        ⟨src.2.state, .none, tgt.2.fresh⟩) fun _ => rfl

end Peephole.Encode
