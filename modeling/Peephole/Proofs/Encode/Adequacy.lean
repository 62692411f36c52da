import Peephole.Proofs.Encode.Arithmetic
import Peephole.Proofs.Encode.Run

/-!
# Adequacy of the encoding

The encoding of straight-line code means what a machine does that runs the code.

* `Encoding` : what encoding one value does; there is a lemma for each instruction.
* `Adequate.step`, `Adequate.chain` : encoding one more value, and many, keeps the encoding adequate.
* `straightLine_adequate` : the value, the definedness and the poison of every register.

The conditions of a value are put together from those of its operands, so they speak about the slice of the value.
The induction is on the values that are left, and carries that the values run so far are closed under operands:
then nothing that is run later belongs to their slices.
-/

namespace Peephole.Encode

open Logic Program Machine

variable {s : Setting} {width : String → Nat} {w w' : Work} {i : ValueId} {env : Env} {R : String → Nat}
variable {x : ValueId} {es : List Encoded}

/-- Inputs, literals and `undef`. -/
def isPlain : Op → Bool
  | .input | .literal _ | .undefined => true
  | _ => false

/-- Instructions that neither touch the memory nor end a block. -/
def isStraight : Op → Bool
  | .copy _ | .arith _ _ _ _ | .convert _ _ _ | .icmp _ _ _ _ | .select _ _ _ => true
  | _ => false

/-! ### One value -/

theorem settleChoice_of_openSize {shape : Shape} {countVar : ValueId → String} {p : String} {c : Choice} {n : Nat}
    (h : Shape.sizeOfClosed.openSize shape countVar p c = .ok n) : ∃ q, shape.settleChoice p c = .ok q := by
  unfold Shape.sizeOfClosed.openSize at h
  unfold Shape.settleChoice
  rcases hk : Shape.kindOfCode? (shape.values (Typing.kindVar p)) with _ | _ | _ | _
  · simp [hk] at h
  · rcases hc : c.int with _ | v
    · simp [hk, hc] at h
    · exact ⟨(p, .int v), by simp [Choice.get?, hc]⟩
  · rcases hc : c.ptr with _ | _
    · simp [hk, hc] at h
    · exact ⟨(p, .ptr (.int none)), by simp [Choice.get?, hc]⟩
  · rcases hc : c.array with _ | v
    · simp [hk, hc] at h
    · exact ⟨(p, .array v (.int none)), by simp [Choice.get?, hc]⟩

/-- A value with a size can be asked whether it points to a block; that may add a block of memory. -/
theorem pointsToBlock_run {v : Value} {n : Nat} (h : s.HasSize v n) (pointer : String) (free : List Var) :
    ∃ blocks vs, pointsToBlock v pointer n free s w =
      .ok ((), { w with state := { w.state with blocks := blocks, memoryFree := vs } }) := by
  obtain ⟨t, ht, hn⟩ := h
  obtain ⟨b, hb⟩ : ∃ b, s.behind v pointer n = .ok b := by
    unfold Setting.sizeOf at hn
    simp only [Setting.behind, ht]
    cases hk : t.ty with
    | ptr _ | int _ | array _ _ => exact ⟨_, rfl⟩
    | unknown c | named _ c _ =>
      rw [hk, Shape.sizeOfClosed] at hn
      obtain ⟨r, hr⟩ := settleChoice_of_openSize hn
      rw [Shape.settle, hr]
      exact ⟨_, rfl⟩
  simp only [pointsToBlock, bind_run, read_run, ok_bind, hb, check_run]
  cases b with
  | none => exact ⟨_, _, rfl⟩
  | some b =>
    simp only [modifyState_run, State.addInputBlock]
    split
    · exact ⟨_, _, rfl⟩
    · exact ⟨_, _, rfl⟩

/-- A value has been encoded as a term of its width. -/
def Reads (s : Setting) (width : String → Nat) (d : Dict Encoded) (x : ValueId) (e : Encoded) (t : Term) : Prop :=
  d.get? (keyOf s.table x) = some e ∧ e.value = some t ∧ t.width = width (keyOf s.table x)

/-- All operands of a value have been encoded. -/
def HasOperands (s : Setting) (width : String → Nat) (w : Work) (i : ValueId) : Prop :=
  ∀ x ∈ (s.table.get i).op.operands, ∃ e t, Reads s width w.state.vars x e t

/-- **What encoding a value does**: it gives a term `t`, and takes over the conditions of the operands `es`, to
which it adds its own conditions `c`.  They mean what the machine does on registers that hold the operands. -/
structure Encoding (s : Setting) (width : String → Nat) (w : Work) (i : ValueId) (es : List Encoded) (t : Term)
    (c : Conditions) (w' : Work) : Prop where
  run : encode i s w = .ok (some t, w')
  found : Found s w.state.vars (s.table.get i).op.operands es
  conds : w'.conds = (w.adoptAll es).conds.append c
  state : ∃ blocks free, w'.state = { w.state with blocks := blocks, memoryFree := free }
  fits : t.width = width (keyOf s.table i)
  means : ∀ env R, (∀ x ∈ (s.table.get i).op.operands, ∀ e u, Reads s width w.state.vars x e u →
      u.num env = R (keyOf s.table x)) →
    t.num env = word s width env R i ∧ holds env c.defined = !misbehaves s width R i ∧
      holds env c.poison = !overpromises s width env R i

/-- Inputs, literals and `undef` have no conditions. -/
theorem encode_plain (hi : isPlain (s.table.get i).op = true) (ht : WellTyped s width i) :
    ∃ t free w', Encoding s width w i [] t ⟨[], [], free⟩ w' := by
  have hsize : s.HasSize (s.table.get i) (width (keyOf s.table i)) := ht.2.1
  cases hop : (s.table.get i).op with
  | input =>
    obtain ⟨blocks, vs, hrun⟩ := pointsToBlock_run (w := w) hsize (s.table.get i).name []
    refine ⟨.var (s.table.get i).name _, [],
      { w with state := { w.state with blocks := blocks, memoryFree := vs } },
      ⟨?_, hop ▸ .nil, by simp [Conditions.append], ⟨_, _, rfl⟩, rfl, ?_⟩⟩
    · rw [encode, encodeWith, valueAt_bind, hop]
      simp only [bind_run, valueSize_run hsize, ok_bind, hrun, pure_run]
    · intro env R _
      simp [word, misbehaves, overpromises, hop, holds]
  | literal n =>
    refine ⟨.const n _, [], w, ⟨?_, hop ▸ .nil, by simp [Conditions.append], ⟨_, _, rfl⟩, rfl, ?_⟩⟩
    · rw [encode, encodeWith, valueAt_bind, hop]
      simp only [bind_run, valueSize_run hsize, ok_bind, pure_run]
    · intro env R _
      simp [word, misbehaves, overpromises, hop, holds]
  | undefined =>
    let free : List Var := [⟨undefVar (s.table.get i), .bits (width (keyOf s.table i))⟩]
    obtain ⟨blocks, vs, hrun⟩ := pointsToBlock_run
      (w := { w with conds.free := w.conds.free ++ free }) hsize (undefVar (s.table.get i)) free
    refine ⟨.var (undefVar (s.table.get i)) _, free,
      { w with
        conds.free := w.conds.free ++ free
        state := { w.state with blocks := blocks, memoryFree := vs } },
      ⟨?_, hop ▸ .nil, by simp [Conditions.append], ⟨_, _, rfl⟩, rfl, ?_⟩⟩
    · rw [encode, encodeWith, valueAt_bind, hop]
      simp only [bind_run, valueSize_run hsize, ok_bind, addFree_run, pure_run]
      exact bind_ok.2 ⟨_, hrun, rfl⟩
    · intro env R _
      simp [word, misbehaves, overpromises, hop, holds]
  | _ => simp [isPlain, hop] at hi

theorem Conditions.append_none (c : Conditions) : c.append .none = c := by
  simp [append, none]

/-- The conditions of an arithmetic instruction mean that it does not misbehave and keeps its promises. -/
theorem holds_promises {v : Value} {op : ArithOp} {flags : List Flag} {n : Nat} {a b : Term} (hn : 0 < n)
    (ha : a.width = n) (hb : b.width = n) :
    holds env (promises s v op flags n a b) = !(carried s env v op flags).any fun f =>
      Broken s.options.newShift n op f (a.num env) (b.num env) := by
  have hflag : ∀ f, (flagHolds s.options.newShift n op f a b).eval env =
      !decide (Broken s.options.newShift n op f (a.num env) (b.num env)) := by
    intro f
    rw [Bool.eq_iff_iff, flagHolds_iff _ _ _ hn ha hb]
    simp
  have hset : ∀ name, (Formula.cmp .eq (.var name 1) (.const 1 1)).eval env =
      decide (wrap 1 (env.bits name) = 1) := by
    intro name
    rw [Bool.eq_iff_iff, Formula.eval_cmp_of_width (a := .var name 1) (b := .const 1 1) rfl, meets_eq_iff,
      Term.num_var, Term.num_const, decide_eq_true_iff]
    rfl
  unfold promises carried
  split
  · simp [holds, hflag, hset, List.all_map, List.not_any_eq_all_not, List.any_filter, Function.comp_def]
  · simp [holds, hflag, List.all_map, List.not_any_eq_all_not, Function.comp_def]

section Instructions

variable (ht : WellTyped s width i) (hread : HasOperands s width w i)

include ht hread

theorem encode_copy (hop : (s.table.get i).op = .copy x) : ∃ es t c w', Encoding s width w i es t c w' := by
  obtain ⟨hpos, hsize, hfit⟩ := ht
  simp only [hop] at hfit
  obtain ⟨e, t, he, hte, htw⟩ := hread x (by simp [hop, Op.operands])
  refine ⟨[e], t, .none, w.adoptAll [e], ⟨?_, hop ▸ .cons he .nil, (Conditions.append_none _).symm, ⟨_, _, rfl⟩,
    htw.trans hfit, ?_⟩⟩
  · rw [encode, encodeWith, valueAt_bind, hop]
    simp only [bind_run, operand_run he hte, ok_bind, pure_run]
    rfl
  · intro env R hR
    have hx := hR x (by simp [hop, Op.operands]) e t ⟨he, hte, htw⟩
    simp [word, misbehaves, overpromises, hop, holds, Conditions.none, hx]

theorem encode_arith {op : ArithOp} {y : ValueId} {flags : List Flag}
    (hop : (s.table.get i).op = .arith op x y flags) : ∃ es t c w', Encoding s width w i es t c w' := by
  obtain ⟨hpos, hsize, hfit⟩ := ht
  simp only [hop] at hfit
  obtain ⟨e, a, he, hea, haw⟩ := hread x (by simp [hop, Op.operands])
  obtain ⟨e', b, he', heb, hbw⟩ := hread y (by simp [hop, Op.operands])
  have haw' := haw.trans hfit.1
  have hbw' := hbw.trans hfit.2
  refine ⟨[e, e'], .op (bitOp op) a b, ⟨arithDefined (width (keyOf s.table i)) op a b,
      promises s (s.table.get i) op flags (width (keyOf s.table i)) a b, []⟩,
    (w.adoptAll [e, e']).adopt _, ⟨?_, hop ▸ .cons he (.cons he' .nil), rfl, ⟨_, _, rfl⟩, haw', ?_⟩⟩
  · rw [encode, encodeWith, valueAt_bind, hop]
    simp only [bind_run, arithTerm_run he hea he' heb hsize, ok_bind, pure_run]
  · intro env R hR
    have hx := hR x (by simp [hop, Op.operands]) e a ⟨he, hea, haw⟩
    have hy := hR y (by simp [hop, Op.operands]) e' b ⟨he', heb, hbw⟩
    refine ⟨?_, ?_, ?_⟩
    · rw [Term.num_op_of_width op (hbw'.trans haw'.symm), haw', hx, hy]
      simp [word, hop]
    · rw [Bool.eq_iff_iff, arithDefined_iff op hpos haw' hbw', hx, hy]
      simp [misbehaves, hop]
    · rw [holds_promises hpos haw' hbw', hx, hy]
      simp [overpromises, hop]

theorem encode_convert {op : ConvertOp} {source : PlacedTy}
    (hop : (s.table.get i).op = .convert op source x) : ∃ es t c w', Encoding s width w i es t c w' := by
  obtain ⟨hpos, hsize, hfit⟩ := ht
  simp only [hop] at hfit
  obtain ⟨e, a, he, hea, haw⟩ := hread x (by simp [hop, Op.operands])
  refine ⟨[e], convertTerm op (width (keyOf s.table x)) (width (keyOf s.table i)) a, .none, w.adoptAll [e],
    ⟨?_, hop ▸ .cons he .nil, (Conditions.append_none _).symm, ⟨_, _, rfl⟩, width_convertTerm hpos haw hfit.2, ?_⟩⟩
  · rw [encode, encodeWith, valueAt_bind, hop]
    simp only [bind_run, operand_run he hea, sizeOf_run, hfit.1, valueSize_run hsize, ok_bind, pure_run]
    rfl
  · intro env R hR
    have hx := hR x (by simp [hop, Op.operands]) e a ⟨he, hea, haw⟩
    simp [word, misbehaves, overpromises, hop, holds, Conditions.none, num_convertTerm hpos haw hfit.2, hx]

theorem encode_icmp {pred : Predicate} {ty : PlacedTy} {y : ValueId}
    (hop : (s.table.get i).op = .icmp pred ty x y) : ∃ es t c w', Encoding s width w i es t c w' := by
  obtain ⟨-, -, hfit⟩ := ht
  simp only [hop] at hfit
  obtain ⟨e, a, he, hea, haw⟩ := hread x (by simp [hop, Op.operands])
  obtain ⟨e', b, he', heb, hbw⟩ := hread y (by simp [hop, Op.operands])
  have hba : b.width = a.width := hbw.trans (hfit.2.symm.trans haw.symm)
  refine ⟨[e, e'], comparisonTerm (s.table.get i).name pred a b, .none, w.adoptAll [e, e'],
    ⟨?_, hop ▸ .cons he (.cons he' .nil), (Conditions.append_none _).symm, ⟨_, _, rfl⟩,
      (width_comparisonTerm _ pred).trans hfit.1.symm, ?_⟩⟩
  · rw [encode, encodeWith, valueAt_bind, hop]
    simp only [bind_run, operand_run he hea, operand_run (w := w.adopt e.conds) he' heb, ok_bind, pure_run]
    rfl
  · intro env R hR
    have hx := hR x (by simp [hop, Op.operands]) e a ⟨he, hea, haw⟩
    have hy := hR y (by simp [hop, Op.operands]) e' b ⟨he', heb, hbw⟩
    simp [word, misbehaves, overpromises, hop, holds, Conditions.none, num_comparisonTerm _ pred hba, hx, hy, haw]

theorem encode_select {c y : ValueId} (hop : (s.table.get i).op = .select c x y) :
    ∃ es t c w', Encoding s width w i es t c w' := by
  obtain ⟨-, -, hfit⟩ := ht
  simp only [hop] at hfit
  obtain ⟨e₀, p, he₀, hep, hpw⟩ := hread c (by simp [hop, Op.operands])
  obtain ⟨e, a, he, hea, haw⟩ := hread x (by simp [hop, Op.operands])
  obtain ⟨e', b, he', heb, hbw⟩ := hread y (by simp [hop, Op.operands])
  have hba : b.width = a.width := hbw.trans (hfit.2.2.trans (haw.trans hfit.2.1).symm)
  refine ⟨[e₀, e, e'], .ite (.cmp .eq p (numberLike 1 p)) a b, .none, w.adoptAll [e₀, e, e'],
    ⟨?_, hop ▸ .cons he₀ (.cons he (.cons he' .nil)), (Conditions.append_none _).symm, ⟨_, _, rfl⟩,
      haw.trans hfit.2.1, ?_⟩⟩
  · rw [encode, encodeWith, valueAt_bind, hop]
    simp only [bind_run, operand_run he₀ hep, operand_run (w := w.adopt e₀.conds) he hea,
      operand_run (w := (w.adopt e₀.conds).adopt e.conds) he' heb, ok_bind, pure_run]
    rfl
  · intro env R hR
    have hc := hR c (by simp [hop, Op.operands]) e₀ p ⟨he₀, hep, hpw⟩
    have hx := hR x (by simp [hop, Op.operands]) e a ⟨he, hea, haw⟩
    have hy := hR y (by simp [hop, Op.operands]) e' b ⟨he', heb, hbw⟩
    have hone : (Formula.cmp .eq p (numberLike 1 p)).eval env = true ↔ R (keyOf s.table c) = 1 := by
      rw [eval_cmp_number, meets_eq_iff, hpw, hfit.1, hc]
      rfl
    simp [word, misbehaves, overpromises, hop, holds, Conditions.none, Term.num_ite_of_width hba, hone, hx, hy]

theorem encode_instr (hi : isStraight (s.table.get i).op = true) :
    ∃ es t c w', Encoding s width w i es t c w' := by
  cases hop : (s.table.get i).op with
  | copy x => exact encode_copy ht hread hop
  | arith op x y flags => exact encode_arith ht hread hop
  | convert op source x => exact encode_convert ht hread hop
  | icmp pred ty x y => exact encode_icmp ht hread hop
  | select c x y => exact encode_select ht hread hop
  | _ => simp [isStraight, hop] at hi

end Instructions

/-! ### A program -/

theorem apart_run {α : Type} {x : EncodeM α} {r : α} (h : x s { w with conds := .none } = .ok (r, w')) :
    apart x s w = .ok ((r, w'.conds), { w' with conds := w.conds }) := by
  simp [apart, h]

theorem addValue_run {t : Option Term} (hi : isStraight (s.table.get i).op = true)
    (h : encode i s { w with conds := .none } = .ok (t, w')) :
    addValue i s w =
      .ok ((), ({ w' with conds := w.conds } : Work).record (keyOf s.table i) t w'.conds) := by
  simp only [addValue, bind_run, valueAt_run, ok_bind, apart_run h, modify_run]
  cases hop : (s.table.get i).op
  case br => simp [isStraight, hop] at hi
  all_goals rfl

theorem addLeaf_run {t : Option Term} (h : encode i s { w with conds := .none } = .ok (t, w'))
    (hd : w'.conds.defined = []) (hp : w'.conds.poison = []) :
    addLeaf i s w =
      .ok ((), ({ w' with conds := w.conds } : Work).record (keyOf s.table i) t w'.conds) := by
  simp [addLeaf, apart_run h, hd, hp, keyOf]

/-- The task encodes the value and records it. -/
def Performs (s : Setting) (width : String → Nat) (w : Work) (i : ValueId) (task : Task) : Prop :=
  ∃ es t c w', Encoding s width { w with conds := .none } i es t c w' ∧ task.perform s.options s w =
    .ok ((), ({ w' with conds := w.conds } : Work).record (keyOf s.table i) (some t) w'.conds)

/-- The encoding of the value under a key means what the machine has found there. -/
def Means (s : Setting) (width : String → Nat) (is done : List ValueId) (k : String) (e : Encoded) : Prop :=
  ∃ t, e.value = some t ∧ t.width = width k ∧ ∀ env,
    t.num env = (run s width env done).registers k ∧
    (holds env e.conds.defined = true ↔
      ∀ k', Slice s.table is k k' → k' ∉ (run s width env done).undefined) ∧
    (holds env e.conds.poison = true ↔
      ∀ k', Slice s.table is k k' → k' ∉ (run s width env done).broken)

/-- The encodings of the values that were run mean what the machine has found. -/
structure Adequate (s : Setting) (width : String → Nat) (is done : List ValueId) (w : Work) : Prop where
  means : ∀ i ∈ done, ∃ e, w.state.vars.get? (keyOf s.table i) = some e ∧
    Means s width is done (keyOf s.table i) e
  defined : w.state.defined = []
  entries : w.state.entries = []

section Steps

variable {is done : List ValueId} {k : String}

/-- Running one more value changes nothing for a value that does not use it. -/
theorem Means.concat {e : Encoded} (h : Means s width is done k e)
    (hslice : ∀ k', Slice s.table is k k' → k' ≠ keyOf s.table i) : Means s width is (done ++ [i]) k e := by
  obtain ⟨t, ht, hwidth, hmeans⟩ := h
  refine ⟨t, ht, hwidth, fun env => ?_⟩
  obtain ⟨hnum, hdefined, hpoison⟩ := hmeans env
  rw [run_concat, Outcome.step_registers_of_ne (hslice k .refl)]
  refine ⟨hnum, hdefined.trans ?_, hpoison.trans ?_⟩
  · refine forall₂_congr fun k' hk' => ?_
    rw [Outcome.mem_step_undefined, not_or]
    exact (and_iff_left fun h => hslice k' hk' h.1).symm
  · refine forall₂_congr fun k' hk' => ?_
    rw [Outcome.mem_step_broken, not_or]
    exact (and_iff_left fun h => hslice k' hk' h.1).symm

/-- What holds for each operand holds for all encodings that were found. -/
theorem Found.forall_iff {d : Dict Encoded} {xs : List ValueId} {P : Encoded → Prop}
    {Q : ValueId → Prop} (h : Found s d xs es)
    (hiff : ∀ x ∈ xs, ∀ e, d.get? (keyOf s.table x) = some e → (P e ↔ Q x)) :
    (∀ e ∈ es, P e) ↔ ∀ x ∈ xs, Q x := by
  induction h with
  | nil => simp
  | cons he _ ih =>
    rw [List.forall_mem_cons, List.forall_mem_cons, ih fun x hx => hiff x (List.mem_cons_of_mem _ hx),
      hiff _ List.mem_cons_self _ he]

theorem holds_flatMap {f : Encoded → List Formula} :
    holds env (es.flatMap f) = true ↔ ∀ e ∈ es, holds env (f e) = true := by
  simp [holds, List.all_flatMap]

/-- The conditions of a value mean that nothing was noted for its slice: `noted` are the keys that were noted
before, and `bad` says whether the value itself is noted. -/
theorem holds_iff_slice {f : Encoded → List Formula} {ps : List Formula} {noted : List String}
    {bad : Bool} (hnodup : (is.map (keyOf s.table)).Nodup) (hi : i ∈ is) (hnew : keyOf s.table i ∉ noted)
    (hnot : ∀ x ∈ (s.table.get i).op.operands, ∀ k, Slice s.table is (keyOf s.table x) k → k ≠ keyOf s.table i)
    (hes : (∀ e ∈ es, holds env (f e) = true) ↔ ∀ x ∈ (s.table.get i).op.operands,
      ∀ k, Slice s.table is (keyOf s.table x) k → k ∉ noted)
    (hps : holds env ps = !bad) {noted' : List String}
    (hnoted : ∀ k, k ∈ noted' ↔ k ∈ noted ∨ k = keyOf s.table i ∧ bad = true) :
    holds env (es.flatMap f ++ ps) = true ↔
      ∀ k, Slice s.table is (keyOf s.table i) k → k ∉ noted' := by
  rw [holds_append, Bool.and_eq_true, holds_flatMap, hes, hps, Bool.not_eq_true']
  simp only [slice_iff hnodup hi, hnoted]
  constructor
  · rintro ⟨hops, hbad⟩ k (rfl | ⟨x, hx, hk⟩)
    · simp [hnew, hbad]
    · rintro (hk' | ⟨rfl, -⟩)
      · exact hops x hx k hk hk'
      · exact hnot x hx _ hk rfl
  · intro h
    refine ⟨fun x hx k hk hk' => h k (.inr ⟨x, hx, hk⟩) (.inl hk'), ?_⟩
    by_contra hbad
    exact h _ (.inl rfl) (.inr ⟨rfl, by simpa using hbad⟩)

/-- The values that were run, as far as a further value `i` of the program is concerned. -/
structure Behind (t : Table) (is done : List ValueId) (i : ValueId) : Prop where
  nodup : (is.map (keyOf t)).Nodup
  sub : done ⊆ is
  mem : i ∈ is
  closed : Closed t done
  new : keyOf t i ∉ done.map (keyOf t)
  operands : ∀ x ∈ (t.get i).op.operands, keyOf t x ∈ done.map (keyOf t)

theorem Behind.not_slice (h : Behind s.table is done i) (hk : k ∈ done.map (keyOf s.table)) {k' : String}
    (hslice : Slice s.table is k k') : k' ≠ keyOf s.table i := by
  rintro rfl
  exact h.new (hslice.mem_of_closed h.nodup h.sub h.closed hk)

/-- The operands of the next value have been encoded as terms of their widths. -/
theorem Adequate.hasOperands (hw : Adequate s width is done w) (h : Behind s.table is done i) :
    HasOperands s width w i := by
  intro x hx
  obtain ⟨j, hj, hkey⟩ := List.mem_map.1 (h.operands x hx)
  obtain ⟨e, he, t, ht, hwidth, -⟩ := hw.means j hj
  exact ⟨e, t, hkey ▸ he, ht, hkey ▸ hwidth⟩

/-- **Encoding a value keeps the encoding adequate.** -/
theorem Adequate.step (hw : Adequate s width is done w) (h : Behind s.table is done i)
    {t : Term} {c : Conditions} (henc : Encoding s width { w with conds := .none } i es t c w') :
    Adequate s width is (done ++ [i])
      (({ w' with conds := w.conds } : Work).record (keyOf s.table i) (some t) w'.conds) := by
  obtain ⟨blocks, free, hstate⟩ := henc.state
  have hdefined : w'.state.defined = [] := by rw [hstate, ← hw.defined]
  have hconds : w'.conds.defined = es.flatMap (·.conds.defined) ++ c.defined ∧
      w'.conds.poison = es.flatMap (·.conds.poison) ++ c.poison := by
    rw [henc.conds]
    simp [Conditions.append, Conditions.none]
  refine ⟨fun j hj => ?_, hdefined, by rw [Work.record, hstate, ← hw.entries]⟩
  simp only [Work.record, get?_put, hdefined, List.nil_append]
  rw [show w'.state.vars = w.state.vars by rw [hstate]]
  rcases List.mem_append.1 hj with hj | hj
  · -- a value that was run before
    have hk : keyOf s.table j ∈ done.map (keyOf s.table) := List.mem_map_of_mem hj
    obtain ⟨e, he, hmeans⟩ := hw.means j hj
    rw [if_neg (h.not_slice hk .refl).symm]
    exact ⟨e, he, hmeans.concat fun k' hk' => h.not_slice hk hk'⟩
  · obtain rfl := List.mem_singleton.1 hj
    rw [if_pos rfl]
    refine ⟨_, rfl, t, rfl, henc.fits, fun env => ?_⟩
    have hmeans : ∀ x ∈ (s.table.get j).op.operands, ∀ e, w.state.vars.get? (keyOf s.table x) = some e →
        Means s width is done (keyOf s.table x) e := by
      intro x hx e he
      obtain ⟨l, hl, hkey⟩ := List.mem_map.1 (h.operands x hx)
      obtain ⟨e', he', hmeans⟩ := hw.means l hl
      rw [hkey] at he' hmeans
      obtain rfl := Option.some.inj (he.symm.trans he')
      exact hmeans
    obtain ⟨hnum, hdef, hpoison⟩ := henc.means env (run s width env done).registers (by
      rintro x hx e u ⟨he, hu, -⟩
      obtain ⟨u', hu', -, hall⟩ := hmeans x hx e he
      obtain rfl := Option.some.inj (hu.symm.trans hu')
      exact (hall env).1)
    have hnot : ∀ x ∈ (s.table.get j).op.operands, ∀ k, Slice s.table is (keyOf s.table x) k →
        k ≠ keyOf s.table j := fun x hx k hk => h.not_slice (h.operands x hx) hk
    rw [run_concat, Outcome.step_registers_self]
    refine ⟨hnum, ?_, ?_⟩
    · rw [hconds.1]
      refine holds_iff_slice h.nodup h.mem (fun hk => h.new ((run_noted done).1 _ hk)) hnot ?_ hdef
        fun k => Outcome.mem_step_undefined
      exact henc.found.forall_iff fun x hx e he => ((hmeans x hx e he).choose_spec.2.2 env).2.1
    · rw [hconds.2]
      refine holds_iff_slice h.nodup h.mem (fun hk => h.new ((run_noted done).2 _ hk)) hnot ?_ hpoison
        fun k => Outcome.mem_step_broken
      exact henc.found.forall_iff fun x hx e he => ((hmeans x hx e he).choose_spec.2.2 env).2.2

/-- **Encoding values one after another keeps the encoding adequate**, and succeeds if each value can be encoded
once its operands have been. -/
theorem Adequate.chain (hw : Adequate s width is done w) (hnodup : (is.map (keyOf s.table)).Nodup)
    (task : ValueId → Task) (rest : List ValueId)
    (htask : ∀ i ∈ rest, ∀ w : Work, HasOperands s width w i → Performs s width w i (task i))
    (hsub : done ++ rest ⊆ is) (hclosed : Closed s.table done)
    (hscoped : Scoped s.table (done.map (keyOf s.table)) rest) :
    ∃ w', Chain s (Task.perform s.options) (rest.map task) w w' ∧ Adequate s width is (done ++ rest) w' ∧
      Closed s.table (done ++ rest) := by
  induction rest generalizing done w with
  | nil => exact ⟨w, rfl, by simpa using hw, by simpa using hclosed⟩
  | cons i rest ih =>
    obtain ⟨hnew, hoperands, hscoped⟩ := hscoped
    have hbehind : Behind s.table is done i :=
      ⟨hnodup, fun _ h => hsub (List.mem_append_left _ h), hsub (by simp), hclosed, hnew, hoperands⟩
    obtain ⟨es, t, c, w₁, henc, hrun⟩ := htask i List.mem_cons_self w (hw.hasOperands hbehind)
    obtain ⟨w', hchain, hw', hclosed'⟩ := ih (hw.step hbehind henc)
      (fun j hj => htask j (List.mem_cons_of_mem i hj)) (by simpa using hsub) (hclosed.concat hoperands)
      (by simpa using hscoped)
    exact ⟨w', ⟨_, hrun, hchain⟩, by simpa using hw', by simpa using hclosed'⟩

end Steps

/-- The values of a program with one block, in the order in which they are encoded. -/
def valuesOf (t : Table) (names block : Dict ValueId) : List ValueId := leavesOf t names ++ block.map Prod.snd

/-- **Typed straight-line code**: over inputs, literals and `undef`, each instruction has its operands in front of
it, and widths fit. -/
structure StraightLine (s : Setting) (width : String → Nat) (names block : Dict ValueId) : Prop where
  leaves : ∀ e ∈ names, isLeaf s.table e.2 = true → isPlain (s.table.get e.2).op = true
  instructions : ∀ e ∈ block, isStraight (s.table.get e.2).op = true
  ordered : Scoped s.table [] (valuesOf s.table names block)
  typed : ∀ i ∈ valuesOf s.table names block, WellTyped s width i

section Program

variable {names block : Dict ValueId}

theorem perform_leaf (hi : isPlain (s.table.get i).op = true) (ht : WellTyped s width i) (w : Work) :
    Performs s width w i (.leaf i) := by
  obtain ⟨t, free, w', henc⟩ := encode_plain (w := { w with conds := .none }) hi ht
  refine ⟨[], t, _, w', henc, addLeaf_run henc.run ?_ ?_⟩
  · rw [henc.conds]
    rfl
  · rw [henc.conds]
    rfl

theorem perform_value (hi : isStraight (s.table.get i).op = true) (ht : WellTyped s width i) (w : Work)
    (hread : HasOperands s width w i) : Performs s width w i (.value i) := by
  obtain ⟨es, t, c, w', henc⟩ := encode_instr (w := { w with conds := .none }) ht hread hi
  exact ⟨es, t, c, w', henc, addValue_run hi henc.run⟩

/-- Encoding straight-line code succeeds, and what it gives is adequate. -/
theorem StraightLine.adequate (h : StraightLine s width names block) (label : String) (fresh : Nat) :
    ∃ w, encodeProgram names [(label, block)] s ⟨.start, .none, fresh⟩ = .ok ((), w) ∧
      Adequate s width (valuesOf s.table names block) (valuesOf s.table names block) w := by
  have hnodup : ((valuesOf s.table names block).map (keyOf s.table)).Nodup := by
    simpa using h.ordered.nodup List.nodup_nil
  obtain ⟨hleaves, hblock⟩ := scoped_append.1 h.ordered
  have hstart : Adequate s width (valuesOf s.table names block) [] ⟨.start, .none, fresh⟩ :=
    ⟨by simp, rfl, rfl⟩
  obtain ⟨w₁, hchain₁, hw₁, hclosed⟩ := hstart.chain hnodup .leaf (leavesOf s.table names)
    (by
      intro i hi w _
      obtain ⟨e, he, rfl⟩ := List.mem_map.1 hi
      obtain ⟨he, hleaf⟩ := List.mem_filter.1 he
      exact perform_leaf (h.leaves e he hleaf) (h.typed _ (List.mem_append_left _ hi)) w)
    (by simp [valuesOf]) (by simp [Closed]) hleaves
  -- nothing branches to the block, so that it starts without conditions
  have henter : Adequate s width (valuesOf s.table names block) (leavesOf s.table names)
      { w₁ with state := w₁.state.enter s.options label } := by
    have hstate : w₁.state.enter s.options label =
        { w₁.state with defined := [], memory := some (State.initialMemory s.options) } := by
      simp [State.enter, hw₁.entries, Dict.get?]
    rw [hstate]
    exact ⟨by simpa using hw₁.means, rfl, hw₁.entries⟩
  obtain ⟨w₂, hchain₂, hw₂, -⟩ := henter.chain hnodup .value (block.map Prod.snd)
    (by
      intro i hi w hread
      obtain ⟨e, he, rfl⟩ := List.mem_map.1 hi
      exact perform_value (h.instructions e he) (h.typed _ (List.mem_append_right _ hi)) w hread)
    (List.Subset.refl _) (by simpa using hclosed) hblock
  refine ⟨w₂, encodeProgram_ok.2 (Chain.append.2 ⟨w₁, ?_, ?_⟩), hw₂⟩
  · exact hchain₁
  · refine ⟨_, rfl, ?_⟩
    simpa [blockTasks, List.map_map, Function.comp_def] using hchain₂

/-- **Adequacy of the encoding.**  Straight-line code can be encoded, and in every environment the encoding of each
value means what the machine does that runs the code: its term is the word of the value, its first conditions hold
if no instruction in its slice had undefined behaviour, and its second ones if none of them broke the promise of a
flag. -/
theorem straightLine_adequate (h : StraightLine s width names block) (label : String) (fresh : Nat) :
    ∃ w, encodeProgram names [(label, block)] s ⟨.start, .none, fresh⟩ = .ok ((), w) ∧
      ∀ i ∈ valuesOf s.table names block, ∃ e t, w.state.vars.get? (s.table.get i).key = some e ∧
        e.value = some t ∧ t.width = width (s.table.get i).key ∧ ∀ env,
          let is := valuesOf s.table names block
          let out := run s width env is
          (t.eval env).toNat = out.registers (s.table.get i).key ∧
          (holds env e.conds.defined = true ↔
            ∀ k, Slice s.table is (s.table.get i).key k → k ∉ out.undefined) ∧
          (holds env e.conds.poison = true ↔
            ∀ k, Slice s.table is (s.table.get i).key k → k ∉ out.broken) := by
  obtain ⟨w, hrun, hw⟩ := h.adequate label fresh
  refine ⟨w, hrun, fun i hi => ?_⟩
  obtain ⟨e, he, t, ht, hwidth, hmeans⟩ := hw.means i hi
  exact ⟨e, t, he, ht, hwidth, hmeans⟩

end Program

/-! ### Twice a quotient -/

def byteValue (name : String) (op : Op) : Value := ⟨name, name, some ⟨name, .int (some 8)⟩, op⟩

/-- `%a = udiv %x, %y` and `%r = add nsw %a, %a` on bytes. -/
def twiceQuotient : Setting where
  table := ⟨#[byteValue "%x" .input, byteValue "%y" .input, byteValue "%a" (.arith .udiv 0 1 []),
    byteValue "%r" (.arith .add 2 2 [.nsw])], 0⟩
  shape := default
  options := { }
  inSource := true

def twiceQuotientNames : Dict ValueId := [("%x", 0), ("%y", 1), ("%a", 2), ("%r", 3)]

def twiceQuotientBlock : Dict ValueId := [("%a", 2), ("%r", 3)]

theorem twiceQuotient_straightLine :
    StraightLine twiceQuotient (fun _ => 8) twiceQuotientNames twiceQuotientBlock where
  leaves := by decide
  instructions := by decide
  ordered := by decide
  typed := by
    have hvalues : valuesOf twiceQuotient.table twiceQuotientNames twiceQuotientBlock = [0, 1, 2, 3] := by decide
    rw [hvalues]
    simp only [List.forall_mem_cons, List.not_mem_nil, false_imp_iff, implies_true, and_true]
    exact ⟨⟨by decide, ⟨_, rfl, rfl⟩, trivial⟩, ⟨by decide, ⟨_, rfl, rfl⟩, trivial⟩,
      ⟨by decide, ⟨_, rfl, rfl⟩, rfl, rfl⟩, ⟨by decide, ⟨_, rfl, rfl⟩, rfl, rfl⟩⟩

/-- The environment in which `%x` and `%y` are the given numbers. -/
def quotientEnv (x y : Int) : Env where
  bits n := if n = "%x" then x else if n = "%y" then y else 0
  truth _ := false
  byte _ _ := 0

/-- The quotient of 200 and 2 is doubled to 200, which is no signed byte; a quotient by zero is undefined. -/
theorem twiceQuotient_adequate :
    StraightLine twiceQuotient (fun _ => 8) twiceQuotientNames twiceQuotientBlock ∧
      ∃ w e t, encodeProgram twiceQuotientNames [("", twiceQuotientBlock)] twiceQuotient ⟨.start, .none, 0⟩ =
          .ok ((), w) ∧ w.state.vars.get? "%r" = some e ∧ e.value = some t ∧
        (t.eval (quotientEnv 200 2)).toNat = 200 ∧ holds (quotientEnv 200 2) e.conds.defined = true ∧
        holds (quotientEnv 200 2) e.conds.poison = false ∧
        holds (quotientEnv 200 0) e.conds.defined = false := by
  obtain ⟨w, hrun, hall⟩ := straightLine_adequate twiceQuotient_straightLine "" 0
  obtain ⟨e, t, he, ht, -, hmeans⟩ := hall 3 (by decide)
  obtain ⟨hnum, hdefined, hpoison⟩ := hmeans (quotientEnv 200 2)
  obtain ⟨-, hzero, -⟩ := hmeans (quotientEnv 200 0)
  refine ⟨twiceQuotient_straightLine, w, e, t, hrun, he, ht, hnum.trans (by decide), hdefined.2 ?_, ?_, ?_⟩
  · intro k _
    rw [show (run twiceQuotient (fun _ => 8) (quotientEnv 200 2)
      (valuesOf twiceQuotient.table twiceQuotientNames twiceQuotientBlock)).undefined = [] by decide]
    exact List.not_mem_nil
  · rw [← Bool.not_eq_true, hpoison]
    exact fun h => h "%r" .refl (by decide)
  · rw [← Bool.not_eq_true, hzero]
    exact fun h => h "%a" (.single ⟨3, by decide, rfl, 2, by decide, rfl⟩) (by decide)

end Peephole.Encode
