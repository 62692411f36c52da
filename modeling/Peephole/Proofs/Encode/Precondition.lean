import Mathlib
import Peephole.Proofs.Encode.Definedness

/-!
# Preconditions and the program they stand in front of

A precondition is encoded over the state of the source, behind the source.  Its arguments are encoded once more: an
operand of an instruction is looked up, but an argument of a precondition is not.

* `encodeCondition_ok` : encoding a precondition encodes its arguments one after another (`Encodes`).
* `encode_does` : all that encoding a value does to the program that was encoded before and to the conditions.
* `source_unchanged_iff` : **the source is the same behind its precondition as before it, if and only if the
  precondition does not ask about an allocation that is not empty**.  Such an allocation is made a second time: there
  is one more block, and it is filled once more.

A pointer from outside that was encoded before does no harm, since its block is known then.
-/

namespace Peephole.Encode

open Logic Program
open Elaborate (Optimization)

variable {s : Setting} {w w₁ w' : Work} {i j : ValueId} {is js : List ValueId}
variable {t : Term}

/-! ### Values one after another -/

/-- The values are encoded one after another.  Their conditions are put together somehow. -/
inductive Encodes (s : Setting) : List ValueId → Work → Work → Prop
  | nil (w : Work) (c : Conditions) : Encodes s [] w { w with conds := c }
  | cons {i : ValueId} {is : List ValueId} {w w₁ w' : Work} (c : Conditions) (t : Term)
    (h : encode i s { w with conds := c } = .ok (some t, w₁)) (hrest : Encodes s is w₁ w') : Encodes s (i :: is) w w'

theorem Encodes.withConds (h : Encodes s is w w') (c c' : Conditions) :
    Encodes s is { w with conds := c } { w' with conds := c' } := by
  induction h generalizing c with
  | nil w₀ c₀ => exact .nil { w₀ with conds := c } c'
  | cons c₀ t h _ ih => exact .cons c₀ t h (ih _)

theorem Encodes.append (h : Encodes s is w w₁) (h' : Encodes s js w₁ w') : Encodes s (is ++ js) w w' := by
  induction h with
  | nil w c => exact h'.withConds w.conds w'.conds
  | cons c t h _ ih => exact .cons c t h (ih h')

/-- The terms of several values are found by encoding them. -/
theorem Encodes.of_mapM {ts : List Term} (h : is.mapM (subTerm encode) s w = .ok (ts, w')) : Encodes s is w w' := by
  induction is generalizing w ts with
  | nil =>
    simp only [List.mapM_nil, pure_run] at h
    cases h
    exact .nil _ _
  | cons i is ih =>
    simp only [List.mapM_cons, bind_run, bind_ok, pure_run] at h
    obtain ⟨⟨t, w₁⟩, ht, ⟨us, w₂⟩, hus, h⟩ := h
    cases h
    exact .cons w.conds t (subTerm_ok ht) (ih hus)

theorem argTerms_ok {args : List ValueId} {r : List Term × List Formula} (h : argTerms args s w = .ok (r, w')) :
    Encodes s args w w' := by
  simp only [argTerms, bind_run, bind_ok, pure_run] at h
  obtain ⟨⟨⟨ts, c⟩, w₁⟩, hts, h⟩ := h
  obtain ⟨w₂, hw₂, -, rfl⟩ := apart_ok hts
  cases h
  exact (Encodes.of_mapM hw₂).withConds w.conds w.conds

mutual

/-- **Encoding a precondition encodes its arguments** and does nothing else to the state. -/
theorem encodeCondition_ok {w w' : Work} {r : Requirement} :
    (c : Condition) → encodeCondition c s w = .ok (r, w') → Encodes s (argsOf c) w w'
  | .always, h => by
    rw [encodeCondition] at h
    cases h
    exact .nil _ _
  | .not c, h => by
    rw [encodeCondition, bind_run, bind_ok] at h
    obtain ⟨_, hr, h⟩ := h
    cases h
    exact encodeCondition_ok c hr
  | .both cs, h | .either cs, h => by
    rw [encodeCondition, bind_run, bind_ok] at h
    obtain ⟨_, hr, h⟩ := h
    cases h
    exact encodeConditions_ok cs hr
  | .compare op x y, h => by
    rw [encodeCondition, bind_run, bind_ok] at h
    obtain ⟨⟨⟨ts, given⟩, w₁⟩, hr, h⟩ := h
    dsimp only at h
    split at h
    · cases h
      exact argTerms_ok hr
    · simp at h
  | .test t args, h => by
    rw [encodeCondition, bind_run, bind_ok] at h
    obtain ⟨⟨⟨ts, given⟩, w₁⟩, hr, h⟩ := h
    simp only [bind_run, read_run, ok_bind, check_run, bind_ok] at h
    obtain ⟨_, -, h⟩ := h
    cases h
    exact argTerms_ok hr

theorem encodeConditions_ok {w w' : Work} {rs : List Requirement} :
    (cs : List Condition) → encodeConditions cs s w = .ok (rs, w') → Encodes s (argsOfAll cs) w w'
  | [], h => by
    rw [encodeConditions] at h
    cases h
    exact .nil _ _
  | c :: cs, h => by
    rw [encodeConditions, bind_run, bind_ok] at h
    obtain ⟨_, hr, h⟩ := h
    rw [bind_run, bind_ok] at h
    obtain ⟨_, hrs, h⟩ := h
    cases h
    exact (encodeCondition_ok c hr).append (encodeConditions_ok cs hrs)

end

/-! ### What happens to the program -/

/-- The program that a state stands for is the same: the values, the memory and its blocks, and when each basic block
is reached.  (The conditions for what was done in the last basic block are not a part of it: nothing is encoded
behind it.) -/
structure State.SameProgram (a b : State) : Prop where
  vars : b.vars = a.vars
  blocks : b.blocks = a.blocks
  memoryFree : b.memoryFree = a.memoryFree
  entries : b.entries = a.entries
  memory : b.memory = a.memory

theorem State.SameProgram.refl (a : State) : a.SameProgram a := ⟨rfl, rfl, rfl, rfl, rfl⟩

theorem State.SameProgram.trans {a b c : State} (h : a.SameProgram b) (h' : b.SameProgram c) : a.SameProgram c :=
  ⟨h'.vars.trans h.vars, h'.blocks.trans h.blocks, h'.memoryFree.trans h.memoryFree, h'.entries.trans h.entries,
    h'.memory.trans h.memory⟩

def Allocates (s : Setting) (i : ValueId) (b : Block) : Prop := s.allocation i = some b ∧ b.size ≠ 0

theorem not_allocates (h : ∀ ty c align, (s.table.get i).op ≠ .alloca ty c align) (b : Block) : ¬Allocates s i b := by
  rintro ⟨hb, -⟩
  rw [Setting.allocation_eq_none h] at hb
  cases hb

/-- What encoding a value does to the program, its operands apart: it allocates, finds the block behind a pointer
from outside, or changes nothing. -/
inductive Alters (s : Setting) (i : ValueId) (a a' : State) : Prop
  | allocates (b : Block) (w : Work) (aligned : Formula) (hb : Allocates s i b) (hw : w.state = a)
    (h : a' = (w.allocate b aligned).state)
  | finds (b : Block) (free : List Var) (hb : s.outside i = some b) (h : a' = a.addInputBlock b free)
  | nothing (hno : ∀ b, ¬Allocates s i b) (h : a.SameProgram a')

theorem callTerm_ok {v : Value} {fn : ConstFn} {ts : List Term}
    (h : callTerm v fn ts s w = .ok (t, w')) : ∃ c, w' = { w with conds := c } := by
  refine Keeps.callTerm (I := fun v => ∃ c, v = { w with conds := c }) ?_ v fn ts w t w' ⟨w.conds, rfl⟩ h
  rintro _ ds ⟨c, rfl⟩
  exact ⟨_, rfl⟩

/-- What a value does itself, behind the operands in their places.  Only a call of a function takes conditions away;
only an instruction adds some without one. -/
structure Own (s : Setting) (i : ValueId) (us : List Term) (t : Term) (w w' : Work) : Prop where
  alters : Alters s i w.state w'.state
  call : ∀ fn args, (s.table.get i).op = .call fn args → callTerm (s.table.get i) fn us s w = .ok (t, w')
  plain : (∀ fn args, (s.table.get i).op ≠ .call fn args) → ∃ own, w'.conds.defined = w.conds.defined ++ own ∧
    ((s.table.get i).op.isInstr = false → own = [])

/-- **All that encoding a value does**: what its operands do if it is a constant expression, and what it does
itself. -/
theorem encode_does (h : encode i s w = .ok (some t, w')) : (∀ j ∈ inPlace (s.table.get i).op, j < i) ∧ ∃ us w₁,
    (inPlace (s.table.get i).op).mapM (subTerm encode) s w = .ok (us, w₁) ∧ Own s i us t w₁ w' := by
  -- What has no operands in their places is no call of a function.
  have hplain : inPlace (s.table.get i).op = [] → (∀ fn args, (s.table.get i).op ≠ .call fn args) →
      Alters s i w.state w'.state → ∀ own, w'.conds.defined = w.conds.defined ++ own →
      ((s.table.get i).op.isInstr = false → own = []) → (∀ j ∈ inPlace (s.table.get i).op, j < i) ∧ ∃ us w₁,
        (inPlace (s.table.get i).op).mapM (subTerm encode) s w = .ok (us, w₁) ∧ Own s i us t w₁ w' := by
    intro hnil hcall halters own hown hinstr
    rw [hnil]
    exact ⟨by simp, [], w, rfl, halters, fun fn args hop => absurd hop (hcall fn args), fun _ => ⟨own, hown, hinstr⟩⟩
  cases encode_course h with
  | input hop hn hp | undefined hop hn hp =>
    obtain ⟨ty, hty, hsize⟩ := hn
    obtain ⟨_ | b, hb, rfl⟩ := pointsToBlock_eq hp
    · exact hplain (by rw [hop]; rfl) (by simp [hop]) (.nothing (not_allocates (by simp [hop])) (.refl _)) [] (by simp)
        fun _ => rfl
    · refine hplain (by rw [hop]; rfl) (by simp [hop]) (.finds b _ ?_ rfl) [] (by simp) fun _ => rfl
      simp [Setting.outside, outsideVar, hop, hty, hsize, Except.toOption, hb]
  | @unary _ _ us _ _ hop hlt hus | @binary _ _ _ us _ _ hop hlt hus =>
    rw [hop]
    exact ⟨hlt, us, w', hus, .nothing (not_allocates (by simp [hop])) (.refl _), by simp [hop], fun _ => ⟨[], by simp⟩⟩
  | @call fn args us w₁ _ _ hop hlt hus hcall =>
    obtain ⟨c, hc⟩ := callTerm_ok hcall
    rw [hop]
    refine ⟨hlt, us, w₁, hus, .nothing (not_allocates (by simp [hop])) (hc ▸ .refl _), fun fn' args' hop' => ?_,
      fun hno => absurd hop (hno fn args)⟩
    rw [hop] at hop'
    cases hop'
    exact hcall
  | alloca hop ha =>
    obtain ⟨b, hb, -, ⟨hzero, rfl⟩ | ⟨hsize, aligned, -, rfl⟩⟩ := allocaTerm_eq hop ha
    · refine hplain (by rw [hop]; rfl) (by simp [hop]) (.nothing ?_ (.refl _)) [] (by simp) fun _ => rfl
      rintro b' ⟨hb', hsize⟩
      rw [hb] at hb'
      cases hb'
      exact hsize hzero
    · exact hplain (by rw [hop]; rfl) (by simp [hop]) (.allocates b w aligned ⟨hb, hsize⟩ rfl rfl) _ rfl
        (by simp [hop, Op.isInstr])
  | @quiet es _ hop hes =>
    refine hplain ?_ (fun fn args hcall => ?_) (.nothing (not_allocates fun ty c align halloca => ?_)
      (Work.adoptAll_state w _ ▸ .refl _)) _ (Work.adoptAll_defined w es) fun hinstr => ?_
    · cases hkind : (s.table.get i).op
      case unary | binary | call => simp [isQuiet, hkind] at hop
      all_goals rfl
    · simp [isQuiet, hcall] at hop
    · simp [isQuiet, halloca] at hop
    · cases hkind : (s.table.get i).op
      case literal =>
        rw [hkind] at hes
        cases hes
        rfl
      all_goals simp [isQuiet, Op.isInstr, hkind] at hop hinstr
  | @arith op _ _ _ _ _ hop ha =>
    obtain ⟨e, e', a, b, n, -, -, -, -, -, rfl⟩ := arithTerm_ok ha
    exact hplain (by rw [hop]; rfl) (by simp [hop]) (.nothing (not_allocates (by simp [hop])) (.refl _))
      (e.conds.defined ++ e'.conds.defined ++ arithDefined n op a b) (by simp [Work.adopt, Conditions.append])
      (by simp [hop, Op.isInstr])
  | @load _ _ align _ _ hop ha =>
    -- A load only adds to the conditions of the basic block.
    obtain ⟨e, u, n, m, -, -, -, -, -, rfl⟩ := loadTerm_ok ha
    exact hplain (by rw [hop]; rfl) (by simp [hop]) (.nothing (not_allocates (by simp [hop])) ⟨rfl, rfl, rfl, rfl, rfl⟩)
      (e.conds.defined ++ accessConditions w.state (allocSize n) align u)
      (by simp [Work.loaded, Work.accessed, Work.adopt, Conditions.append]) (by simp [hop, Op.isInstr])

/-! ### Values that a precondition asks about -/

/-- Encoding the value `i` also encodes `j`: it is the value itself or stands in a constant expression. -/
def Within (t : Table) : ValueId → ValueId → Prop := Relation.ReflTransGen fun i j => j ∈ inPlace (t.get i).op

/-- The precondition asks about the value: it compares or tests it, or a constant expression in which it stands. -/
def Asks (t : Table) (c : Condition) (i : ValueId) : Prop := ∃ a ∈ argsOf c, Within t a i

/-- The block behind the value is known, if it is a pointer from outside. -/
def Known (s : Setting) (blocks : List Block) (i : ValueId) : Prop :=
  ∀ b, s.outside i = some b → blocks.any b.same = true

theorem State.addInputBlock_of_known {a : State} {b : Block} (h : a.blocks.any b.same = true) (free : List Var) :
    a.addInputBlock b free = a := by
  simp [State.addInputBlock, h]

theorem Encodes.same {blocks : List Block} (h : Encodes s is w w') (hblocks : w.state.blocks = blocks)
    (hpart : ∀ j ∈ is, ∀ v v' t, encode j s v = .ok (some t, v') → v.state.blocks = blocks →
      v.state.SameProgram v'.state) : w.state.SameProgram w'.state := by
  induction h with
  | nil w c => exact .refl _
  | cons c t h _ ih =>
    have hfirst := hpart _ List.mem_cons_self _ _ _ h hblocks
    exact hfirst.trans (ih (hfirst.blocks.trans hblocks) fun j hj => hpart j (List.mem_cons_of_mem _ hj))

/-- Encoding a value changes nothing if nothing in it allocates or is a pointer to an unknown block. -/
theorem encode_same {blocks : List Block} (hasks : ∀ j, Within s.table i j → (∀ b, ¬Allocates s j b) ∧ Known s blocks j)
    (hblocks : w.state.blocks = blocks) (h : encode i s w = .ok (some t, w')) : w.state.SameProgram w'.state := by
  induction i using Nat.strongRecOn generalizing w w' t with
  | _ i ih =>
    obtain ⟨hsmaller, us, w₁, hus, hown⟩ := encode_does h
    have hoperands : w.state.SameProgram w₁.state := (Encodes.of_mapM hus).same hblocks fun j hj v v' u hu hv =>
      ih j (hsmaller j hj) (fun k hk => hasks k (.head hj hk)) hv hu
    obtain ⟨hno, hknown⟩ := hasks i .refl
    refine hoperands.trans ?_
    cases hown.alters with
    | allocates b v aligned hb _ _ => exact absurd hb (hno b)
    | finds b free hb hw' =>
      rw [hw', State.addInputBlock_of_known (hoperands.blocks ▸ hblocks ▸ hknown b hb)]
      exact .refl _
    | nothing _ hsame => exact hsame

theorem Encodes.blocks_le (h : Encodes s is w w') : w.state.blocks.length ≤ w'.state.blocks.length := by
  induction h with
  | nil w c => exact le_rfl
  | cons c t h _ ih => exact (encode_grows h).blocks.length_le.trans ih

theorem Encodes.blocks_lt (h : Encodes s is w w') (hj : j ∈ is)
    (hlt : ∀ v v' t, encode j s v = .ok (some t, v') → v.state.blocks.length < v'.state.blocks.length) :
    w.state.blocks.length < w'.state.blocks.length := by
  induction h with
  | nil w c => cases hj
  | cons c t h hrest ih =>
    rcases List.mem_cons.1 hj with rfl | hj
    · exact (hlt _ _ _ h).trans_le hrest.blocks_le
    · exact (encode_grows h).blocks.length_le.trans_lt (ih hj)

theorem Alters.blocks_le {a a' : State} (h : Alters s i a a') : a.blocks.length ≤ a'.blocks.length := by
  cases h with
  | allocates b w aligned _ hw ha' => simp [Work.allocate, ha', hw]
  | finds b free _ ha' =>
    rw [ha', State.addInputBlock]
    split
    · exact le_rfl
    · simp
  | nothing _ hsame => exact hsame.blocks ▸ le_rfl

/-- Where something in a value allocates, encoding the value adds a block. -/
theorem encode_blocks_lt {b : Block} (hj : Within s.table i j) (hb : Allocates s j b)
    (h : encode i s w = .ok (some t, w')) : w.state.blocks.length < w'.state.blocks.length := by
  induction hj using Relation.ReflTransGen.head_induction_on generalizing w w' t with
  | refl =>
    obtain ⟨-, us, w₁, hus, hown⟩ := encode_does h
    refine (Encodes.of_mapM hus).blocks_le.trans_lt ?_
    cases hown.alters with
    | allocates b v aligned _ hv hw' => simp [Work.allocate, hw', hv]
    | finds b' free hout _ =>
      refine absurd hb (not_allocates (fun ty c align hop => ?_) b)
      simp [Setting.outside, outsideVar, hop] at hout
    | nothing hno _ => exact absurd hb (hno b)
  | head hk _ ih =>
    obtain ⟨-, us, w₁, hus, hown⟩ := encode_does h
    exact ((Encodes.of_mapM hus).blocks_lt hk fun v v' u hu => ih hu).trans_le hown.alters.blocks_le

/-! ### Known blocks -/

theorem any_same_of_subset {bs bs' : List Block} {b : Block} (hsub : bs ⊆ bs') (h : bs.any b.same = true) :
    bs'.any b.same = true := by
  obtain ⟨c, hc, hsame⟩ := List.any_eq_true.1 h
  exact List.any_eq_true.2 ⟨c, hsub hc, hsame⟩

theorem State.addInputBlock_known (a : State) (b : Block) (free : List Var) :
    (a.addInputBlock b free).blocks.any b.same = true := by
  unfold State.addInputBlock
  split
  · next h => exact h
  · simp [Block.same]

/-- A value from outside is its variable, and its block is known once it has been encoded. -/
theorem encode_outside {t : Option Term} {b : Block} (h : encode i s w = .ok (t, w')) (hb : s.outside i = some b) :
    t = some b.ptr ∧ w'.state.blocks.any b.same = true := by
  cases encode_course h with
  | input hop hn hp | undefined hop hn hp =>
    obtain ⟨ty, hty, hsize⟩ := hn
    obtain ⟨b', hb', rfl⟩ := pointsToBlock_eq hp
    simp [Setting.outside, outsideVar, hop, hty, hsize, Except.toOption, hb'] at hb
    subst hb
    obtain rfl := behind_block hb'
    exact ⟨rfl, State.addInputBlock_known _ _ _⟩
  | quiet hop =>
    cases hkind : (s.table.get i).op
    case input | undefined => simp [isQuiet, hkind] at hop
    all_goals simp [Setting.outside, outsideVar, hkind] at hb
  | unary hop | binary hop | call hop | arith hop | alloca hop | load hop | store hop | unreachable hop =>
    simp [Setting.outside, outsideVar, hop] at hb

theorem chain_known {o : Options} {ts : List Task} (h : Chain s (Task.perform o) ts w w') (hi : Task.leaf i ∈ ts) :
    Known s w'.state.blocks i := by
  obtain ⟨ts, us, rfl⟩ := List.append_of_mem hi
  rw [Chain.append] at h
  obtain ⟨w₁, -, w₂, hleaf, hrest⟩ := h
  obtain ⟨t, w₃, henc, -, -, rfl⟩ := addLeaf_ok hleaf
  intro b hb
  exact any_same_of_subset (chain_keeps hrest).2 (encode_outside henc hb).2

theorem known_of_leaf {names : Dict ValueId} {p : Code} (h : encodeProgram names p s w = .ok ((), w'))
    (hi : i ∈ leavesOf s.table names) : Known s w'.state.blocks i :=
  chain_known (encodeProgram_ok.1 h) (List.mem_append_left _ (List.mem_map.2 ⟨i, hi, rfl⟩))

/-! ### The source behind its precondition -/

/-- The conditions of a value are no part of the state. -/
theorem apart_state (P : State → Prop) : Apart s fun w => P w.state := by
  intro x hx w r w' hw h
  obtain ⟨w₁, hw₁, -, rfl⟩ := apart_ok (a := r.1) (c := r.2) h
  exact hx { w with conds := .none } _ w₁ hw hw₁

/-- Encoding a precondition records no value and no branch. -/
theorem encodeCondition_records {c : Condition} {r : Requirement} (h : encodeCondition c s w = .ok (r, w')) :
    w'.state.vars = w.state.vars ∧ w'.state.entries = w.state.entries := by
  have hgrows := Keeps.encodeCondition (apart_state w.state.Grows) c (fun i _ => (stable_grows _ _).encode i) w r w'
    (.refl _) h
  exact ⟨hgrows.vars, hgrows.entries⟩

theorem known_of_not_outside {blocks : List Block} (hinput : (s.table.get i).op ≠ .input)
    (hundefined : (s.table.get i).op ≠ .undefined) : Known s blocks i := by
  intro b hb
  have hnone : outsideVar (s.table.get i) = none := by
    unfold outsideVar
    split
    · next hop => exact absurd hop hinput
    · next hop => exact absurd hop hundefined
    · rfl
  simp [Setting.outside, hnone] at hb

/-- **The precondition and the source.**  Let a precondition ask only about values of the source and constants.  The
values of the source and the conditions under which its basic blocks are reached are the same behind the precondition
as before it; and the memory, its blocks and the choices in it are, if and only if the precondition does not ask
about an allocation that is not empty. -/
theorem source_unchanged_iff {o : Optimization} {shape : Shape} {options : Options} {p : Problem} {src : Work}
    (hp : encodeOptimization o shape options = .ok p)
    (hsrc : encodeProgram o.sourceNames o.source ⟨o.table, shape, options, true⟩ ⟨.start, .none, 0⟩ = .ok ((), src))
    (hover : ∀ i, Asks o.table o.pre i → (o.table.get i).op = .input ∨ (o.table.get i).op = .undefined →
      i ∈ leavesOf o.table o.sourceNames) :
    (p.source.vars = src.state.vars ∧ p.source.entries = src.state.entries) ∧
      (src.state.SameProgram p.source ↔
        ∀ i b, Asks o.table o.pre i → ¬Allocates ⟨o.table, shape, options, true⟩ i b) := by
  obtain ⟨src', tgt, w, hsrc', -, hpre, hp⟩ := encodeOptimization_ok hp
  rw [hsrc] at hsrc'
  cases hsrc'
  have hsource : p.source = w.state := by rw [hp]
  rw [hsource]
  have hencodes := encodeCondition_ok o.pre hpre
  have hrecords := encodeCondition_records hpre
  refine ⟨hrecords, fun hsame i b hi hb => ?_, fun hno => ?_⟩
  · obtain ⟨a, ha, hwithin⟩ := hi
    have hlt := hencodes.blocks_lt ha fun v v' t => encode_blocks_lt hwithin hb
    rw [hsame.blocks] at hlt
    exact lt_irrefl _ hlt
  · refine hencodes.same rfl fun a ha v v' t hu hv => encode_same (fun i hi => ?_) hv hu
    have hasks : Asks o.table o.pre i := ⟨a, ha, hi⟩
    refine ⟨fun b => hno i b hasks, ?_⟩
    by_cases hout : (o.table.get i).op = .input ∨ (o.table.get i).op = .undefined
    · have hknown := known_of_leaf hsrc (hover i hasks hout)
      exact hknown
    · rw [not_or] at hout
      exact known_of_not_outside hout.1 hout.2

theorem Within.eq_of_inPlace_nil {t : Table} (h : Within t i j) (hnil : inPlace (t.get i).op = []) : j = i := by
  obtain rfl | ⟨k, hk, -⟩ := h.cases_head
  · rfl
  · rw [hnil] at hk
    cases hk

theorem exists_ok {α : Type} {x : Except Error α} (P : α → Bool) (h : x.toOption.any P = true) :
    ∃ a, x = .ok a ∧ P a = true := by
  cases x with
  | error e => cases h
  | ok a => exact ⟨a, rfl, h⟩

/-- The byte one is stored in an allocated block and loaded from it, if that is the only use of the loaded value and of
the pointer `%q`: `%r = load %p` becomes `%r = 1`. -/
def loadStored : Optimization :=
  { (default : Optimization) with
    table := ⟨#[⟨"%q", "%q", some ⟨"%q", .ptr (.int (some 8))⟩, .input⟩,
      ⟨"1", "1_0", some ⟨"1_0", .int (some 8)⟩, .literal 1⟩,
      ⟨"1", "1", none, .count 1 1 16 "val_%p_numElems"⟩,
      ⟨"%p", "%p", some ⟨"%p", .ptr (.int (some 8))⟩, .alloca ⟨"%p_elemsType", .int (some 8)⟩ 2 0⟩,
      ⟨"store", "store_0", some ⟨"store_0", .ptr (.int (some 8))⟩, .store ⟨"store_stype", .int (some 8)⟩ 1 3 0⟩,
      ⟨"%r", "%r", some ⟨"%r", .int (some 8)⟩, .load ⟨"%r_stype", .ptr (.int (some 8))⟩ 3 0⟩,
      ⟨"%r", "%r", some ⟨"%r", .int (some 8)⟩, .copy 1⟩], 1⟩
    pre := .both [.test .hasOneUse [5], .test .hasOneUse [0]]
    source := [("", [("%p", 3), ("store_0", 4), ("%r", 5)])]
    target := [("", [("%p", 3), ("%r", 6)])]
    sourceNames := [("%q", 0), ("1_0", 1), ("%p", 3), ("store_0", 4), ("%r", 5)]
    targetNames := [("%q", 0), ("1_0", 1), ("%p", 3), ("%r", 6)] }

/-- The theorem at `loadStored`, which allocates a block of one element.  The precondition asks about the loaded
value and the pointer from outside. -/
theorem loadStored_unchanged :
    ∃ p src, encodeOptimization loadStored ⟨fun _ => 1, 32⟩ {} = .ok p ∧
      encodeProgram loadStored.sourceNames loadStored.source ⟨loadStored.table, ⟨fun _ => 1, 32⟩, {}, true⟩
        ⟨.start, .none, 0⟩ = .ok ((), src) ∧
      src.state.blocks.length = 2 ∧ src.state.SameProgram p.source := by
  have hasks : ∀ i, Asks loadStored.table loadStored.pre i → i = 5 ∨ i = 0 := by
    rintro i ⟨a, ha, hwithin⟩
    have hargs : argsOf loadStored.pre = [5, 0] := by with_unfolding_all rfl
    rw [hargs] at ha
    rcases List.mem_pair.1 ha with rfl | rfl
    · exact .inl (hwithin.eq_of_inPlace_nil (by with_unfolding_all rfl))
    · exact .inr (hwithin.eq_of_inPlace_nil (by with_unfolding_all rfl))
  obtain ⟨p, hp, -⟩ := exists_ok (x := encodeOptimization loadStored ⟨fun _ => 1, 32⟩ {}) (fun _ => true) (by cbv)
  obtain ⟨⟨_, src⟩, hsrc, hblocks⟩ := exists_ok
    (x := encodeProgram loadStored.sourceNames loadStored.source ⟨loadStored.table, ⟨fun _ => 1, 32⟩, {}, true⟩
      ⟨.start, .none, 0⟩) (fun r => r.2.state.blocks.length == 2) (by cbv)
  refine ⟨p, src, hp, hsrc, by simpa using hblocks,
    ((source_unchanged_iff hp hsrc fun i hi hop => ?_).2).2 fun i b hi => ?_⟩
  · obtain rfl | rfl := hasks i hi
    · rcases hop with hop | hop
      · cases hop
      · cases hop
    · with_unfolding_all decide
  · refine not_allocates (fun ty c align hop => ?_) b
    obtain rfl | rfl := hasks i hi
    · cases hop
    · cases hop

end Peephole.Encode
