import Peephole.Proofs.Encode.Edges
import Peephole.Proofs.Encode.Precondition

/-!
# Inputs and constants

Inputs and constants are encoded before all instructions, while there is no memory yet.

* `Bare` : nothing has been done in a basic block, there is no memory, and the blocks of memory start at pointers.
* `encode_bare` : so it is as long as no instruction has been encoded.
* `leavesOnly` : **behind the inputs and constants, all that is recorded is without conditions**.
-/

namespace Peephole.Encode

open Logic Program

variable {s : Setting} {w w' : Work} {i : ValueId}

theorem sizeOf_pointer {t : PlacedTy} {n : Nat} {q : String} {u : Ty} (hn : s.sizeOf t = .ok n)
    (ht : s.shape.settle t.place t.ty = .ok (q, u)) (hu : u.isPtr = true) : n = s.shape.ptrWidth := by
  -- An open type is settled to a pointer only if its kind is that of pointers.
  have hopen : ∀ {p c}, Shape.sizeOfClosed.openSize s.shape (Typing.countVarIn s.table) p c = .ok n →
      s.shape.settleChoice p c = .ok (q, u) → n = s.shape.ptrWidth := by
    intro p c hsize hchoice
    unfold Shape.sizeOfClosed.openSize at hsize
    unfold Shape.settleChoice at hchoice
    rcases hk : Shape.kindOfCode? (s.shape.values (Typing.kindVar p)) with _ | _ | _ | _
    · simp [hk] at hsize
    · simp only [hk, Choice.get?] at hchoice
      cases hc : c.int with
      | none => simp [hc] at hchoice
      | some v =>
        simp only [hc, Option.map_some] at hchoice
        cases hchoice
        cases hu
    · simp only [hk] at hsize
      split at hsize
      · cases hsize
        rfl
      · cases hsize
    · simp only [hk, Choice.get?] at hchoice
      cases hc : c.array with
      | none => simp [hc] at hchoice
      | some v =>
        simp only [hc, Option.map_some] at hchoice
        cases hchoice
        cases hu
  unfold Setting.sizeOf at hn
  cases hty : t.ty with
  | ptr v =>
    rw [hty, Shape.sizeOfClosed] at hn
    cases hn
    rfl
  | int v | array v e =>
    rw [hty] at ht
    cases ht
    cases hu
  | unknown c | named name c e =>
    rw [hty, Shape.sizeOfClosed] at hn
    rw [hty, Shape.settle] at ht
    exact hopen hn ht

theorem pointee_settles {p : String} {t : Ty} {r : String × Ty} (h : s.shape.pointee p t = .ok r) :
    ∃ q u, s.shape.settle p t = .ok (q, u) ∧ u.isPtr = true := by
  unfold Shape.pointee at h
  obtain ⟨⟨q, u⟩, hsettle, h⟩ := bind_ok.1 h
  refine ⟨q, u, hsettle, ?_⟩
  cases u with
  | ptr v => rfl
  | _ => cases h

theorem allocation_pointerWidth {b : Block} (h : s.allocation i = some b) : b.pointerWidth = s.shape.ptrWidth := by
  obtain ⟨_, _, _, t, r, -, -, hsize, hpointee, -⟩ := Setting.allocation_some h
  obtain ⟨q, u, hsettle, hptr⟩ := pointee_settles hpointee
  exact sizeOf_pointer hsize hsettle hptr

theorem behind_pointerWidth {v : Value} {pointer : String} {n : Nat} {b : Block} (hn : s.HasSize v n)
    (h : s.behind v pointer n = .ok (some b)) : b.pointerWidth = s.shape.ptrWidth := by
  obtain ⟨t, ht, hsize⟩ := hn
  simp only [Setting.behind, ht] at h
  cases hty : t.ty with
  | ptr u =>
    rw [hty] at h
    cases h
    exact sizeOf_pointer hsize (q := t.place) (u := .ptr u) (by rw [hty]; rfl) rfl
  | int _ | array _ _ =>
    rw [hty] at h
    cases h
  | unknown _ | named _ _ _ =>
    rw [hty] at h
    obtain ⟨isPtr, hisPtr, h⟩ := bind_ok.1 h
    cases isPtr with
    | false => cases h
    | true =>
      cases h
      cases hsettle : s.shape.settle t.place t.ty with
      | error e =>
        rw [hty] at hsettle
        simp [hsettle, Except.map] at hisPtr
      | ok r =>
        refine sizeOf_pointer hsize hsettle ?_
        rw [hty] at hsettle
        simpa [hsettle, Except.map] using hisPtr

/-! ### Before all instructions -/

/-- Nothing has been done in a basic block, there is no memory, and the blocks of memory start at pointers. -/
structure Bare (s : Setting) (w : Work) : Prop where
  memory : w.state.memory = none
  defined : w.state.defined = []
  pointers : ∀ b ∈ w.state.blocks, b.pointerWidth = s.shape.ptrWidth

theorem Bare.withConds (hw : Bare s w) (c : Conditions) : Bare s { w with conds := c } :=
  ⟨hw.memory, hw.defined, hw.pointers⟩

section Bare

theorem Bare.pointsToBlock {n : Nat} (hn : s.HasSize (s.table.get i) n) (pointer : String) (free : List Var) :
    Keeps s (Bare s) (pointsToBlock (s.table.get i) pointer n free) := by
  intro w r w' hw h
  obtain ⟨_ | b, hb, rfl⟩ := pointsToBlock_eq h
  · exact hw
  · have hnew := behind_pointerWidth hn hb
    simp only [Option.elim_some, State.addInputBlock]
    split
    · exact hw
    · refine ⟨hw.memory, hw.defined, fun c hc => ?_⟩
      rcases List.mem_append.1 hc with hc | hc
      · exact hw.pointers c hc
      · obtain rfl := List.mem_singleton.1 hc
        exact hnew

theorem Bare.allocaTerm {ty : PlacedTy} {c : ValueId} {align : Nat} (hop : (s.table.get i).op = .alloca ty c align) :
    Keeps s (Bare s) (allocaTerm (s.table.get i) c align) := by
  intro w t w' hw h
  obtain ⟨b, hb, -, ⟨-, rfl⟩ | ⟨-, aligned, -, rfl⟩⟩ := allocaTerm_eq hop h
  · exact hw.withConds _
  · refine ⟨by simp [Work.allocate, hw.memory], hw.defined, fun d hd => ?_⟩
    rcases List.mem_append.1 hd with hd | hd
    · exact hw.pointers d hd
    · obtain rfl := List.mem_singleton.1 hd
      exact allocation_pointerWidth hb

/-- **Without a memory, encoding a value with a result does nothing but find blocks.** -/
theorem encode_bare {t : Term} (hw : Bare s w) (h : encode i s w = .ok (some t, w')) : Bare s w' := by
  induction i using Nat.strongRecOn generalizing w w' t with
  | _ i ih =>
    have hargs : ∀ {is : List ValueId} {us w₁}, (∀ j ∈ is, j < i) → is.mapM (subTerm encode) s w = .ok (us, w₁) →
        Bare s w₁ :=
      fun hlt hus => Keeps.mapM (fun j hj _ _ _ hv hu => ih j (hlt j hj) hv (subTerm_ok hu)) w _ _ hw hus
    cases encode_course h with
    | input _ hn hp => exact Bare.pointsToBlock hn _ _ _ _ _ hw hp
    | undefined _ hn hp => exact Bare.pointsToBlock hn _ _ _ _ _ (hw.withConds _) hp
    | unary _ hlt hus | binary _ hlt hus => exact hargs hlt hus
    | call _ hlt hus hcall =>
      exact Keeps.callTerm (fun w ds hw => hw.withConds _) _ _ _ _ _ _ (hargs hlt hus) hcall
    | @quiet es _ _ _ =>
      have hstate := Work.adoptAll_state w es
      exact ⟨hstate ▸ hw.memory, hstate ▸ hw.defined, hstate ▸ hw.pointers⟩
    | arith _ ha =>
      obtain ⟨e, e', a, b, n, -, -, -, -, -, rfl⟩ := arithTerm_ok ha
      exact hw.withConds _
    | alloca hop ha => exact Bare.allocaTerm hop _ _ _ hw ha
    | load _ ha =>
      -- A load needs a memory.
      obtain ⟨_, _, _, _, -, -, -, hm, -⟩ := loadTerm_ok ha
      exact absurd (hw.memory.symm.trans hm) nofun

end Bare

theorem hasTerm_leaf (hi : isLeaf s.table i = true) : hasTerm (s.table.get i).op = true := by
  unfold isLeaf at hi
  cases hop : (s.table.get i).op with
  | store | skip | unreachable | br => simp [hop, Op.isInput, Op.isConstant] at hi
  | _ => rfl

/-- The inputs and constants have been encoded, and nothing else. -/
structure LeavesOnly (s : Setting) (w : Work) : Prop where
  bare : Bare s w
  recorded : ∀ k e, w.state.vars.get? k = some e → e.conds.defined = [] ∧ e.conds.poison = []
  entries : w.state.entries = []

theorem LeavesOnly.addLeaf (hi : isLeaf s.table i = true) : Keeps s (LeavesOnly s) (addLeaf i) := by
  intro w r w' hw h
  obtain ⟨t, w₁, henc, hdefined, hpoison, rfl⟩ := addLeaf_ok h
  obtain ⟨u, rfl⟩ := Option.isSome_iff_exists.1 ((encode_isSome henc).trans (hasTerm_leaf hi))
  have hbare := encode_bare (hw.bare.withConds .none) henc
  obtain ⟨hvars, hentries, -⟩ := encode_grows henc
  refine ⟨⟨hbare.memory, hbare.defined, hbare.pointers⟩, fun k e he => ?_, hentries.trans hw.entries⟩
  simp only [Work.record, get?_put, hvars] at he
  split at he
  · cases he
    exact ⟨by simp [hbare.defined, hdefined], hpoison⟩
  · exact hw.recorded k e he

/-- **Inputs and constants are recorded without conditions.** -/
theorem leavesOnly {names : Dict ValueId} {n : Nat} (h : encodeProgram names [] s ⟨.start, .none, n⟩ = .ok ((), w)) :
    LeavesOnly s w := by
  have hstart : LeavesOnly s ⟨.start, .none, n⟩ :=
    ⟨⟨rfl, rfl, by simp [State.start]⟩, by simp [State.start, Dict.get?], rfl⟩
  refine (encodeProgram_ok.1 h).invariant (fun task htask => ?_) hstart
  simp only [tasks, List.flatMap_nil, List.append_nil, leafTasks, leavesOf, List.map_map, List.mem_map,
    List.mem_filter] at htask
  obtain ⟨e, ⟨-, he⟩, rfl⟩ := htask
  exact .addLeaf he

end Peephole.Encode
