import Peephole.Proofs.Encode.Effect

/-!
# Blocks of memory

The state knows blocks of memory: one behind each pointer from outside, and one for each allocation that is not
empty.  Here stands exactly how encoding adds a block.

* `allocaTerm_eq` : an allocation adds the block that its type and count ask for (`Setting.allocation`), unless
  this block is empty.
* `pointsToBlock_eq` : a pointer from outside adds the block behind it (`Setting.behind`), unless it is known.
-/

namespace Peephole.Encode

open Logic Program

variable {s : Setting} {w w' : Work} {i : ValueId}

/-! ### Allocations -/

/-- The block that a value allocates, if it is an allocation.  It may be empty. -/
def Setting.allocation (s : Setting) (i : ValueId) : Option Block :=
  match (s.table.get i).op with
  | .alloca _ c align => (s.allocated (s.table.get i) c align).toOption
  | _ => none

theorem Setting.allocation_eq_none (h : ∀ ty c align, (s.table.get i).op ≠ .alloca ty c align) :
    s.allocation i = none := by
  unfold Setting.allocation
  split
  · next hop => exact absurd hop (h _ _ _)
  · rfl

theorem toOption_eq_some {α : Type} {x : Except Error α} {a : α} (h : x.toOption = some a) : x = .ok a := by
  cases x with
  | error e => cases h
  | ok b =>
    cases h
    rfl

/-- The block that an allocation asks for starts at its pointer, and has the alignment and the number of elements that
it names. -/
theorem Setting.allocation_some {b : Block} (h : s.allocation i = some b) :
    ∃ ty c align t q, (s.table.get i).op = .alloca ty c align ∧ (s.table.get i).type = some t ∧
      s.sizeOf t = .ok b.pointerWidth ∧ s.shape.pointee t.place t.ty = .ok q ∧ b.pointer = (s.table.get i).name ∧
      b.align = align ∧ ∃ n : Nat, b.size = allocSize n * s.shape.values (Typing.countVarIn s.table c) := by
  unfold Setting.allocation at h
  split at h
  · next ty c align hop =>
    have hb := toOption_eq_some h
    unfold Setting.allocated at hb
    split at hb
    · cases hb
    · next t htype =>
      obtain ⟨width, hwidth, hb⟩ := bind_ok.1 hb
      obtain ⟨q, hq, hb⟩ := bind_ok.1 hb
      obtain ⟨n, -, hb⟩ := bind_ok.1 hb
      cases hb
      exact ⟨ty, c, align, t, q, hop, htype, hwidth, hq, rfl, rfl, n, rfl⟩
  · cases h

def Work.allocate (w : Work) (b : Block) (aligned : Formula) : Work :=
  { w with
    conds.defined := w.conds.defined ++ b.placed aligned
    fresh := w.fresh + 1
    state.memoryFree := w.state.memoryFree ++ [b.contents w.fresh]
    state.blocks := w.state.blocks ++ [b]
    state.memory := w.state.memory.map (b.fill w.fresh) }

/-- **An allocation adds its block** unless the block is empty. -/
theorem allocaTerm_eq {ty : PlacedTy} {c : ValueId} {align : Nat} {t : Term}
    (hop : (s.table.get i).op = .alloca ty c align)
    (h : allocaTerm (s.table.get i) c align s w = .ok (t, w')) :
    ∃ b, s.allocation i = some b ∧ t = b.ptr ∧
      (b.size = 0 ∧ w' = { w with conds.free := w.conds.free ++ [⟨b.pointer, .bits b.pointerWidth⟩] } ∨
        b.size ≠ 0 ∧ ∃ aligned, alignedTo? b.ptr align = some aligned ∧ w' = w.allocate b aligned) := by
  simp only [allocaTerm, bind_run, read_run, check_run, ok_bind, bind_ok] at h
  obtain ⟨⟨b, w₁⟩, ⟨_, hb, h₁⟩, h⟩ := h
  cases h₁
  refine ⟨b, by simp [Setting.allocation, hop, hb, Except.toOption], ?_⟩
  split at h
  · next hzero =>
    cases h
    exact ⟨rfl, .inl ⟨hzero, rfl⟩⟩
  · next hsize =>
    cases ha : alignedTo? b.ptr align with
    | none => simp [ha] at h
    | some aligned =>
      simp only [ha] at h
      cases h
      exact ⟨rfl, .inr ⟨hsize, aligned, rfl, rfl⟩⟩

/-! ### Blocks behind pointers -/

theorem behind_block {v : Value} {pointer : String} {n : Nat}
    (h : s.behind v pointer n = .ok (some b)) : b = ⟨pointer, n, false, s.shape.ptrWidth, 7, 1⟩ := by
  unfold Setting.behind at h
  split at h
  · cases h
  · split at h
    all_goals
      obtain ⟨isPtr, -, hblock⟩ := bind_ok.1 h
      cases isPtr with
      | false => cases hblock
      | true =>
        cases hblock
        rfl

theorem pointsToBlock_eq {v : Value} {pointer : String} {width : Nat} {free : List Var} {r : Unit}
    (h : pointsToBlock v pointer width free s w = .ok (r, w')) :
    ∃ b, s.behind v pointer width = .ok b ∧
      w' = b.elim w fun b => { w with state := w.state.addInputBlock b free } := by
  simp only [pointsToBlock, bind_run, read_run, check_run, ok_bind, bind_ok] at h
  obtain ⟨⟨b, w₁⟩, ⟨_, hb, h₁⟩, h⟩ := h
  cases h₁
  refine ⟨b, hb, ?_⟩
  cases b with
  | none | some b =>
    cases h
    rfl

/-- The variable of a value that comes from outside. -/
def outsideVar (v : Value) : Option String :=
  match v.op with
  | .input => some v.name
  | .undefined => some (undefVar v)
  | _ => none

/-- The block behind a value from outside, if it is a pointer. -/
def Setting.outside (s : Setting) (i : ValueId) : Option Block := do
  let v := s.table.get i
  let pointer ← outsideVar v
  let width ← (s.sizeOf (← v.type)).toOption
  (← (s.behind v pointer width).toOption)

end Peephole.Encode
