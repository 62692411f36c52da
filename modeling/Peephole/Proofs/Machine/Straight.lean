import Mathlib.Data.List.Induction
import Mathlib.Data.List.Nodup
import Mathlib.Logic.Relation
import Peephole.Proofs.Encode.Effect
import Peephole.Proofs.Machine.Word

/-!
# Running straight-line code

A machine runs the values of a program one after another: it looks up the words of the operands in its registers,
and puts the word of the value under its key.  It notes which instructions had undefined behaviour and which ones
broke the promise of a flag.

* `Outcome.step`, `run` : one instruction, and a list of them.
* `Slice` : what the value under a key was computed from.
* `Scoped`, `WellTyped` : operands stand in front of what uses them, and their widths fit.
-/

namespace Peephole.Machine

open Program Logic
open Encode (Setting undefVar)

/-! ### Instructions -/

def keyOf (t : Table) (i : ValueId) : String := (t.get i).key

/-- The comparison of a predicate: an unknown one is the one with the number of its variable, and the last one
for the numbers that are left. -/
def selected (env : Env) (register : String) : Predicate → Comparison
  | .known c => c
  | .any name =>
    comparisons.getD (wrap 4 (env.bits ("icmp_" ++ if name.isEmpty then register else name))) .sle

/-- The flags that an arithmetic instruction carries; where they are to be inferred, those whose variables are
set. -/
def carried (s : Setting) (env : Env) (v : Value) (op : ArithOp) (flags : List Flag) : List Flag :=
  if s.options.inferFlags then
    op.flags.filter fun f => wrap 1 (env.bits ("f_" ++ f.text ++ "_" ++ v.name ++ "_" ++
      (if s.inSource then "src" else "tgt"))) = 1
  else flags

section Machine

variable (s : Setting) (width : String → Nat) (env : Env)

/-- The word of a value, from the words under the keys of its operands. -/
def word (registers : String → Nat) (i : ValueId) : Nat :=
  let v := s.table.get i
  let key := keyOf s.table
  let w := width (key i)
  match v.op with
  | .input => wrap w (env.bits v.name)
  | .literal n => wrap w n
  | .undefined => wrap w (env.bits (undefVar v))
  | .copy x => registers (key x)
  | .arith op x y _ => result w op (registers (key x)) (registers (key y))
  | .convert op _ x => converted (width (key x)) w op (registers (key x))
  | .icmp pred _ x y =>
    if meets (width (key x)) (selected env v.name pred) (registers (key x)) (registers (key y)) then 1 else 0
  | .select c x y => if registers (key c) = 1 then registers (key x) else registers (key y)
  | _ => 0

/-- Whether the value is an instruction with undefined behaviour. -/
def misbehaves (registers : String → Nat) (i : ValueId) : Bool :=
  let key := keyOf s.table
  match (s.table.get i).op with
  | .arith op x y _ => Undefined (width (key i)) op (registers (key x)) (registers (key y))
  | _ => false

/-- Whether the value is an instruction that breaks the promise of one of its flags. -/
def overpromises (registers : String → Nat) (i : ValueId) : Bool :=
  let v := s.table.get i
  let key := keyOf s.table
  match v.op with
  | .arith op x y flags =>
    (carried s env v op flags).any fun f =>
      Broken s.options.newShift (width (key i)) op f (registers (key x)) (registers (key y))
  | _ => false

/-- What is known after some values have been run: the words under their keys, and the keys of the instructions
that had undefined behaviour and of those that broke the promise of a flag. -/
structure Outcome where
  registers : String → Nat
  undefined : List String
  broken : List String

/-- Nothing has been run. -/
def Outcome.start : Outcome := ⟨fun _ => 0, [], []⟩

def Outcome.step (o : Outcome) (i : ValueId) : Outcome :=
  let k := keyOf s.table i
  ⟨Function.update o.registers k (word s width env o.registers i),
    if misbehaves s width o.registers i then k :: o.undefined else o.undefined,
    if overpromises s width env o.registers i then k :: o.broken else o.broken⟩

def run (is : List ValueId) : Outcome := is.foldl (Outcome.step s width env) .start

theorem run_concat (is : List ValueId) (i : ValueId) :
    run s width env (is ++ [i]) = (run s width env is).step s width env i := by
  simp [run]

variable {s width env} {o : Outcome} {i : ValueId} {k : String}

theorem Outcome.step_registers_self :
    (o.step s width env i).registers (keyOf s.table i) = word s width env o.registers i :=
  Function.update_self ..

theorem Outcome.step_registers_of_ne (h : k ≠ keyOf s.table i) :
    (o.step s width env i).registers k = o.registers k :=
  Function.update_of_ne h ..

theorem Outcome.mem_step_undefined : k ∈ (o.step s width env i).undefined ↔
    k ∈ o.undefined ∨ k = keyOf s.table i ∧ misbehaves s width o.registers i = true := by
  unfold step
  split <;> grind

theorem Outcome.mem_step_broken : k ∈ (o.step s width env i).broken ↔
    k ∈ o.broken ∨ k = keyOf s.table i ∧ overpromises s width env o.registers i = true := by
  unfold step
  split <;> grind

theorem run_noted (is : List ValueId) :
    (∀ k ∈ (run s width env is).undefined, k ∈ is.map (keyOf s.table)) ∧
      ∀ k ∈ (run s width env is).broken, k ∈ is.map (keyOf s.table) := by
  induction is using List.reverseRecOn with
  | nil => simp [run, Outcome.start]
  | append_singleton is i ih =>
    rw [run_concat]
    constructor
    · intro k hk
      rcases Outcome.mem_step_undefined.1 hk with hk | ⟨rfl, -⟩
      · simpa using .inl (by simpa using ih.1 k hk)
      · simp
    · intro k hk
      rcases Outcome.mem_step_broken.1 hk with hk | ⟨rfl, -⟩
      · simpa using .inl (by simpa using ih.2 k hk)
      · simp

end Machine

/-! ### Slices -/

section Slices

variable {t : Table} {is : List ValueId} {k k' : String}

/-- The value under the first key has an operand under the second. -/
def Uses (t : Table) (is : List ValueId) (k k' : String) : Prop :=
  ∃ i ∈ is, keyOf t i = k ∧ ∃ x ∈ (t.get i).op.operands, keyOf t x = k'

/-- The value under the second key is in the backward slice of the first: it is the same value, or an operand of a
value in the slice. -/
def Slice (t : Table) (is : List ValueId) : String → String → Prop := Relation.ReflTransGen (Uses t is)

/-- The keys of the values are new, and their operands stand in front of them or in `scope`. -/
def Scoped (t : Table) : List String → List ValueId → Prop
  | _, [] => True
  | scope, i :: is =>
    keyOf t i ∉ scope ∧ (∀ x ∈ (t.get i).op.operands, keyOf t x ∈ scope) ∧ Scoped t (scope ++ [keyOf t i]) is

instance (t : Table) : (scope : List String) → (is : List ValueId) → Decidable (Scoped t scope is)
  | _, [] => inferInstanceAs (Decidable True)
  | scope, i :: is =>
    have := instDecidableScoped t (scope ++ [keyOf t i]) is
    inferInstanceAs (Decidable (_ ∧ _ ∧ _))

theorem scoped_append {scope : List String} {js : List ValueId} :
    Scoped t scope (is ++ js) ↔ Scoped t scope is ∧ Scoped t (scope ++ is.map (keyOf t)) js := by
  induction is generalizing scope with
  | nil => simp [Scoped]
  | cons i is ih => simp [Scoped, ih, and_assoc]

theorem Scoped.nodup {scope : List String} (h : Scoped t scope is) (hs : scope.Nodup) :
    (scope ++ is.map (keyOf t)).Nodup := by
  induction is generalizing scope with
  | nil => simpa using hs
  | cons i is ih =>
    obtain ⟨hnew, -, h⟩ := h
    have hsnoc : (scope ++ [keyOf t i]).Nodup := by
      refine List.nodup_append.2 ⟨hs, by simp, ?_⟩
      rintro a ha b hb rfl
      exact hnew (List.mem_singleton.1 hb ▸ ha)
    simpa using ih h hsnoc

variable {done : List ValueId}

/-- The operands of the values stand among them. -/
def Closed (t : Table) (done : List ValueId) : Prop :=
  ∀ i ∈ done, ∀ x ∈ (t.get i).op.operands, keyOf t x ∈ done.map (keyOf t)

theorem Closed.concat {i : ValueId} (h : Closed t done)
    (hi : ∀ x ∈ (t.get i).op.operands, keyOf t x ∈ done.map (keyOf t)) : Closed t (done ++ [i]) := by
  intro j hj x hx
  rw [List.map_append]
  refine List.mem_append_left _ ?_
  rcases List.mem_append.1 hj with hj | hj
  · exact h j hj x hx
  · obtain rfl := List.mem_singleton.1 hj
    exact hi x hx

/-- A slice consists of the value and the slices of its operands. -/
theorem slice_iff (hinj : (is.map (keyOf t)).Nodup) {i : ValueId} (hi : i ∈ is) :
    Slice t is (keyOf t i) k' ↔ k' = keyOf t i ∨ ∃ x ∈ (t.get i).op.operands, Slice t is (keyOf t x) k' := by
  constructor
  · intro h
    rcases Relation.ReflTransGen.cases_head h with rfl | ⟨k, ⟨j, hj, hkey, x, hx, rfl⟩, hrest⟩
    · exact .inl rfl
    · obtain rfl := List.inj_on_of_nodup_map hinj hj hi hkey
      exact .inr ⟨x, hx, hrest⟩
  · rintro (rfl | ⟨x, hx, h⟩)
    · exact .refl
    · exact .head ⟨i, hi, rfl, x, hx, rfl⟩ h

/-- The slice of a value does not leave a closed part of the program. -/
theorem Slice.mem_of_closed (hinj : (is.map (keyOf t)).Nodup) (hsub : done ⊆ is) (hclosed : Closed t done)
    (h : Slice t is k k') (hk : k ∈ done.map (keyOf t)) : k' ∈ done.map (keyOf t) := by
  induction h with
  | refl => exact hk
  | tail _ huse ih =>
    obtain ⟨i, hi, hkey, x, hx, rfl⟩ := huse
    obtain ⟨j, hj, hkey'⟩ := List.mem_map.1 ih
    obtain rfl := List.inj_on_of_nodup_map hinj hi (hsub hj) (hkey.trans hkey'.symm)
    exact hclosed _ hj x hx

end Slices

/-! ### Types -/

/-- The widths of a value and of its operands fit together, and the typing gives the value its width. -/
def WellTyped (s : Setting) (width : String → Nat) (i : ValueId) : Prop :=
  let bits (x : ValueId) : Nat := width (keyOf s.table x)
  0 < bits i ∧ s.HasSize (s.table.get i) (bits i) ∧
    match (s.table.get i).op with
    | .copy x => bits x = bits i
    | .arith _ x y _ => bits x = bits i ∧ bits y = bits i
    | .convert op source x => s.sizeOf source = .ok (bits x) ∧ Convertible (bits x) (bits i) op
    | .icmp _ _ x y => bits i = 1 ∧ bits x = bits y
    | .select c x y => bits c = 1 ∧ bits x = bits i ∧ bits y = bits i
    | _ => True

end Peephole.Machine
