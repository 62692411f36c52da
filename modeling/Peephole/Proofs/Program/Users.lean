import Mathlib.Data.List.Perm.Basic
import Peephole.Program.Value
import Peephole.Proofs.Program.Dict

/-!
# Users of values

A value is used once for each operand position that holds it.  The counts are read off the operands that a value has
one by one; operands that it has in a list are passed over.

* `userCounts_exact_iff` : **the count of a key is the number of operand positions that hold it, if and only if none of
  these positions stands in a list**, as the indices of an address computation do.
-/

namespace Peephole.Program

/-- The operands that a value has in a list. -/
def Op.listed : Op → List ValueId
  | .call _ args => args
  | .gep _ indices _ => indices
  | _ => []

/-- All operand positions of a value. -/
def Op.positions : Op → List ValueId
  | .unary _ v | .copy v | .convert _ _ v | .alloca _ v _ | .load _ v _ | .br v _ _ | .ret v => [v]
  | .binary _ v1 v2 | .arith _ v1 v2 _ | .icmp _ _ v1 v2 | .store _ v1 v2 _ => [v1, v2]
  | .select c v1 v2 => [c, v1, v2]
  | .gep p indices _ => p :: indices
  | .call _ args => args
  | _ => []

def keysAt (positions : Op → List ValueId) (t : Table) (p : Code) : List String :=
  p.flatMap fun b => b.2.flatMap fun e => (positions (t.get e.2).op).map fun j => (t.get j).key

theorem get?_foldl_count (keys : List String) (d : Dict Nat) (k : String) :
    (keys.foldl (fun d k => d.put k ((d.get? k).getD 0 + 1)) d).get? k =
      if keys.count k = 0 then d.get? k else some ((d.get? k).getD 0 + keys.count k) := by
  induction keys generalizing d with
  | nil => simp
  | cons x keys ih =>
    rw [List.foldl_cons, ih, get?_put, List.count_cons]
    by_cases h : x = k
    · subst h
      by_cases h' : keys.count x = 0
      · simp [h']
      · simp [h']
        omega
    · simp [h]

theorem keysAt_positions (t : Table) (p : Code) :
    (keysAt Op.positions t p).Perm (keysAt Op.operands t p ++ keysAt Op.listed t p) := by
  have hop : ∀ op : Op, op.positions = op.operands ++ op.listed := by
    intro op
    cases op <;> rfl
  unfold keysAt
  simp only [hop, List.map_append]
  refine (List.Perm.flatMap_left p fun b _ => (List.flatMap_append_perm _ _ _).symm).trans ?_
  exact (List.flatMap_append_perm _ _ _).symm

/-- **The users of a key are counted, but for those in lists.** -/
theorem userCounts_exact_iff (t : Table) (p : Code) (k : String) :
    (userCounts t p).get? k =
        (if (keysAt Op.positions t p).count k = 0 then none else some ((keysAt Op.positions t p).count k)) ↔
      ∀ b ∈ p, ∀ e ∈ b.2, ∀ j ∈ (t.get e.2).op.listed, (t.get j).key ≠ k := by
  have hcounts : (userCounts t p).get? k =
      if (keysAt Op.operands t p).count k = 0 then none else some ((keysAt Op.operands t p).count k) :=
    (get?_foldl_count (keysAt Op.operands t p) [] k).trans (by simp [Dict.get?])
  have hsum : (keysAt Op.positions t p).count k =
      (keysAt Op.operands t p).count k + (keysAt Op.listed t p).count k := by
    rw [(keysAt_positions t p).count_eq, List.count_append]
  have hlisted : (keysAt Op.listed t p).count k = 0 ↔
      ∀ b ∈ p, ∀ e ∈ b.2, ∀ j ∈ (t.get e.2).op.listed, (t.get j).key ≠ k := by
    simp [List.count_eq_zero, keysAt]
  rw [hcounts, hsum, ← hlisted]
  split_ifs <;> simp <;> omega

end Peephole.Program
