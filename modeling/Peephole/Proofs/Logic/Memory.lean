import Peephole.Logic.Memory
import Peephole.Proofs.Logic.Meaning
import Peephole.Proofs.Logic.Number

/-!
# The meaning of memories

An array and a term over the index hold bytes in the same way.

* `Memory.num_read` : **to read at an address gives the byte there**, whether it is selected from an array or the
  address is substituted for the index.
* `Memory.byteAt_write`, `Memory.byteAt_choose` : the bytes after a write, and of the memory that is chosen.
-/

namespace Peephole.Logic

variable {env : Env} {n : Nat} {a b : Term}

namespace Term

theorem width_resizeZero (h : 0 < n ∨ a.width ≤ n) : (a.resizeZero n).width = n := by
  unfold resizeZero
  split
  · next heq => exact heq
  · split
    · simp only [width]
      omega
    · simp only [width]
      omega

theorem num_resizeZero (h : 0 < n ∨ a.width ≤ n) : (a.resizeZero n).num env = a.num env % 2 ^ n := by
  have hlt := a.num_lt env
  unfold resizeZero
  split
  · next h => rw [Nat.mod_eq_of_lt (h ▸ hlt)]
  · split
    · rw [num_extract, pow_zero, Nat.div_one, Nat.sub_zero, Nat.sub_add_cancel (by omega)]
    · rw [num_zeroExt, Nat.mod_eq_of_lt]
      exact hlt.trans_le (Nat.pow_le_pow_right (by norm_num) (by omega))

end Term

/-- Addresses are compared as numbers. -/
theorem Formula.eval_sameAddress : (sameAddress a b).eval env = decide (a.num env = b.num env) := by
  have hnum : ∀ t : Term, t.width ≤ max a.width b.width →
      (t.resizeZero (max a.width b.width)).width = max a.width b.width ∧
        (t.resizeZero (max a.width b.width)).num env = t.num env := fun t ht =>
    ⟨Term.width_resizeZero (.inr ht), by
      rw [Term.num_resizeZero (.inr ht), Nat.mod_eq_of_lt]
      exact (t.num_lt env).trans_le (Nat.pow_le_pow_right (by norm_num) ht)⟩
  obtain ⟨ha, ha'⟩ := hnum a (le_max_left ..)
  obtain ⟨hb, hb'⟩ := hnum b (le_max_right ..)
  rw [sameAddress, eval_cmp_of_width (hb.trans ha.symm), ha', hb']
  rfl

namespace Memory

variable {m m' : Memory} {x v : Term} {p : Formula}

/-- The bytes of a memory in an environment. -/
def num (env : Env) (m : Memory) : Nat → Nat := fun a => (m.byteAt env a).toNat

@[simp] theorem width_read : (m.read x).width = 8 := by
  induction m with
  | array => rfl
  | byte | ifIndex => exact Term.width_resizeZero (.inl (by decide))
  | ite _ _ _ ih => exact ih

/-- **To read at an address gives the byte there.** -/
@[simp] theorem num_read : (m.read x).num env = m.num env (x.num env) := by
  have hbyte : ∀ t : Term, (t.resizeZero 8).num env = ((t.eval env).setWidth 8).toNat := fun t => by
    rw [Term.num_resizeZero (.inl (by decide)), BitVec.toNat_setWidth]
    rfl
  induction m with
  | array => rfl
  | byte t => exact hbyte t
  | ifIndex p a v m ih =>
    rw [read, Term.num_ite_of_width (width_read.trans (Term.width_resizeZero (.inl (by decide))).symm), ih, hbyte,
      num, num, byteAt, apply_ite BitVec.toNat]
    refine if_congr ?_ rfl rfl
    simp only [Formula.eval_allOf, List.all_cons, List.all_nil, Formula.eval_sameAddress, Bool.and_true, Bool.and_eq_true,
      decide_eq_true_iff, and_comm, eq_comm (a := x.num env)]
    rfl
  | ite c m m' ih ih' =>
    rw [read, Term.num_ite_of_width (width_read.trans width_read.symm), ih, ih', num, num, num, byteAt, apply_ite BitVec.toNat]

theorem byteAt_write (i : Nat) : (m.write p a v).byteAt env i =
    if a.num env = i ∧ p.eval env = true then (v.eval env).setWidth 8 else m.byteAt env i := by
  cases m <;> rfl

theorem byteAt_choose (i : Nat) :
    (choose p m m').byteAt env i = if p.eval env then m.byteAt env i else m'.byteAt env i := by
  cases m <;> cases m' <;> rfl

end Memory

end Peephole.Logic
