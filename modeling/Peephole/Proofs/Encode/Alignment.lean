import Peephole.Proofs.Encode.Layout

/-!
# Aligned accesses

An access that asks for an alignment is defined only if the blocks it lies in have at least this alignment.  A block
behind a pointer from outside is taken to be aligned to one byte.

* `aligned_access_iff` : **no environment allows an access through a pointer from outside that asks for an alignment
  above one**, and some environment allows all others that fit into the block.
-/

namespace Peephole.Encode

open Logic Program Machine

variable {s : Setting} {w : Work} {i : ValueId}

/-- An access at the start of a block lies in it, if it is large enough. -/
theorem within_start (env : Env) (b : Block) (size : Int) : within env b size (start env b) = true := by
  simp [within]

/-- The pointer is one, and all else starts behind it. -/
def lowest (pointer : String) : Env := { (default : Env) with bits := fun k => if k = pointer then 1 else 2 }

theorem start_lowest {b : Block} (h : 2 ≤ b.pointerWidth) (pointer : String) :
    start (lowest pointer) b = if b.pointer = pointer then 1 else 2 := by
  have hpow : 2 ^ 2 ≤ 2 ^ b.pointerWidth := Nat.pow_le_pow_right (by decide) h
  simp only [start, lowest]
  split
  · exact wrap_of_lt (n := 1) (by omega)
  · exact wrap_of_lt (n := 2) (by omega)

/-- **An access through a pointer from outside can be defined if and only if it asks for no alignment above one.**  The
block behind the pointer is taken to be aligned to one byte, and the access lies in it. -/
theorem aligned_access_iff {ts : List Task} {n align : Nat} {b : Block} {size : Int}
    (h : Chain s (Task.perform s.options) ts ⟨.start, .none, n⟩ w) (hleaf : Task.leaf i ∈ ts)
    (hout : s.outside i = some b) (hptr : 2 ≤ s.shape.ptrWidth) (hsize : size ≤ s.shape.ptrWidth * 7)
    (hnew : ∀ j c, s.allocation j = some c → c.pointer ≠ b.pointer) :
    (∀ v t v', encode i s v = .ok (t, v') → t = some b.ptr) ∧
      ((∃ env, holds env (accessConditions w.state size align b.ptr) = true) ↔ align ≤ 1) := by
  refine ⟨fun v t v' hv => (encode_outside hv hout).1, ?_⟩
  have hfinds : s.FindsAll w.state :=
    h.invariant (fun task _ => findsAll_perform s.options task) (by simp [Setting.FindsAll, State.start])
  obtain ⟨hwidth, -, -, -⟩ := outside_block hout
  have hwidths : ∀ c ∈ w.state.blocks, b.ptr.width = c.pointerWidth := by
    intro c hc
    obtain ⟨j, hj | hj⟩ := hfinds c hc
    · exact hwidth.trans (allocation_pointerWidth hj.1).symm
    · exact hwidth.trans (outside_block hj).1.symm
  -- the block that is known under the name of the pointer lies behind a pointer from outside
  obtain ⟨c, hc, hsame⟩ := List.any_eq_true.1 (chain_known h hleaf b hout)
  have hname : c.pointer = b.pointer := by simp_all [Block.same]
  have hstart : ∀ env, b.ptr.num env = start env c := by
    intro env
    rw [num_ptr, start, start, ← hwidths c hc, hname]
    rfl
  obtain ⟨j, hj⟩ : ∃ j, s.outside j = some c := by
    obtain ⟨j, hj | hj⟩ := hfinds c hc
    · exact absurd hname (hnew j c hj.1)
    · exact ⟨j, hj⟩
  obtain ⟨-, hfrom, hcsize, hcalign⟩ := outside_block hj
  constructor
  · rintro ⟨env, henv⟩
    rw [holds_accessConditions hwidths, permitted, decide_eq_true_iff] at henv
    have halign := henv.2.1 c hc
    rw [hstart, hcsize, hcalign] at halign
    by_contra hlt
    have := halign (by omega) hsize (within_start env c size)
    omega
  · intro halign
    refine ⟨lowest b.pointer, ?_⟩
    rw [holds_accessConditions hwidths, permitted, decide_eq_true_iff, num_ptr, start_lowest (hwidth ▸ hptr),
      if_pos rfl]
    refine ⟨one_ne_zero, ?_, c, hc, hcsize ▸ hsize, by simp [hfrom]⟩
    intro d hd _ _ hin
    obtain ⟨j, hj | hj⟩ := hfinds d hd
    · simp [within, start_lowest (allocation_pointerWidth hj.1 ▸ hptr), hnew j d hj.1] at hin
    · rw [(outside_block hj).2.2.2]
      exact_mod_cast halign

/-- A byte behind a pointer. -/
def pointerSetting : Setting :=
  ⟨⟨#[⟨"%p", "%p", some ⟨"%p", .ptr (.int (some 8))⟩, .input⟩], 0⟩, ⟨fun _ => 1, 32⟩, {}, true⟩

/-- The theorem at a byte behind a pointer: it can be accessed, but not if it is to be aligned to four bytes. -/
theorem byte_aligned_access : ∃ w, Chain pointerSetting (Task.perform {}) [.leaf 0] ⟨.start, .none, 0⟩ w ∧
    (∃ env, holds env (accessConditions w.state 8 1 (.var "%p" 32)) = true) ∧
    ¬∃ env, holds env (accessConditions w.state 8 4 (.var "%p" 32)) = true := by
  obtain ⟨⟨⟨⟩, w⟩, hw, -⟩ := exists_ok (x := addLeaf 0 pointerSetting ⟨.start, .none, 0⟩) (fun _ => true) (by cbv)
  have hchain : Chain pointerSetting (Task.perform {}) [.leaf 0] ⟨.start, .none, 0⟩ w := ⟨w, hw, rfl⟩
  have hnew : ∀ j c, pointerSetting.allocation j = some c → c.pointer ≠ "%p" := by
    intro j c hc
    obtain ⟨_, _, _, _, _, hop, -⟩ := Setting.allocation_some hc
    cases j with
    | zero => cases hop
    | succ j => cases hop
  have hiff : ∀ align : Nat, (∃ env, holds env (accessConditions w.state 8 align (.var "%p" 32)) = true) ↔ align ≤ 1 :=
    fun align => aligned_access_iff hchain (List.mem_singleton_self _) rfl (by decide) (by decide) hnew |>.2
  exact ⟨w, hchain, (hiff 1).2 le_rfl, fun h => absurd ((hiff 4).1 h) (by decide)⟩

end Peephole.Encode
