import Peephole.Proofs.Encode.Arithmetic
import Peephole.Proofs.Machine.Memory

/-!
# The meaning of accesses to memory

The terms and conditions that loads, stores, allocations and address computations give, as numbers.

* `loadParts_means`, `num_writeWord` : a load reads the word that stands in memory, a store writes one.
* `holds_accessConditions`, `holds_placed` : the conditions of an access, and those of an allocation.
* `num_fill` : what stands in an allocated block.
* `Steps.strided` : an address is computed by its strides.
-/

namespace Peephole.Logic

open Machine

variable {env : Env}

namespace Term

theorem num_concat (a b : Term) : (concat a b).num env = a.num env * 2 ^ b.width + b.num env := by
  change (a.eval env ++ b.eval env).toNat = _
  rw [BitVec.toNat_append, ← Nat.shiftLeft_add_eq_or_of_lt (b.eval env).isLt, Nat.shiftLeft_eq]
  rfl

/-- The bits of terms one after another. -/
def widths (ts : List Term) : Nat := (ts.map width).sum

/-- The number of terms one after another, the first at the high end. -/
def joined (env : Env) : List Term → Nat
  | [] => 0
  | t :: ts => t.num env * 2 ^ widths ts + joined env ts

theorem widths_cons (t : Term) (ts : List Term) : widths (t :: ts) = t.width + widths ts := by
  simp [widths]

theorem foldl_concat (t : Term) (ts : List Term) :
    (ts.foldl concat t).width = t.width + widths ts ∧
      ∀ env, (ts.foldl concat t).num env = t.num env * 2 ^ widths ts + joined env ts := by
  induction ts generalizing t with
  | nil => simp [widths, joined]
  | cons u us ih =>
    obtain ⟨hwidth, hnum⟩ := ih (concat t u)
    rw [List.foldl_cons, hwidth, widths_cons]
    refine ⟨Nat.add_assoc .., fun env => ?_⟩
    rw [hnum, num_concat, joined, pow_add]
    ring

theorem concatAll_means {ts : List Term} {t : Term} (h : concatAll ts = some t) :
    t.width = widths ts ∧ ∀ env, t.num env = joined env ts := by
  cases ts with
  | nil => cases h
  | cons u us =>
    cases h
    obtain ⟨hwidth, hnum⟩ := foldl_concat u us
    exact ⟨hwidth.trans (widths_cons u us).symm, hnum⟩

section Bytes

variable {f : Nat → Term} {low : List Term}

theorem bytes_succ (f : Nat → Term) (low : List Term) (k : Nat) :
    ((List.range (k + 1)).map f).reverse ++ low = f k :: (((List.range k).map f).reverse ++ low) := by
  simp [List.range_succ]

theorem widths_bytes (hf : ∀ i, (f i).width = 8) (k : Nat) :
    widths (((List.range k).map f).reverse ++ low) = 8 * k + widths low := by
  induction k with
  | zero => simp
  | succ k ih =>
    rw [bytes_succ, widths_cons, ih, hf]
    omega

/-- Bytes in front of other terms, the first byte at the low end. -/
theorem joined_bytes (hf : ∀ i, (f i).width = 8) {w a : Nat} {mem : Bytes}
    (hnum : ∀ i, (f i).num env = mem ((a + i) % 2 ^ w)) (k : Nat) :
    joined env (((List.range k).map f).reverse ++ low) =
      bytesAt w mem a k * 2 ^ widths low + joined env low := by
  induction k with
  | zero => simp [bytesAt]
  | succ k ih =>
    rw [bytes_succ, joined, widths_bytes hf, ih, hnum, bytesAt, pow_add]
    ring

end Bytes

theorem num_resizeSigned {n : Nat} (hn : 0 < n) (a : Term) :
    (a.resizeSigned n).num env = wrap n (signed a.width (a.num env)) := by
  have hlt := a.num_lt env
  unfold resizeSigned
  split
  · next h => rw [← h, wrap_signed hlt]
  · split
    · next hne hlow =>
      rw [num_extract, pow_zero, Nat.div_one, Nat.sub_zero, Nat.sub_add_cancel hn]
      have hmod : (a.num env % 2 ^ n : Nat) = wrap n (a.num env) := by
        rw [← Nat.cast_inj (R := Int), wrap_cast]
        push_cast
        rfl
      rw [hmod, wrap_eq_wrap_iff]
      have hsigned := signed_modEq a.width (a.num env)
      exact (hsigned.of_dvd (pow_dvd_pow 2 hlow.le)).symm
    · next hne hhigh =>
      rw [num_signExt, Nat.add_sub_cancel' (by omega)]

end Term

/-- A byte is written if the condition holds. -/
theorem Memory.num_write (g : Formula) (a v : Term) (m : Memory) :
    (m.write g a v).num env =
      if g.eval env then Function.update (m.num env) (a.num env) (v.num env % 2 ^ 8) else m.num env := by
  funext k
  have hbyte : ((v.eval env).setWidth 8).toNat = v.num env % 2 ^ 8 := BitVec.toNat_setWidth 8 _
  rw [num, byteAt_write]
  cases g.eval env with
  | false => simp [num]
  | true =>
    by_cases hk : a.num env = k
    · simp [hk, hbyte]
    · simp [hk, Function.update_of_ne (Ne.symm hk), num]

end Peephole.Logic

namespace Peephole.Encode

open Logic Program Machine

variable {s : Setting} {width : String → Nat} {w w' : Work} {env : Env} {i : ValueId} {align n : Nat} {a : Term}

/-! ### Words -/

/-- Addresses wrap around. -/
theorem num_offset (a : Term) (k : Nat) :
    (Term.op .add a (numberLike k a)).num env = (a.num env + k) % 2 ^ a.width := by
  have hadd : (Term.op .add a (numberLike k a)).num env = result a.width .add (a.num env) (wrap a.width k) :=
    Term.num_op_const .add a k
  rw [hadd, result, ← Nat.cast_inj (R := Int), wrap_cast, wrap_cast]
  push_cast
  rw [Int.add_emod_emod]

theorem num_next (a : Term) : (Term.op .add a (numberLike 1 a)).num env = (a.num env + 1) % 2 ^ a.width :=
  num_offset a 1

/-- **A load reads the word that stands in memory.** -/
theorem loadParts_means {t : Term} {m : Memory} (h : Term.concatAll (loadParts m a n) = some t) :
    t.width = n ∧ ∀ env, t.num env = loaded a.width (m.num env) (a.num env) n := by
  obtain ⟨hwidth, hnum⟩ := Term.concatAll_means h
  have hbytes : ∀ (env : Env) (base : Term) (i : Nat), (m.read (.op .add base (numberLike i base))).num env =
      m.num env ((base.num env + i) % 2 ^ base.width) := by
    intro env base i
    rw [Memory.num_read, num_offset]
  have hnil : Term.widths [] = 0 := rfl
  unfold loadParts at hwidth hnum
  by_cases hrem : n % 8 = 0
  · simp only [hrem, if_true] at hwidth hnum
    rw [Term.widths_bytes (fun _ => Memory.width_read), hnil] at hwidth
    refine ⟨by omega, fun env => ?_⟩
    rw [hnum, Term.joined_bytes (fun _ => Memory.width_read) (hbytes env a), loaded, if_pos hrem]
    simp [hnil, Term.joined]
  · -- The first byte holds only the low bits of the word.
    simp only [hrem, if_false] at hwidth hnum
    have hlow : Term.widths [Term.extract (n % 8 - 1) 0 (m.read a)] = n % 8 := by
      simp only [Term.widths, List.map_cons, List.map_nil, List.sum_cons, List.sum_nil, Term.width]
      omega
    have hsmall : n % 8 - 1 + 1 = n % 8 := by omega
    rw [Term.widths_bytes (fun _ => Memory.width_read), hlow] at hwidth
    refine ⟨by omega, fun env => ?_⟩
    rw [hnum, Term.joined_bytes (fun _ => Memory.width_read) (hbytes env _), hlow, loaded, if_neg hrem, num_next]
    simp [Term.joined, Term.num_extract, hsmall, hnil, Term.width]

theorem loadTerm_means {v : Value} {x : ValueId} {t : Term} {e : Encoded} {m : Memory}
    (hx : w.state.vars.get? (keyOf s.table x) = some e) (ha : e.value = some a) (hn : s.HasSize v n)
    (hm : w.state.memory = some m) (h : loadTerm v x align s w = .ok (t, w')) :
    t.width = n ∧ ∀ env, t.num env = loaded a.width (m.num env) (a.num env) n := by
  rw [loadTerm_eq align hx ha hn hm] at h
  cases hc : Term.concatAll (loadParts m a n) with
  | none =>
    rw [hc] at h
    cases h
  | some u =>
    rw [hc] at h
    cases h
    exact loadParts_means hc

/-- Bytes of a term are written one after another, if the condition holds. -/
theorem num_writeAll {g : Formula} {base : Term} {v : Nat → Term} (hg : g.eval env = true)
    (hv : ∀ i, (v i).num env % 2 ^ 8 = n / 2 ^ (8 * i) % 2 ^ 8) (m : Memory) (k : Nat) :
    (writeAll g (fun i => .op .add base (numberLike i base)) v (List.range k) m).num env =
      written base.width n (base.num env) (m.num env) k := by
  induction k with
  | zero => rfl
  | succ k ih =>
    rw [List.range_succ, writeAll, List.foldl_append, List.foldl_cons, List.foldl_nil, ← writeAll, Memory.num_write,
      if_pos hg, ih, num_offset, hv, written]

theorem num_writeAll_of_not {g : Formula} {a v : Nat → Term} (hg : g.eval env = false) (is : List Nat)
    (m : Memory) : (writeAll g a v is m).num env = m.num env := by
  induction is generalizing m with
  | nil => rfl
  | cons i is ih =>
    rw [writeAll, List.foldl_cons, ← writeAll, ih, Memory.num_write]
    simp [hg]

/-- The memory in which the bytes of a term have been written behind its lowest `r` bits. -/
theorem num_writeAll_extract (env : Env) (g : Formula) (base a : Term) (r k : Nat) (m : Memory) :
    (writeAll g (fun i => .op .add base (numberLike i base))
      (fun i => .extract (r + 8 * i + 7) (r + 8 * i) a) (List.range k) m).num env =
      if g.eval env then written base.width (a.num env / 2 ^ r) (base.num env) (m.num env) k else m.num env := by
  have hbyte : ∀ i : Nat, (Term.extract (r + 8 * i + 7) (r + 8 * i) a).num env % 2 ^ 8 =
      a.num env / 2 ^ r / 2 ^ (8 * i) % 2 ^ 8 := by
    intro i
    have hwidth : r + 8 * i + 7 - (r + 8 * i) + 1 = 8 := by omega
    rw [Term.num_extract, hwidth, Nat.mod_mod, Nat.div_div_eq_div_mul, pow_add]
  cases hg : g.eval env with
  | true => exact num_writeAll hg hbyte m k
  | false => exact num_writeAll_of_not hg _ m

/-- The byte in which the lowest `r` bits have been replaced. -/
theorem num_shared {r : Nat} (hpos : 0 < r) (hr : r < 8) (m : Memory) (a b : Term) :
    (Term.concat (.extract 7 r (m.read b)) (.extract (r - 1) 0 a)).num env % 2 ^ 8 =
      m.num env (b.num env) / 2 ^ r % 2 ^ (8 - r) * 2 ^ r + a.num env % 2 ^ r := by
  have hhigh : 7 - r + 1 = 8 - r := by omega
  have hlow : r - 1 - 0 + 1 = r := by omega
  have hwidth : (Term.extract (r - 1) 0 a).width = r := hlow
  rw [Term.num_concat, hwidth, Term.num_extract, Term.num_extract, Memory.num_read, hhigh, hlow, pow_zero, Nat.div_one]
  refine Nat.mod_eq_of_lt ?_
  have hhigh' : m.num env (b.num env) / 2 ^ r % 2 ^ (8 - r) < 2 ^ (8 - r) := Nat.mod_lt _ (by positivity)
  have hlow' : a.num env % 2 ^ r < 2 ^ r := Nat.mod_lt _ (by positivity)
  calc m.num env (b.num env) / 2 ^ r % 2 ^ (8 - r) * 2 ^ r + a.num env % 2 ^ r
      < (m.num env (b.num env) / 2 ^ r % 2 ^ (8 - r) + 1) * 2 ^ r := by
        rw [Nat.add_mul, Nat.one_mul]
        omega
    _ ≤ 2 ^ (8 - r) * 2 ^ r := Nat.mul_le_mul_right _ hhigh'
    _ = 2 ^ 8 := by rw [← pow_add, Nat.sub_add_cancel hr.le]

/-- **A store writes a word**, if the condition holds. -/
theorem num_writeWord (g : Formula) (a b : Term) (n : Nat) (m : Memory) : (writeWord g a b n m).num env =
    if g.eval env then stored b.width (m.num env) (b.num env) n (a.num env) else m.num env := by
  rw [writeWord, num_writeAll_extract, stored]
  by_cases hrem : n % 8 = 0
  · simp [hrem]
  · -- The low bits of the word share the first byte with what stood there.
    simp only [hrem, if_false, Memory.num_write, num_shared (Nat.pos_of_ne_zero hrem) (Nat.mod_lt n (by decide)),
      num_next]
    cases g.eval env with
    | true => rfl
    | false => rfl

theorem found_pair {d : Dict Encoded} {x y : ValueId} {e e' : Encoded} : Found s d [x, y] [e, e'] ↔
    d.get? (keyOf s.table x) = some e ∧ d.get? (keyOf s.table y) = some e' := by
  simp [Found, keyOf]

theorem storeBytes_means {ty : PlacedTy} {x y : ValueId} {e e' : Encoded} {b : Term} {m : Memory}
    (hx : w.state.vars.get? (keyOf s.table x) = some e) (ha : e.value = some a)
    (hy : w.state.vars.get? (keyOf s.table y) = some e') (hb : e'.value = some b) (hn : s.sizeOf ty = .ok n)
    (hm : w.state.memory = some m) (h : storeBytes ty x y align s w = .ok ((), w')) :
    ∃ m', w'.state.memory = some m' ∧ ∀ env, m'.num env =
      if holds env w'.state.defined then stored b.width (m.num env) (b.num env) n (a.num env) else m.num env := by
  obtain ⟨f, f', a', b', n', hfound, ha', hb', hn', rfl⟩ := storeBytes_ok h
  obtain ⟨hf, hf'⟩ := found_pair.1 hfound
  cases hx.symm.trans hf
  cases hy.symm.trans hf'
  cases ha.symm.trans ha'
  cases hb.symm.trans hb'
  cases hn.symm.trans hn'
  exact ⟨_, by rw [hm]; rfl, fun env => by rw [num_writeWord, Formula.eval_allOf]; rfl⟩

/-! ### Blocks -/

theorem num_ptr (b : Block) : b.ptr.num env = start env b := Term.num_var ..

/-- The bounds of a block, as numbers. -/
theorem eval_within {b : Block} (hwidth : a.width = b.pointerWidth) (size : Int) : (Formula.and [.cmp .uge a b.ptr,
      .cmp .uge (.const (bytes (b.size - size)) b.pointerWidth) (.op .sub a b.ptr)]).eval env =
        within env b size (a.num env) := by
  have hlow : (Formula.cmp .uge a b.ptr).eval env = decide (start env b ≤ a.num env) := by
    rw [Formula.eval_cmp_of_width (b := b.ptr) hwidth.symm, num_ptr]
    rfl
  have hhigh : (Formula.cmp .uge (.const (bytes (b.size - size)) b.pointerWidth) (.op .sub a b.ptr)).eval env =
      decide (wrap b.pointerWidth (a.num env - start env b) ≤ wrap b.pointerWidth (bytes (b.size - size))) := by
    have hsub : (Term.op .sub a b.ptr).num env = wrap b.pointerWidth (a.num env - start env b) := by
      have hop : (Term.op .sub a b.ptr).num env = result a.width .sub (a.num env) (b.ptr.num env) :=
        Term.num_op_of_width .sub hwidth.symm
      rw [hop, result, num_ptr, hwidth]
    rw [Formula.eval_cmp_of_width (a := .const _ b.pointerWidth) (b := .op .sub a b.ptr) hwidth, hsub, Term.num_const]
    rfl
  simp only [Formula.eval] at hlow hhigh
  simp only [Formula.eval, Formula.evalAll, hlow, hhigh, Bool.and_true, within, Bool.decide_and]
  -- Behind the start of the block the offset does not wrap around.
  by_cases hle : start env b ≤ a.num env
  · have hoffset : wrap b.pointerWidth (a.num env - start env b) = a.num env - start env b := by
      have hlt := hwidth ▸ a.num_lt env
      rw [← Nat.cast_sub hle, wrap_of_lt (by omega)]
    rw [hoffset]
  · simp [hle]

/-- **The conditions of an access mean that it is allowed.** -/
theorem holds_accessConditions {st : State} (hwidth : ∀ b ∈ st.blocks, a.width = b.pointerWidth) (size align : Int) :
    holds env (accessConditions st size align a) = permitted env st.blocks size align (a.num env) := by
  have hnull : (Formula.cmp .ne a (.const 0 a.width)).eval env = decide (a.num env ≠ 0) := by
    rw [Bool.eq_iff_iff, decide_eq_true_iff]
    exact eval_ne_zero a
  have hbounds : ∀ b ∈ st.blocks, (Formula.and [.cmp .uge a b.ptr,
      .cmp .uge (.const (bytes (b.size - size)) b.pointerWidth) (.op .sub a b.ptr)]).eval env =
        within env b size (a.num env) := fun b hb => eval_within (hwidth b hb) size
  rw [Bool.eq_iff_iff]
  simp only [accessConditions, holds_append, permitted, Bool.and_eq_true, decide_eq_true_iff, and_assoc]
  refine and_congr ?_ (and_congr ?_ ?_)
  · simp [holds, hnull]
  · simp only [holds, List.all_map, List.all_eq_true, List.mem_filter, decide_eq_true_eq, Function.comp_apply]
    constructor
    · intro h b hb hne hsize hin
      have hb' := h b ⟨⟨hb, hne⟩, hsize⟩
      rw [Formula.eval, hbounds b hb, hin] at hb'
      simpa [Formula.eval] using hb'
    · rintro h b ⟨⟨hb, hne⟩, hsize⟩
      rw [Formula.eval, hbounds b hb]
      cases hin : within env b size (a.num env) with
      | false => rfl
      | true => simpa [Formula.eval] using h b hb hne hsize hin
  · simp only [holds, List.all_cons, List.all_nil, Bool.and_true, Formula.eval_anyOf, List.any_map, List.any_eq_true,
      List.mem_filter, decide_eq_true_eq, Function.comp_apply, and_assoc]
    refine exists_congr fun b => and_congr_right fun hb => and_congr_right fun _ => ?_
    cases b.isAlloca with
    | false => simp
    | true => simp [hbounds b hb]

/-- A pointer is aligned if it is a multiple of the alignment. -/
theorem eval_alignedTo {p : Formula} (h : alignedTo? a align = some p) :
    p.eval env = decide (align = 0 ∨ a.num env % align = 0) := by
  unfold alignedTo? at h
  split at h
  · next hzero =>
    cases h
    have hnat : align = 0 := by exact_mod_cast hzero
    simp [hnat, Formula.eval]
  · next hzero =>
    split at h
    · next hpower =>
      cases h
      have hpos : align ≠ 0 := by exact_mod_cast hzero
      have hmask : align &&& (align - 1) = 0 := by simpa [isPowerOfTwo, Nat.pos_of_ne_zero hpos] using hpower
      obtain ⟨k, rfl⟩ := (Nat.and_sub_one_eq_zero_iff_isPowerOfTwo hpos).1 hmask
      have hwrap : wrap a.width ((2 ^ k : Nat) - 1 : Int) = (2 ^ k - 1) % 2 ^ a.width := by
        rw [← Nat.cast_inj (R := Int), wrap_cast]
        push_cast [Nat.one_le_two_pow]
        rfl
      have hand : (Term.op .and a (.const ((2 ^ k : Nat) - 1 : Int) a.width)).num env = a.num env % 2 ^ k := by
        have hlt := a.num_lt env
        have hop : (Term.op .and a (.const ((2 ^ k : Nat) - 1 : Int) a.width)).num env =
            a.num env &&& wrap a.width ((2 ^ k : Nat) - 1 : Int) := Term.num_op_const .and a _
        have hbound : a.num env % 2 ^ k < 2 ^ a.width := (Nat.mod_le _ _).trans_lt hlt
        calc (Term.op .and a (.const ((2 ^ k : Nat) - 1 : Int) a.width)).num env
            = a.num env % 2 ^ a.width &&& (2 ^ k - 1) % 2 ^ a.width := by rw [hop, hwrap, Nat.mod_eq_of_lt hlt]
          _ = a.num env % 2 ^ k := by
            rw [← Nat.and_mod_two_pow, Nat.and_two_pow_sub_one_eq_mod, Nat.mod_eq_of_lt hbound]
      rw [Bool.eq_iff_iff, Formula.eval_cmp_of_width (by rfl), meets_eq_iff, hand, Term.num_const, wrap_zero]
      simp
    · cases h

/-- **The conditions of an allocation mean that its place is one.** -/
theorem holds_placed {b : Block} {aligned : Formula} (halign : b.align = align) (hsize : b.size ≠ 0)
    (h : alignedTo? b.ptr align = some aligned) : holds env (b.placed aligned) = Machine.placed env b := by
  have hnull : (Formula.cmp .ne b.ptr (.const 0 b.pointerWidth)).eval env = true ↔ start env b ≠ 0 := by
    rw [← num_ptr]
    exact eval_ne_zero b.ptr
  have hends : (Formula.cmp .ult b.ptr (.op .add b.ptr (.const (b.size / 8 - 1) b.pointerWidth))).eval env = true ↔
      start env b < wrap b.pointerWidth (start env b + (b.size / 8 - 1)) := by
    have hadd : (Term.op .add b.ptr (.const (b.size / 8 - 1) b.pointerWidth)).num env =
        wrap b.pointerWidth (start env b + (b.size / 8 - 1)) := by
      have hop : (Term.op .add b.ptr (.const (b.size / 8 - 1) b.pointerWidth)).num env =
          result b.pointerWidth .add (b.ptr.num env) (wrap b.pointerWidth (b.size / 8 - 1)) :=
        Term.num_op_const .add b.ptr _
      rw [hop, result, num_ptr, wrap_eq_wrap_iff, wrap_cast]
      exact Int.ModEq.add_left _ (Int.mod_modEq _ _)
    rw [Formula.eval_cmp_of_width (by rfl), meets_ult_iff, hadd, num_ptr]
  have haligned : aligned.eval env = true ↔ b.align = 0 ∨ start env b % b.align.toNat = 0 := by
    rw [eval_alignedTo h, decide_eq_true_iff, num_ptr, halign]
    simp
  rw [Bool.eq_iff_iff, Block.placed, holds_append, Machine.placed, Bool.and_eq_true, decide_eq_true_iff]
  by_cases hlarge : 8 < b.size
  · simp [holds, hlarge, hsize, hnull, hends, haligned]
  · simp [holds, hlarge, hsize, hnull, haligned]

/-- The memory with a block allocated holds the contents of the block. -/
theorem num_fill (b : Block) (n : Nat) (m : Memory) : (b.fill n m).num env = filled env b n (m.num env) := by
  have hall : (Formula.allOf []).eval env = true := rfl
  have hfill := num_writeAll_extract env (.allOf []) b.ptr (.var (b.contents n).name b.size.toNat) 0
    (b.size.toNat / 8) m
  rw [hall, if_pos rfl, pow_zero, Nat.div_one, Term.num_var, num_ptr] at hfill
  rw [filled, ← show b.ptr.width = b.pointerWidth from rfl, ← hfill]
  simp [Block.fill, numberLike, Block.ptr, Term.width]

/-! ### Addresses -/

theorem width_resizeSigned (hn : 0 < n) (a : Term) : (a.resizeSigned n).width = n := by
  unfold Term.resizeSigned
  split
  · next h => exact h
  · split
    · simp only [Term.width]
      omega
    · simp only [Term.width]
      omega

/-- A step of an address computation. -/
theorem num_stepTerm (hpos : 0 < a.width) (st : Nat × Term) : (stepTerm a st).num env =
    wrap a.width (a.num env + bytes (allocSize st.1) * signed st.2.width (st.2.num env)) := by
  have hidx := width_resizeSigned hpos st.2
  have hmul : (Term.op .mul (.const (bytes (allocSize st.1)) a.width) (st.2.resizeSigned a.width)).num env =
      result a.width .mul (wrap a.width (bytes (allocSize st.1)))
        (wrap a.width (signed st.2.width (st.2.num env))) := by
    rw [← Term.num_resizeSigned hpos, ← @Term.num_const env]
    exact Term.num_op_of_width .mul hidx
  have hadd : (stepTerm a st).num env = result a.width .add (a.num env) _ := Term.num_op_of_width .add rfl
  rw [hadd, hmul, result, result, wrap_eq_wrap_iff, wrap_cast, wrap_cast, wrap_cast]
  refine Int.ModEq.add_left _ ((Int.mod_modEq _ _).trans ?_)
  exact Int.ModEq.mul (Int.mod_modEq _ _) (Int.mod_modEq _ _)

theorem num_steps (hpos : 0 < a.width) (steps : List (Nat × Term)) :
    (steps.foldl stepTerm a).width = a.width ∧ ∀ env, (steps.foldl stepTerm a).num env = stepped a.width (a.num env)
      (steps.map fun st => (bytes (allocSize st.1), st.2.width, st.2.num env)) := by
  induction steps generalizing a with
  | nil => exact ⟨rfl, fun _ => rfl⟩
  | cons st steps ih =>
    obtain ⟨hwidth, hnum⟩ := ih (a := stepTerm a st) hpos
    refine ⟨hwidth, fun env => (hnum env).trans ?_⟩
    rw [num_stepTerm hpos]
    rfl

theorem Steps.strided {d : Dict Encoded} {place : String} {ty : Ty} {xs : List ValueId}
    {es : List Encoded} {steps : List (Nat × Term)} (h : Steps s d place ty xs es steps)
    (hwidths : ∀ k e u, d.get? k = some e → e.value = some u → u.width = width k) :
    ∀ (env : Env) (R : String → Nat),
      (∀ x ∈ xs, ∀ e u, d.get? (keyOf s.table x) = some e → e.value = some u → u.num env = R (keyOf s.table x)) →
      (steps.map fun st => (bytes (allocSize st.1), st.2.width, st.2.num env)) =
        List.zipWith (fun n x => (n, width (keyOf s.table x), R (keyOf s.table x)))
          (strides s place ty xs.length) xs := by
  induction h with
  | nil => exact fun _ _ _ => rfl
  | @cons _ _ _ _ x _ e _ m a _ hp hm he ha _ ih =>
    intro env R hR
    obtain ⟨hx, hR⟩ := List.forall_mem_cons.1 hR
    rw [List.length_cons, strides_succ hp hm (underlying_of_pointee hp), List.zipWith_cons_cons, List.map_cons,
      ih env R hR, hwidths _ e a he ha, hx e a he ha]
    rfl

end Peephole.Encode
