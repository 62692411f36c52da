import Mathlib
import Peephole.Proofs.Encode.Leaves

/-!
# Layouts of memory

The blocks of a program lie somewhere in memory, and nothing but the constraints on allocations keeps them apart.
A layout is legal if no allocation starts at zero and no byte of an allocation belongs to another block.

* `blocks_found` : the blocks of a program are those of its allocations that are not empty, and those behind pointers
  from outside.
* `allocaConstraints_iff` : **the constraints hold exactly for the legal layouts that keep each block as many bytes
  apart as it has bits**, as long as that many bytes fit behind each block.

The size of a block counts bits, and the constraints add it to an address.  So they ask for eight times the room
that a block needs, and exclude the layout in which two bytes lie side by side (`twoBytes_apart`).
-/

namespace Peephole.Encode

open Logic Program Machine

variable {s : Setting} {w w' : Work} {i : ValueId} {env : Env}
variable {b : Block}

/-! ### The blocks of a program -/

/-- Encoding can find the block: a value allocates it, or it lies behind a pointer from outside. -/
def Setting.Finds (s : Setting) (b : Block) : Prop := ∃ i, Allocates s i b ∨ s.outside i = some b

def Setting.FindsAll (s : Setting) (a : State) : Prop := ∀ b ∈ a.blocks, s.Finds b

theorem Alters.findsAll {a a' : State} (h : Alters s i a a') (ha : s.FindsAll a) : s.FindsAll a' := by
  have hadd : ∀ {b : Block}, s.Finds b → ∀ c ∈ a.blocks ++ [b], s.Finds c := by
    intro b hb c hc
    rcases List.mem_append.1 hc with hc | hc
    · exact ha c hc
    · exact List.mem_singleton.1 hc ▸ hb
  cases h with
  | allocates b w aligned hb hw h =>
    subst h hw
    exact hadd ⟨i, .inl hb⟩
  | finds b free hb h =>
    subst h
    unfold State.addInputBlock
    split
    · exact ha
    · exact hadd ⟨i, .inr hb⟩
  | nothing _ h =>
    intro b hb
    exact ha b (h.blocks ▸ hb)

/-- What has no result changes no block. -/
theorem encode_none_blocks (h : encode i s w = .ok (none, w')) : w'.state.blocks = w.state.blocks := by
  cases encode_course h with
  | quiet => rw [Work.adoptAll_state]
  | store _ hst =>
    obtain ⟨e, e', a, b, n, -, -, -, -, rfl⟩ := storeBytes_ok hst
    simp [Work.stored, Work.accessed]
  | unreachable => rfl

theorem Encodes.findsAll {is : List ValueId} (h : Encodes s is w w') (hw : s.FindsAll w.state)
    (hpart : ∀ j ∈ is, ∀ v v' t, encode j s v = .ok (some t, v') → s.FindsAll v.state → s.FindsAll v'.state) :
    s.FindsAll w'.state := by
  induction h with
  | nil w c => exact hw
  | cons c t h _ ih =>
    have hfirst := hpart _ List.mem_cons_self _ _ _ h hw
    exact ih hfirst fun j hj => hpart j (List.mem_cons_of_mem _ hj)

theorem encode_findsAll {t : Option Term} (h : encode i s w = .ok (t, w')) (hw : s.FindsAll w.state) :
    s.FindsAll w'.state := by
  -- The operands of a constant expression have smaller numbers and are encoded before it.
  induction i using Nat.strongRecOn generalizing w w' t with
  | _ i ih =>
    cases t with
    | none =>
      intro b hb
      exact hw b (encode_none_blocks h ▸ hb)
    | some t =>
      obtain ⟨hsmaller, us, w₁, hus, hown⟩ := encode_does h
      exact hown.alters.findsAll ((Encodes.of_mapM hus).findsAll hw fun j hj v v' u hu hv => ih j (hsmaller j hj) hu hv)

theorem findsAll_perform (o : Options) (task : Task) : Keeps s (fun w => s.FindsAll w.state) (task.perform o) := by
  intro w r w' hw h
  cases task with
  | leaf i =>
    obtain ⟨t, w₁, h₁, -, -, rfl⟩ := addLeaf_ok h
    have hw₁ := encode_findsAll h₁ hw
    exact hw₁
  | enter label =>
    cases h
    obtain ⟨ds, m, he⟩ := State.enter_eq o label w.state
    dsimp only
    rw [he]
    exact hw
  | value i =>
    obtain ⟨t, w₁, entries, h₁, rfl⟩ := addValue_ok h
    have hw₁ := encode_findsAll h₁ hw
    exact hw₁

/-- **Where blocks come from.** -/
theorem blocks_found {names : Dict ValueId} {p : Code} {n : Nat}
    (h : encodeProgram names p s ⟨.start, .none, n⟩ = .ok ((), w)) : s.FindsAll w.state :=
  (encodeProgram_ok.1 h).invariant (fun task _ => findsAll_perform s.options task)
    (by simp [Setting.FindsAll, State.start])

/-! ### Sizes -/

theorem allocSize_nonneg (n : Nat) : 0 ≤ allocSize n := by
  have hround : 0 ≤ Number.round 53 (n + 7 : Int) := by
    unfold Number.round
    split
    · omega
    · exact Int.natCast_nonneg _
  exact Int.mul_nonneg (Int.tdiv_nonneg hround (by decide)) (by decide)

theorem outside_block (h : s.outside i = some b) : b.pointerWidth = s.shape.ptrWidth ∧
    b.isAlloca = false ∧ b.size = s.shape.ptrWidth * 7 ∧ b.align = 1 := by
  simp only [Setting.outside, Option.bind_eq_bind, Option.bind_eq_some_iff] at h
  obtain ⟨pointer, -, t, ht, n, hn, r, hr, h⟩ := h
  subst h
  have hbehind := toOption_eq_some hr
  have hwidth := behind_pointerWidth ⟨t, ht, toOption_eq_some hn⟩ hbehind
  obtain rfl := behind_block hbehind
  exact ⟨hwidth, rfl, rfl, rfl⟩

/-- The sizes that a typing gives are no nonsense: pointers have bits, and no allocation has a negative number of
elements. -/
structure Setting.Sane (s : Setting) : Prop where
  pointers : 0 < s.shape.ptrWidth
  counts : ∀ i ty c align, (s.table.get i).op = .alloca ty c align →
    0 ≤ s.shape.values (Typing.countVarIn s.table c)

theorem allocation_size (hs : s.Sane) (h : s.allocation i = some b) : 0 ≤ b.size := by
  obtain ⟨ty, c, align, _, _, hop, -, -, -, -, -, n, hsize⟩ := Setting.allocation_some h
  rw [hsize]
  exact Int.mul_nonneg (allocSize_nonneg n) (hs.counts i ty c align hop)

/-- A block starts at a pointer and is not empty. -/
theorem Setting.Finds.block (hs : s.Sane) (h : s.Finds b) :
    b.pointerWidth = s.shape.ptrWidth ∧ 0 < b.size := by
  obtain ⟨i, ⟨halloc, hne⟩ | hout⟩ := h
  · have hsize := allocation_size hs halloc
    exact ⟨allocation_pointerWidth halloc, by omega⟩
  · obtain ⟨hwidth, -, hsize, -⟩ := outside_block hout
    have hpos := hs.pointers
    exact ⟨hwidth, by omega⟩

/-! ### Layouts -/

def Block.bytes (env : Env) (b : Block) : Set Int := Set.Ico (start env b) (start env b + b.size / 8)

/-- As many addresses from the start of a block on as the block has bits. -/
def Block.span (env : Env) (b : Block) : Set Int := Set.Ico (start env b) (start env b + b.size)

/-- No allocation starts at zero or shares a byte with another block. -/
structure LegalLayout (env : Env) (bs : List Block) : Prop where
  notNull : ∀ a ∈ bs, a.isAlloca = true → start env a ≠ 0
  disjoint : ∀ a ∈ bs, a.isAlloca = true → ∀ b ∈ bs, a.same b = false → Disjoint (a.bytes env) (b.bytes env)

/-- Each allocation and another block are as many bytes apart as they have bits. -/
def SpreadOut (env : Env) (bs : List Block) : Prop :=
  ∀ a ∈ bs, a.isAlloca = true → ∀ b ∈ bs, a.same b = false → Disjoint (a.span env) (b.span env)

/-- As many bytes as the block has bits fit behind its start. -/
def Block.HasRoom (env : Env) (b : Block) : Prop := start env b + b.size < 2 ^ b.pointerWidth

theorem Block.bytes_subset_span (h : 0 ≤ b.size) : b.bytes env ⊆ b.span env :=
  Set.Ico_subset_Ico_right (by omega)

theorem Block.span_disjoint {a : Block} (ha : 0 < a.size) (hb : 0 < b.size) :
    Disjoint (a.span env) (b.span env) ↔
      start env a + a.size ≤ start env b ∨ start env b + b.size ≤ start env a := by
  rw [Block.span, Block.span, Set.Ico_disjoint_Ico]
  omega

/-! ### The constraints -/

/-- Without wrapping around, the address behind a block is its start and its size. -/
theorem num_end (hsize : 0 ≤ b.size) (hroom : b.HasRoom env) :
    ((Term.op .add b.ptr (.const b.size b.pointerWidth)).num env : Int) = start env b + b.size := by
  have hop : (Term.op .add b.ptr (.const b.size b.pointerWidth)).num env =
      result b.pointerWidth .add (b.ptr.num env) (wrap b.pointerWidth b.size) := Term.num_op_const .add b.ptr _
  have hroom' : (start env b : Int) + b.size < 2 ^ b.pointerWidth := hroom
  have hsmall : b.size % 2 ^ b.pointerWidth = b.size := Int.emod_eq_of_lt hsize (by omega)
  rw [hop, result, num_ptr, wrap_cast, wrap_cast, hsmall]
  exact Int.emod_eq_of_lt (by omega) hroom'

theorem eval_apart {a : Block} (hwidth : b.pointerWidth = a.pointerWidth) (ha : 0 < a.size) (hb : 0 < b.size)
    (hra : a.HasRoom env) (hrb : b.HasRoom env) :
    (Formula.or [.cmp .uge b.ptr (.op .add a.ptr (.const a.size a.pointerWidth)),
      .cmp .ule (.op .add b.ptr (.const b.size b.pointerWidth)) a.ptr]).eval env = true ↔
        Disjoint (a.span env) (b.span env) := by
  have hright : (Formula.cmp .uge b.ptr (.op .add a.ptr (.const a.size a.pointerWidth))).eval env = true ↔
      start env a + a.size ≤ start env b := by
    have hw : (Term.op .add a.ptr (.const a.size a.pointerWidth)).width = b.ptr.width := hwidth.symm
    rw [Formula.eval_cmp_of_width hw, num_ptr, ← num_end ha.le hra]
    simp [meets]
  have hleft : (Formula.cmp .ule (.op .add b.ptr (.const b.size b.pointerWidth)) a.ptr).eval env = true ↔
      start env b + b.size ≤ start env a := by
    have hw : a.ptr.width = (Term.op .add b.ptr (.const b.size b.pointerWidth)).width := hwidth.symm
    rw [Formula.eval_cmp_of_width hw, num_ptr, ← num_end hb.le hrb]
    simp [meets]
  rw [Block.span_disjoint ha hb, ← hright, ← hleft]
  simp [Formula.eval, Formula.evalAny]

/-- **What the constraints on allocations mean.**  They hold exactly if the layout is legal and the blocks are spread
out. -/
theorem allocaConstraints_iff {names : Dict ValueId} {p : Code} {n : Nat} (hs : s.Sane)
    (h : encodeProgram names p s ⟨.start, .none, n⟩ = .ok ((), w)) (hroom : ∀ b ∈ w.state.blocks, b.HasRoom env) :
    holds env w.state.allocaConstraints = true ↔
      LegalLayout env w.state.blocks ∧ SpreadOut env w.state.blocks := by
  have hblock : ∀ b ∈ w.state.blocks, b.pointerWidth = s.shape.ptrWidth ∧ 0 < b.size :=
    fun b hb => (blocks_found h b hb).block hs
  have hnull : ∀ a : Block, (Formula.cmp .ne a.ptr (.const 0 a.pointerWidth)).eval env = true ↔ start env a ≠ 0 := by
    intro a
    rw [← num_ptr]
    exact eval_ne_zero a.ptr
  have hapart : ∀ a ∈ w.state.blocks, ∀ b ∈ w.state.blocks,
      ((Formula.or [.cmp .uge b.ptr (.op .add a.ptr (.const a.size a.pointerWidth)),
        .cmp .ule (.op .add b.ptr (.const b.size b.pointerWidth)) a.ptr]).eval env = true ↔
          Disjoint (a.span env) (b.span env)) := by
    intro a ha b hb
    obtain ⟨hwa, hsa⟩ := hblock a ha
    obtain ⟨hwb, hsb⟩ := hblock b hb
    exact eval_apart (hwb.trans hwa.symm) hsa hsb (hroom a ha) (hroom b hb)
  have hmeans : holds env w.state.allocaConstraints = true ↔
      ∀ a ∈ w.state.blocks, a.isAlloca = true → start env a ≠ 0 ∧
        ∀ b ∈ w.state.blocks, a.same b = false → Disjoint (a.span env) (b.span env) := by
    simp only [holds, State.allocaConstraints, List.all_flatMap, List.all_cons, List.all_map, List.all_eq_true,
      List.mem_filter, Bool.and_eq_true, Function.comp_apply, Bool.not_eq_true', hnull, and_imp]
    refine forall_congr' fun a => forall_congr' fun ha => forall_congr' fun _ => and_congr_right fun _ => ?_
    exact forall_congr' fun b => forall_congr' fun hb => forall_congr' fun _ => hapart a ha b hb
  rw [hmeans]
  constructor
  · intro hall
    refine ⟨⟨fun a ha hal => (hall a ha hal).1, fun a ha hal b hb hne => ?_⟩, fun a ha hal => (hall a ha hal).2⟩
    exact ((hall a ha hal).2 b hb hne).mono (Block.bytes_subset_span (hblock a ha).2.le)
      (Block.bytes_subset_span (hblock b hb).2.le)
  · rintro ⟨hlegal, hspread⟩ a ha hal
    exact ⟨hlegal.notNull a ha hal, hspread a ha hal⟩

/-! ### Two bytes -/

/-- Two allocations of one byte each, `%p` and `%q`. -/
def twoBytes : Setting where
  table := ⟨#[⟨"1", "1_0", some ⟨"1_0", .int none⟩, .literal 1⟩, ⟨"1", "1", none, .count 0 1 16 "val_%p_numElems"⟩,
    ⟨"%p", "%p", some ⟨"%p", .ptr (.int (some 8))⟩, .alloca ⟨"%p_elemsType_1", .int none⟩ 1 0⟩,
    ⟨"%q", "%q", some ⟨"%q", .ptr (.int (some 8))⟩, .alloca ⟨"%q_elemsType_2", .int none⟩ 1 0⟩], 3⟩
  shape := ⟨fun _ => 1, 32⟩
  options := { }
  inSource := true

/-- The two bytes lie at the given addresses. -/
def twoBytesAt (p q : Int) : Env := ⟨fun k => if k = "%p" then p else q, fun _ => false, fun _ _ => 0⟩

/-- The theorem at two bytes.  They may lie eight bytes apart.  They may also lie side by side, but the constraints
do not allow that. -/
theorem twoBytes_apart :
    ∃ w, encodeProgram [("1_0", 0), ("%p", 2), ("%q", 3)] [("", [("%p", 2), ("%q", 3)])] twoBytes
        ⟨.start, .none, 0⟩ = .ok ((), w) ∧
      LegalLayout (twoBytesAt 100 108) w.state.blocks ∧
      holds (twoBytesAt 100 108) w.state.allocaConstraints = true ∧
      LegalLayout (twoBytesAt 100 101) w.state.blocks ∧
      holds (twoBytesAt 100 101) w.state.allocaConstraints = false := by
  obtain ⟨⟨_, w⟩, h, hall⟩ := exists_ok
    (x := encodeProgram [("1_0", 0), ("%p", 2), ("%q", 3)] [("", [("%p", 2), ("%q", 3)])] twoBytes ⟨.start, .none, 0⟩)
    (fun r => (r.2.state.blocks.all fun b => b.pointerWidth == 32 && b.size == 8 &&
        (b.pointer == "%p" || b.pointer == "%q")) &&
      holds (twoBytesAt 100 108) r.2.state.allocaConstraints &&
      !holds (twoBytesAt 100 101) r.2.state.allocaConstraints) (by cbv)
  simp only [Bool.and_eq_true, Bool.not_eq_true', List.all_eq_true, beq_iff_eq, Bool.or_eq_true] at hall
  obtain ⟨⟨hblocks, htrue⟩, hfalse⟩ := hall
  have hsane : twoBytes.Sane := ⟨by decide, fun _ _ _ _ _ => Int.one_nonneg⟩
  have hp : ∀ b ∈ w.state.blocks, b.pointer = "%p" → ∀ q, start (twoBytesAt 100 q) b = 100 := by
    intro b hb hname q
    simp [start, twoBytesAt, (hblocks b hb).1.1, hname, wrap]
  have hq : ∀ b ∈ w.state.blocks, b.pointer = "%q" → ∀ q : Int, 0 ≤ q → q < 109 →
      (start (twoBytesAt 100 q) b : Int) = q := by
    intro b hb hname q hlow hhigh
    rw [start, wrap_cast, (hblocks b hb).1.1]
    simp only [twoBytesAt, hname, String.reduceEq, if_false]
    omega
  have hroom : ∀ b ∈ w.state.blocks, b.HasRoom (twoBytesAt 100 108) := by
    intro b hb
    rw [Block.HasRoom, (hblocks b hb).1.1, (hblocks b hb).1.2]
    rcases (hblocks b hb).2 with hname | hname
    · rw [hp b hb hname]
      decide
    · rw [hq b hb hname 108 (by decide) (by decide)]
      decide
  obtain ⟨hlegal, -⟩ := (allocaConstraints_iff hsane h hroom).1 htrue
  refine ⟨w, h, hlegal, htrue, ⟨fun a ha _ => ?_, fun a ha _ b hb hne => ?_⟩, hfalse⟩
  · rcases (hblocks a ha).2 with hname | hname
    · rw [hp a ha hname]
      decide
    · have haddr := hq a ha hname 101 (by decide) (by decide)
      omega
  · rw [Block.bytes, Block.bytes, Set.Ico_disjoint_Ico, (hblocks a ha).1.2, (hblocks b hb).1.2]
    rcases (hblocks a ha).2 with ha' | ha' <;> rcases (hblocks b hb).2 with hb' | hb'
    · simp [Block.same, (hblocks a ha).1.1, (hblocks b hb).1.1, ha', hb'] at hne
    · rw [hp a ha ha', hq b hb hb' 101 (by decide) (by decide)]
      decide
    · rw [hp b hb hb', hq a ha ha' 101 (by decide) (by decide)]
      decide
    · simp [Block.same, (hblocks a ha).1.1, (hblocks b hb).1.1, ha', hb'] at hne

end Peephole.Encode
