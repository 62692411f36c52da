import Peephole.Proofs.Encode.Adequacy
import Peephole.Proofs.Encode.Precondition
import Peephole.Proofs.Machine.Flow

/-!
# What an instruction means

Encoding an instruction takes over the conditions of its operands and adds its own.

* `Action` : the conditions, the term and the memory mean what the machine does.
* `encode_action` : **so it is for each instruction**, there is a lemma for each kind of them.
-/

namespace Peephole.Encode

open Logic Program Machine

variable {s : Setting} {width : String → Nat} {site : Site} {w w' : Work} {i : ValueId} {t : Option Term}
  {env : Env} {m : Memory}

/-- A value with a term is recorded under the key. -/
def Knows (w : Work) (k : String) : Prop := ∃ e a, w.state.vars.get? k = some e ∧ e.value = some a

theorem Found.knows {xs : List ValueId} {es : List Encoded} (h : Found s w.state.vars xs es)
    (hes : ∀ e ∈ es, e.value.isSome = true) : ∀ x ∈ xs, Knows w (keyOf s.table x) := by
  induction h with
  | nil => exact nofun
  | cons he _ ih =>
    obtain ⟨hvalue, hes⟩ := List.forall_mem_cons.1 hes
    obtain ⟨a, ha⟩ := Option.isSome_iff_exists.1 hvalue
    exact List.forall_mem_cons.2 ⟨⟨_, a, he, ha⟩, ih hes⟩

theorem encode_reads (h : encode i s w = .ok (t, w')) :
    ∀ x ∈ reads (s.table.get i).op, Knows w (keyOf s.table x) := by
  cases encode_course h with
  | quiet _ hes hvalues => exact hes.knows hvalues
  | arith hop h =>
    obtain ⟨e, e', a, b, n, hfound, ha, hb, -⟩ := arithTerm_ok h
    rw [hop]
    exact hfound.knows (by simp [ha, hb])
  | load hop h =>
    obtain ⟨e, a, n, m, hfound, ha, -⟩ := loadTerm_ok h
    rw [hop]
    exact hfound.knows (by simp [ha])
  | store hop h =>
    obtain ⟨e, e', a, b, n, hfound, ha, hb, -⟩ := storeBytes_ok h
    rw [hop]
    exact hfound.knows (by simp [ha, hb])
  | _ hop => simp [hop, reads]

/-- All terms that were recorded have the widths of their keys. -/
def Widths (width : String → Nat) (d : Dict Encoded) : Prop :=
  ∀ k e u, d.get? k = some e → e.value = some u → u.width = width k

/-- The registers hold the numbers of these values. -/
def Agrees (s : Setting) (env : Env) (d : Dict Encoded) (R : String → Nat) (xs : List ValueId) : Prop :=
  ∀ x ∈ xs, ∀ e u, d.get? (keyOf s.table x) = some e → e.value = some u → u.num env = R (keyOf s.table x)

/-- **What encoding an instruction does.**  It takes over the conditions of the operands `es` and adds its own, which
are `own`; if it accesses the memory, all of them are noted for the basic block.  They mean what the machine does on
registers that hold the operands. -/
structure Action (s : Setting) (width : String → Nat) (site : Site) (i : ValueId) (w : Work) (m : Memory)
    (es : List Encoded) (own : Conditions) (t : Option Term) (w' : Work) : Prop where
  found : Found s w.state.vars (reads (s.table.get i).op) es
  conds : w'.conds.defined = es.flatMap (·.conds.defined) ++ own.defined ∧
    w'.conds.poison = es.flatMap (·.conds.poison) ++ own.poison
  noted : w'.state.defined =
    if isAccess (s.table.get i).op then w.state.defined ++ w'.conds.defined else w.state.defined
  passes : w'.state.blocks = (site.pass s i).blocks ∧ w'.fresh = (site.pass s i).fresh
  fits : ∀ u, t = some u → u.width = width (keyOf s.table i)
  conditions : ∀ env R, Agrees s env w.state.vars R (reads (s.table.get i).op) →
    holds env own.defined = behaves s width env site.blocks R i ∧
      holds env own.poison = !overpromises s width env R i
  means : ∀ env R, Agrees s env w.state.vars R (reads (s.table.get i).op) → ∀ u, t = some u →
    u.num env = computed s width env R (m.num env) i
  memory : ∀ env R, Agrees s env w.state.vars R (reads (s.table.get i).op) → ∃ m', w'.state.memory = some m' ∧
    m'.num env = remembered s width env site.fresh R (m.num env) (holds env w'.state.defined) i

@[simp] theorem Work.adoptAll_fresh (w : Work) (es : List Encoded) : (w.adoptAll es).fresh = w.fresh := by
  induction es generalizing w with
  | nil => rfl
  | cons e es ih => rw [adoptAll_cons, ih, adopt]

/-! ### Instructions on words -/

theorem Site.pass_of_not_alloca (h : ∀ ty c align, (s.table.get i).op ≠ .alloca ty c align) :
    site.pass s i = site := by
  rw [Site.pass, Setting.allocation_eq_none h]
  rfl

theorem reads_straight (hi : isStraight (s.table.get i).op = true) :
    reads (s.table.get i).op = (s.table.get i).op.operands := by
  cases hop : (s.table.get i).op
  case copy | arith | convert | icmp | select => rfl
  all_goals simp [isStraight, hop] at hi

/-- An instruction on words changes nothing but conditions. -/
theorem encode_straight (hi : isStraight (s.table.get i).op = true) (h : encode i s w = .ok (t, w')) :
    ∃ c, w' = { w with conds := c } := by
  cases encode_course h with
  | @quiet es =>
    refine ⟨(w.adoptAll es).conds, ?_⟩
    have hstate := Work.adoptAll_state w es
    have hfresh := Work.adoptAll_fresh w es
    rw [← hstate, ← hfresh]
  | arith hop ha =>
    obtain ⟨e, e', a, b, n, -, -, -, -, -, rfl⟩ := arithTerm_ok ha
    exact ⟨_, rfl⟩
  | input hop | undefined hop | unary hop | binary hop | call hop | alloca hop | load hop | store hop
  | unreachable hop => simp [isStraight, hop] at hi

section Straight

variable {R : String → Nat} {mem : Bytes} (hi : isStraight (s.table.get i).op = true)

include hi

theorem computed_straight : computed s width env R mem i = word s width env R i := by
  cases hop : (s.table.get i).op
  case copy | arith | convert | icmp | select => simp [computed, hop]
  all_goals simp [isStraight, hop] at hi

theorem behaves_straight {blocks : List Block} :
    behaves s width env blocks R i = !misbehaves s width R i := by
  cases hop : (s.table.get i).op
  case copy | arith | convert | icmp | select => simp [behaves, hop]
  all_goals simp [isStraight, hop] at hi

theorem remembered_straight {n : Nat} {allowed : Bool} : remembered s width env n R mem allowed i = mem := by
  cases hop : (s.table.get i).op
  case copy | arith | convert | icmp | select => simp [remembered, hop]
  all_goals simp [isStraight, hop] at hi

end Straight

/-! ### Instructions without conditions -/

/-- The instruction only takes over the conditions of its operands. -/
def isPassive : Op → Bool
  | .ret _ | .gep _ _ _ | .skip | .br _ _ _ => true
  | _ => false

section Passive

variable {R : String → Nat} {mem : Bytes} (hi : isPassive (s.table.get i).op = true)

include hi

theorem isAccess_passive : isAccess (s.table.get i).op = false := by
  cases hop : (s.table.get i).op
  case load | store => simp [isPassive, hop] at hi
  all_goals rfl

theorem pass_passive : site.pass s i = site := by
  refine Site.pass_of_not_alloca fun ty c align hop => ?_
  simp [isPassive, hop] at hi

theorem behaves_passive {blocks : List Block} : behaves s width env blocks R i = true := by
  cases hop : (s.table.get i).op
  case ret | gep | skip | br => simp [behaves, misbehaves, hop]
  all_goals simp [isPassive, hop] at hi

theorem overpromises_passive : overpromises s width env R i = false := by
  cases hop : (s.table.get i).op
  case ret | gep | skip | br => simp [overpromises, hop]
  all_goals simp [isPassive, hop] at hi

theorem remembered_passive {n : Nat} {allowed : Bool} : remembered s width env n R mem allowed i = mem := by
  cases hop : (s.table.get i).op
  case ret | gep | skip | br => simp [remembered, hop]
  all_goals simp [isPassive, hop] at hi

end Passive

/-! ### Access to memory -/

theorem Setting.HasSize.unique {v : Value} {n n' : Nat} (h : s.HasSize v n) (h' : s.HasSize v n') : n = n' := by
  obtain ⟨ty, hty, hn⟩ := h
  obtain ⟨ty', hty', hn'⟩ := h'
  rw [hty] at hty'
  cases hty'
  rw [hn] at hn'
  cases hn'
  rfl

section Instructions

variable (hc : w.conds = .none) (hm : w.state.memory = some m) (hblocks : w.state.blocks = site.blocks)
  (hfresh : w.fresh = site.fresh)

include hc hm hblocks hfresh

theorem action_straight (hi : isStraight (s.table.get i).op = true) (ht : WellTyped s width i)
    (hwidths : Widths width w.state.vars) (h : encode i s w = .ok (t, w')) :
    ∃ es own, Action s width site i w m es own t w' := by
  have hread := encode_reads h
  obtain ⟨c, rfl⟩ := encode_straight hi h
  have hreads := reads_straight hi
  have halloca : ∀ ty c align, (s.table.get i).op ≠ .alloca ty c align := by
    intro ty c align hop
    simp [isStraight, hop] at hi
  have haccess : isAccess (s.table.get i).op = false := by
    cases hop : (s.table.get i).op
    case load | store => simp [isStraight, hop] at hi
    all_goals rfl
  obtain ⟨es, u, own, w₁, henc⟩ := encode_instr ht (w := w) (fun x hx => by
    obtain ⟨e, a, he, hea⟩ := hread x (hreads ▸ hx)
    exact ⟨e, a, he, hea, hwidths _ e a he hea⟩) hi
  have hrun := henc.run
  rw [h] at hrun
  cases hrun
  have hconds := henc.conds
  have hagrees : ∀ {env R}, Agrees s env w.state.vars R (reads (s.table.get i).op) → u.num env = word s width env R i ∧
      holds env own.defined = !misbehaves s width R i ∧ holds env own.poison = !overpromises s width env R i := by
    intro env R hR
    refine henc.means env R fun x hx e a ha => hR x (hreads ▸ hx) e a ha.1 ha.2.1
  refine ⟨es, own, ⟨hreads ▸ henc.found, ?_, ?_, ?_, ?_, ?_, ?_, ?_⟩⟩
  · rw [hconds]
    simp [Conditions.append, hc, Conditions.none]
  · rw [haccess]
    rfl
  · rw [Site.pass_of_not_alloca halloca]
    exact ⟨hblocks, hfresh⟩
  · rintro _ ⟨⟩
    exact henc.fits
  · intro env R hR
    obtain ⟨-, hdefined, hpoison⟩ := hagrees hR
    exact ⟨hdefined.trans (behaves_straight hi).symm, hpoison⟩
  · rintro env R hR _ ⟨⟩
    exact (hagrees hR).1.trans (computed_straight hi).symm
  · intro env R _
    exact ⟨m, hm, (remembered_straight hi).symm⟩

theorem action_passive {es : List Encoded} (hi : isPassive (s.table.get i).op = true)
    (hes : Found s w.state.vars (reads (s.table.get i).op) es)
    (hfits : ∀ u, t = some u → u.width = width (keyOf s.table i))
    (hmeans : ∀ env R, Agrees s env w.state.vars R (reads (s.table.get i).op) → ∀ u, t = some u →
      u.num env = computed s width env R (m.num env) i) :
    Action s width site i w m es .none t (w.adoptAll es) where
  found := hes
  conds := by simp [hc, Conditions.none]
  noted := by simp [isAccess_passive hi]
  passes := by
    rw [pass_passive hi, Work.adoptAll_state, Work.adoptAll_fresh]
    exact ⟨hblocks, hfresh⟩
  fits := hfits
  conditions := by
    intro env R _
    rw [behaves_passive hi, overpromises_passive hi]
    exact ⟨rfl, rfl⟩
  means := hmeans
  memory := by
    intro env R _
    exact ⟨m, by rw [Work.adoptAll_state, hm], (remembered_passive hi).symm⟩

theorem action_unreachable (hop : (s.table.get i).op = .unreachable) : ∃ es own,
    Action s width site i w m es own none { w with conds.defined := w.conds.defined ++ [.lit false] } := by
  refine ⟨[], ⟨[.lit false], [], []⟩, ⟨hop ▸ .nil, ?_, ?_, ?_, ?_, ?_, ?_, ?_⟩⟩
  · simp [hc, Conditions.none]
  · simp [isAccess, hop]
  · rw [Site.pass_of_not_alloca (by simp [hop])]
    exact ⟨hblocks, hfresh⟩
  · rintro _ ⟨⟩
  · intro env R _
    simp [behaves, overpromises, hop, holds, Formula.eval]
  · rintro _ _ _ _ ⟨⟩
  · exact fun env R _ => ⟨m, hm, by simp [remembered, hop]⟩

variable (ht : InstrTyped s width i)

include ht

theorem action_alloca {ty : PlacedTy} {c : ValueId} {align : Nat} {u : Term}
    (hop : (s.table.get i).op = .alloca ty c align) (hu : allocaTerm (s.table.get i) c align s w = .ok (u, w')) :
    ∃ es own, Action s width site i w m es own (some u) w' := by
  simp only [InstrTyped, hop] at ht
  obtain ⟨b, hb, rfl, hcase⟩ := allocaTerm_eq hop hu
  obtain ⟨_, _, _, ty', q, hop', htype, hsize, -, hpointer, halign, -⟩ := Setting.allocation_some hb
  rw [hop] at hop'
  cases hop'
  have hwidth : b.pointerWidth = width (keyOf s.table i) :=
    Setting.HasSize.unique ⟨ty', htype, hsize⟩ ht
  have hmeans : ∀ (env : Env) (R : String → Nat), b.ptr.num env = computed s width env R (m.num env) i := by
    intro env R
    rw [num_ptr, start, hwidth, hpointer]
    simp [computed, hop]
  have hremembers : ∀ (env : Env) (R : String → Nat) allowed,
      remembered s width env site.fresh R (m.num env) allowed i = filled env b site.fresh (m.num env) := by
    intro env R allowed
    simp [remembered, hop, hb]
  have hbehaves : ∀ (env : Env) (R : String → Nat), behaves s width env site.blocks R i = Machine.placed env b := by
    intro env R
    simp [behaves, hop, hb]
  have hkeeps : ∀ (env : Env) (R : String → Nat), overpromises s width env R i = false := by simp [overpromises, hop]
  rcases hcase with ⟨hzero, rfl⟩ | ⟨hne, aligned, haligned, rfl⟩
  · -- Nothing is allocated for an empty block, which is always in its place.
    refine ⟨[], .none, ⟨hop ▸ .nil, ?_, ?_, ?_, ?_, ?_, ?_, ?_⟩⟩
    · simp [hc, Conditions.none]
    · simp [isAccess, hop]
    · simp [Site.pass, hb, hzero, Option.filter, hblocks, hfresh]
    · rintro _ ⟨⟩
      exact hwidth
    · intro env R _
      simp [hbehaves, hkeeps, Machine.placed, hzero, holds, Conditions.none]
    · rintro env R _ _ ⟨⟩
      exact hmeans env R
    · intro env R _
      refine ⟨m, hm, ?_⟩
      rw [hremembers, filled, hzero]
      rfl
  · refine ⟨[], ⟨b.placed aligned, [], []⟩, ⟨hop ▸ .nil, ?_, ?_, ?_, ?_, ?_, ?_, ?_⟩⟩
    · simp [Work.allocate, hc, Conditions.none]
    · simp [Work.allocate, isAccess, hop]
    · simp [Work.allocate, Site.pass, hb, hne, Option.filter, hblocks, hfresh]
    · rintro _ ⟨⟩
      exact hwidth
    · intro env R _
      rw [hbehaves, hkeeps, holds_placed halign hne haligned]
      exact ⟨rfl, rfl⟩
    · rintro env R _ _ ⟨⟩
      exact hmeans env R
    · intro env R _
      refine ⟨b.fill w.fresh m, by simp [Work.allocate, hm], ?_⟩
      rw [num_fill, hremembers, hfresh]

variable (hwidths : Widths width w.state.vars)

include hwidths

section Words

variable (h : encode i s w = .ok (t, w'))

include h

theorem action_ret {x : ValueId} (hop : (s.table.get i).op = .ret x) :
    ∃ es own, Action s width site i w m es own t w' := by
  simp only [InstrTyped, hop] at ht
  rw [encode, encodeWith, valueAt_bind, hop] at h
  simp only [bind_run, bind_ok, pure_run] at h
  obtain ⟨⟨a, w₁⟩, ha, h⟩ := h
  cases h
  obtain ⟨e, he, hea, rfl⟩ := operand_ok ha
  refine ⟨[e], .none, action_passive hc hm hblocks hfresh (by simp [isPassive, hop]) (hop ▸ .cons he .nil)
    ?_ ?_⟩
  · rintro _ ⟨⟩
    exact (hwidths _ e a he hea).trans ht
  · rintro env R hR _ ⟨⟩
    rw [hR x (by simp [reads, hop]) e a he hea]
    simp [computed, hop]

theorem action_gep {p : ValueId} {xs : List ValueId} {inbounds : Bool} (hop : (s.table.get i).op = .gep p xs inbounds) :
    ∃ es own, Action s width site i w m es own t w' := by
  simp only [InstrTyped, hop] at ht
  rw [encode, encodeWith, valueAt_bind, hop] at h
  simp only [bind_run, bind_ok, pure_run] at h
  obtain ⟨⟨a, w₁⟩, ha, ⟨ty, w₂⟩, hty, ⟨u, w₃⟩, hu, h⟩ := h
  cases h
  obtain ⟨e, he, hea, rfl⟩ := operand_ok ha
  obtain ⟨htype, rfl⟩ := typeOf_ok hty
  obtain ⟨es, steps, hsteps, rfl, rfl⟩ := gepTerm_iff.1 hu
  have haw : a.width = width (keyOf s.table i) := (hwidths _ e a he hea).trans ht.2
  obtain ⟨hwidth, hnum⟩ := num_steps (haw ▸ ht.1) steps
  refine ⟨e :: es, .none, action_passive hc hm hblocks hfresh (by simp [isPassive, hop])
    (hop ▸ .cons he hsteps.found.1) ?_ ?_⟩
  · rintro _ ⟨⟩
    exact hwidth.trans haw
  · rintro env R hR _ ⟨⟩
    simp only [reads, hop] at hR
    rw [hnum, hsteps.strided hwidths env R fun x hx => hR x (List.mem_cons_of_mem _ hx), hR p List.mem_cons_self e a he hea, haw]
    simp [computed, hop, htype]

end Words

variable (hptr : ∀ b ∈ site.blocks, b.pointerWidth = s.shape.ptrWidth)

include hptr

theorem action_load {ty : PlacedTy} {x : ValueId} {align : Nat} {u : Term} (hop : (s.table.get i).op = .load ty x align)
    (hu : loadTerm (s.table.get i) x align s w = .ok (u, w')) :
    ∃ es own, Action s width site i w m es own (some u) w' := by
  simp only [InstrTyped, hop] at ht
  obtain ⟨hsize, hx⟩ := ht
  obtain ⟨e, a, n, m', hfound, hea, hn, hm', hparts, hw'⟩ := loadTerm_ok hu
  obtain rfl : n = width (keyOf s.table i) := hn.unique hsize
  cases hm.symm.trans hm'
  have he : w.state.vars.get? (keyOf s.table x) = some e := by simpa [Found, keyOf] using hfound
  have haw := hwidths _ e a he hea
  obtain ⟨hfits, hnum⟩ := loadParts_means hparts
  refine ⟨[e], ⟨accessConditions w.state (allocSize (width (keyOf s.table i))) align a, [], []⟩,
    ⟨hop ▸ hfound, ?_, ?_, ?_, ?_, ?_, ?_, ?_⟩⟩
  · simp [hw', Work.loaded, Work.accessed, Work.adopt, Conditions.append, hc, Conditions.none]
  · simp [hw', Work.loaded, Work.accessed, Work.adopt, isAccess, hop]
  · rw [Site.pass_of_not_alloca (by simp [hop]), hw']
    exact ⟨hblocks, hfresh⟩
  · rintro _ ⟨⟩
    exact hfits
  · intro env R hR
    have ha := hR x (by simp [reads, hop]) e a he hea
    have hpointers : ∀ b ∈ w.state.blocks, a.width = b.pointerWidth := by
      intro b hb
      rw [haw, hx, hptr b (hblocks ▸ hb)]
    rw [holds_accessConditions hpointers, ha, hblocks]
    simp [behaves, overpromises, hop, holds]
  · rintro env R hR _ ⟨⟩
    rw [hnum, hR x (by simp [reads, hop]) e a he hea, haw]
    simp [computed, hop]
  · intro env R _
    exact ⟨m, by rw [hw']; exact hm, by simp [remembered, hop]⟩

theorem action_store {ty : PlacedTy} {x y : ValueId} {align : Nat} (hop : (s.table.get i).op = .store ty x y align)
    (hst : storeBytes ty x y align s w = .ok ((), w')) : ∃ es own, Action s width site i w m es own none w' := by
  simp only [InstrTyped, hop] at ht
  obtain ⟨hsize, hy⟩ := ht
  obtain ⟨e, e', a, b, n, hfound, hea, heb, hn, hw'⟩ := storeBytes_ok hst
  obtain ⟨he, he'⟩ := found_pair.1 hfound
  cases hsize.symm.trans hn
  have hbw := hwidths _ e' b he' heb
  refine ⟨[e, e'], ⟨accessConditions w.state (allocSize (width (keyOf s.table x))) align b, [], []⟩,
    ⟨hop ▸ hfound, ?_, ?_, ?_, ?_, ?_, ?_, ?_⟩⟩
  · simp [hw', Work.stored, Work.accessed, Work.adopt, Conditions.append, hc, Conditions.none]
  · simp [hw', Work.stored, Work.accessed, Work.adopt, isAccess, hop]
  · rw [Site.pass_of_not_alloca (by simp [hop]), hw']
    exact ⟨hblocks, hfresh⟩
  · rintro _ ⟨⟩
  · intro env R hR
    have hb := hR y (by simp [reads, hop]) e' b he' heb
    have hpointers : ∀ b' ∈ w.state.blocks, b.width = b'.pointerWidth := by
      intro b' hb'
      rw [hbw, hy, hptr b' (hblocks ▸ hb')]
    rw [holds_accessConditions hpointers, hb, hblocks]
    simp [behaves, overpromises, hop, holds]
  · rintro _ _ _ _ ⟨⟩
  · intro env R hR
    refine ⟨_, by rw [hw', hm]; rfl, ?_⟩
    rw [num_writeWord, hR x (by simp [reads, hop]) e a he hea, hR y (by simp [reads, hop]) e' b he' heb, hbw, hw']
    simp [remembered, hop, holds]

/-- **Each instruction means what the machine does.** -/
theorem encode_action (h : encode i s w = .ok (t, w')) : ∃ es own, Action s width site i w m es own t w' := by
  have hstraight : isStraight (s.table.get i).op = true → WellTyped s width i → ∃ es own, Action s width site i w m es
      own t w' := fun hi ht => action_straight hc hm hblocks hfresh hi ht hwidths h
  cases encode_course h with
  | arith hop => exact hstraight (by simp [isStraight, hop]) (by simpa only [InstrTyped, hop] using ht)
  | alloca hop hu => exact action_alloca hc hm hblocks hfresh ht hop hu
  | load hop hu => exact action_load hc hm hblocks hfresh ht hwidths hptr hop hu
  | store hop hst => exact action_store hc hm hblocks hfresh ht hwidths hptr hop hst
  | unreachable hop => exact action_unreachable hc hm hblocks hfresh hop
  | @quiet es _ hquiet hes _ hterm =>
    cases hop : (s.table.get i).op with
    | copy | convert | icmp | select =>
      exact hstraight (by simp [isStraight, hop]) (by simpa only [InstrTyped, hop] using ht)
    | ret x => exact action_ret hc hm hblocks hfresh ht hwidths h hop
    | gep p xs inbounds => exact action_gep hc hm hblocks hfresh ht hwidths h hop
    | skip | br =>
      -- There is nothing to compute.
      obtain rfl : t = none := by simpa [hop, hasTerm] using hterm
      exact ⟨es, .none, action_passive hc hm hblocks hfresh (by simp [isPassive, hop]) hes (by simp) (by simp)⟩
    | literal => simp [InstrTyped, hop] at ht
    | _ => simp [isQuiet, hop] at hquiet
  | _ hop => simp [InstrTyped, hop] at ht

end Instructions

end Peephole.Encode
