import Peephole.Proofs.Encode.Action
import Peephole.Proofs.Encode.Leaves

/-!
# Encoding a basic block follows the machine

While a basic block is encoded, what has been recorded means what a machine knows that runs the block.

* `Running` : the recorded values, the memory and the conditions of the block mean what the machine knows.
* `Running.step`, `Running.chain` : **one instruction, and a list of them, keep it so**.
* `Running.forks` : the branch of the block records the edge that the machine takes, with the memory of the machine.
* `Dead.chain` : in a block that control does not come to, everything that is recorded is undefined, and so are the
  edges of its branch.
-/

namespace Peephole.Encode

open Logic Program Machine

variable {s : Setting} {width : String → Nat} {env : Env} {site : Site} {w w' : Work} {c : Config} {i : ValueId}
  {m : Memory} {o : Options} {is : List ValueId} {l₁ l₂ : String}

/-! ### Recorded values -/

/-- The registers hold the recorded values that are defined. -/
structure Matches (env : Env) (d : Dict Encoded) (registers : String → Option Cell) : Prop where
  present : ∀ {k e u}, d.get? k = some e → e.value = some u →
    holds env e.conds.defined = (registers k).isSome
  means : ∀ {k e u cell}, d.get? k = some e → e.value = some u → registers k = some cell →
    u.num env = cell.word ∧ holds env e.conds.poison = cell.clean
  recorded : ∀ {k}, d.get? k = none → registers k = none

/-- What has been recorded fits the place in the program. -/
structure Ready (s : Setting) (width : String → Nat) (site : Site) (w : Work) : Prop where
  widths : Widths width w.state.vars
  blocks : w.state.blocks = site.blocks
  fresh : w.fresh = site.fresh
  pointers : ∀ b ∈ site.blocks, b.pointerWidth = s.shape.ptrWidth

/-- The work after an instruction: its value is recorded, together with the conditions of the basic block. -/
theorem addValue_action (hw : Ready s width site w) (hm : w.state.memory = some m) (ht : InstrTyped s width i)
    (h : addValue i s w = .ok ((), w')) :
    ∃ es own t w₁, Action s width site i { w with conds := .none } m es own t w₁ ∧
      w'.state.vars = w.state.vars.put (keyOf s.table i)
        ⟨t, { w₁.conds with defined := w₁.state.defined ++ w₁.conds.defined }⟩ ∧
      w'.state.defined = w₁.state.defined ∧ w'.state.blocks = w₁.state.blocks ∧ w'.fresh = w₁.fresh ∧
      w'.state.memory = w₁.state.memory ∧ ∀ x ∈ reads (s.table.get i).op, Knows w (keyOf s.table x) := by
  obtain ⟨t, w₁, entries, henc, rfl⟩ := addValue_ok h
  obtain ⟨es, own, haction⟩ := encode_action (w := { w with conds := .none }) rfl hm hw.blocks hw.fresh
    ht hw.widths hw.pointers henc
  have hops := encode_reads henc
  refine ⟨es, own, t, w₁, haction, ?_, rfl, rfl, rfl, rfl, hops⟩
  simp only [Work.record, (encode_grows henc).vars]
  rfl

/-- The numbers of recorded values. -/
def numbers (env : Env) (d : Dict Encoded) (k : String) : Nat :=
  ((d.get? k).bind (·.value)).elim 0 (·.num env)

theorem agrees_numbers (d : Dict Encoded) (xs : List ValueId) : Agrees s env d (numbers env d) xs := by
  intro x _ e u he hu
  simp [numbers, he, hu]

theorem pass_pointers (h : ∀ b ∈ site.blocks, b.pointerWidth = s.shape.ptrWidth) :
    ∀ b ∈ (site.pass s i).blocks, b.pointerWidth = s.shape.ptrWidth := by
  unfold Site.pass
  split
  · next b hb =>
    have hnew := allocation_pointerWidth (Option.filter_eq_some_iff.1 hb).1
    intro c hc
    rcases List.mem_append.1 hc with hc | hc
    · exact h c hc
    · obtain rfl := List.mem_singleton.1 hc
      exact hnew
  · exact h

theorem Ready.step (hw : Ready s width site w) (hm : w.state.memory = some m) (ht : InstrTyped s width i)
    (h : addValue i s w = .ok ((), w')) :
    Ready s width (site.pass s i) w' ∧ ∃ m', w'.state.memory = some m' := by
  obtain ⟨es, own, t, w₁, haction, hvars, -, hblocks, hfresh, hmemory, -⟩ := addValue_action hw hm ht h
  -- That there is a memory behind the instruction does not depend on the environment.
  obtain ⟨m', hm', -⟩ := haction.memory default _ (agrees_numbers _ _)
  refine ⟨⟨?_, hblocks.trans haction.passes.1, hfresh.trans haction.passes.2, pass_pointers hw.pointers⟩,
    m', hmemory.trans hm'⟩
  intro k e u he hu
  rw [hvars, get?_put] at he
  split at he
  · next hk =>
    cases he
    exact hk ▸ haction.fits u hu
  · exact hw.widths k e u he hu

/-! ### One instruction -/

/-- **What has been recorded means what the machine knows.** -/
structure Running (s : Setting) (width : String → Nat) (env : Env) (site : Site) (w : Work) (c : Config) : Prop
    extends Ready s width site w where
  registers : Matches env w.state.vars c.registers
  sound : holds env w.state.defined = c.sound
  memory : ∃ m, w.state.memory = some m ∧ m.num env = c.memory

/-- The operands of the instruction are there. -/
def Supplied (s : Setting) (c : Config) (i : ValueId) : Prop :=
  ∀ x ∈ reads (s.table.get i).op, (c.registers (keyOf s.table x)).isSome = true

theorem remembered_congr {n : Nat} {R R' : String → Nat} {mem : Bytes} {a a' : Bool}
    (h : isAccess (s.table.get i).op = true → a = a' ∧ (a = true → R = R')) :
    remembered s width env n R mem a i = remembered s width env n R' mem a' i := by
  unfold remembered
  cases hop : (s.table.get i).op with
  | store ty x y align =>
    obtain ⟨rfl, hR⟩ := h (by rw [hop]; rfl)
    cases a with
    | false => rfl
    | true => rw [hR rfl]
  | _ => rfl

theorem supplied_of_allows (h : c.allows s width env site i = true) : Supplied s c i := by
  rw [Config.allows, Bool.and_eq_true, Bool.and_eq_true, List.all_eq_true] at h
  exact h.1.2

theorem Matches.words (hc : Matches env w.state.vars c.registers) (h : Supplied s c i) :
    Agrees s env w.state.vars c.words (reads (s.table.get i).op) := by
  intro x hx e u he hu
  obtain ⟨cell, hcell⟩ := Option.isSome_iff_exists.1 (h x hx)
  rw [(hc.means he hu hcell).1]
  simp [Config.words, hcell]

section Operands

variable {es : List Encoded} {own : Conditions} {t : Option Term} (h : Action s width site i w m es own t w')
  (hops : ∀ x ∈ reads (s.table.get i).op, Knows w (keyOf s.table x)) (hc : Matches env w.state.vars c.registers)

include h hops hc

theorem Action.holds_operands : holds env (es.flatMap (·.conds.defined)) = true ↔ Supplied s c i := by
  rw [holds_flatMap]
  refine h.found.forall_iff fun x hx e he => ?_
  obtain ⟨e', u, he', hu⟩ := hops x hx
  rw [he] at he'
  cases he'
  rw [hc.present he hu]

theorem Action.holds_poison (hsupplied : Supplied s c i) : holds env w'.conds.poison = c.keeps s width env i := by
  have hoperands : holds env (es.flatMap (·.conds.poison)) = true ↔
      ∀ x ∈ reads (s.table.get i).op, (c.registers (keyOf s.table x)).any Cell.clean = true := by
    rw [holds_flatMap]
    refine h.found.forall_iff fun x hx e he => ?_
    obtain ⟨e', u, he', hu⟩ := hops x hx
    rw [he] at he'
    cases he'
    obtain ⟨cell, hcell⟩ := Option.isSome_iff_exists.1 (hsupplied x hx)
    rw [(hc.means he hu hcell).2, hcell]
    rfl
  have hown := (h.conditions env _ (hc.words hsupplied)).2
  rw [h.conds.2, holds_append, hown, Config.keeps, Bool.eq_iff_iff, Bool.and_eq_true, Bool.and_eq_true, hoperands,
    List.all_eq_true]

variable (hsound : holds env w.state.defined = c.sound)

include hsound

/-- The conditions of the block and of the instruction mean that the machine allows the instruction. -/
theorem Action.holds_defined :
    (holds env w.state.defined && holds env w'.conds.defined) = c.allows s width env site i := by
  have hall : (reads (s.table.get i).op).all (fun x => (c.registers (keyOf s.table x)).isSome) = true ↔
      Supplied s c i := List.all_eq_true
  rw [h.conds.1, holds_append, hsound, Config.allows, Bool.and_assoc]
  by_cases hsupplied : Supplied s c i
  · rw [(h.holds_operands hops hc).2 hsupplied, hall.2 hsupplied, (h.conditions env _ (hc.words hsupplied)).1]
  · have hnot : holds env (es.flatMap (·.conds.defined)) = false := by
      rw [← Bool.not_eq_true, h.holds_operands hops hc]
      exact hsupplied
    have hnot' : (reads (s.table.get i).op).all (fun x => (c.registers (keyOf s.table x)).isSome) = false := by
      rw [← Bool.not_eq_true, hall]
      exact hsupplied
    rw [hnot, hnot', Bool.false_and, Bool.false_and]

theorem Action.holds_recorded :
    holds env (w'.state.defined ++ w'.conds.defined) = c.allows s width env site i := by
  rw [← h.holds_defined hops hc hsound, h.noted, holds_append]
  cases isAccess (s.table.get i).op with
  | true => rw [if_pos rfl, holds_append, Bool.and_assoc, Bool.and_self]
  | false => rfl

/-- The conditions of the block behind the instruction. -/
theorem Action.holds_noted :
    holds env w'.state.defined = (c.step s width env site i).sound := by
  have hallows := h.holds_defined hops hc hsound
  rw [h.noted, Config.step]
  cases isAccess (s.table.get i).op with
  | true => rw [if_pos rfl, if_pos rfl, holds_append, hallows]
  | false => exact hsound

/-- What is recorded for the instruction is what the machine puts under its key. -/
theorem Action.matches (hm : m.num env = c.memory) :
    Matches env (w.state.vars.put (keyOf s.table i)
      ⟨t, { w'.conds with defined := w'.state.defined ++ w'.conds.defined }⟩)
      (c.step s width env site i).registers := by
  have hself : (c.step s width env site i).registers (keyOf s.table i) =
      if c.allows s width env site i then some ⟨computed s width env c.words c.memory i, c.keeps s width env i⟩
      else none := Function.update_self ..
  have hother : ∀ {k}, keyOf s.table i ≠ k → (c.step s width env site i).registers k = c.registers k :=
    fun hk => Function.update_of_ne hk.symm ..
  have hrecorded := h.holds_recorded hops hc hsound
  refine ⟨fun {k e u} he hu => ?_, fun {k e u cell} he hu hcell => ?_, fun {k} hk => ?_⟩
  · rw [get?_put] at he
    split at he
    · next hk =>
      cases he
      rw [← hk, hself, hrecorded]
      cases c.allows s width env site i with
      | false => rfl
      | true => rfl
    · next hk =>
      rw [hother hk]
      exact hc.present he hu
  · rw [get?_put] at he
    split at he
    · next hk =>
      cases he
      rw [← hk, hself] at hcell
      split at hcell
      · next hallows =>
        cases hcell
        have hsupplied := supplied_of_allows hallows
        rw [h.means env _ (hc.words hsupplied) u hu, hm]
        exact ⟨rfl, h.holds_poison hops hc hsupplied⟩
      · cases hcell
    · next hk =>
      rw [hother hk] at hcell
      exact hc.means he hu hcell
  · rw [get?_put] at hk
    split at hk
    · cases hk
    · next hne =>
      rw [hother hne]
      exact hc.recorded hk

theorem Action.memory_means (hm : m.num env = c.memory) :
    ∃ m', w'.state.memory = some m' ∧ m'.num env = (c.step s width env site i).memory := by
  have hnoted : isAccess (s.table.get i).op = true → holds env w'.state.defined = c.allows s width env site i := by
    intro haccess
    rw [h.holds_noted hops hc hsound, Config.step, if_pos haccess]
  by_cases hsupplied : Supplied s c i
  · obtain ⟨m', hm', hnum⟩ := h.memory env _ (hc.words hsupplied)
    refine ⟨m', hm', hnum.trans ?_⟩
    rw [hm]
    exact remembered_congr fun haccess => ⟨hnoted haccess, fun _ => rfl⟩
  · -- An operand is missing.  Then a store is not allowed and writes nothing, whatever the registers hold.
    obtain ⟨m', hm', hnum⟩ := h.memory env _ (agrees_numbers _ _)
    refine ⟨m', hm', hnum.trans ?_⟩
    rw [hm]
    refine remembered_congr fun haccess => ⟨hnoted haccess, fun hdefined => ?_⟩
    rw [hnoted haccess] at hdefined
    exact absurd (supplied_of_allows hdefined) hsupplied

end Operands

/-- **Encoding an instruction follows the machine.** -/
theorem Running.step (hw : Running s width env site w c) (ht : InstrTyped s width i)
    (h : addValue i s w = .ok ((), w')) :
    Running s width env (site.pass s i) w' (c.step s width env site i) := by
  obtain ⟨m, hm, hnum⟩ := hw.memory
  obtain ⟨hready, -⟩ := hw.toReady.step hm ht h
  obtain ⟨es, own, t, w₁, haction, hvars, hdefined, -, -, hmemory, hops⟩ := addValue_action hw.toReady hm ht h
  have hregisters : Matches env ({ w with conds := .none } : Work).state.vars c.registers := hw.registers
  refine ⟨hready, ?_, ?_, ?_⟩
  · rw [hvars]
    exact haction.matches hops hregisters hw.sound hnum
  · rw [hdefined]
    exact haction.holds_noted hops hregisters hw.sound
  · rw [hmemory]
    exact haction.memory_means hops hregisters hw.sound hnum

/-- **Encoding instructions follows the machine.** -/
theorem Running.chain (hw : Running s width env site w c)
    (ht : ∀ i ∈ is, InstrTyped s width i) (h : Chain s (Task.perform o) (is.map .value) w w') :
    Running s width env (site.passAll s is) w' (c.run s width env site is) := by
  induction is generalizing site w c with
  | nil =>
    obtain rfl := h
    exact hw
  | cons i is ih =>
    obtain ⟨w₁, h₁, h⟩ := h
    exact ih (hw.step (ht i List.mem_cons_self) h₁) (fun j hj => ht j (List.mem_cons_of_mem _ hj)) h

/-! ### Edges -/

/-- The edges into a basic block. -/
def edgesTo (d : Dict (List (Formula × Memory))) (l : String) : List (Formula × Memory) := (d.get? l).getD []

theorem mem_edgesTo_addEntry {d : Dict (List (Formula × Memory))} {target l : String} {p : Formula}
    {e : Formula × Memory} :
    e ∈ edgesTo (addEntry d target p m) l ↔ e ∈ edgesTo d l ∨ labelOf target = l ∧ e = (p, m) := by
  unfold edgesTo addEntry
  rw [get?_put]
  split
  · next h => simp [h]
  · next h => simp [h]

theorem mem_edgesTo_branch {d : Dict (List (Formula × Memory))} {l : String} {p q : Formula}
    {e : Formula × Memory} : e ∈ edgesTo (branchEntries d l₁ l₂ p q m) l ↔
      e ∈ edgesTo d l ∨ labelOf l₁ = l ∧ e = (p, m) ∨ labelOf l₂ = l ∧ e = (q, m) := by
  rw [branchEntries, mem_edgesTo_addEntry, mem_edgesTo_addEntry, or_assoc]

/-- A branch adds its edges; its condition was recorded before. -/
theorem addValue_branch {x : ValueId} (hop : (s.table.get i).op = .br x l₁ l₂) (h : addValue i s w = .ok ((), w')) :
    ∃ e u m, w.state.vars.get? (keyOf s.table x) = some e ∧ e.value = some u ∧ w'.state.memory = some m ∧
      w'.state.entries = branchEntries w.state.entries l₁ l₂ (e.conds.taken u .ne) (e.conds.taken u .eq) m := by
  obtain ⟨t, w₁, henc, hbranch⟩ := addValue_eq h
  obtain ⟨hvars, hentries, -⟩ := encode_grows henc
  simp only [Branches, hop] at hbranch
  obtain ⟨e, u, m, he, hu, hm, rfl⟩ := hbranch
  have hnone : t = none := by simpa [hop, hasTerm] using encode_isSome henc
  -- The branch itself has no value, so it is not its own condition.
  have hne : (s.table.get i).key ≠ (s.table.get x).key := by
    intro hkey
    rw [Work.record, get?_put, if_pos hkey, hnone] at he
    cases he
    cases hu
  rw [Work.record, get?_put, if_neg hne, hvars] at he
  exact ⟨e, u, m, he, hu, hm, by simp only [Work.record, hentries]⟩

/-- An instruction that is no branch leaves the edges alone. -/
theorem addValue_entries (hop : ∀ x l₁ l₂, (s.table.get i).op ≠ .br x l₁ l₂) (h : addValue i s w = .ok ((), w')) :
    w'.state.entries = w.state.entries := by
  obtain ⟨t, w₁, henc, hbranch⟩ := addValue_eq h
  have hentries := (encode_grows henc).entries
  unfold Branches at hbranch
  split at hbranch
  · next hbr => exact absurd hbr (hop _ _ _)
  · rw [hbranch]
    exact hentries

/-- An edge is taken if the condition of the branch is there, is not poison and compares with zero as it should. -/
theorem Matches.taken_iff {d : Dict Encoded} {registers : String → Option Cell} (h : Matches env d registers)
    {k : String} {e : Encoded} {u : Term} (he : d.get? k = some e) (hu : e.value = some u) (r : Comparison) :
    (e.conds.taken u r).eval env = true ↔ ∃ n, registers k = some ⟨n, true⟩ ∧ meets u.width r n 0 = true := by
  have heval : (e.conds.taken u r).eval env = true ↔ meets u.width r (u.num env) 0 = true ∧
      holds env e.conds.defined = true ∧ holds env e.conds.poison = true := by
    rw [Conditions.taken, Formula.eval_allOf, List.all_cons, List.all_append, eval_cmp_number, wrap_zero]
    simp [holds]
  rw [heval, h.present he hu]
  constructor
  · rintro ⟨hmeets, hsome, hclean⟩
    obtain ⟨⟨n, clean⟩, hcell⟩ := Option.isSome_iff_exists.1 hsome
    obtain ⟨rfl, rfl⟩ := h.means he hu hcell
    rw [hclean] at hcell
    exact ⟨u.num env, hcell, hmeets⟩
  · rintro ⟨n, hcell, hmeets⟩
    obtain ⟨rfl, hpoison⟩ := h.means he hu hcell
    exact ⟨hmeets, by rw [hcell]; rfl, hpoison⟩

theorem goes_iff {x : ValueId} {l : String} : c.goes s x l₁ l₂ = some l ↔
    ∃ n, c.registers (keyOf s.table x) = some ⟨n, true⟩ ∧
      (n ≠ 0 ∧ labelOf l₁ = l ∨ n = 0 ∧ labelOf l₂ = l) := by
  unfold Config.goes
  split
  · next n hcell =>
    by_cases hn : n = 0
    · simp [hcell, hn]
    · simp [hcell, hn]
  · next hnot =>
    constructor
    · rintro ⟨⟩
    · rintro ⟨n, hcell, -⟩
      exact absurd hcell (hnot n)

/-- **The branch of a block records what the machine does**: an edge that is new and taken goes where the machine goes,
and has its memory; and where the machine goes, there is such an edge. -/
structure Forks (env : Env) (d d' : Dict (List (Formula × Memory))) (c : Config) : Prop where
  old : ∀ l, edgesTo d l ⊆ edgesTo d' l
  new : ∀ l, ∀ e ∈ edgesTo d' l, e ∈ edgesTo d l ∨ (e.1.eval env = true → c.next = some l ∧ e.2.num env = c.memory)
  goes : ∀ l, c.next = some l → ∃ e ∈ edgesTo d' l, e.1.eval env = true

def isBranch : Op → Bool
  | .br _ _ _ => true
  | _ => false

/-- Whether the instruction is a branch or changes the memory. -/
def moves : Op → Bool
  | .br _ _ _ | .store _ _ _ _ | .alloca _ _ _ => true
  | _ => false

/-- Behind a branch there is no second one, and the memory is not changed. -/
def Settled (t : Table) : List ValueId → Prop
  | [] => True
  | i :: is => (isBranch (t.get i).op = true → ∀ j ∈ is, moves (t.get j).op = false) ∧ Settled t is

theorem Forks.refl (d : Dict (List (Formula × Memory))) (hc : c.next = none) : Forks env d d c :=
  ⟨fun _ => List.Subset.refl _, fun _ _ he => .inl he, fun l hl => by rw [hc] at hl; cases hl⟩

theorem Running.branch {x : ValueId} (hop : (s.table.get i).op = .br x l₁ l₂)
    (hw : Running s width env site w c) (ht : InstrTyped s width i) (h : addValue i s w = .ok ((), w')) :
    Forks env w.state.entries w'.state.entries (c.step s width env site i) := by
  obtain ⟨e, u, m, he, hu, hm, hentries⟩ := addValue_branch hop h
  have hgoes : (c.step s width env site i).next = c.goes s x l₁ l₂ := by simp [Config.step, hop]
  have hmem : m.num env = (c.step s width env site i).memory := by
    obtain ⟨m', hm', hnum⟩ := (hw.step ht h).memory
    rw [hm] at hm'
    cases hm'
    exact hnum
  have hne := hw.registers.taken_iff he hu .ne
  have heq := hw.registers.taken_iff he hu .eq
  simp only [meets_ne_iff, meets_eq_iff] at hne heq
  rw [hentries]
  refine ⟨fun l e he => mem_edgesTo_branch.2 (.inl he), fun l f hf => ?_, fun l hl => ?_⟩
  · rw [hgoes]
    rcases mem_edgesTo_branch.1 hf with hf | ⟨hl, rfl⟩ | ⟨hl, rfl⟩
    · exact .inl hf
    · refine .inr fun heval => ⟨goes_iff.2 ?_, hmem⟩
      obtain ⟨n, hcell, hn⟩ := hne.1 heval
      exact ⟨n, hcell, .inl ⟨hn, hl⟩⟩
    · refine .inr fun heval => ⟨goes_iff.2 ?_, hmem⟩
      obtain ⟨n, hcell, hn⟩ := heq.1 heval
      exact ⟨n, hcell, .inr ⟨hn, hl⟩⟩
  · rw [hgoes] at hl
    obtain ⟨n, hcell, ⟨hn, hl⟩ | ⟨hn, hl⟩⟩ := goes_iff.1 hl
    · exact ⟨_, mem_edgesTo_branch.2 (.inr (.inl ⟨hl, rfl⟩)), hne.2 ⟨n, hcell, hn⟩⟩
    · exact ⟨_, mem_edgesTo_branch.2 (.inr (.inr ⟨hl, rfl⟩)), heq.2 ⟨n, hcell, hn⟩⟩

theorem not_br_of_isBranch (hop : isBranch (s.table.get i).op = false) (x : ValueId) (l₁ l₂ : String) :
    (s.table.get i).op ≠ .br x l₁ l₂ := by
  intro hbr
  rw [hbr] at hop
  cases hop

theorem step_next_of_not_branch (hop : isBranch (s.table.get i).op = false) :
    (c.step s width env site i).next = c.next := by
  unfold Config.step
  cases hop' : (s.table.get i).op with
  | br => simp [isBranch, hop'] at hop
  | _ => rfl

theorem isBranch_of_moves {op : Op} (h : moves op = false) : isBranch op = false := by
  cases op with
  | br => cases h
  | _ => rfl

/-- Behind the branch of a block no edge is added, … -/
theorem entries_of_quiet (hquiet : ∀ i ∈ is, moves (s.table.get i).op = false)
    (h : Chain s (Task.perform o) (is.map .value) w w') : w'.state.entries = w.state.entries := by
  refine h.invariant (I := fun v => v.state.entries = w.state.entries)
    (List.forall_mem_map.2 fun i hi v _ v' hv h₁ => ?_) rfl
  have hbranch := isBranch_of_moves (hquiet i hi)
  exact (addValue_entries (not_br_of_isBranch hbranch) h₁).trans hv

/-- … and the machine neither goes elsewhere nor changes the memory. -/
theorem run_of_quiet (width : String → Nat) (env : Env)
    (hquiet : ∀ i ∈ is, moves (s.table.get i).op = false) (site : Site) (c : Config) :
    (c.run s width env site is).next = c.next ∧ (c.run s width env site is).memory = c.memory := by
  induction is generalizing site c with
  | nil => exact ⟨rfl, rfl⟩
  | cons i is ih =>
    have hi := hquiet i List.mem_cons_self
    have hnext : (c.step s width env site i).next = c.next := step_next_of_not_branch (isBranch_of_moves hi)
    have hmemory : (c.step s width env site i).memory = c.memory := by
      unfold Config.step remembered
      cases hop : (s.table.get i).op with
      | store | alloca => simp [moves, hop] at hi
      | _ => rfl
    obtain ⟨hnext', hmemory'⟩ := ih (fun j hj => hquiet j (List.mem_cons_of_mem _ hj)) (site.pass s i)
      (c.step s width env site i)
    exact ⟨hnext'.trans hnext, hmemory'.trans hmemory⟩

/-- **The edges of a block are those that the machine takes.** -/
theorem Running.forks (hw : Running s width env site w c) (hnext : c.next = none)
    (ht : ∀ i ∈ is, InstrTyped s width i) (hsettled : Settled s.table is)
    (h : Chain s (Task.perform o) (is.map .value) w w') :
    Forks env w.state.entries w'.state.entries (c.run s width env site is) := by
  induction is generalizing site w c with
  | nil =>
    obtain rfl := h
    exact .refl _ hnext
  | cons i is ih =>
    obtain ⟨w₁, h₁, h⟩ := h
    have hi := ht i List.mem_cons_self
    cases hop : isBranch (s.table.get i).op with
    | true =>
      -- The rest of the block keeps what the branch has recorded.
      have hentries := entries_of_quiet (hsettled.1 hop) h
      obtain ⟨hgoes, hmemory⟩ := run_of_quiet width env (hsettled.1 hop) (site.pass s i)
        (c.step s width env site i)
      obtain ⟨x, l₁, l₂, hbr⟩ : ∃ x l₁ l₂, (s.table.get i).op = .br x l₁ l₂ := by
        cases hop' : (s.table.get i).op with
        | br x l₁ l₂ => exact ⟨x, l₁, l₂, rfl⟩
        | _ => simp [isBranch, hop'] at hop
      have hforks := hw.branch hbr hi h₁
      rw [hentries]
      refine ⟨hforks.old, fun l e he => ?_, fun l hl => hforks.goes l (hgoes ▸ hl)⟩
      refine (hforks.new l e he).imp_right fun hnew heval => ?_
      rw [Config.run, hgoes, hmemory]
      exact hnew heval
    | false =>
      rw [← addValue_entries (not_br_of_isBranch hop) h₁]
      exact ih (hw.step hi h₁) ((step_next_of_not_branch hop).trans hnext)
        (fun j hj => ht j (List.mem_cons_of_mem _ hj)) hsettled.2 h

/-! ### Blocks that control does not come to -/

/-- The block is not entered: what was done in it is undefined, and so is what was recorded under its keys. -/
structure Dead (env : Env) (ks : List String) (w : Work) : Prop where
  defined : holds env w.state.defined = false
  recorded : ∀ k ∈ ks, ∀ e, w.state.vars.get? k = some e → holds env e.conds.defined = false

/-- No edge that is new is taken. -/
structure Idle (env : Env) (d d' : Dict (List (Formula × Memory))) : Prop where
  old : ∀ l, edgesTo d l ⊆ edgesTo d' l
  new : ∀ l, ∀ e ∈ edgesTo d' l, e ∈ edgesTo d l ∨ e.1.eval env = false

theorem Idle.refl (d : Dict (List (Formula × Memory))) : Idle env d d :=
  ⟨fun _ => List.Subset.refl _, fun _ _ he => .inl he⟩

theorem Idle.trans {d d₁ d' : Dict (List (Formula × Memory))} (h : Idle env d d₁) (h' : Idle env d₁ d') :
    Idle env d d' := by
  refine ⟨fun l => List.Subset.trans (h.old l) (h'.old l), fun l e he => ?_⟩
  rcases h'.new l e he with he | hfalse
  · exact h.new l e he
  · exact .inr hfalse

theorem holds_eq_false_of_subset {ps qs : List Formula} (h : ps ⊆ qs) (hps : holds env ps = false) :
    holds env qs = false := by
  rw [← Bool.not_eq_true] at hps ⊢
  exact fun hqs => hps (holds_of_subset h hqs)

theorem Dead.step {ks : List String} (hw : Dead env ks w) (h : addValue i s w = .ok ((), w')) : Dead env ks w' := by
  obtain ⟨t, w₁, entries, henc, rfl⟩ := addValue_ok h
  obtain ⟨hvars, -, -, hgrows⟩ := encode_grows henc
  have hdefined : holds env w₁.state.defined = false := holds_eq_false_of_subset hgrows hw.defined
  refine ⟨hdefined, fun k hk e he => ?_⟩
  simp only [Work.record, get?_put, hvars] at he
  split at he
  · cases he
    exact holds_eq_false_of_subset (List.subset_append_left _ _) hdefined
  · exact hw.recorded k hk e he

/-- The branch of a block that is not entered takes no edge, if its condition is computed in the block. -/
theorem Dead.idle {ks : List String} (hw : Dead env ks w) (h : addValue i s w = .ok ((), w'))
    (hlocal : ∀ x l₁ l₂, (s.table.get i).op = .br x l₁ l₂ → keyOf s.table x ∈ ks) :
    Idle env w.state.entries w'.state.entries := by
  by_cases hbr : ∃ x l₁ l₂, (s.table.get i).op = .br x l₁ l₂
  · obtain ⟨x, l₁, l₂, hop⟩ := hbr
    obtain ⟨e, u, m, he, hu, -, hentries⟩ := addValue_branch hop h
    have hundefined := hw.recorded _ (hlocal x l₁ l₂ hop) e he
    have hfalse : ∀ r, (e.conds.taken u r).eval env = false := by
      intro r
      rw [Conditions.taken, Formula.eval_allOf, List.all_cons, List.all_append]
      unfold holds at hundefined
      rw [hundefined, Bool.false_and, Bool.and_false]
    rw [hentries]
    refine ⟨fun l f hf => mem_edgesTo_branch.2 (.inl hf), fun l f hf => ?_⟩
    rcases mem_edgesTo_branch.1 hf with hf | ⟨-, rfl⟩ | ⟨-, rfl⟩
    · exact .inl hf
    · exact .inr (hfalse .ne)
    · exact .inr (hfalse .eq)
  · rw [addValue_entries (fun x l₁ l₂ hop => hbr ⟨x, l₁, l₂, hop⟩) h]
    exact .refl _

/-- **Where control does not come to, nothing is defined and no edge is taken.** -/
theorem Dead.chain {ks : List String} (hw : Dead env ks w)
    (hlocal : ∀ i ∈ is, ∀ x l₁ l₂, (s.table.get i).op = .br x l₁ l₂ → keyOf s.table x ∈ ks)
    (h : Chain s (Task.perform o) (is.map .value) w w') :
    Dead env ks w' ∧ Idle env w.state.entries w'.state.entries := by
  induction is generalizing w with
  | nil =>
    obtain rfl := h
    exact ⟨hw, .refl _⟩
  | cons i is ih =>
    obtain ⟨w₁, h₁, h⟩ := h
    obtain ⟨hdead, hidle⟩ := ih (hw.step h₁) (fun j hj => hlocal j (List.mem_cons_of_mem _ hj)) h
    exact ⟨hdead, (hw.idle h₁ (hlocal i List.mem_cons_self)).trans hidle⟩

theorem Ready.chain (hw : Ready s width site w) (hm : ∃ m, w.state.memory = some m)
    (ht : ∀ i ∈ is, InstrTyped s width i) (h : Chain s (Task.perform o) (is.map .value) w w') :
    Ready s width (site.passAll s is) w' := by
  induction is generalizing site w with
  | nil =>
    obtain rfl := h
    exact hw
  | cons i is ih =>
    obtain ⟨w₁, h₁, h⟩ := h
    obtain ⟨m, hm⟩ := hm
    obtain ⟨hw₁, hm₁⟩ := hw.step hm (ht i List.mem_cons_self) h₁
    exact ih hw₁ hm₁ (fun j hj => ht j (List.mem_cons_of_mem _ hj)) h

end Peephole.Encode
