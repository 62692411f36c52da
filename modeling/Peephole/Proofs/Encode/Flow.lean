import Peephole.Proofs.Encode.Simulation

/-!
# Edges between basic blocks and what the machine does

A program without back edges is encoded block by block.  Its machine comes to each block at most once.

* `firstOf_means` : the memory that a basic block starts with is that of the edge that is taken.
* `Tracks` : behind some blocks, the recorded edges that are taken lead to where control is waiting.
* `Tracks.block`, `Tracks.chain` : **encoding one more block, and many, keeps it so**.
-/

namespace Peephole.Encode

open Logic Program Machine

variable {s : Setting} {width : String → Nat} {env : Env} {site : Site} {w w' : Work} {c c₀ : Config}
  {q : Code} {b : String × Dict ValueId} {first : String} {scope : List String}
variable {o : Options}

/-! ### The memory of a block -/

theorem num_choice (p : Formula) (m m' : Memory) :
    (Memory.choose p m m').num env = if p.eval env then m.num env else m'.num env := by
  funext a
  rw [Memory.num, Memory.byteAt_choose]
  split
  · rfl
  · rfl

/-- A block with incoming edges starts with a memory: if an edge is taken, and all that are taken have one memory, with
that one. -/
theorem firstOf_means {es : List (Formula × Memory)} (hne : es ≠ []) : ∃ m, Memory.firstOf es = some m ∧
    ∀ {env mem}, (∃ e ∈ es, e.1.eval env = true) → (∀ e ∈ es, e.1.eval env = true → e.2.num env = mem) →
      m.num env = mem := by
  induction es with
  | nil => exact absurd rfl hne
  | cons e es ih =>
    cases es with
    | nil =>
      -- The memory of the last edge is taken without a condition.
      refine ⟨e.2, rfl, fun {env mem} htaken hmem => ?_⟩
      obtain ⟨f, hf, heval⟩ := htaken
      obtain rfl := List.mem_singleton.1 hf
      exact hmem f hf heval
    | cons f es =>
      obtain ⟨m, hm, hmeans⟩ := ih (by simp)
      refine ⟨.choose e.1 e.2 m, by simp [Memory.firstOf, hm], fun {env mem} htaken hmem => ?_⟩
      rw [num_choice]
      split
      · next heval => exact hmem e List.mem_cons_self heval
      · next heval =>
        refine hmeans ?_ fun g hg => hmem g (List.mem_cons_of_mem _ hg)
        obtain ⟨g, hg, hgeval⟩ := htaken
        rcases List.mem_cons.1 hg with rfl | hg
        · exact absurd hgeval heval
        · exact ⟨g, hg, hgeval⟩

/-! ### Entering a block -/

@[simp] theorem enter_vars (o : Options) (l : String) (st : State) : (st.enter o l).vars = st.vars := by
  obtain ⟨ds, m, henter⟩ := State.enter_eq o l st
  rw [henter]

@[simp] theorem enter_entries (o : Options) (l : String) (st : State) : (st.enter o l).entries = st.entries := by
  obtain ⟨ds, m, henter⟩ := State.enter_eq o l st
  rw [henter]

theorem Ready.enter (hw : Ready s width site w) (o : Options) (l : String) :
    Ready s width site { w with state := w.state.enter o l } := by
  obtain ⟨ds, m, henter⟩ := State.enter_eq o l w.state
  rw [henter]
  exact ⟨hw.widths, hw.blocks, hw.fresh, hw.pointers⟩

/-- A basic block is entered, and then its instructions are encoded. -/
theorem encodeBlock_body (h : encodeBlock o b s w = .ok ((), w')) :
    Chain s (Task.perform o) ((body b).map .value) { w with state := w.state.enter o b.1 } w' := by
  obtain ⟨w₁, henter, hchain⟩ := encodeBlock_ok.1 h
  cases henter
  rw [body, List.map_map]
  exact hchain

/-- **Behind the basic blocks `q`, what has been recorded follows the machine**: the registers match where control is
waiting, and the edges that are taken lead there. -/
structure Tracks (s : Setting) (width : String → Nat) (env : Env) (site : Site) (first : String) (c₀ : Config)
    (scope : List String) (q : Code) (w : Work) : Prop where
  ready : Ready s width (site.passAll s (instructions q)) w
  scope : ∀ k e, w.state.vars.get? k = some e → k ∈ scope ++ (instructions q).map (keyOf s.table)
  entries : Entries w.state.entries
  waiting : ∀ l c, control s width env site (some (first, c₀)) q = some (l, c) →
    Matches env w.state.vars c.registers ∧ c.sound = true ∧ c.next = none
  edge : q ≠ [] → ∀ l c, control s width env site (some (first, c₀)) q = some (l, c) →
    ∃ e ∈ edgesTo w.state.entries l, e.1.eval env = true
  taken : ∀ l, l ∉ q.map Prod.fst → ∀ e ∈ edgesTo w.state.entries l, e.1.eval env = true →
    ∃ c, control s width env site (some (first, c₀)) q = some (l, c) ∧ e.2.num env = c.memory
  listed : ∀ b ∈ q, ∀ l ∈ targets s.table b, w.state.entries.get? l ≠ none
  start : q = [] → w.state.entries = []

/-- What a basic block must be like, given the blocks in front of it. -/
structure Flowing (s : Setting) (width : String → Nat) (first : String) (scope : List String) (q : Code)
    (b : String × Dict ValueId) : Prop where
  label : b.1 ∉ q.map Prod.fst
  first : q = [] → b.1 = first
  /-- Some block in front of it may go to it. -/
  entered : q ≠ [] → ∃ d ∈ q, b.1 ∈ targets s.table d
  typed : ∀ i ∈ body b, InstrTyped s width i
  settled : Settled s.table (body b)
  /-- Its keys are new. -/
  keys : ∀ i ∈ body b, keyOf s.table i ∉ scope ++ (instructions q).map (keyOf s.table)
  /-- Its branch is on a value that is computed in it. -/
  ownCondition : q ≠ [] → ∀ i ∈ body b, ∀ x l₁ l₂, (s.table.get i).op = .br x l₁ l₂ →
    keyOf s.table x ∈ (body b).map (keyOf s.table)

section Block

variable (hw : Tracks s width env site first c₀ scope q w) (hb : Flowing s width first scope q b)

include hw hb

/-- A block that is not the first has incoming edges. -/
theorem Tracks.get?_entries (hq : q ≠ []) : ∃ es, w.state.entries.get? b.1 = some es ∧ es ≠ [] := by
  obtain ⟨d, hd, htarget⟩ := hb.entered hq
  obtain ⟨es, hes⟩ := Option.ne_none_iff_exists'.1 (hw.listed d hd b.1 htarget)
  exact ⟨es, hes, hw.entries.edges _ (mem_of_get? hes)⟩

/-- Where control is waiting for the block, what is known at its start means what the machine knows. -/
theorem Tracks.running (hmem : c₀.memory = (State.initialMemory s.options).num env)
    (hc : control s width env site (some (first, c₀)) q = some (b.1, c)) :
    Running s width env (site.passAll s (instructions q)) { w with state := w.state.enter s.options b.1 } c := by
  obtain ⟨hmatches, hsound, -⟩ := hw.waiting b.1 c hc
  by_cases hq : q = []
  · -- No edge leads to the first block, so it starts with the initial memory.
    subst hq
    cases hc
    have hnone : w.state.entries.get? b.1 = none := by rw [hw.start rfl]; rfl
    have henter : w.state.enter s.options b.1 =
        { w.state with defined := [], memory := some (State.initialMemory s.options) } := by
      simp [State.enter, hnone]
    have hready := hw.ready.enter s.options b.1
    rw [henter] at hready ⊢
    exact ⟨hready, hmatches, by rw [hsound]; rfl, _, rfl, hmem.symm⟩
  · -- All edges into the block that are taken lead to where control is waiting, so they have one memory.
    obtain ⟨es, hes, hne⟩ := hw.get?_entries hb hq
    have hedges : edgesTo w.state.entries b.1 = es := by simp [edgesTo, hes]
    obtain ⟨m, hm, hmeans⟩ := firstOf_means hne
    obtain ⟨e, he, heval⟩ := hw.edge hq b.1 c hc
    rw [hedges] at he
    have henter : w.state.enter s.options b.1 =
        { w.state with defined := [.anyOf (es.map (·.1))], memory := some m } := by
      simp [State.enter, hes, hm]
    have hready := hw.ready.enter s.options b.1
    rw [henter] at hready ⊢
    refine ⟨hready, hmatches, ?_, m, rfl, ?_⟩
    · rw [hsound]
      simp only [holds, List.all_cons, List.all_nil, Bool.and_true, Formula.eval_anyOf, List.any_map,
        List.any_eq_true]
      exact ⟨e, he, heval⟩
    · refine hmeans ⟨e, he, heval⟩ fun f hf hfeval => ?_
      obtain ⟨c', hc', hnum⟩ := hw.taken b.1 hb.label f (hedges ▸ hf) hfeval
      rw [hc] at hc'
      cases hc'
      exact hnum

/-- Where control is not waiting for the block, nothing in it is defined. -/
theorem Tracks.not_entered (hc : ∀ c, control s width env site (some (first, c₀)) q ≠ some (b.1, c)) :
    holds env (w.state.enter s.options b.1).defined = false ∧
      ∃ m, (w.state.enter s.options b.1).memory = some m := by
  have hq : q ≠ [] := by
    rintro rfl
    exact hc c₀ (by rw [hb.first rfl]; rfl)
  obtain ⟨es, hes, hne⟩ := hw.get?_entries hb hq
  obtain ⟨m, hm, -⟩ := firstOf_means hne
  have hedges : edgesTo w.state.entries b.1 = es := by simp [edgesTo, hes]
  refine ⟨?_, m, by simp [State.enter, hes, hm]⟩
  simp only [State.enter, hes, holds, List.all_cons, List.all_nil, Bool.and_true, Formula.eval_anyOf, List.any_map,
    List.any_eq_false, Function.comp_apply]
  intro e he heval
  obtain ⟨c, hc', -⟩ := hw.taken b.1 hb.label e (hedges ▸ he) heval
  exact hc c hc'

end Block

/-! ### Encoding a block -/

/-- An instruction gives edges to the labels that it may go to, and leaves the edges to other labels alone. -/
theorem addValue_get?_entries {i : ValueId} {l : String} (h : addValue i s w = .ok ((), w')) :
    (l ∈ labelsOf s.table i → w'.state.entries.get? l ≠ none) ∧
      (l ∉ labelsOf s.table i → w'.state.entries.get? l = w.state.entries.get? l) := by
  unfold labelsOf
  split
  · next x l₁ l₂ hop =>
    obtain ⟨e, u, m, -, -, -, hentries⟩ := addValue_branch hop h
    simp only [hentries, branchEntries, addEntry, get?_put, List.mem_cons, List.not_mem_nil, or_false]
    grind
  · next hop => simp [addValue_entries hop h]

theorem chain_targets {is : List ValueId} (h : Chain s (Task.perform o) (is.map .value) w w') (l : String)
    (hl : w.state.entries.get? l ≠ none ∨ l ∈ is.flatMap (labelsOf s.table)) : w'.state.entries.get? l ≠ none := by
  induction is generalizing w with
  | nil =>
    obtain rfl := h
    simpa using hl
  | cons i is ih =>
    obtain ⟨w₁, h₁, h⟩ := h
    rw [List.flatMap_cons, List.mem_append, ← or_assoc] at hl
    refine ih h (hl.imp_left fun hl => ?_)
    by_cases hmem : l ∈ labelsOf s.table i
    · exact (addValue_get?_entries h₁).1 hmem
    · rw [(addValue_get?_entries h₁).2 hmem]
      exact hl.resolve_right hmem

theorem keys_body (is : List ValueId) :
    (is.map Task.value).flatMap (Task.keys s.table) = is.map (keyOf s.table) := by
  rw [List.flatMap_map]
  exact List.map_eq_flatMap.symm

/-- The registers still match behind a block that is not entered: nothing was known under its keys, and nothing that is
recorded under them is defined. -/
theorem Dead.matches {ks : List String} {registers : String → Option Cell} (h : Dead env ks w')
    (hnew : ∀ k ∈ ks, w.state.vars.get? k = none)
    (hother : ∀ k, k ∉ ks → w'.state.vars.get? k = w.state.vars.get? k)
    (hmatches : Matches env w.state.vars registers) : Matches env w'.state.vars registers := by
  have hempty : ∀ k ∈ ks, registers k = none := fun k hk => hmatches.recorded (hnew k hk)
  refine ⟨fun {k e u} he hu => ?_, fun {k e u cell} he hu hcell => ?_, fun {k} hk => ?_⟩
  · by_cases hk : k ∈ ks
    · rw [h.recorded k hk e he, hempty k hk]
      rfl
    · exact hmatches.present (hother k hk ▸ he) hu
  · by_cases hk : k ∈ ks
    · rw [hempty k hk] at hcell
      cases hcell
    · exact hmatches.means (hother k hk ▸ he) hu hcell
  · by_cases hk' : k ∈ ks
    · exact hempty k hk'
    · exact hmatches.recorded (hother k hk' ▸ hk)

section Block

variable (hw : Tracks s width env site first c₀ scope q w) (hb : Flowing s width first scope q b)
  (h : Chain s (Task.perform s.options) ((body b).map .value) { w with state := w.state.enter s.options b.1 } w')

include h in
theorem body_keeps (k : String) (hk : k ∉ (body b).map (keyOf s.table)) :
    w'.state.vars.get? k = w.state.vars.get? k := by
  have hsame := (chain_keeps h).1 k (by rwa [keys_body])
  rw [hsame]
  exact congrArg (Dict.get? · k) (enter_vars ..)

include hw hb h

/-- The part of `Tracks` that does not speak about the machine. -/
theorem Tracks.frame (hm : ∃ m, (w.state.enter s.options b.1).memory = some m) :
    Ready s width (site.passAll s (instructions (q ++ [b]))) w' ∧
      (∀ k e, w'.state.vars.get? k = some e → k ∈ scope ++ (instructions (q ++ [b])).map (keyOf s.table)) ∧
      Entries w'.state.entries ∧
      ∀ d ∈ q ++ [b], ∀ l ∈ targets s.table d, w'.state.entries.get? l ≠ none := by
  rw [instructions_append, Site.passAll_append]
  refine ⟨?_, fun k e he => ?_, ?_, fun d hd l hl => ?_⟩
  · simpa using (hw.ready.enter s.options b.1).chain hm hb.typed h
  · by_cases hk : k ∈ (body b).map (keyOf s.table)
    · simp only [List.map_append, instructions_cons, instructions_nil, List.append_nil, List.mem_append]
      exact .inr (.inr hk)
    · rw [body_keeps h k hk] at he
      have hmem := hw.scope k e he
      simp only [List.map_append, List.mem_append] at hmem ⊢
      exact hmem.imp_right .inl
  · have hentries : Entries (w.state.enter s.options b.1).entries := by
      rw [enter_entries]
      exact hw.entries
    exact h.invariant (fun task _ => Entries.perform s.options task) hentries
  · refine chain_targets h l ?_
    dsimp only
    rw [enter_entries]
    rcases List.mem_append.1 hd with hd | hd
    · exact .inl (hw.listed d hd l hl)
    · obtain rfl := List.mem_singleton.1 hd
      exact .inr hl

/-- A block that control is waiting for. -/
theorem Tracks.live (hmem : c₀.memory = (State.initialMemory s.options).num env)
    (hc : control s width env site (some (first, c₀)) q = some (b.1, c)) :
    Tracks s width env site first c₀ scope (q ++ [b]) w' := by
  have hrunning := hw.running hb hmem hc
  obtain ⟨m, hm, -⟩ := hrunning.memory
  obtain ⟨hready, hscope, hentries, htargets⟩ := hw.frame hb h ⟨m, hm⟩
  have hafter := hrunning.chain hb.typed h
  have hforks := hrunning.forks (hw.waiting b.1 c hc).2.2 hb.typed hb.settled h
  dsimp only at hforks
  rw [enter_entries] at hforks
  have hcontrol := congrArg (awaits s width env (site.passAll s (instructions q)) b) hc
  rw [← control_concat, awaits, if_pos rfl] at hcontrol
  dsimp only at hcontrol
  refine ⟨hready, hscope, hentries, fun l c' hc' => ?_, fun _ l c' hc' => ?_, fun l hl e he heval => ?_, htargets,
    fun hnil => by simp at hnil⟩
  · rw [hcontrol] at hc'
    obtain ⟨_, -, hpair⟩ := Option.map_eq_some_iff.1 hc'
    cases hpair
    exact ⟨hafter.registers, rfl, rfl⟩
  · rw [hcontrol] at hc'
    obtain ⟨_, hnext, hpair⟩ := Option.map_eq_some_iff.1 hc'
    cases hpair
    exact hforks.goes l hnext
  · rw [List.map_append, List.mem_append, not_or] at hl
    rcases hforks.new l e he with hold | hnew
    · -- Control was waiting for this block, and not for `l`.
      obtain ⟨c', hc', -⟩ := hw.taken l hl.1 e hold heval
      rw [hc] at hc'
      cases hc'
      exact absurd (by simp) hl.2
    · obtain ⟨hnext, hnum⟩ := hnew heval
      rw [hcontrol, hnext]
      exact ⟨_, rfl, hnum⟩

/-- A block that control is not waiting for. -/
theorem Tracks.dead (hc : ∀ c, control s width env site (some (first, c₀)) q ≠ some (b.1, c)) :
    Tracks s width env site first c₀ scope (q ++ [b]) w' := by
  obtain ⟨hdefined, hm⟩ := hw.not_entered hb hc
  have hq : q ≠ [] := by
    rintro rfl
    exact hc c₀ (by rw [hb.first rfl]; rfl)
  obtain ⟨hready, hscope, hentries, htargets⟩ := hw.frame hb h hm
  -- What the block records stands under new keys and is undefined, so its branch takes no edge.
  have hnew : ∀ k ∈ (body b).map (keyOf s.table), w.state.vars.get? k = none := by
    intro k hk
    obtain ⟨i, hi, rfl⟩ := List.mem_map.1 hk
    cases he : w.state.vars.get? (keyOf s.table i) with
    | none => rfl
    | some e => exact absurd (hw.scope _ e he) (hb.keys i hi)
  have hdead : Dead env ((body b).map (keyOf s.table)) { w with state := w.state.enter s.options b.1 } := by
    refine ⟨hdefined, fun k hk e he => ?_⟩
    dsimp only at he
    rw [enter_vars, hnew k hk] at he
    cases he
  obtain ⟨hafter, hidle⟩ := hdead.chain (hb.ownCondition hq) h
  dsimp only at hidle
  rw [enter_entries] at hidle
  have hcontrol := control_concat_of_not_waiting hc
  refine ⟨hready, hscope, hentries, fun l c hc' => ?_, fun _ l c hc' => ?_, fun l hl e he heval => ?_, htargets,
    fun hnil => by simp at hnil⟩
  · rw [hcontrol] at hc'
    obtain ⟨hmatches, hrest⟩ := hw.waiting l c hc'
    exact ⟨hafter.matches hnew (body_keeps h) hmatches, hrest⟩
  · rw [hcontrol] at hc'
    obtain ⟨e, he, heval⟩ := hw.edge hq l c hc'
    exact ⟨e, hidle.old l he, heval⟩
  · rw [List.map_append, List.mem_append, not_or] at hl
    rw [hcontrol]
    rcases hidle.new l e he with hold | hfalse
    · exact hw.taken l hl.1 e hold heval
    · rw [hfalse] at heval
      cases heval

end Block

/-- **Encoding one more block follows the machine.** -/
theorem Tracks.block (hmem : c₀.memory = (State.initialMemory s.options).num env)
    (hw : Tracks s width env site first c₀ scope q w) (hb : Flowing s width first scope q b)
    (h : encodeBlock s.options b s w = .ok ((), w')) : Tracks s width env site first c₀ scope (q ++ [b]) w' := by
  have hbody := encodeBlock_body h
  by_cases hc : ∃ c, control s width env site (some (first, c₀)) q = some (b.1, c)
  · obtain ⟨c, hc⟩ := hc
    exact hw.live hb hbody hmem hc
  · exact hw.dead hb hbody fun c hc' => hc ⟨c, hc'⟩

/-! ### Programs -/

/-- The program is encoded as it is run, where `scope` are the keys of inputs and constants. -/
structure WellFormed (s : Setting) (width : String → Nat) (scope : List String) (p : Code) : Prop where
  labels : (p.map Prod.fst).Nodup
  noBackEdge : NoBackEdge s.table p
  entered : ∀ b ∈ p.tail, ∃ d ∈ p, b.1 ∈ targets s.table d
  typed : ∀ i ∈ instructions p, InstrTyped s width i
  settled : ∀ b ∈ p, Settled s.table (body b)
  keys : ((instructions p).map (keyOf s.table)).Nodup
  newKeys : ∀ i ∈ instructions p, keyOf s.table i ∉ scope
  /-- Outside the first block, a branch is on a value that is computed in its own block. -/
  ownCondition : ∀ b ∈ p.tail, ∀ i ∈ body b, ∀ x l₁ l₂, (s.table.get i).op = .br x l₁ l₂ →
    keyOf s.table x ∈ (body b).map (keyOf s.table)

variable {p r : Code}

theorem mem_tail (hp : p = q ++ b :: r) (hq : q ≠ []) : b ∈ p.tail := by
  cases q with
  | nil => exact absurd rfl hq
  | cons d q =>
    subst hp
    simp

theorem WellFormed.flowing (h : WellFormed s width scope p) (hfirst : p.head?.map Prod.fst = some first)
    (hp : p = q ++ b :: r) : Flowing s width first scope q b := by
  have hmem : b ∈ p := by
    rw [hp]
    simp
  have hinstr : ∀ i ∈ body b, i ∈ instructions p := by
    intro i hi
    rw [hp, instructions_append, instructions_cons]
    exact List.mem_append_right _ (List.mem_append_left _ hi)
  refine ⟨?_, ?_, fun hq => ?_, fun i hi => h.typed i (hinstr i hi), h.settled b hmem, fun i hi hmem => ?_,
    fun hq => h.ownCondition b (mem_tail hp hq)⟩
  · intro hlabel
    have hnodup := h.labels
    rw [hp, List.map_append, List.map_cons] at hnodup
    exact (List.nodup_append.1 hnodup).2.2 _ hlabel _ List.mem_cons_self rfl
  · rintro rfl
    subst hp
    simpa using hfirst
  · obtain ⟨d, hd, htarget⟩ := h.entered b (mem_tail hp hq)
    rw [hp] at hd
    -- A block that may go to it is listed in front of it, since there are no back edges.
    refine ⟨d, (List.mem_append.1 hd).resolve_right fun hd => ?_, htarget⟩
    have hback := h.noBackEdge
    rw [hp] at hback
    exact hback.of_append.1 d hd htarget
  · rcases List.mem_append.1 hmem with hmem | hmem
    · exact h.newKeys i (hinstr i hi) hmem
    · have hkeys := h.keys
      rw [hp, instructions_append, instructions_cons, List.map_append, List.map_append] at hkeys
      exact (List.nodup_append.1 hkeys).2.2 _ hmem _
        (List.mem_append_left _ (List.mem_map_of_mem hi)) rfl

/-- **Encoding the blocks of a program follows the machine.** -/
theorem Tracks.chain (h : WellFormed s width scope p) (hfirst : p.head?.map Prod.fst = some first)
    (hmem : c₀.memory = (State.initialMemory s.options).num env)
    (hw : Tracks s width env site first c₀ scope [] w) (hp : p = q ++ r)
    (hchain : Chain s (encodeBlock s.options) q w w') : Tracks s width env site first c₀ scope q w' := by
  induction q using List.reverseRecOn generalizing w' r with
  | nil =>
    obtain rfl := hchain
    exact hw
  | append_singleton q b ih =>
    obtain ⟨w₁, hchain, w₂, hblock, rfl⟩ := Chain.append.1 hchain
    rw [List.append_assoc] at hp
    exact (ih hp hchain).block hmem (h.flowing hfirst hp) hblock

theorem body_get?_entries {is : List ValueId} {l : String} (hl : l ∉ is.flatMap (labelsOf s.table))
    (h : Chain s (Task.perform o) (is.map .value) w w') : w'.state.entries.get? l = w.state.entries.get? l := by
  refine h.invariant (I := fun v => v.state.entries.get? l = w.state.entries.get? l)
    (List.forall_mem_map.2 fun i hi v _ v' hv h₁ => ?_) rfl
  exact ((addValue_get?_entries h₁).2 fun hi' => hl (List.mem_flatMap_of_mem hi hi')).trans hv

theorem chain_get?_entries {l : String} (hl : ∀ d ∈ r, l ∉ targets s.table d)
    (h : Chain s (encodeBlock o) r w w') : w'.state.entries.get? l = w.state.entries.get? l := by
  refine h.invariant (I := fun v => v.state.entries.get? l = w.state.entries.get? l) (fun d hd v _ v' hv h₁ => ?_) rfl
  have hblock := body_get?_entries (hl d hd) (encodeBlock_body h₁)
  dsimp only at hblock hv ⊢
  rw [hblock, enter_entries, hv]

theorem encodeProgram_append {names : Dict ValueId} : encodeProgram names (q ++ r) s w = .ok ((), w') ↔
    ∃ w₁, encodeProgram names q s w = .ok ((), w₁) ∧ Chain s (encodeBlock s.options) r w₁ w' := by
  simp only [encodeProgram_ok, tasks, List.flatMap_append, ← List.append_assoc, chain_blocks]
  exact Chain.append

end Peephole.Encode
