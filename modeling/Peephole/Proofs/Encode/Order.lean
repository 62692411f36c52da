import Peephole.Proofs.Encode.Flow
import Peephole.Proofs.Encode.Forwarding

/-!
# The order of the instructions

Encoding looks the operands of an instruction up among what was encoded before it.  What a target keeps from the
source and does not use is moved to the end of its block, also if something that stays in front has it as an operand;
then the target cannot be encoded.

* `Ordered` : each task finds what it needs among what is known before and what the tasks in front of it give.
* `Chain.ordered`, `Ordered.exists_chain` : tasks that can be done at all can be done one after another if and only if
  they are ordered.
* `unusedLast_encodes_iff` : **a program that can be encoded still can be after what is not used has been moved to the
  end of its blocks, if and only if nothing that stays looks up something that is moved.**
-/

namespace Peephole.Encode

open Logic Program Machine
open Elaborate (unusedLast)

variable {s : Setting} {w w' w₂ : Work} {i : ValueId} {o : Options} {t : Option Term} {k : String} {task : Task}
variable {ts us : List Task} {K K' : String → Prop} {b : Dict ValueId}

/-! ### What an instruction looks up -/

theorem knows_congr (h : w.state.vars.get? k = w₂.state.vars.get? k) : Knows w k ↔ Knows w₂ k := by
  rw [Knows, h]
  rfl

theorem exists_operand {x : ValueId} (h : Knows w (keyOf s.table x)) :
    ∃ a c, operand x s w = .ok (a, w.adopt c) := by
  obtain ⟨e, a, he, ha⟩ := h
  exact ⟨a, e.conds, operand_run he ha⟩

theorem exists_steps {d : Dict Encoded} {place : String} {ty : Ty} {xs : List ValueId} {es : List Encoded}
    {steps : List (Nat × Term)} (h : Steps s d place ty xs es steps) (hxs : ∀ x ∈ xs, Knows w (keyOf s.table x)) :
    ∃ es' steps', Steps s w.state.vars place ty xs es' steps' := by
  induction h with
  | nil => exact ⟨[], [], .nil⟩
  | cons hp hm _ _ _ ih =>
    obtain ⟨⟨e, a, he, ha⟩, hxs⟩ := List.forall_mem_cons.1 hxs
    obtain ⟨es', steps', h'⟩ := ih hxs
    exact ⟨_, _, .cons hp hm he ha h'⟩

/-- Whether a block can be allocated does not depend on what was encoded before. -/
theorem exists_allocaTerm {v : Value} {n : ValueId} {align : Nat} {r : Term × Work}
    (h : allocaTerm v n align s w = .ok r) (w₂ : Work) : ∃ r₂, allocaTerm v n align s w₂ = .ok r₂ := by
  simp only [allocaTerm, bind_run, read_run, check_run, ok_bind, bind_ok] at h
  obtain ⟨_, ⟨b, hb, hr⟩, h⟩ := h
  cases hr
  simp only [allocaTerm, bind_run, read_run, check_run, ok_bind, hb]
  split at h
  · next hzero => exact ⟨_, by rw [if_pos hzero]; rfl⟩
  · next hsize =>
    rw [if_neg hsize]
    cases hc : alignedTo? b.ptr align with
    | none => simp [hc] at h
    | some p => exact ⟨_, rfl⟩

/-- **An instruction that can be encoded can be encoded wherever its operands are known.** -/
theorem exists_encode (hi : (s.table.get i).op.isInstr = true) (h : encode i s w = .ok (t, w'))
    (hops : ∀ x ∈ reads (s.table.get i).op, Knows w₂ (keyOf s.table x)) (hm : w₂.state.memory.isSome = true) :
    ∃ r, encode i s w₂ = .ok r := by
  obtain ⟨m, hm⟩ := Option.isSome_iff_exists.1 hm
  rw [encode, encodeWith, valueAt_bind] at h ⊢
  cases hop : (s.table.get i).op <;>
    simp only [hop, bind_run, bind_ok, ok_bind, pure_run, addDefined_run, sizeOf_run] at h <;>
    simp only [bind_run, ok_bind, pure_run, addDefined_run, sizeOf_run] <;>
    simp only [hop, reads, List.forall_mem_cons] at hops
  case copy x | ret x =>
    obtain ⟨a, c, ha⟩ := exists_operand hops.1
    exact ⟨_, by rw [ha]; rfl⟩
  case skip | unreachable | br => exact ⟨_, rfl⟩
  case arith op x y flags =>
    obtain ⟨_, hu, -⟩ := h
    obtain ⟨-, -, -, -, n, -, -, -, hn, -, -⟩ := arithTerm_ok hu
    obtain ⟨e, a, he, ha⟩ := hops.1
    obtain ⟨e', b, he', hb⟩ := hops.2.1
    exact ⟨_, by rw [arithTerm_run he ha he' hb hn]; rfl⟩
  case convert op source x =>
    obtain ⟨_, -, _, ⟨n, hn, -⟩, ⟨n', _⟩, hn', -⟩ := h
    obtain ⟨a, c, ha⟩ := exists_operand hops.1
    exact ⟨_, by rw [ha, ok_bind, hn, ok_bind, ok_bind, valueSize_run (valueSize_ok hn').1]; rfl⟩
  case icmp pred ty x y =>
    obtain ⟨a, c, ha⟩ := exists_operand hops.1
    obtain ⟨a', c', ha'⟩ := exists_operand (w := w₂.adopt c) hops.2.1
    exact ⟨_, by rw [ha, ok_bind, ha']; rfl⟩
  case select z x y =>
    obtain ⟨a, c, ha⟩ := exists_operand hops.1
    obtain ⟨a', c', ha'⟩ := exists_operand (w := w₂.adopt c) hops.2.1
    obtain ⟨a'', c'', ha''⟩ := exists_operand (w := (w₂.adopt c).adopt c') hops.2.2.1
    exact ⟨_, by rw [ha, ok_bind, ha', ok_bind, ha'']; rfl⟩
  case alloca ty n align =>
    obtain ⟨_, ha, -⟩ := h
    obtain ⟨r, hrun⟩ := exists_allocaTerm ha w₂
    exact ⟨_, by rw [hrun]; rfl⟩
  case gep p xs inbounds =>
    obtain ⟨_, -, ⟨ty, _⟩, hty, _, hg, -⟩ := h
    obtain ⟨a, c, ha⟩ := exists_operand hops.1
    obtain ⟨htype, -⟩ := typeOf_ok hty
    obtain ⟨es, steps, hsteps, -, -⟩ := gepTerm_iff.1 hg
    obtain ⟨es', steps', hsteps'⟩ := exists_steps hsteps hops.2
    have hty' : typeOf (s.table.get i) s (w₂.adopt c) = .ok (ty, w₂.adopt c) := by simp [typeOf, htype]
    have hrun : gepTerm a ty.place ty.ty xs s (w₂.adopt c) = .ok (_, _) :=
      gepTerm_iff.2 ⟨es', steps', hsteps', rfl, rfl⟩
    exact ⟨_, by rw [ha, ok_bind, hty', ok_bind, hrun]; rfl⟩
  case load ty x align =>
    obtain ⟨_, hu, -⟩ := h
    obtain ⟨-, a, n, m', -, -, hn, -, hparts, -⟩ := loadTerm_ok hu
    obtain ⟨e, a, he, ha⟩ := hops.1
    have hpos : 0 < n := by
      rcases n with _ | n
      · simp [loadParts, Term.concatAll] at hparts
      · omega
    obtain ⟨u, w₃, hrun⟩ := loadTerm_run align he ha hn hpos hm
    exact ⟨_, by rw [hrun]; rfl⟩
  case store ty x y align =>
    obtain ⟨_, hst, -⟩ := h
    obtain ⟨-, -, -, -, n, -, -, -, hn, -⟩ := storeBytes_ok hst
    obtain ⟨e, a, he, ha⟩ := hops.1
    obtain ⟨e', b, he', hb⟩ := hops.2.1
    obtain ⟨w₃, hrun⟩ := storeBytes_run align he ha he' hb hn
    exact ⟨_, by rw [hrun]; rfl⟩
  all_goals simp [Op.isInstr, hop] at hi

/-- What encoding an instruction looks up: its operands, or the condition of a branch. -/
def looksUp : Op → List ValueId
  | .br c _ _ => [c]
  | op => reads op

/-! ### Tasks in order -/

/-- The keys under which a task looks terms up. -/
def Task.needs (t : Table) : Task → List String
  | value i => (looksUp (t.get i).op).map (keyOf t)
  | _ => []

/-- The keys under which a task records terms. -/
def Task.gives (t : Table) : Task → List String
  | leaf i | value i => if hasTerm (t.get i).op then [keyOf t i] else []
  | enter _ => []

theorem Task.gives_subset (t : Table) (task : Task) : task.gives t ⊆ task.keys t := by
  cases task with
  | enter => exact List.Subset.refl _
  | leaf | value =>
    rw [Task.gives]
    split_ifs <;> simp [Task.keys]

/-- Each task finds what it needs: it is known before, or a task in front gives it. -/
def Ordered (t : Table) : (String → Prop) → List Task → Prop
  | _, [] => True
  | K, task :: ts => (∀ k ∈ task.needs t, K k) ∧ Ordered t (fun k => K k ∨ k ∈ task.gives t) ts

theorem perform_needs (h : task.perform o s w = .ok ((), w')) : ∀ k ∈ task.needs s.table, Knows w k := by
  cases task with
  | leaf | enter => exact nofun
  | value i =>
    refine List.forall_mem_map.2 fun x hx => ?_
    unfold looksUp at hx
    split at hx
    · next c l₁ l₂ hop =>
      obtain ⟨e, u, m, he, hu, -⟩ := addValue_branch hop h
      obtain rfl := List.mem_singleton.1 hx
      exact ⟨e, u, he, hu⟩
    · obtain ⟨t, w₁, entries, henc, -⟩ := addValue_ok h
      exact encode_reads henc x hx

theorem perform_knows (h : task.perform o s w = .ok ((), w')) :
    Knows w' k ↔ if k ∈ task.keys s.table then k ∈ task.gives s.table else Knows w k := by
  split
  · next hk =>
    cases task with
    | enter => cases hk
    | leaf i =>
      obtain ⟨t, w₁, henc, -, -, rfl⟩ := addLeaf_ok h
      obtain rfl := List.mem_singleton.1 hk
      simp [Knows, Task.gives, Work.record, keyOf, get?_put, ← encode_isSome henc, Option.isSome_iff_exists]
    | value i =>
      obtain ⟨t, w₁, entries, henc, rfl⟩ := addValue_ok h
      obtain rfl := List.mem_singleton.1 hk
      simp [Knows, Task.gives, Work.record, keyOf, get?_put, ← encode_isSome henc, Option.isSome_iff_exists]
  · next hk => exact knows_congr ((perform_keeps h).1 k hk)

/-- Tasks that were done one after another are in order. -/
theorem Chain.ordered (h : Chain s (Task.perform o) ts w w') (hK : ∀ k, Knows w k → K k) : Ordered s.table K ts := by
  induction ts generalizing w K with
  | nil => trivial
  | cons task ts ih =>
    obtain ⟨w₁, h₁, h⟩ := h
    refine ⟨fun k hk => hK k (perform_needs h₁ k hk), ih h fun k hk => ?_⟩
    rw [perform_knows h₁] at hk
    split at hk
    · exact .inr hk
    · exact .inl (hK k hk)

/-- The task starts a basic block, or encodes an instruction that can be encoded somewhere.  A branch must not depend
on arbitrary choices, so for it there are none. -/
def Task.Possible (s : Setting) : Task → Prop
  | leaf _ => False
  | enter _ => True
  | value i => (s.table.get i).op.isInstr = true ∧ (∃ w r, encode i s w = .ok r) ∧
      ∀ c l₁ l₂, (s.table.get i).op = .br c l₁ l₂ → ∀ v, ¬Made s.table v

theorem addBranch_run {c : ValueId} {e : Encoded} {a : Term} {m : Memory} (l₁ l₂ : String)
    (he : w.state.vars.get? (keyOf s.table c) = some e) (ha : e.value = some a) (hfree : e.conds.free = [])
    (hm : w.state.memory = some m) :
    ∃ entries, addBranch c l₁ l₂ s w = .ok ((), { w with state.entries := entries }) := by
  have hrun := apart_run (w := w) (operand_run (w := { w with conds := .none }) he ha)
  simp [addBranch, hrun, hfree, memory, hm, Work.adopt, Conditions.append, Conditions.none]

theorem exists_addValue (hi : (Task.value i).Possible s) (hneeds : ∀ k ∈ (Task.value i).needs s.table, Knows w k)
    (hnew : keyOf s.table i ∉ (Task.value i).needs s.table) (hchosen : w.Chosen (Made s.table))
    (hm : w.state.memory.isSome = true) :
    ∃ w', addValue i s w = .ok ((), w') ∧ w'.state.memory.isSome = true := by
  obtain ⟨hinstr, ⟨v, ⟨t, v'⟩, henc⟩, hbranch⟩ := hi
  have hlooks : ∀ x ∈ looksUp (s.table.get i).op, Knows w (keyOf s.table x) := List.forall_mem_map.1 hneeds
  have hreads : ∀ x ∈ reads (s.table.get i).op, x ∈ looksUp (s.table.get i).op := by
    cases (s.table.get i).op <;> simp [reads, looksUp]
  obtain ⟨⟨u, w₁⟩, hrun⟩ : ∃ r, encode i s { w with conds := .none } = .ok r :=
    exists_encode hinstr henc (fun x hx => hlooks x (hreads x hx)) hm
  have hgrows := encode_grows hrun
  obtain ⟨m, hm₁⟩ := Option.isSome_iff_exists.1 (hgrows.memory hm)
  suffices hadd : ∃ entries, addValue i s w = .ok ((), { ({ w₁ with conds := w.conds } : Work).record
      (keyOf s.table i) u w₁.conds with state.entries := entries }) by
    obtain ⟨entries, hadd⟩ := hadd
    exact ⟨_, hadd, hgrows.memory hm⟩
  simp only [addValue, bind_run, valueAt_run, ok_bind, apart_run hrun, modify_run]
  cases hop : (s.table.get i).op
  case br c l₁ l₂ =>
    obtain ⟨e, a, he, ha⟩ := hlooks c (by simp [hop, looksUp])
    have hfree : e.conds.free = [] :=
      List.eq_nil_iff_forall_not_mem.2 fun v hv => hbranch c l₁ l₂ hop v (hchosen.vars _ (mem_of_get? he) v hv)
    -- The branch is recorded before its condition is looked up, under another key.
    have hne : keyOf s.table i ≠ keyOf s.table c := fun heq => hnew (by simp [Task.needs, hop, looksUp, heq])
    refine addBranch_run l₁ l₂ ?_ ha hfree hm₁
    exact (get?_put ..).trans ((if_neg hne).trans (hgrows.vars ▸ he))
  all_goals exact ⟨_, rfl⟩

theorem enter_memory {st : State} (h : Entries st.entries) (label : String) :
    (st.enter o label).memory.isSome = true := by
  unfold State.enter
  split
  · next es hes =>
    obtain ⟨m, hm, -⟩ := firstOf_means (h.edges _ (mem_of_get? hes))
    simp [hm]
  · rfl

/-- **Possible tasks that are in order can be done one after another.** -/
theorem Ordered.exists_chain (h : Ordered s.table K ts) (hts : ∀ task ∈ ts, task.Possible s)
    (hK : ∀ k, K k → Knows w k) (hnew : ∀ k ∈ ts.flatMap (Task.keys s.table), ¬K k)
    (hkeys : (ts.flatMap (Task.keys s.table)).Nodup) (hentries : Entries w.state.entries)
    (hchosen : w.Chosen (Made s.table)) (hm : ∀ i, ts.head? = some (.value i) → w.state.memory.isSome = true) :
    ∃ w', Chain s (Task.perform o) ts w w' := by
  induction ts generalizing w K with
  | nil => exact ⟨w, rfl⟩
  | cons task ts ih =>
    obtain ⟨hneeds, h⟩ := h
    obtain ⟨htask, hts⟩ := List.forall_mem_cons.1 hts
    rw [List.flatMap_cons] at hnew hkeys
    obtain ⟨hnow, hnew⟩ := List.forall_mem_append.1 hnew
    obtain ⟨w₁, h₁, hm₁⟩ : ∃ w₁, task.perform o s w = .ok ((), w₁) ∧ w₁.state.memory.isSome = true := by
      cases task with
      | leaf => cases htask
      | enter label => exact ⟨_, rfl, enter_memory hentries label⟩
      | value i =>
        exact exists_addValue htask (fun k hk => hK k (hneeds k hk))
          (fun hk => hnow _ (List.mem_singleton_self _) (hneeds _ hk)) hchosen (hm i rfl)
    -- The keys are distinct, so that nothing known is recorded again, without a term.
    have hK₁ : ∀ k, K k ∨ k ∈ task.gives s.table → Knows w₁ k := by
      intro k hk
      rw [perform_knows h₁]
      split
      · next hmem => exact hk.resolve_left (hnow k hmem)
      · next hmem => exact hK k (hk.resolve_right fun hg => hmem (task.gives_subset _ hg))
    have hnew₁ : ∀ k ∈ ts.flatMap (Task.keys s.table), ¬(K k ∨ k ∈ task.gives s.table) := fun k hk =>
      not_or.2 ⟨hnew k hk, fun hg => List.disjoint_of_nodup_append hkeys (task.gives_subset _ hg) hk⟩
    obtain ⟨w', h'⟩ := ih h hts hK₁ hnew₁ hkeys.of_append_right (Entries.perform o task w () w₁ hentries h₁)
      (chosen_perform (fun _ hv => hv) o task w () w₁ hchosen h₁) fun _ _ => hm₁
    exact ⟨w', w₁, h₁, h'⟩

/-! ### Moving instructions to the end -/

section Move

variable {t : Table}

theorem ordered_append : Ordered t K (ts ++ us) ↔
    Ordered t K ts ∧ Ordered t (fun k => K k ∨ k ∈ ts.flatMap (Task.gives t)) us := by
  induction ts generalizing K with
  | nil => simp [Ordered]
  | cons task ts ih => simp [Ordered, ih, and_assoc, or_assoc]

theorem Ordered.finds (h : Ordered t K ts) (htask : task ∈ ts) (hk : k ∈ task.needs t) :
    K k ∨ k ∈ ts.flatMap (Task.gives t) := by
  obtain ⟨us, vs, rfl⟩ := List.append_of_mem htask
  rw [List.flatMap_append]
  exact ((ordered_append.1 h).2.1 k hk).imp_right (List.mem_append_left _)

/-- A part of a block is in order if what it needs of the rest is known. -/
theorem Ordered.filter {P : String × ValueId → Bool} (h : Ordered t K (blockTasks b))
    (hin : ∀ e ∈ b, P e = true → ∀ k ∈ (Task.value e.2).needs t, K k → K' k)
    (hout : ∀ e ∈ b, P e = true → ∀ k ∈ (Task.value e.2).needs t, ∀ d ∈ b, k ∈ (Task.value d.2).gives t →
      P d = true ∨ K' k) : Ordered t K' (blockTasks (b.filter P)) := by
  induction b generalizing K K' with
  | nil => trivial
  | cons e b ih =>
    obtain ⟨hneeds, h⟩ := h
    obtain ⟨hine, hin⟩ := List.forall_mem_cons.1 hin
    obtain ⟨-, hout'⟩ := List.forall_mem_cons.1 hout
    by_cases hP : P e = true
    · rw [List.filter_cons_of_pos hP]
      refine ⟨fun k hk => hine hP k hk (hneeds k hk), ih h (fun d hd hPd k hk => ?_) fun d hd hPd k hk c hc hg => ?_⟩
      · exact Or.imp_left (hin d hd hPd k hk)
      · exact (hout' d hd hPd k hk c (List.mem_cons_of_mem e hc) hg).imp_right .inl
    · rw [List.filter_cons_of_neg hP]
      refine ih h (fun d hd hPd k hk hknown => ?_) fun d hd hPd k hk c hc =>
        hout' d hd hPd k hk c (List.mem_cons_of_mem e hc)
      rcases hknown with hknown | hg
      · exact hin d hd hPd k hk hknown
      · -- What is left out gave it, so it is known anyway.
        exact (hout' d hd hPd k hk e List.mem_cons_self hg).resolve_left hP

theorem blockTasks_keys : (blockTasks b).flatMap (Task.keys t) = b.map fun e => keyOf t e.2 := by
  rw [blockTasks, List.flatMap_map]
  exact List.map_eq_flatMap.symm

theorem mem_gives_value (h : k ∈ (Task.value i).gives t) : k = keyOf t i :=
  List.mem_singleton.1 ((Task.value i).gives_subset t h)

/-- Nothing that is used looks up something of the block that is not used. -/
def UsesUsed (t : Table) (used : List String) (b : Dict ValueId) : Prop :=
  ∀ e ∈ b, e.1 ∈ used → ∀ x ∈ looksUp (t.get e.2).op, ∀ d ∈ b, keyOf t d.2 = keyOf t x → d.1 ∈ used

theorem ordered_unusedLast_iff {used : List String} (h : Ordered t K (blockTasks b))
    (hnew : ∀ k ∈ (blockTasks b).flatMap (Task.keys t), ¬K k)
    (hkeys : ((blockTasks b).flatMap (Task.keys t)).Nodup) :
    Ordered t K (blockTasks (unusedLast used b)) ↔ UsesUsed t used b := by
  rw [blockTasks_keys] at hnew hkeys
  rw [unusedLast, blockTasks, List.map_append, ordered_append]
  constructor
  · rintro ⟨hfront, -⟩ e he hused x hx d hd hkey
    have hmem : Task.value e.2 ∈ blockTasks (b.filter fun e => used.contains e.1) :=
      List.mem_map.2 ⟨e, List.mem_filter.2 ⟨he, by simpa using hused⟩, rfl⟩
    rcases hfront.finds hmem (List.mem_map_of_mem hx) with hk | hk
    · exact absurd (hkey ▸ hk) (hnew _ (List.mem_map_of_mem hd))
    · obtain ⟨_, htask, hk⟩ := List.mem_flatMap.1 hk
      obtain ⟨c, hc, rfl⟩ := List.mem_map.1 htask
      obtain ⟨hc, hused⟩ := List.mem_filter.1 hc
      obtain rfl := List.inj_on_of_nodup_map hkeys hc hd ((mem_gives_value hk).symm.trans hkey.symm)
      simpa using hused
  · intro huses
    refine ⟨h.filter (fun _ _ _ _ _ hk => hk) fun e he hused k hk d hd hg => ?_,
      h.filter (fun _ _ _ _ _ => .inl) fun e he _ k hk d hd hg => ?_⟩
    · obtain ⟨x, hx, rfl⟩ := List.mem_map.1 hk
      exact .inl (by simpa using huses e he (by simpa using hused) x hx d hd (mem_gives_value hg).symm)
    · by_cases hused : d.1 ∈ used
      · have hd : d ∈ b.filter fun e => used.contains e.1 := List.mem_filter.2 ⟨hd, by simpa using hused⟩
        exact .inr (.inr (List.mem_flatMap.2 ⟨_, List.mem_map_of_mem hd, hg⟩))
      · exact .inl (by simpa using hused)

/-- The tasks behind those for inputs and constants. -/
def codeTasks (p : Code) : List Task := p.flatMap fun b => .enter b.1 :: blockTasks b.2

/-- The program with the instructions that are not used at the end of their blocks. -/
def unusedLastIn (used : List String) (p : Code) : Code := p.map fun b => (b.1, unusedLast used b.2)

theorem codeTasks_perm (used : List String) (p : Code) : (codeTasks (unusedLastIn used p)).Perm (codeTasks p) := by
  rw [codeTasks, unusedLastIn, List.flatMap_map]
  exact List.Perm.flatMap_left _ fun b _ => ((List.filter_append_perm _ _).map _).cons _

theorem ordered_codeTasks_iff {used : List String} {p : Code} (h : Ordered t K (codeTasks p))
    (hnew : ∀ k ∈ (codeTasks p).flatMap (Task.keys t), ¬K k)
    (hkeys : ((codeTasks p).flatMap (Task.keys t)).Nodup) :
    Ordered t K (codeTasks (unusedLastIn used p)) ↔ ∀ b ∈ p, UsesUsed t used b.2 := by
  have henter : ∀ {K l ts}, Ordered t K (.enter l :: ts) ↔ Ordered t K ts := by simp [Ordered, Task.needs, Task.gives]
  induction p generalizing K with
  | nil => simp [codeTasks, unusedLastIn, Ordered]
  | cons b p ih =>
    have hperm := (List.filter_append_perm (fun e => used.contains e.1) b.2).map fun e => Task.value e.2
    have hsame : ∀ k, k ∈ (blockTasks (unusedLast used b.2)).flatMap (Task.gives t) ↔
        k ∈ (blockTasks b.2).flatMap (Task.gives t) := fun k => (hperm.flatMap_right _).mem_iff
    obtain ⟨hblock, hrest⟩ := ordered_append.1 (henter.1 h)
    have hsplit : (codeTasks (b :: p)).flatMap (Task.keys t) = (blockTasks b.2).flatMap (Task.keys t) ++
        (codeTasks p).flatMap (Task.keys t) := List.flatMap_append
    rw [hsplit] at hnew hkeys
    obtain ⟨hnow, hnew⟩ := List.forall_mem_append.1 hnew
    have hnext : ∀ k ∈ (codeTasks p).flatMap (Task.keys t), ¬(K k ∨ k ∈ (blockTasks b.2).flatMap (Task.gives t)) := by
      refine fun k hk => not_or.2 ⟨hnew k hk, fun hg => ?_⟩
      obtain ⟨task, htask, hg⟩ := List.mem_flatMap.1 hg
      exact List.disjoint_of_nodup_append hkeys (List.mem_flatMap.2 ⟨task, htask, task.gives_subset t hg⟩) hk
    refine henter.trans (ordered_append.trans ?_)
    simp only [hsame]
    rw [List.forall_mem_cons]
    exact and_congr (ordered_unusedLast_iff hblock hnow hkeys.of_append_left) (ih hrest hnext hkeys.of_append_right)

end Move

/-- The tasks of a program that has been encoded are possible. -/
theorem Chain.possible {p : Code} (h : Chain s (Task.perform o) (codeTasks p) w w')
    (hinstr : ∀ i ∈ instructions p, (s.table.get i).op.isInstr = true)
    (hbranch : ∀ i ∈ instructions p, ∀ c l₁ l₂, (s.table.get i).op = .br c l₁ l₂ → ∀ v, ¬Made s.table v) :
    ∀ task ∈ codeTasks p, task.Possible s := by
  intro task htask
  obtain ⟨b, hb, hmem⟩ := List.mem_flatMap.1 htask
  rcases List.mem_cons.1 hmem with rfl | hmem
  · trivial
  · obtain ⟨e, he, rfl⟩ := List.mem_map.1 hmem
    have hi : e.2 ∈ instructions p := List.mem_flatMap.2 ⟨b, hb, List.mem_map_of_mem he⟩
    obtain ⟨ts, us, hsplit⟩ := List.append_of_mem htask
    rw [hsplit] at h
    obtain ⟨v, -, v', hv, -⟩ := Chain.append.1 h
    obtain ⟨t, _, _, henc, -⟩ := addValue_ok hv
    exact ⟨hinstr _ hi, ⟨_, _, henc⟩, hbranch _ hi⟩

/-- **Moving what is not used.**  A program that can be encoded still can be after what is not used has been moved to the
end of its blocks, if and only if nothing that stays looks up something that is moved. -/
theorem unusedLast_encodes_iff {names : Dict ValueId} {p : Code} {fresh : Nat} (used : List String)
    (hkeys : ((recordedValues s.table names p).map (keyOf s.table)).Nodup)
    (hinstr : ∀ i ∈ instructions p, (s.table.get i).op.isInstr = true)
    (hbranch : ∀ i ∈ instructions p, ∀ c l₁ l₂, (s.table.get i).op = .br c l₁ l₂ → ∀ v, ¬Made s.table v)
    (h : encodeProgram names p s ⟨.start, .none, fresh⟩ = .ok ((), w)) :
    (∃ w', encodeProgram names (unusedLastIn used p) s ⟨.start, .none, fresh⟩ = .ok ((), w')) ↔
      ∀ b ∈ p, UsesUsed s.table used b.2 := by
  rw [← tasks_keys, tasks, List.flatMap_append] at hkeys
  obtain ⟨w₁, hleaves, hblocks⟩ := Chain.append.1 (encodeProgram_ok.1 h)
  have hnew : ∀ k ∈ (codeTasks p).flatMap (Task.keys s.table), ¬Knows w₁ k := by
    rintro k hk ⟨e, a, he, -⟩
    rw [(chain_keeps hleaves).1 k fun hmem => List.disjoint_of_nodup_append hkeys hmem hk] at he
    cases he
  have hord : Ordered s.table (Knows w₁) (codeTasks p) := hblocks.ordered fun _ hk => hk
  rw [← ordered_codeTasks_iff hord hnew hkeys.of_append_right]
  constructor
  · rintro ⟨w', h'⟩
    obtain ⟨w₂, hleaves', hblocks'⟩ := Chain.append.1 (encodeProgram_ok.1 h')
    -- Inputs and constants are encoded as before.
    cases (forM_ok.2 hleaves).symm.trans (forM_ok.2 hleaves')
    exact hblocks'.ordered fun _ hk => hk
  · intro hord'
    have hperm := codeTasks_perm used p
    have hpossible := Chain.possible hblocks hinstr hbranch
    have hentries : Entries w₁.state.entries := hleaves.invariant (fun task _ => Entries.perform _ task) .start
    have hchosen : w₁.Chosen (Made s.table) :=
      hleaves.invariant (fun task _ => chosen_perform (fun _ hv => hv) _ task) (.start fresh)
    obtain ⟨w', h'⟩ := hord'.exists_chain (fun task htask => hpossible task (hperm.subset htask)) (fun _ hk => hk)
      (fun k hk => hnew k ((hperm.flatMap_right _).subset hk))
      ((hperm.flatMap_right _).nodup_iff.2 hkeys.of_append_right) hentries hchosen
      (by cases p <;> simp [codeTasks, unusedLastIn])
    exact ⟨w', encodeProgram_ok.2 (Chain.append.2 ⟨w₁, hleaves, h'⟩)⟩

/-- The sum can be moved behind the quotient, but not the quotient behind the sum. -/
theorem twiceQuotient_reordered :
    (∃ w, encodeProgram twiceQuotientNames [("", twiceQuotientBlock)] twiceQuotient ⟨.start, .none, 0⟩ = .ok ((), w)) ∧
    (∃ w, encodeProgram twiceQuotientNames (unusedLastIn ["%a"] [("", twiceQuotientBlock)]) twiceQuotient
      ⟨.start, .none, 0⟩ = .ok ((), w)) ∧
    ¬∃ w, encodeProgram twiceQuotientNames (unusedLastIn ["%r"] [("", twiceQuotientBlock)]) twiceQuotient
      ⟨.start, .none, 0⟩ = .ok ((), w) := by
  obtain ⟨w, hw, -⟩ := twiceQuotient_straightLine.adequate "" 0
  have hbranch : ∀ i ∈ instructions [("", twiceQuotientBlock)], isStraight (twiceQuotient.table.get i).op = true := by
    decide
  have hiff := fun used => unusedLast_encodes_iff used (by decide) (by decide)
    (fun i hi c l₁ l₂ hop => by simpa [hop, isStraight] using hbranch i hi) hw
  refine ⟨⟨w, hw⟩, (hiff ["%a"]).2 ?_, (hiff ["%r"]).not.2 ?_⟩
  · unfold UsesUsed
    decide
  · unfold UsesUsed
    decide

end Peephole.Encode
