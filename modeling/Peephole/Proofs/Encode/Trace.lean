import Mathlib
import Peephole.Proofs.Encode.Precondition

/-!
# The order in which a precondition is encoded

The comparisons and predicates of a precondition encode their arguments one after another, and an argument encodes
the operands of a constant expression in front of the expression itself.  All conditions on the way are collected in
one list, which the call of one function, `width`, empties.

* `Traces` : the values that are encoded, in their order, each with the conditions that its own step added.
* `exists_traces` : every run of the encoding has such a trace.
* `Traces.defined_eq` : the conditions behind a run are those added since the last call that forgets.
* `Comes`, `encodeCondition_comes`, `exists_comes` : the parts of a precondition, and what holds in any case because
  of them.
-/

namespace Peephole.Encode

open Logic Program

variable {s : Setting} {w w₁ w' : Work} {i j : ValueId} {is : List ValueId} {ts : List Term} {t : Table} {c : Condition}
  {r : Requirement} {cs : List Condition} {rs : List Requirement}

/-! ### Analyses -/

/-- The variable for what an analysis found. -/
def foundVar (v : Value) (size : Nat) : Term := .var ("ana_" ++ v.name) size

/-- The condition on what the analysis of a term found. -/
def findings (v : Value) (size : Nat) : ConstFn → List Term → List Formula
  | .signBits, [a] => [.cmp .ule (Term.signBits (foundVar v size) size) (Term.signBits a size)]
  | .knownOnes, [a] => [.cmp .eq (.op .and (foundVar v size) (.not a)) (.const 0 size)]
  | .knownZeros, [a] => [.cmp .eq (.op .and (foundVar v size) a) (.const 0 size)]
  | _, _ => []

/-- The term of the call of an analysis. -/
def Finds (v : Value) (size : Nat) : ConstFn → List Term → Term → Prop
  | .signBits, ts, t => (∃ a, ts = [a]) ∧ t = Term.signBits (foundVar v size) size
  | .knownOnes, ts, t | .knownZeros, ts, t => (∃ a, ts = [a]) ∧ t = foundVar v size
  | _, _, _ => True

/-- Whether the conditions before the value are forgotten. -/
def forgets : Op → Bool
  | .call .width _ => true
  | _ => false

/-- The call of a function adds what it says of an analysis; `width` forgets what was said before. -/
theorem callTerm_found {v : Value} {fn : ConstFn} {t : Term} (h : callTerm v fn ts s w = .ok (t, w')) :
    ∃ n, s.HasSize v n ∧ Finds v n fn ts t ∧ w'.conds.defined =
      (if fn = .width then [] else w.conds.defined) ++ findings v n fn ts := by
  simp only [callTerm, bind_run, bind_ok] at h
  obtain ⟨⟨n, w₁⟩, hn, h⟩ := h
  obtain ⟨hsize, rfl⟩ := valueSize_ok hn
  refine ⟨n, hsize, ?_⟩
  dsimp only at h
  split at h
  case h_15 => cases h
  all_goals
    cases h
    simp [Finds, findings, foundVar]

/-! ### One value -/

/-- A value that was encoded: the terms of the operands in their places, its own term, and the conditions that its own
step added. -/
structure Entry where
  value : ValueId
  operands : List Term
  term : Term
  own : List Formula

/-- The own step of an entry, behind the operands in their places. -/
structure Entry.Adds (s : Setting) (e : Entry) (w w' : Work) : Prop where
  defined : w'.conds.defined =
    (if forgets (s.table.get e.value).op then [] else w.conds.defined) ++ e.own
  call : ∀ fn args, (s.table.get e.value).op = .call fn args → ∃ n, s.HasSize (s.table.get e.value) n ∧
    Finds (s.table.get e.value) n fn e.operands e.term ∧ e.own = findings (s.table.get e.value) n fn e.operands
  plain : (s.table.get e.value).op.isInstr = false → (∀ fn args, (s.table.get e.value).op ≠ .call fn args) →
    e.own = []

/-- **One step of the encoding**: a value encodes the operands in their places, which are smaller, and then adds
conditions of its own. -/
theorem encode_step {t : Term} (h : encode i s w = .ok (some t, w')) :
    (∀ j ∈ inPlace (s.table.get i).op, j < i) ∧ ∃ us own w₁,
      (inPlace (s.table.get i).op).mapM (subTerm encode) s w = .ok (us, w₁) ∧
      Entry.Adds s ⟨i, us, t, own⟩ w₁ w' := by
  obtain ⟨hlt, us, w₁, hus, hown⟩ := encode_does h
  by_cases hcall : ∃ fn args, (s.table.get i).op = .call fn args
  · obtain ⟨fn, args, hop⟩ := hcall
    obtain ⟨n, hn, hfinds, hdefined⟩ := callTerm_found (hown.call fn args hop)
    have hforgets : forgets (.call fn args) = decide (fn = .width) := by
      cases fn with
      | _ => rfl
    refine ⟨hlt, us, findings (s.table.get i) n fn us, w₁, hus, ?_, fun fn' args' hop' => ?_,
      fun _ hcall => absurd hop (hcall fn args)⟩
    · simpa [hop, hforgets] using hdefined
    · rw [hop] at hop'
      cases hop'
      exact ⟨n, hn, hfinds, rfl⟩
  · simp only [not_exists] at hcall
    obtain ⟨own, hdefined, hinstr⟩ := hown.plain hcall
    have hforgets : forgets (s.table.get i).op = false := by
      unfold forgets
      split
      · next args hop => exact absurd hop (hcall _ _)
      · rfl
    exact ⟨hlt, us, own, w₁, hus, by simpa [hforgets] using hdefined, fun fn args hop => absurd hop (hcall fn args),
      fun hnot _ => hinstr hnot⟩

/-! ### Traces -/

/-- The values are encoded one after another, and give the terms.  Each of them stands behind the operands in its
places. -/
inductive Traces (s : Setting) : List ValueId → Work → List Entry → List Term → Work → Prop
  | nil (w : Work) : Traces s [] w [] [] w
  | cons {is : List ValueId} {w w₁ w₂ w' : Work} {before after : List Entry} {ts : List Term} (e : Entry)
    (hbefore : Traces s (inPlace (s.table.get e.value).op) w before e.operands w₁)
    (hencode : encode e.value s w = .ok (some e.term, w₂)) (hadds : e.Adds s w₁ w₂)
    (hafter : Traces s is w₂ after ts w') : Traces s (e.value :: is) w (before ++ e :: after) (e.term :: ts) w'

/-- The values have a trace if each of them has one for the operands in its places. -/
theorem exists_traces_of (hstep : ∀ j ∈ is, ∀ w t w', encode j s w = .ok (some t, w') → ∃ us own w₁ es,
      Traces s (inPlace (s.table.get j).op) w es us w₁ ∧ Entry.Adds s ⟨j, us, t, own⟩ w₁ w')
    (h : is.mapM (subTerm encode) s w = .ok (ts, w')) : ∃ es, Traces s is w es ts w' := by
  induction is generalizing w ts with
  | nil =>
    cases h
    exact ⟨[], .nil _⟩
  | cons j is ih =>
    simp only [List.mapM_cons, bind_run, bind_ok, pure_run] at h
    obtain ⟨⟨t, w₁⟩, ht, ⟨us, w₂⟩, hus, h⟩ := h
    cases h
    obtain ⟨hj, his⟩ := List.forall_mem_cons.1 hstep
    obtain ⟨vs, own, w₃, es, hes, hadds⟩ := hj _ _ _ (subTerm_ok ht)
    obtain ⟨es', hes'⟩ := ih his hus
    exact ⟨_, .cons ⟨j, vs, t, own⟩ hes (subTerm_ok ht) hadds hes'⟩

theorem exists_traces_value (i : ValueId) (w : Work) (t : Term) (w' : Work) (h : encode i s w = .ok (some t, w')) :
    ∃ us own w₁ es, Traces s (inPlace (s.table.get i).op) w es us w₁ ∧ Entry.Adds s ⟨i, us, t, own⟩ w₁ w' := by
  induction i using Nat.strongRecOn generalizing w w' t with
  | _ i ih =>
    obtain ⟨hsmaller, us, own, w₁, hargs, hadds⟩ := encode_step h
    obtain ⟨es, hes⟩ := exists_traces_of (fun j hj => ih j (hsmaller j hj)) hargs
    exact ⟨us, own, w₁, es, hes, hadds⟩

theorem Traces.cons_inv {es : List Entry} (h : Traces s (i :: is) w es ts w') :
    ∃ e before after us w₁ w₂, e.value = i ∧ es = before ++ e :: after ∧ ts = e.term :: us ∧
      Traces s (inPlace (s.table.get i).op) w before e.operands w₁ ∧ encode i s w = .ok (some e.term, w₂) ∧
      Traces s is w₂ after us w' := by
  generalize his : i :: is = js at h
  cases h with
  | nil => cases his
  | cons e hbefore hencode _ hafter =>
    cases his
    exact ⟨e, _, _, _, _, _, rfl, rfl, rfl, hbefore, hencode, hafter⟩

/-- The trace of a value whose term is known. -/
theorem Traces.terms_eq {t : Term} {es : List Entry} (h : Traces s [i] w es ts w')
    (ht : ∀ v, ∃ v', encode i s v = .ok (some t, v')) : ts = [t] := by
  obtain ⟨e, _, _, us, _, _, -, -, rfl, -, hencode, hnil⟩ := h.cons_inv
  obtain ⟨_, hencode'⟩ := ht w
  rw [hencode, Except.ok.injEq, Prod.mk.injEq, Option.some.injEq] at hencode'
  cases hnil
  rw [hencode'.1]

/-- Each entry of a trace adds to the work that the operands in its places left. -/
theorem Traces.adds {es : List Entry} (h : Traces s is w es ts w') {e : Entry} (he : e ∈ es) :
    ∃ v es' v₁ v', Traces s (inPlace (s.table.get e.value).op) v es' e.operands v₁ ∧ e.Adds s v₁ v' := by
  induction h with
  | nil w => cases he
  | cons e' hbefore _ hadds _ ihbefore ihafter =>
    rcases List.mem_append.1 he with he | he
    · exact ihbefore he
    · rcases List.mem_cons.1 he with rfl | he
      · exact ⟨_, _, _, _, hbefore, hadds⟩
      · exact ihafter he

/-- **Every run has a trace.** -/
theorem exists_traces (h : is.mapM (subTerm encode) s w = .ok (ts, w')) :
    ∃ es, Traces s is w es ts w' := exists_traces_of (fun j _ => exists_traces_value j) h

/-- The conditions `ds` and those of the entries behind them, as far as they are not forgotten. -/
def lasting (t : Table) : List Entry → List Formula → List Formula
  | [], ds => ds
  | e :: es, ds => lasting t es ((if forgets (t.get e.value).op then [] else ds) ++ e.own)

theorem lasting_append (t : Table) (es fs : List Entry) (ds : List Formula) :
    lasting t (es ++ fs) ds = lasting t fs (lasting t es ds) := by
  induction es generalizing ds with
  | nil => rfl
  | cons e es ih => exact ih _

/-- **The conditions behind a run** are those that were added and not forgotten. -/
theorem Traces.defined_eq {es : List Entry} (h : Traces s is w es ts w') :
    w'.conds.defined = lasting s.table es w.conds.defined := by
  induction h with
  | nil w => rfl
  | cons e _ _ hadds _ ihbefore ihafter => rw [lasting_append, lasting, ihafter, hadds.defined, ihbefore]

/-- Conditions are only added to if nothing forgets them. -/
theorem prefix_lasting {es : List Entry} (h : ∀ e ∈ es, forgets (t.get e.value).op = false)
    (ds : List Formula) : ds <+: lasting t es ds := by
  induction es generalizing ds with
  | nil => exact List.prefix_refl _
  | cons e es ih =>
    obtain ⟨he, hes⟩ := List.forall_mem_cons.1 h
    rw [lasting, he]
    exact (List.prefix_append ds e.own).trans (ih hes _)

/-- The entry is one of the entries, and nothing behind it forgets its conditions. -/
inductive Lasts (t : Table) : List Entry → Entry → Prop
  | head {e : Entry} {es : List Entry} (h : ∀ e' ∈ es, forgets (t.get e'.value).op = false) : Lasts t (e :: es) e
  | tail {e e' : Entry} {es : List Entry} (h : Lasts t es e') : Lasts t (e :: es) e'

theorem Lasts.mem {es : List Entry} {e : Entry} (h : Lasts t es e) : e ∈ es := by
  induction h with
  | head _ => exact List.mem_cons_self
  | tail _ ih => exact List.mem_cons_of_mem _ ih

theorem Lasts.append_left {es : List Entry} {e : Entry} (h : Lasts t es e) (before : List Entry) :
    Lasts t (before ++ es) e := by
  induction before with
  | nil => exact h
  | cons f fs ih => exact .tail ih

/-- A condition lasts if it was there before and nothing forgets it, or is an own one of an entry that lasts. -/
theorem mem_lasting_iff {es : List Entry} {ds : List Formula} {p : Formula} : p ∈ lasting t es ds ↔
      (p ∈ ds ∧ ∀ e ∈ es, forgets (t.get e.value).op = false) ∨ ∃ e, Lasts t es e ∧ p ∈ e.own := by
  induction es generalizing ds with
  | nil =>
    constructor
    · exact fun h => .inl ⟨h, by simp⟩
    · rintro (⟨h, -⟩ | ⟨e, he, -⟩)
      · exact h
      · cases he
  | cons e es ih =>
    rw [lasting, ih, List.mem_append, List.forall_mem_cons]
    constructor
    · rintro (⟨h | h, hes⟩ | ⟨e', he', hp⟩)
      · cases hf : forgets (t.get e.value).op with
        | true => simp [hf] at h
        | false => exact .inl ⟨by simpa [hf] using h, rfl, hes⟩
      · exact .inr ⟨e, .head hes, h⟩
      · exact .inr ⟨e', .tail he', hp⟩
    · rintro (⟨h, hf, hes⟩ | ⟨e', he' | he', hp⟩)
      · exact .inl ⟨.inl (by simpa [hf] using h), hes⟩
      · exact .inl ⟨.inr hp, he'⟩
      · exact .inr ⟨e', he', hp⟩

theorem Traces.call {es : List Entry} (h : Traces s is w es ts w') {e : Entry} (he : e ∈ es)
    {fn : ConstFn} {args : List ValueId} (hop : (s.table.get e.value).op = .call fn args) :
    ∃ n, s.HasSize (s.table.get e.value) n ∧ Finds (s.table.get e.value) n fn e.operands e.term ∧
      e.own = findings (s.table.get e.value) n fn e.operands := by
  obtain ⟨_, _, _, _, -, hadds⟩ := h.adds he
  exact hadds.call fn args hop

/-- **A trace shows every value that is encoded.** -/
theorem Traces.shows {es : List Entry} (h : Traces s is w es ts w') (hi : i ∈ is)
    (hj : Within s.table i j) : ∃ e ∈ es, e.value = j := by
  induction h generalizing i with
  | nil w => cases hi
  | cons e _ _ _ _ ihbefore ihafter =>
    rcases List.mem_cons.1 hi with rfl | hi
    · obtain rfl | ⟨k, hk, hkj⟩ := hj.cases_head
      · exact ⟨e, by simp, rfl⟩
      · obtain ⟨e', he', rfl⟩ := ihbefore hk hkj
        exact ⟨e', List.mem_append_left _ he', rfl⟩
    · obtain ⟨e', he', rfl⟩ := ihafter hi hj
      exact ⟨e', List.mem_append_right _ (List.mem_cons_of_mem _ he'), rfl⟩

/-- A trace shows nothing else. -/
theorem Traces.within {es : List Entry} (h : Traces s is w es ts w') {e : Entry} (he : e ∈ es) :
    ∃ i ∈ is, Within s.table i e.value := by
  induction h with
  | nil w => cases he
  | cons e' _ _ _ _ ihbefore ihafter =>
    rcases List.mem_append.1 he with he | he
    · obtain ⟨k, hk, hwithin⟩ := ihbefore he
      exact ⟨_, List.mem_cons_self, .head hk hwithin⟩
    · rcases List.mem_cons.1 he with rfl | he
      · exact ⟨_, List.mem_cons_self, .refl⟩
      · obtain ⟨k, hk, hwithin⟩ := ihafter he
        exact ⟨k, List.mem_cons_of_mem _ hk, hwithin⟩

/-- **Encoding a value only appends to the conditions**, if it calls no function that forgets them. -/
theorem encode_appends {t : Term} (h : encode i s w = .ok (some t, w'))
    (hno : ∀ j, Within s.table i j → forgets (s.table.get j).op = false) : w.conds.defined <+: w'.conds.defined := by
  have hrun : [i].mapM (subTerm encode) s w = .ok ([t], w') := by simp [subTerm, h]
  obtain ⟨es, hes⟩ := exists_traces hrun
  rw [hes.defined_eq]
  refine prefix_lasting (fun e he => ?_) _
  obtain ⟨k, hk, hwithin⟩ := hes.within he
  rw [List.mem_singleton.1 hk] at hwithin
  exact hno _ hwithin

/-! ### The parts of a precondition -/

/-- Encoding the precondition `c` comes to its part `l`, which is encoded from the work on the right. -/
inductive Comes (s : Setting) (l : Condition) : Condition → Work → Work → Prop
  | here (w : Work) : Comes s l l w w
  | not {c : Condition} {w w₁ : Work} (h : Comes s l c w w₁) : Comes s l (.not c) w w₁
  | both {cs cs' : List Condition} {c : Condition} {rs : List Requirement} {w w₁ w' : Work}
    (hbefore : encodeConditions cs s w = .ok (rs, w')) (h : Comes s l c w' w₁) :
    Comes s l (.both (cs ++ c :: cs')) w w₁
  | either {cs cs' : List Condition} {c : Condition} {rs : List Requirement} {w w₁ w' : Work}
    (hbefore : encodeConditions cs s w = .ok (rs, w')) (h : Comes s l c w' w₁) :
    Comes s l (.either (cs ++ c :: cs')) w w₁

/-- A run whose result is only rearranged. -/
theorem bind_pure_ok {α β : Type} {x : EncodeM α} {f : α → β} {b : β} :
    (x >>= fun a => pure (f a)) s w = .ok (b, w') ↔ ∃ a, x s w = .ok (a, w') ∧ b = f a := by
  rw [bind_run, bind_ok]
  constructor
  · rintro ⟨⟨a, w₁⟩, ha, h⟩
    cases h
    exact ⟨a, ha, rfl⟩
  · rintro ⟨a, ha, rfl⟩
    exact ⟨(a, w'), ha, rfl⟩

theorem encodeCondition_not_ok : encodeCondition (.not c) s w = .ok (r, w') ↔
      ∃ r', encodeCondition c s w = .ok (r', w') ∧ r = ⟨r'.given, [.negate (.allOf r'.asked)]⟩ := by
  rw [encodeCondition, bind_pure_ok]

theorem encodeCondition_both_ok : encodeCondition (.both cs) s w = .ok (r, w') ↔
      ∃ rs, encodeConditions cs s w = .ok (rs, w') ∧ r = ⟨rs.flatMap (·.given), rs.flatMap (·.asked)⟩ := by
  rw [encodeCondition, bind_pure_ok]

theorem encodeCondition_either_ok :
    encodeCondition (.either cs) s w = .ok (r, w') ↔ ∃ rs, encodeConditions cs s w = .ok (rs, w') ∧
      r = ⟨rs.flatMap (·.given), [.anyOf (rs.map fun r => .allOf r.asked)]⟩ := by
  rw [encodeCondition, bind_pure_ok]

theorem encodeConditions_cons_ok :
    encodeConditions (c :: cs) s w = .ok (rs, w') ↔ ∃ r w₁ rs', encodeCondition c s w = .ok (r, w₁) ∧
      encodeConditions cs s w₁ = .ok (rs', w') ∧ rs = r :: rs' := by
  rw [encodeConditions, bind_run, bind_ok]
  constructor
  · rintro ⟨⟨r, w₁⟩, hr, h⟩
    rw [bind_run, bind_ok] at h
    obtain ⟨⟨rs', w₂⟩, hrs, h⟩ := h
    cases h
    exact ⟨r, w₁, rs', hr, hrs, rfl⟩
  · rintro ⟨r, w₁, rs', hr, hrs, rfl⟩
    refine ⟨(r, w₁), hr, ?_⟩
    rw [bind_run, bind_ok]
    exact ⟨(rs', w'), hrs, rfl⟩

theorem encodeConditions_append_ok {cs' : List Condition} :
    encodeConditions (cs ++ cs') s w = .ok (rs, w') ↔ ∃ rs₁ w₁ rs₂, encodeConditions cs s w = .ok (rs₁, w₁) ∧
      encodeConditions cs' s w₁ = .ok (rs₂, w') ∧ rs = rs₁ ++ rs₂ := by
  induction cs generalizing w rs with
  | nil =>
    constructor
    · exact fun h => ⟨[], w, rs, rfl, h, rfl⟩
    · rintro ⟨rs₁, w₁, rs₂, h₁, h₂, rfl⟩
      cases h₁
      exact h₂
  | cons c cs ih =>
    simp only [List.cons_append, encodeConditions_cons_ok, ih]
    constructor
    · rintro ⟨r, w₁, _, hr, ⟨rs₁, w₂, rs₂, h₁, h₂, rfl⟩, rfl⟩
      exact ⟨r :: rs₁, w₂, rs₂, ⟨r, w₁, rs₁, hr, h₁, rfl⟩, h₂, rfl⟩
    · rintro ⟨_, w₂, rs₂, ⟨r, w₁, rs₁, hr, h₁, rfl⟩, h₂, rfl⟩
      exact ⟨r, w₁, rs₁ ++ rs₂, hr, ⟨rs₁, w₂, rs₂, h₁, h₂, rfl⟩, rfl⟩

/-- What holds because of one of several preconditions. -/
theorem given_of_mem {l : Condition} {cs' : List Condition} {rs₁ : List Requirement} {w₂ : Work}
    (hbefore : encodeConditions cs s w = .ok (rs₁, w₁))
    (h : encodeConditions (cs ++ c :: cs') s w = .ok (rs, w'))
    (hc : ∀ r v, encodeCondition c s w₁ = .ok (r, v) →
      ∃ r' v', encodeCondition l s w₂ = .ok (r', v') ∧ r'.given ⊆ r.given) :
    ∃ r' v', encodeCondition l s w₂ = .ok (r', v') ∧ r'.given ⊆ rs.flatMap (·.given) := by
  obtain ⟨rs₁', w₁', rs₂, h₁, h₂, rfl⟩ := encodeConditions_append_ok.1 h
  rw [hbefore] at h₁
  cases h₁
  obtain ⟨r, v, rs₃, hr, -, rfl⟩ := encodeConditions_cons_ok.1 h₂
  obtain ⟨r', v', hr', hsub⟩ := hc r v hr
  refine ⟨r', v', hr', fun p hp => ?_⟩
  rw [List.flatMap_append, List.flatMap_cons]
  exact List.mem_append_right _ (List.mem_append_left _ (hsub hp))

/-- **A part of a precondition is encoded, and what holds because of it holds in any case.** -/
theorem encodeCondition_comes {l : Condition} (hl : Comes s l c w w₁) (h : encodeCondition c s w = .ok (r, w')) :
    ∃ r' v, encodeCondition l s w₁ = .ok (r', v) ∧ r'.given ⊆ r.given := by
  induction hl generalizing r w' with
  | here w => exact ⟨r, w', h, List.Subset.refl _⟩
  | not _ ih =>
    obtain ⟨r₀, hr₀, rfl⟩ := encodeCondition_not_ok.1 h
    exact ih (r := r₀) hr₀
  | both hbefore _ ih =>
    obtain ⟨rs, hrs, rfl⟩ := encodeCondition_both_ok.1 h
    exact given_of_mem hbefore hrs fun r v hr => ih hr
  | either hbefore _ ih =>
    obtain ⟨rs, hrs, rfl⟩ := encodeCondition_either_ok.1 h
    exact given_of_mem hbefore hrs fun r v hr => ih hr

/-- A comparison or a predicate. -/
def IsAtom : Condition → Prop
  | .compare _ _ _ | .test _ _ => True
  | _ => False

mutual

/-- **What holds in any case holds because of a comparison or predicate** that the encoding comes to. -/
theorem exists_comes {w w' : Work} {r : Requirement} {p : Formula} (hp : p ∈ r.given) :
    (c : Condition) → encodeCondition c s w = .ok (r, w') →
      ∃ l w₁ r' v, Comes s l c w w₁ ∧ IsAtom l ∧ encodeCondition l s w₁ = .ok (r', v) ∧ p ∈ r'.given
  | .always, h => by
    rw [encodeCondition] at h
    cases h
    cases hp
  | .not c, h => by
    obtain ⟨r', hr', rfl⟩ := encodeCondition_not_ok.1 h
    obtain ⟨l, w₁, r'', v, hl, hrest⟩ := exists_comes (r := r') hp c hr'
    exact ⟨l, w₁, r'', v, .not hl, hrest⟩
  | .both cs, h => by
    obtain ⟨rs, hrs, rfl⟩ := encodeCondition_both_ok.1 h
    obtain ⟨r', hr', hp'⟩ := List.mem_flatMap.1 hp
    obtain ⟨cs₁, c, cs₂, rs₁, v₁, l, w₁, r'', v, rfl, hbefore, hl, hrest⟩ := exists_comes_of_mem hr' hp' cs hrs
    exact ⟨l, w₁, r'', v, .both hbefore hl, hrest⟩
  | .either cs, h => by
    obtain ⟨rs, hrs, rfl⟩ := encodeCondition_either_ok.1 h
    obtain ⟨r', hr', hp'⟩ := List.mem_flatMap.1 hp
    obtain ⟨cs₁, c, cs₂, rs₁, v₁, l, w₁, r'', v, rfl, hbefore, hl, hrest⟩ := exists_comes_of_mem hr' hp' cs hrs
    exact ⟨l, w₁, r'', v, .either hbefore hl, hrest⟩
  | .compare op x y, h => ⟨_, w, r, w', .here w, trivial, h, hp⟩
  | .test t args, h => ⟨_, w, r, w', .here w, trivial, h, hp⟩

theorem exists_comes_of_mem {w w' : Work} {r : Requirement} {rs : List Requirement} {p : Formula} (hr : r ∈ rs)
    (hp : p ∈ r.given) : (cs : List Condition) → encodeConditions cs s w = .ok (rs, w') →
      ∃ cs₁ c cs₂ rs₁ v₁ l w₁ r' v, cs = cs₁ ++ c :: cs₂ ∧ encodeConditions cs₁ s w = .ok (rs₁, v₁) ∧
        Comes s l c v₁ w₁ ∧ IsAtom l ∧ encodeCondition l s w₁ = .ok (r', v) ∧ p ∈ r'.given
  | [], h => by
    rw [encodeConditions] at h
    cases h
    cases hr
  | c :: cs, h => by
    obtain ⟨r₀, v₀, rs', hr₀, hrs', rfl⟩ := encodeConditions_cons_ok.1 h
    rcases List.mem_cons.1 hr with rfl | hr
    · obtain ⟨l, w₁, r', v, hl, hrest⟩ := exists_comes hp c hr₀
      exact ⟨[], c, cs, [], w, l, w₁, r', v, rfl, rfl, hl, hrest⟩
    · obtain ⟨cs₁, c', cs₂, rs₁, v₁, l, w₁, r', v, rfl, hbefore, hl, hrest⟩ := exists_comes_of_mem hr hp cs hrs'
      exact ⟨c :: cs₁, c', cs₂, r₀ :: rs₁, v₁, l, w₁, r', v, rfl,
        encodeConditions_cons_ok.2 ⟨r₀, v₀, rs₁, hr₀, hbefore, rfl⟩, hl, hrest⟩

end

end Peephole.Encode
