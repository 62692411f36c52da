import Mathlib
import Peephole.Proofs.Encode.Trace
import Peephole.Proofs.Logic.Count

/-!
# Analyses in preconditions

A predicate on registers and three functions of constant expressions stand for the answer of an analysis.  The answer
is a variable, and what holds in any case ties it to the truth: an analysis may see less than is true, and never more.

* `Fact`, `testRequirement_analysed` : what a predicate says of words, and that its condition says this.
* `Entry.Sound`, `sound_of_findings` : what the result of an analysis says of the word that was analysed.
* `facts_kept` : **no environment of a precondition contradicts an analysis.**  A predicate whose variable is set is
  true, at any depth.  The result of an analysis is sound if no call of `width` stands behind it in the same
  comparison or predicate: this call forgets what was known.
* `findings_possible` : **an analysis can always find nothing**, so that no input is excluded; but a count of sign
  bits that wraps around to zero excludes the input.
-/

namespace Peephole.Encode

open Logic Machine Program

variable {s : Setting} {w w₁ w' : Work} {env : Env} {t : Test} {key : String} {given : List Formula} {ts : List Term}
  {r : Requirement} {e : Entry} {c : Condition}

/-! ### Predicates -/

/-- Whether the predicate is answered by an analysis. -/
def answered : Test → Bool
  | .isPowerOf2 | .isPowerOf2OrZero | .equivalentAddresses | .maskedIsZero
  | .noSignedAdd | .noUnsignedAdd | .noSignedSub | .noUnsignedSub | .noSignedMul | .noUnsignedMul => true
  | .isShiftedMask | .isSignBit | .noUnsignedShl | .hasOneUse => false

/-- The terms that are analysed.  A mask is a constant. -/
def subjects : Test → List Term → List Term
  | .maskedIsZero, ts => ts.take 1
  | _, ts => ts

/-- What a predicate that is answered by an analysis says of words of `w` bits. -/
def Fact (w : Nat) : Test → List Nat → Prop
  | .isPowerOf2, [a] => a.isPowerOfTwo
  | .isPowerOf2OrZero, [a] => a = 0 ∨ a.isPowerOfTwo
  | .equivalentAddresses, [a, b] => a = b
  | .maskedIsZero, [a, b] => a &&& b = 0
  | .noSignedAdd, [a, b] => FitsSigned w (signed w a + signed w b)
  | .noUnsignedAdd, [a, b] => a + b < 2 ^ w
  | .noSignedSub, [a, b] => FitsSigned w (signed w a - signed w b)
  | .noUnsignedSub, [a, b] => b ≤ a
  | .noSignedMul, [a, b] => FitsSigned w (signed w a * signed w b)
  | .noUnsignedMul, [a, b] => a * b < 2 ^ w
  | _, _ => True

theorem eval_atMostOneBit {a : Term} :
    (atMostOneBit a).eval env = true ↔ a.num env = 0 ∨ (a.num env).isPowerOfTwo := by
  have hand : (Term.op .and a (.op .sub a (numberLike 1 a))).num env =
      a.num env &&& (Term.op .sub a (numberLike 1 a)).num env := Term.num_op_of_width .and rfl
  rw [atMostOneBit, Formula.eval_cmp_of_width (by simp [Term.width, numberLike]), meets_eq_iff, hand, numberLike,
    numberLike, Term.num_pred, Term.num_const, wrap_zero]
  by_cases hzero : a.num env = 0
  · simp [hzero]
  · rw [if_neg hzero, Nat.and_sub_one_eq_zero_iff_isPowerOfTwo hzero]
    simp [hzero]

theorem testRequirement_shape {call : String}
    (h : testRequirement t call key given ts = .ok r) : (∃ a, ts = [a]) ∨ ∃ a b, ts = [a, b] := by
  rcases ts with _ | ⟨a, _ | ⟨b, _ | ⟨c, ts⟩⟩⟩
  · cases h
  · exact .inl ⟨a, rfl⟩
  · exact .inr ⟨a, b, rfl⟩
  · cases h

/-- **The condition of a predicate that is answered by an analysis** says of the words what the predicate does. -/
theorem testRequirement_analysed {call : String} (ht : answered t = true)
    (h : testRequirement t call key given ts = .ok r) :
    ∃ truth, r = analysed call given (subjects t ts) truth ∧ ∀ n, 0 < n → (∀ a ∈ ts, a.width = n) → ∀ env,
      truth.eval env = true ↔ Fact n t (ts.map (Term.num env)) := by
  obtain ⟨a, rfl⟩ | ⟨a, b, rfl⟩ := testRequirement_shape h
  · cases t with
    | isPowerOf2 =>
      cases h
      refine ⟨_, rfl, fun n hn hts env => ?_⟩
      have hzero : ¬(0 : Nat).isPowerOfTwo := by
        rintro ⟨k, hk⟩
        exact absurd hk (Nat.two_pow_pos k).ne
      simp only [Formula.eval, Formula.evalAll, Bool.and_true, Bool.and_eq_true, List.map, Fact]
      rw [← Formula.eval, eval_ne_zero, eval_atMostOneBit]
      constructor
      · rintro ⟨hne, hor⟩
        exact hor.resolve_left hne
      · exact fun hpow => ⟨fun h => hzero (h ▸ hpow), .inr hpow⟩
    | isPowerOf2OrZero =>
      cases h
      exact ⟨_, rfl, fun n hn hts env => eval_atMostOneBit⟩
    | isShiftedMask | isSignBit | noUnsignedShl | hasOneUse => cases ht
    | _ => cases h
  · have hflag : ∀ n, 0 < n → (∀ x ∈ [a, b], x.width = n) → ∀ env op f,
        (flagHolds false n op f a b).eval env = true ↔ ¬Broken false n op f (a.num env) (b.num env) := by
      intro n hn hts env op f
      exact flagHolds_iff false op f hn (hts a (by simp)) (hts b (by simp))
    cases t with
    | equivalentAddresses =>
      cases h
      refine ⟨_, rfl, fun n hn hts env => ?_⟩
      rw [Formula.eval_cmp_of_width ((hts b (by simp)).trans (hts a (by simp)).symm), meets_eq_iff]
      rfl
    | maskedIsZero =>
      cases h
      refine ⟨_, rfl, fun n hn hts env => ?_⟩
      have hand : (Term.op .and a b).num env = a.num env &&& b.num env :=
        Term.num_op_of_width .and ((hts b (by simp)).trans (hts a (by simp)).symm)
      rw [Formula.eval_cmp_of_width (by rfl), meets_eq_iff, hand, numberLike, Term.num_const, wrap_zero]
      rfl
    | noSignedAdd =>
      cases h
      exact ⟨_, rfl, fun n hn hts env => (hflag n hn hts env .add .nsw).trans not_not⟩
    | noUnsignedAdd =>
      cases h
      exact ⟨_, rfl, fun n hn hts env => (hflag n hn hts env .add .nuw).trans not_le⟩
    | noSignedSub =>
      cases h
      exact ⟨_, rfl, fun n hn hts env => (hflag n hn hts env .sub .nsw).trans not_not⟩
    | noUnsignedSub =>
      cases h
      exact ⟨_, rfl, fun n hn hts env => (hflag n hn hts env .sub .nuw).trans not_lt⟩
    | noSignedMul =>
      cases h
      exact ⟨_, rfl, fun n hn hts env => (hflag n hn hts env .mul .nsw).trans not_not⟩
    | noUnsignedMul =>
      cases h
      exact ⟨_, rfl, fun n hn hts env => (hflag n hn hts env .mul .nuw).trans not_le⟩
    | isShiftedMask | isSignBit | noUnsignedShl | hasOneUse => cases ht
    | _ => cases h

theorem given_subset_of_test {call : String} (h : testRequirement t call key given ts = .ok r) :
    r.given = given ∨ ∃ truth, r.given = given ++
      [.implies (.cmp .eq (.var ("ana_" ++ call) 1) (.const 1 1)) truth] := by
  cases ht : answered t with
  | true =>
    obtain ⟨truth, rfl, -⟩ := testRequirement_analysed ht h
    unfold analysed
    split
    · exact .inl rfl
    · exact .inr ⟨truth, rfl⟩
  | false =>
    obtain ⟨a, rfl⟩ | ⟨a, b, rfl⟩ := testRequirement_shape h
    · cases t with
      | isShiftedMask | isSignBit | hasOneUse =>
        cases h
        exact .inl rfl
      | noUnsignedShl => cases h
      | _ => cases ht
    · cases t with
      | noUnsignedShl =>
        cases h
        exact .inl rfl
      | isShiftedMask | isSignBit | hasOneUse => cases h
      | _ => cases ht

/-- The variable of one bit is set. -/
theorem eval_found_iff (call : String) :
    (Formula.cmp .eq (.var ("ana_" ++ call) 1) (.const 1 1)).eval env = true ↔
      wrap 1 (env.bits ("ana_" ++ call)) = 1 := by
  rw [Formula.eval_cmp_of_width (a := .var ("ana_" ++ call) 1) (b := .const 1 1) rfl, meets_eq_iff, Term.num_var,
    Term.num_const]
  rfl

/-- A predicate whose variable is set is true. -/
theorem fact_of_found {call : String}
    {n : Nat} (ht : answered t = true) (h : testRequirement t call key given ts = .ok r)
    (hanalysed : (subjects t ts).all Term.startsWithC = false) (hn : 0 < n) (hts : ∀ a ∈ ts, a.width = n)
    (hgiven : holds env r.given = true) (hfound : wrap 1 (env.bits ("ana_" ++ call)) = 1) :
    Fact n t (ts.map (Term.num env)) := by
  obtain ⟨truth, rfl, htruth⟩ := testRequirement_analysed ht h
  rw [← htruth n hn hts env]
  simp only [analysed, hanalysed, Bool.false_eq_true, if_false, holds_append, Bool.and_eq_true] at hgiven
  have himplies := hgiven.2
  simp only [holds, List.all_cons, List.all_nil, Bool.and_true] at himplies
  rw [Formula.eval, (eval_found_iff call).2 hfound] at himplies
  simpa using himplies

/-! ### Results of analyses -/

/-- What the result of an analysis says of the word that was analysed: the known bits are set, or not set, and there
are no fewer sign bits than were counted. -/
def Entry.Sound (t : Table) (env : Env) (e : Entry) : Prop :=
  match (t.get e.value).op with
  | .call .knownOnes _ => ∃ a, e.operands = [a] ∧
    (a.width = e.term.width → ∀ i, (e.term.num env).testBit i = true → (a.num env).testBit i = true)
  | .call .knownZeros _ => ∃ a, e.operands = [a] ∧
    (a.width = e.term.width → ∀ i, (e.term.num env).testBit i = true → (a.num env).testBit i = false)
  | .call .signBits _ => ∃ a, e.operands = [a] ∧ e.term.num env ≤ signCount a.width (a.num env)
  | _ => True

theorem testBit_not {a : Term} {i : Nat} (hi : i < a.width) :
    ((Term.not a).num env).testBit i = !(a.num env).testBit i := by
  change (~~~(a.eval env)).toNat.testBit i = !(a.eval env).toNat.testBit i
  rw [BitVec.testBit_toNat, BitVec.testBit_toNat, BitVec.getLsbD_not, decide_eq_true hi, Bool.true_and]

/-- Two terms of one width have no bit in common. -/
theorem eval_disjoint_iff {a b : Term} (h : b.width = a.width) :
    (Formula.cmp .eq (.op .and a b) (.const 0 a.width)).eval env = true ↔
      ∀ i, (a.num env).testBit i = true → (b.num env).testBit i = false := by
  have hand : (Term.op .and a b).num env = a.num env &&& b.num env := Term.num_op_of_width .and h
  rw [Formula.eval_cmp_of_width (by rfl), meets_eq_iff, hand, Term.num_const, wrap_zero]
  constructor
  · intro hzero i hi
    have hbit := congrArg (Nat.testBit · i) hzero
    simpa [hi] using hbit
  · intro hdisjoint
    refine Nat.eq_of_testBit_eq fun i => ?_
    cases hi : (a.num env).testBit i with
    | true => simp [hi, hdisjoint i hi]
    | false => simp [hi]

/-- The count that was found is at most the count of the word, which may have been wrapped. -/
theorem eval_signBits_le_iff (a b : Term) (n : Nat) :
    (Formula.cmp .ule (Term.signBits a n) (Term.signBits b n)).eval env = true ↔
      wrap n (signCount a.width (a.num env)) ≤ wrap n (signCount b.width (b.num env)) := by
  have hwidth : (Term.signBits b n).width = (Term.signBits a n).width := by simp
  rw [Formula.eval_cmp_of_width hwidth, Term.num_signBits, Term.num_signBits]
  exact decide_eq_true_iff

/-- **The conditions of an analysis make its result sound.** -/
theorem sound_of_own
    (hcall : ∀ fn args, (s.table.get e.value).op = .call fn args → ∃ n, s.HasSize (s.table.get e.value) n ∧
      Finds (s.table.get e.value) n fn e.operands e.term ∧ e.own = findings (s.table.get e.value) n fn e.operands)
    (hown : holds env e.own = true) : e.Sound s.table env := by
  unfold Entry.Sound
  split
  · next args hop =>
    obtain ⟨n, -, ⟨⟨a, ha⟩, hterm⟩, howns⟩ := hcall _ _ hop
    refine ⟨a, ha, fun hwidth i hi => ?_⟩
    rw [hterm] at hwidth hi
    have hcond : (Formula.cmp .eq (.op .and (foundVar (s.table.get e.value) n) (.not a)) (.const 0 n)).eval env = true := by
      simpa [howns, ha, findings, holds] using hown
    have hlt : i < a.width := by
      by_contra hle
      have hbound := (foundVar (s.table.get e.value) n).num_lt env
      rw [Nat.testBit_lt_two_pow (hbound.trans_le (Nat.pow_le_pow_right (by decide) (hwidth ▸ not_lt.1 hle)))] at hi
      cases hi
    have hnot := (eval_disjoint_iff (a := foundVar (s.table.get e.value) n) (b := .not a) hwidth).1 hcond i hi
    rwa [testBit_not hlt, Bool.not_eq_false'] at hnot
  · next args hop =>
    obtain ⟨n, -, ⟨⟨a, ha⟩, hterm⟩, howns⟩ := hcall _ _ hop
    refine ⟨a, ha, fun hwidth => ?_⟩
    rw [hterm] at hwidth ⊢
    refine (eval_disjoint_iff (a := foundVar (s.table.get e.value) n) hwidth).1 ?_
    simpa [howns, ha, findings, holds, foundVar, Term.width] using hown
  · next args hop =>
    obtain ⟨n, -, ⟨⟨a, ha⟩, hterm⟩, howns⟩ := hcall _ _ hop
    refine ⟨a, ha, ?_⟩
    have hcond : (Formula.cmp .ule (Term.signBits (foundVar (s.table.get e.value) n) n) (Term.signBits a n)).eval env =
        true := by
      simpa [howns, ha, findings, holds] using hown
    have hle : (wrap n (signCount a.width (a.num env)) : Int) ≤ signCount a.width (a.num env) := wrap_le (by omega)
    rw [hterm, Term.num_signBits]
    rw [eval_signBits_le_iff] at hcond
    omega
  · trivial

/-! ### The comparisons and predicates of a precondition -/

/-- The requirement of a comparison or predicate, from what is given and the terms of its arguments. -/
def Settles (t : Table) (given : List Formula) (ts : List Term) (r : Requirement) : Condition → Prop
  | .compare _ _ _ => r.given = given
  | .test p args => ∃ key, testRequirement p ((Condition.test p args).text t) key given ts = .ok r
  | _ => False

/-- A comparison or predicate encodes its arguments, and nothing is given before. -/
theorem atom_ok {l : Condition} (hl : IsAtom l) (h : encodeCondition l s w = .ok (r, w')) :
    ∃ ts w₁, (argsOf l).mapM (subTerm encode) s { w with conds := .none } = .ok (ts, w₁) ∧
      Settles s.table w₁.conds.defined ts r l := by
  have hargs : ∀ {args : List ValueId} {ts : List Term} {given : List Formula} {w₂ : Work},
      argTerms args s w = .ok ((ts, given), w₂) →
      ∃ w₁, args.mapM (subTerm encode) s { w with conds := .none } = .ok (ts, w₁) ∧ given = w₁.conds.defined := by
    intro args ts given w₂ h
    simp only [argTerms, bind_run, bind_ok, pure_run] at h
    obtain ⟨⟨⟨us, c⟩, w₃⟩, hus, h⟩ := h
    obtain ⟨w₁, hw₁, rfl, rfl⟩ := apart_ok hus
    cases h
    exact ⟨w₁, hw₁, rfl⟩
  cases l with
  | compare op x y =>
    rw [encodeCondition, bind_run, bind_ok] at h
    obtain ⟨⟨⟨ts, given⟩, w₂⟩, hr, h⟩ := h
    obtain ⟨w₁, hw₁, rfl⟩ := hargs hr
    dsimp only at h
    split at h
    · cases h
      exact ⟨_, w₁, hw₁, rfl⟩
    · simp at h
  | test p args =>
    rw [encodeCondition, bind_run, bind_ok] at h
    obtain ⟨⟨⟨ts, given⟩, w₂⟩, hr, h⟩ := h
    obtain ⟨w₁, hw₁, rfl⟩ := hargs hr
    simp only [bind_run, read_run, ok_bind, check_run, bind_ok] at h
    obtain ⟨r', hr', h⟩ := h
    cases h
    exact ⟨ts, w₁, hw₁, _, hr'⟩
  | always | not _ | both _ | either _ => cases hl

/-- A trace is a run. -/
theorem Traces.mapM {is : List ValueId} {es : List Entry} (h : Traces s is w es ts w') :
    is.mapM (subTerm encode) s w = .ok (ts, w') := by
  induction h with
  | nil w => rfl
  | cons e _ hencode _ _ _ ih =>
    simp only [List.mapM_cons, bind_run, bind_ok]
    refine ⟨(e.term, _), ?_, (_, _), ih, rfl⟩
    simp [subTerm, hencode]

/-- What settles a comparison or predicate, in terms of its trace. -/
theorem Traces.settles {l : Condition} {es : List Entry} (hl : IsAtom l)
    (h : encodeCondition l s w = .ok (r, w')) (hes : Traces s (argsOf l) { w with conds := .none } es ts w₁) :
    Settles s.table (lasting s.table es []) ts r l := by
  obtain ⟨ts', w₁', hrun, hsettles⟩ := atom_ok hl h
  rw [hes.mapM] at hrun
  cases hrun
  rwa [hes.defined_eq] at hsettles

theorem Settles.given_subset {l : Condition} {t : Table} (h : Settles t given ts r l) : given ⊆ r.given := by
  cases l with
  | compare op x y => exact h ▸ List.Subset.refl _
  | test p args =>
    obtain ⟨key, hr⟩ := h
    rcases given_subset_of_test hr with hgiven | ⟨truth, hgiven⟩
    · rw [hgiven]
      exact List.Subset.refl _
    · rw [hgiven]
      exact List.subset_append_left _ _
  | always | not _ | both _ | either _ => cases h

/-- The conditions of an entry that lasts hold in any case. -/
theorem own_subset_lasting {t : Table} {es : List Entry} (h : Lasts t es e) (ds : List Formula) :
    e.own ⊆ lasting t es ds := fun _ hp => mem_lasting_iff.2 (.inr ⟨e, h, hp⟩)

/-- **Facts are kept.**  In every environment in which all holds that a precondition gives, each comparison or
predicate that it comes to, at any depth, has a trace that shows all values in it, and

* a predicate that was answered by an analysis is true of the words if its variable is set;
* the result of an analysis is sound if no call behind it forgets its conditions.

Encoding an expression without such a call only appends to the conditions. -/
theorem facts_kept {c : Condition} {r : Requirement} (h : encodeCondition c s w = .ok (r, w')) :
    (∀ l w₁, Comes s l c w w₁ → IsAtom l → ∃ es ts w₂,
      Traces s (argsOf l) { w₁ with conds := .none } es ts w₂ ∧ (∀ j, Asks s.table l j → ∃ e ∈ es, e.value = j) ∧
      ∀ env, holds env r.given = true →
        (∀ t args n, l = .test t args → answered t = true → (subjects t ts).all Term.startsWithC = false → 0 < n →
          (∀ a ∈ ts, a.width = n) → wrap 1 (env.bits ("ana_" ++ l.text s.table)) = 1 →
          Fact n t (ts.map (Term.num env))) ∧
        ∀ e, Lasts s.table es e → e.Sound s.table env) ∧
    ∀ i v t v', encode i s v = .ok (some t, v') → (∀ j, Within s.table i j → forgets (s.table.get j).op = false) →
      v.conds.defined <+: v'.conds.defined := by
  refine ⟨fun l w₁ hl hatom => ?_, fun i v t v' hencode hno => encode_appends hencode hno⟩
  obtain ⟨r', v, hr', hsub⟩ := encodeCondition_comes hl h
  obtain ⟨ts, w₂, hrun, -⟩ := atom_ok hatom hr'
  obtain ⟨es, hes⟩ := exists_traces hrun
  have hsettles := hes.settles hatom hr'
  refine ⟨es, ts, w₂, hes, fun j ⟨a, ha, hwithin⟩ => hes.shows ha hwithin, fun env hgiven => ?_⟩
  have hgiven' := holds_of_subset hsub hgiven
  constructor
  · rintro t args n rfl ht hanalysed hn hts hfound
    obtain ⟨key, hr⟩ := hsettles
    exact fact_of_found ht hr hanalysed hn hts hgiven' hfound
  · intro e he
    refine sound_of_own (fun fn args hop => hes.call he.mem hop) ?_
    exact holds_of_subset (own_subset_lasting he []) (holds_of_subset hsettles.given_subset hgiven')

/-- A byte `%x`, its width, the bits that an analysis knows to be set in it, and the sign bits that one counts. -/
def byteTable : Table :=
  ⟨#[⟨"%x", "%x", some ⟨"%x", .int (some 8)⟩, .input⟩,
    ⟨"width(%x)", "width(%x)_0", some ⟨"width(%x)_0", .int (some 8)⟩, .call .width [0]⟩,
    ⟨"computeKnownOneBits(%x)", "computeKnownOneBits(%x)_1", some ⟨"computeKnownOneBits(%x)_1", .int (some 8)⟩,
      .call .knownOnes [0]⟩,
    ⟨"ComputeNumSignBits(%x)", "ComputeNumSignBits(%x)_2", some ⟨"ComputeNumSignBits(%x)_2", .int (some 8)⟩,
      .call .signBits [0]⟩], 3⟩

def byteSetting : Setting := ⟨byteTable, ⟨fun _ => 1, 32⟩, {}, true⟩

theorem encode_byte (v : Work) : ∃ v', encode 0 byteSetting v = .ok (some (.var "%x" 8), v') := by
  refine ⟨v, ?_⟩
  cbv

/-- The theorem at `!isPowerOf2(%x) && width(%x) == computeKnownOneBits(%x)`, where the analysis stands behind the
width: the byte is a power of two if the predicate was answered so, and the bits that were found are set in it. -/
theorem widthFirst_kept : ∃ r w',
    encodeCondition (.both [.not (.test .isPowerOf2 [0]), .compare .eq 1 2]) byteSetting ⟨.start, .none, 0⟩ =
      .ok (r, w') ∧
    ∀ env, holds env r.given = true →
      (wrap 1 (env.bits "ana_isPowerOf2(%x)") = 1 → (wrap 8 (env.bits "%x")).isPowerOfTwo) ∧
      ∀ i, (wrap 8 (env.bits "ana_computeKnownOneBits(%x)")).testBit i = true →
        (wrap 8 (env.bits "%x")).testBit i = true := by
  set w : Work := ⟨.start, .none, 0⟩ with hw
  have hknown : ∀ v, ∃ v', encode 2 byteSetting v = .ok (some (.var "ana_computeKnownOneBits(%x)" 8), v') := by
    intro v
    refine ⟨{ v with conds.defined := v.conds.defined ++ findings (byteTable.get 2) 8 .knownOnes [.var "%x" 8] }, ?_⟩
    cbv
  obtain ⟨⟨r, w'⟩, hr, -⟩ := exists_ok
    (x := encodeCondition (.both [.not (.test .isPowerOf2 [0]), .compare .eq 1 2]) byteSetting w) (fun _ => true)
    (by cbv)
  refine ⟨r, w', hr, fun env hgiven => ⟨fun hfound => ?_, ?_⟩⟩
  · obtain ⟨es, ts, w₂, hes, -, hfacts⟩ := (facts_kept hr).1 (.test .isPowerOf2 [0]) w
      (@Comes.both _ _ [] _ _ _ _ _ _ rfl (.not (.here w))) trivial
    have hfact := (hfacts env hgiven).1 .isPowerOf2 [0] 8 rfl rfl
    rw [hes.terms_eq encode_byte] at hfact
    have hpow := hfact (by cbv) (by decide) (by simp [Term.width]) (by cbv; exact hfound)
    simpa [Fact] using hpow
  · obtain ⟨es, ts, w₂, hes, -, hfacts⟩ := (facts_kept hr).1 (.compare .eq 1 2) w
      (@Comes.both _ _ [.not (.test .isPowerOf2 [0])] _ _ _ _ _ _ (by cbv) (.here w)) trivial
    obtain ⟨e, before, after, us, w₃, w₄, -, rfl, rfl, -, -, hrest⟩ := hes.cons_inv
    have hterm := hrest.terms_eq hknown
    obtain ⟨f, before', after', us', w₅, w₆, hf, rfl, rfl, hin, -, hnil⟩ := hrest.cons_inv
    cases hnil
    -- The call of `width` stands in front of the analysis, and nothing behind it.
    have hsound := (hfacts env hgiven).2 f (.append_left (.tail (.append_left (.head (by simp)) _)) _)
    have hop : (byteSetting.table.get f.value).op = .call .knownOnes [0] := by
      rw [hf]
      rfl
    simp only [Entry.Sound, hop, hin.terms_eq encode_byte] at hsound
    obtain ⟨a, ha, hbits⟩ := hsound
    cases ha
    rw [(List.cons.inj hterm).1] at hbits
    simpa using hbits rfl

/-! ### Analyses that find nothing -/

/-- The variable stands for what an analysis found. -/
def IsFinding (x : String) : Prop := "ana_".toList <+: x.toList

instance (x : String) : Decidable (IsFinding x) := inferInstanceAs (Decidable (_ <+: _))

/-- The environments differ only in what analyses found. -/
structure SameInputs (env env' : Env) : Prop where
  bits : ∀ x, ¬IsFinding x → env'.bits x = env.bits x
  truth : env'.truth = env.truth
  byte : env'.byte = env.byte

/-- The calls in a table are named by what they call. -/
def CallsNamed (t : Table) : Prop :=
  ∀ i fn args, (t.get i).op = .call fn args → ∃ rest, (t.get i).name = fn.text ++ "(" ++ rest

/-- The number whose even bits below `n` are set. -/
def alternating (n : Nat) : Nat := Nat.ofBits fun i : Fin n => i.val % 2 == 0

/-- The environment in which analyses find nothing: no bit is known, no predicate is seen to hold, and the words for
counts of sign bits have a single one. -/
def nothingFound (n : Nat) (env : Env) : Env :=
  { env with bits := fun x =>
      if "ana_C".toList <+: x.toList then alternating n else if IsFinding x then 0 else env.bits x }

theorem sameInputs_nothingFound (n : Nat) (env : Env) : SameInputs env (nothingFound n env) := by
  refine ⟨fun x hx => ?_, rfl, rfl⟩
  have hx' : ¬"ana_C".toList <+: x.toList := fun h => hx (List.IsPrefix.trans (by decide) h)
  simp only [nothingFound, hx, hx', if_false]

theorem nothingFound_count (n : Nat) (env : Env) (rest : String) :
    (nothingFound n env).bits ("ana_" ++ (ConstFn.signBits.text ++ "(" ++ rest)) = alternating n := by
  have hcount : "ana_C".toList <+: ("ana_" ++ (ConstFn.signBits.text ++ "(" ++ rest)).toList := by
    rw [← String.append_assoc, ← String.append_assoc, String.toList_append, String.toList_append]
    exact List.IsPrefix.trans (by decide) ((List.prefix_append _ _).trans (List.prefix_append _ _))
  exact if_pos hcount

theorem nothingFound_other (n : Nat) (env : Env) {name : String} (h : name.toList.head? ≠ some 'C') :
    (nothingFound n env).bits ("ana_" ++ name) = 0 := by
  have hcount : ¬"ana_C".toList <+: ("ana_" ++ name).toList := by
    rintro ⟨cs, hcs⟩
    rw [String.toList_append, show "ana_C".toList = "ana_".toList ++ ['C'] by decide, List.append_assoc] at hcs
    rw [← List.append_cancel_left hcs] at h
    exact h rfl
  have hfinding : IsFinding ("ana_" ++ name) := by
    rw [IsFinding, String.toList_append]
    exact List.prefix_append _ _
  simp only [nothingFound, hcount, hfinding, if_true, if_false]

/-- A word with alternating bits has one sign bit. -/
theorem signCount_alternating {n k : Nat} (hk : 0 < k) (hn : k ≤ n) : signCount k (wrap k (alternating n)) = 1 := by
  have hmod : wrap k (alternating n) = alternating n % 2 ^ k := by
    rw [wrap]
    norm_cast
  have hbit : ∀ i < k, (wrap k (alternating n)).testBit i = (i % 2 == 0) := by
    intro i hi
    rw [hmod, Nat.testBit_mod_two_pow, decide_eq_true hi, Bool.true_and, alternating,
      Nat.testBit_ofBits_lt _ i (hi.trans_le hn)]
  refine signCount_eq (fun i hi => ?_) hk fun hlt => ?_
  · rw [Nat.lt_one_iff.1 hi, Nat.sub_zero]
  · -- The two bits at the top are neighbours.
    rw [hbit _ (by omega), hbit _ (by omega), ne_eq, Bool.beq_eq_decide_eq, Bool.beq_eq_decide_eq, decide_eq_decide]
    omega

/-- The number of sign bits of the analysed word, wrapped to the width of the result, is not zero. -/
def Entry.Countable (env : Env) (e : Entry) : Prop :=
  ∀ a ∈ e.operands, 0 < e.term.width → wrap e.term.width (signCount a.width (a.num env)) ≠ 0

/-- A result that can hold the width of the word can hold the count. -/
theorem countable_of_width (h : ∀ a ∈ e.operands, 0 < a.width ∧ a.width < 2 ^ e.term.width) : e.Countable env := by
  intro a ha _
  obtain ⟨hpos, hlt⟩ := h a ha
  rw [wrap_of_lt ((signCount_le _ _).trans_lt hlt)]
  exact (signCount_pos hpos _).ne'

/-- Encoding the precondition comes to the entry, and nothing behind it forgets its conditions. -/
def Retains (s : Setting) (c : Condition) (w : Work) (e : Entry) : Prop :=
  ∃ l w₁ es ts w₂, Comes s l c w w₁ ∧ IsAtom l ∧ Traces s (argsOf l) { w₁ with conds := .none } es ts w₂ ∧
    Lasts s.table es e

/-- An analysis that finds nothing meets its conditions. -/
theorem holds_findings_nothingFound {v : Value} {n k : Nat} {fn : ConstFn} {rest : String}
    (hname : v.name = fn.text ++ "(" ++ rest) (hk : k ≤ n)
    (hcount : fn = .signBits → ∀ a ∈ ts, 0 < k → wrap k (signCount a.width (a.num (nothingFound n env))) ≠ 0) :
    holds (nothingFound n env) (findings v k fn ts) = true := by
  have hzero : v.name.toList.head? ≠ some 'C' → (foundVar v k).num (nothingFound n env) = 0 := by
    intro hhead
    rw [foundVar, Term.num_var, nothingFound_other n env hhead, wrap_zero]
  have hand : ∀ b : Term, (foundVar v k).num (nothingFound n env) = 0 →
      (Formula.cmp .eq (.op .and (foundVar v k) b) (.const 0 k)).eval (nothingFound n env) = true := by
    intro b hnum
    have hleft : (Term.op .and (foundVar v k) b).num (nothingFound n env) = 0 := by
      refine (Term.num_op .and (foundVar v k) b).trans ?_
      rw [hnum, result, Nat.zero_and]
    rw [Formula.eval_cmp_of_width (by rfl), meets_eq_iff, hleft, Term.num_const, wrap_zero]
  unfold findings
  split
  · next a =>
    simp only [holds, List.all_cons, List.all_nil, Bool.and_true]
    rw [eval_signBits_le_iff]
    rcases Nat.eq_zero_or_pos k with rfl | hpos
    · have hlt := wrap_lt 0 (signCount (foundVar v 0).width ((foundVar v 0).num (nothingFound n env)))
      omega
    · have hfound : (foundVar v k).num (nothingFound n env) = wrap k (alternating n) := by
        rw [foundVar, Term.num_var, hname, nothingFound_count]
      have hone : signCount (foundVar v k).width ((foundVar v k).num (nothingFound n env)) = 1 := by
        rw [hfound]
        exact signCount_alternating hpos hk
      have hle : wrap k (1 : Nat) ≤ 1 := by
        have := wrap_le (w := k) (z := 1) (by decide)
        exact_mod_cast this
      rw [hone]
      have := hcount rfl a (by simp) hpos
      omega
  · simp only [holds, List.all_cons, List.all_nil, Bool.and_true]
    exact hand _ (hzero (by simp [hname, ConstFn.text, String.toList_append]))
  · simp only [holds, List.all_cons, List.all_nil, Bool.and_true]
    exact hand _ (hzero (by simp [hname, ConstFn.text, String.toList_append]))
  · rfl

/-- The conditions of an entry that is retained hold in any case. -/
theorem Retains.own_subset (he : Retains s c w e) (h : encodeCondition c s w = .ok (r, w')) : e.own ⊆ r.given := by
  obtain ⟨l, w₁, es, ts, w₂, hl, hatom, hes, hlasts⟩ := he
  obtain ⟨r', v, hr', hsub⟩ := encodeCondition_comes hl h
  have hgiven := (hes.settles hatom hr').given_subset
  exact fun p hp => hsub (hgiven (own_subset_lasting hlasts [] hp))

/-- What is given belongs to an entry that is retained, or ties the variable of a predicate to its truth. -/
theorem mem_given_cases {p : Formula} (h : encodeCondition c s w = .ok (r, w'))
    (hp : p ∈ r.given) : (∃ e, Retains s c w e ∧ p ∈ e.own) ∨ ∃ t args truth,
      p = .implies (.cmp .eq (.var ("ana_" ++ (Condition.test t args).text s.table) 1) (.const 1 1)) truth := by
  obtain ⟨l, w₁, r', v, hl, hatom, hr', hp'⟩ := exists_comes hp c h
  obtain ⟨ts, w₂, hrun, -⟩ := atom_ok hatom hr'
  obtain ⟨es, hes⟩ := exists_traces hrun
  have hlasting : p ∈ lasting s.table es [] → ∃ e, Retains s c w e ∧ p ∈ e.own := by
    intro hp
    obtain ⟨hnil, -⟩ | ⟨e, he, hpe⟩ := mem_lasting_iff.1 hp
    · cases hnil
    · exact ⟨e, ⟨l, w₁, es, ts, w₂, hl, hatom, hes, he⟩, hpe⟩
  have hsettles := hes.settles hatom hr'
  cases l with
  | compare op x y =>
    rw [show r'.given = _ from hsettles] at hp'
    exact .inl (hlasting hp')
  | test t args =>
    obtain ⟨key, hr⟩ := hsettles
    obtain hgiven | ⟨truth, hgiven⟩ := given_subset_of_test hr
    · exact .inl (hlasting (hgiven ▸ hp'))
    · rw [hgiven, List.mem_append, List.mem_singleton] at hp'
      obtain hp' | rfl := hp'
      · exact .inl (hlasting hp')
      · exact .inr ⟨t, args, truth, rfl⟩
  | always | not _ | both _ | either _ => cases hatom

theorem Retains.own_eq_nil (he : Retains s c w e)
    (hinstr : (s.table.get e.value).op.isInstr = false) (hcall : ∀ fn args, (s.table.get e.value).op ≠ .call fn args) :
    e.own = [] := by
  obtain ⟨l, w₁, es, ts, w₂, -, -, hes, hlasts⟩ := he
  obtain ⟨_, _, _, _, -, hadds⟩ := hes.adds hlasts.mem
  exact hadds.plain hinstr hcall

theorem Retains.call {fn : ConstFn} {args : List ValueId} (he : Retains s c w e)
    (hop : (s.table.get e.value).op = .call fn args) :
    ∃ n, s.HasSize (s.table.get e.value) n ∧ Finds (s.table.get e.value) n fn e.operands e.term ∧
      e.own = findings (s.table.get e.value) n fn e.operands := by
  obtain ⟨l, w₁, es, ts, w₂, -, -, hes, hlasts⟩ := he
  exact hes.call hlasts.mem hop

theorem wrap_signCount_ne_zero {k m : Nat} (hk : 0 < k) : wrap k (signCount k m) ≠ 0 := by
  rw [wrap_of_lt ((signCount_le k m).trans_lt Nat.lt_two_pow_self)]
  exact (signCount_pos hk m).ne'

theorem Entry.countable_of_own {args : List ValueId} (he : Retains s c w e)
    (hop : (s.table.get e.value).op = .call .signBits args) (hown : holds env e.own = true) : e.Countable env := by
  obtain ⟨n, -, ⟨⟨a, ha⟩, hterm⟩, howns⟩ := he.call hop
  intro b hb hpos
  rw [ha, List.mem_singleton] at hb
  have hle : wrap n (signCount n ((foundVar (s.table.get e.value) n).num env)) ≤
      wrap n (signCount a.width (a.num env)) := by
    refine (eval_signBits_le_iff (foundVar (s.table.get e.value) n) a n).1 ?_
    simpa [howns, ha, findings, holds] using hown
  rw [hterm, Term.width_signBits] at hpos ⊢
  have hne := wrap_signCount_ne_zero (m := (foundVar (s.table.get e.value) n).num env) hpos
  rw [hb]
  omega

/-- **Analyses exclude no input.**  Let the instructions that a precondition asks about be defined, whatever the analyses
find.  If each count of sign bits can be held by its result without wrapping around to zero, there are findings for
the same inputs with which all holds that the precondition gives.  And this is needed: in an environment in which all
of it holds, no count wraps around to zero. -/
theorem findings_possible {c : Condition} {r : Requirement} (hnamed : CallsNamed s.table)
    (h : encodeCondition c s w = .ok (r, w')) (env : Env)
    (hdefined : ∀ e, Retains s c w e → (s.table.get e.value).op.isInstr = true →
      ∀ env', SameInputs env env' → holds env' e.own = true) :
    ((∀ e, Retains s c w e → (∃ args, (s.table.get e.value).op = .call .signBits args) →
        ∀ env', SameInputs env env' → e.Countable env') →
      ∃ env', SameInputs env env' ∧ holds env' r.given = true) ∧
    ∀ env', holds env' r.given = true → ∀ e, Retains s c w e →
      (∃ args, (s.table.get e.value).op = .call .signBits args) → e.Countable env' := by
  constructor
  · intro hcount
    -- Each condition holds in `nothingFound n env` as soon as `n` is large enough.
    have heventually : ∀ p ∈ r.given, ∀ᶠ n in Filter.atTop, p.eval (nothingFound n env) = true := by
      intro p hp
      obtain ⟨e, he, hpe⟩ | ⟨t, args, truth, rfl⟩ := mem_given_cases h hp
      · by_cases hop : ∃ fn args, (s.table.get e.value).op = .call fn args
        · obtain ⟨fn, args, hop⟩ := hop
          obtain ⟨k, -, hfinds, hown⟩ := he.call hop
          obtain ⟨rest, hname⟩ := hnamed e.value fn args hop
          filter_upwards [Filter.eventually_ge_atTop k] with n hn
          have hholds : holds (nothingFound n env) e.own = true := by
            rw [hown]
            refine holds_findings_nothingFound hname hn fun hfn a ha hpos => ?_
            subst hfn
            have hwidth : e.term.width = k := by rw [hfinds.2, Term.width_signBits]
            have := hcount e he ⟨args, hop⟩ _ (sameInputs_nothingFound n env) a ha (hwidth ▸ hpos)
            rwa [hwidth] at this
          exact List.all_eq_true.1 hholds p hpe
        · refine Filter.Eventually.of_forall fun n => ?_
          cases hinstr : (s.table.get e.value).op.isInstr with
          | true =>
            have hholds := hdefined e he hinstr _ (sameInputs_nothingFound n env)
            exact List.all_eq_true.1 hholds p hpe
          | false =>
            rw [he.own_eq_nil hinstr fun fn args hop' => hop ⟨fn, args, hop'⟩] at hpe
            cases hpe
      · refine Filter.Eventually.of_forall fun n => ?_
        have hhead : ((Condition.test t args).text s.table).toList.head? ≠ some 'C' := by
          cases t with
          | _ => simp [Condition.text, Test.text, String.toList_append]
        have hunset : ¬wrap 1 ((nothingFound n env).bits ("ana_" ++ (Condition.test t args).text s.table)) = 1 := by
          rw [nothingFound_other n env hhead, wrap_zero]
          decide
        rw [Formula.eval, Bool.eq_false_iff.2 ((eval_found_iff _).not.2 hunset)]
        rfl
    have hall : ∀ᶠ n in Filter.atTop, ∀ p ∈ r.given, p.eval (nothingFound n env) = true :=
      (Filter.eventually_all_finite (List.finite_toSet r.given)).2 heventually
    obtain ⟨n, hn⟩ := hall.exists
    exact ⟨_, sameInputs_nothingFound n env, List.all_eq_true.2 hn⟩
  · rintro env' hgiven e he ⟨args, hop⟩
    exact Entry.countable_of_own he hop (holds_of_subset (he.own_subset h) hgiven)

theorem callsNamed_byteTable : CallsNamed byteTable := by
  intro i fn args hop
  rcases i with _ | _ | _ | _ | i <;> cases hop
  all_goals exact ⟨"%x)", by decide⟩

/-- The theorem at `width(%x) u< ComputeNumSignBits(%x) && !isPowerOf2(%x)`: there are findings for every byte, since
eight bits can hold every count of sign bits of a byte. -/
theorem signBits_possible : ∃ r w',
    encodeCondition (.both [.compare .ult 1 3, .not (.test .isPowerOf2 [0])]) byteSetting ⟨.start, .none, 0⟩ =
      .ok (r, w') ∧ r.given.length = 2 ∧ ∀ env, ∃ env', SameInputs env env' ∧ holds env' r.given = true := by
  obtain ⟨⟨r, w'⟩, hr, hlength⟩ := exists_ok
    (x := encodeCondition (.both [.compare .ult 1 3, .not (.test .isPowerOf2 [0])]) byteSetting ⟨.start, .none, 0⟩)
    (fun r => r.1.given.length == 2) (by cbv)
  refine ⟨r, w', hr, by simpa using hlength, fun env => ?_⟩
  refine (findings_possible callsNamed_byteTable hr env fun e he hinstr => ?_).1 fun e he hop env' _ => ?_
  · have hnone : ∀ i, (byteTable.get i).op.isInstr = false := by
      intro i
      rcases i with _ | _ | _ | _ | i <;> rfl
    rw [show byteSetting.table = byteTable from rfl, hnone] at hinstr
    cases hinstr
  · obtain ⟨args, hop⟩ := hop
    obtain ⟨n, ⟨ty, hty, hsize⟩, ⟨-, hterm⟩, -⟩ := he.call hop
    obtain ⟨l, w₁, es, ts, w₂, -, -, hes, hlasts⟩ := he
    obtain ⟨v, es', v', _, hoperands, -⟩ := hes.adds hlasts.mem
    have hvalue : e.value = 3 := by
      revert hop
      generalize e.value = i
      intro hop
      rcases i with _ | _ | _ | _ | i <;> cases hop
      rfl
    rw [hvalue] at hty hoperands
    cases hty
    have hn : n = 8 := by
      have height : byteSetting.sizeOf ⟨"ComputeNumSignBits(%x)_2", .int (some 8)⟩ = .ok 8 := rfl
      rw [height] at hsize
      exact (Except.ok.inj hsize).symm
    refine countable_of_width fun a ha => ?_
    rw [hoperands.terms_eq encode_byte, List.mem_singleton] at ha
    rw [ha, hterm, Term.width_signBits, hn]
    decide

end Peephole.Encode
