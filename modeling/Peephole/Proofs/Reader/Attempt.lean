import Peephole.Proofs.Reader.Part

/-!
# Attempts

What a rule reads at a place, with the steps that it takes, from what its parts read there.  Each way to join rules
has a lemma for its success and one for its failure; failures here take no steps.

* `Rule.Takes`, `Rule.Misses` : what a rule does where its phrase would start.
* `chain_single`, `chain_several` : operands with operators between them, or without.
-/

namespace Peephole.Reader

open Peephole.Text

variable {ε α β : Type} {t : Chars} {live skipping : Bool} {p q e : Nat} {a : α} {S : List ε}

/-! ### Failures -/

/-- The reply is no match, and records no step. -/
structure Reply.Missed (r : Reply ε α) : Prop where
  steps : r.steps = []
  miss : r.isMatch = false

theorem Reply.Missed.andThen {r : Reply ε α} (h : r.Missed) (f : α → Nat → Reply ε β) : (r.andThen f).Missed := by
  obtain ⟨steps, outcome⟩ := r
  obtain ⟨rfl, hmiss⟩ := h
  cases outcome with
  | matched a q => cases hmiss
  | failed | overrun => exact ⟨rfl, rfl⟩

theorem Reply.Missed.closed {r : Reply ε α} (h : r.Missed) (message : String) : (r.closed t message).Missed := by
  obtain ⟨steps, outcome⟩ := r
  obtain ⟨rfl, hmiss⟩ := h
  cases outcome with
  | matched a q => cases hmiss
  | failed | overrun => exact ⟨rfl, rfl⟩

theorem Reply.Missed.ne_matched {r : Reply ε α} (h : r.Missed) : r.outcome ≠ .matched a e := by
  intro hr
  have hmiss := h.miss
  rw [Reply.isMatch, hr] at hmiss
  cases hmiss

theorem matched_andThen (S : List ε) (a : α) (e : Nat) (f : α → Nat → Reply ε β) :
    (⟨S, .matched a e⟩ : Reply ε α).andThen f = (f a e).after S := rfl

theorem Rule.Silent.missed {r : Rule ε α} (h : r.Silent)
    (hno : ∀ a e, (r.read t live skipping p).outcome ≠ .matched a e) : (r.read t live skipping p).Missed := by
  refine ⟨h.steps t live skipping p, Bool.eq_false_iff.2 fun hmatch => ?_⟩
  obtain ⟨a, e, hae⟩ := isMatch_iff.1 hmatch
  exact hno a e hae

/-! ### Alternatives -/

theorem tryAll_missed {r : Rule ε α} (h : (r.read t live true p).Missed) (rs : List (Rule ε α))
    (best : Option (Nat × String)) : ∃ best', Rule.tryAll t live p (r :: rs) best = Rule.tryAll t live p rs best' := by
  obtain ⟨hsteps, hmiss⟩ := h
  rw [Rule.tryAll]
  cases hr : (r.read t live true p).outcome with
  | matched a q => simp [Reply.isMatch, hr] at hmiss
  | failed | overrun => exact ⟨_, by rw [hsteps]; rfl⟩

theorem tryAll_matched {r : Rule ε α} (h : r.read t live true p = ⟨S, .matched a e⟩) (rs : List (Rule ε α))
    (best : Option (Nat × String)) : Rule.tryAll t live p (r :: rs) best = ⟨S, .matched a e⟩ := by
  rw [Rule.tryAll, h]

/-- The first rule that matches is taken. -/
theorem tryAll_takes {l m : List (Rule ε α)} {r : Rule ε α} (hl : ∀ r ∈ l, (r.read t live true p).Missed)
    (h : r.read t live true p = ⟨S, .matched a e⟩) (best : Option (Nat × String)) :
    Rule.tryAll t live p (l ++ r :: m) best = ⟨S, .matched a e⟩ := by
  induction l generalizing best with
  | nil => exact tryAll_matched h m best
  | cons r' l ih =>
    obtain ⟨hr', hl⟩ := List.forall_mem_cons.1 hl
    obtain ⟨best', hbest⟩ := tryAll_missed hr' (l ++ r :: m) best
    exact hbest.trans (ih hl best')

theorem tryAll_misses {rs : List (Rule ε α)} (hrs : ∀ r ∈ rs, (r.read t live true p).Missed)
    (best : Option (Nat × String)) : (Rule.tryAll t live p rs best).Missed := by
  induction rs generalizing best with
  | nil => cases best <;> exact ⟨rfl, rfl⟩
  | cons r rs ih =>
    obtain ⟨hr, hrs⟩ := List.forall_mem_cons.1 hrs
    obtain ⟨best', hbest⟩ := tryAll_missed hr rs best
    rw [hbest]
    exact ih hrs best'

/-! ### Phrases -/

theorem bind_takes {s : Scan ε α} {f : α → Scan ε β} {S' : List ε} {b : β} {n : Nat}
    (h : s t live p = ⟨S, .matched a e⟩) (hf : f a t live e = ⟨S', .matched b n⟩) :
    (s >>= f) t live p = ⟨S ++ S', .matched b n⟩ := by
  change (s t live p).andThen _ = _
  rw [h, matched_andThen, hf]
  rfl

theorem phrase_takes {body : Scan ε α} {blanks : List Char}
    (h : body t live (Rule.start blanks t skipping p) = ⟨S, .matched a e⟩) :
    (Rule.phrase blanks body).read t live skipping p = ⟨S, .matched a e⟩ := by
  change (body t live _).closed t "" = _
  rw [h]
  rfl

/-- The first place from `p` on that is not a blank of the line. -/
abbrev skip (t : Chars) (p : Nat) : Nat := skipBlanks lineBlanks t p

/-- There is no blank at the place. -/
def Solid (t : Chars) (q : Nat) : Prop := skip t q = q

theorem le_skip (t : Chars) (p : Nat) : p ≤ skip t p := le_skipBlanks lineBlanks t p

theorem Solid.start (h : Solid t q) (hp : Rule.start lineBlanks t skipping p = q) :
    Rule.start lineBlanks t true p = q := by
  cases skipping with
  | true => exact hp
  | false => rwa [show p = q from hp]

/-- Where the rule's phrase starts at `q`, it reads the value up to `e` and takes the steps. -/
def Rule.Takes (r : Rule ε α) (t : Chars) (live : Bool) (q : Nat) (S : List ε) (a : α) (e : Nat) : Prop :=
  ∀ skipping p, Rule.start lineBlanks t skipping p = q → r.read t live skipping p = ⟨S, .matched a e⟩

/-- Where its phrase would start at `q`, the rule does not match and takes no step. -/
def Rule.Misses (r : Rule ε α) (t : Chars) (q : Nat) : Prop :=
  ∀ live skipping p, Rule.start lineBlanks t skipping p = q → (r.read t live skipping p).Missed

section Rules

variable {r : Rule ε α}

theorem Rule.Takes.map (h : r.Takes t live q S a e) (f : α → β) : (r.map f).Takes t live q S (f a) e := by
  intro skipping p hp
  change (r.read t live skipping p).andThen _ = _
  rw [h skipping p hp, matched_andThen, Reply.after, List.append_nil]

theorem Rule.Misses.map (h : r.Misses t q) (f : α → β) : (r.map f).Misses t q :=
  fun live skipping p hp => (h live skipping p hp).andThen _

theorem located_takes (hq : Solid t q) (h : r.Takes t live q S a e) :
    (Rule.located lineBlanks r).Takes t live q S (q, a) e := by
  intro skipping p hp
  refine phrase_takes ?_
  rw [hp, h true q hq, matched_andThen, Reply.after, List.append_nil]

theorem located_misses (hq : Solid t q) (h : r.Misses t q) : (Rule.located lineBlanks r).Misses t q := by
  intro live skipping p hp
  change Reply.Missed (Reply.closed t "" _)
  rw [hp]
  exact ((h live true q hq).andThen _).closed ""

theorem firstOf_takes (hq : Solid t q) {l m : List (Rule ε α)} (hl : ∀ r ∈ l, r.Misses t q)
    (h : r.Takes t live q S a e) : (Rule.firstOf (l ++ r :: m)).Takes t live q S a e :=
  fun _ p hp => tryAll_takes (fun r hr => hl r hr live true p (hq.start hp)) (h true p (hq.start hp)) none

theorem firstOf_misses (hq : Solid t q) {rs : List (Rule ε α)} (hrs : ∀ r ∈ rs, r.Misses t q) :
    (Rule.firstOf rs).Misses t q :=
  fun live _ p hp => tryAll_misses (fun r hr => hrs r hr live true p (hq.start hp)) none

theorem pattern_takes {name : String} {scan : Chars → Nat → Option Nat} (hq : q ≤ t.size) (h : scan t q = some e) :
    (Rule.pattern lineBlanks name scan : Rule ε String).Takes t live q [] (slice t q e) e := by
  intro skipping p hp
  simp only [Rule.pattern, hp, Nat.min_eq_left hq, h]

theorem pattern_misses {name : String} {scan : Chars → Nat → Option Nat} (hq : q ≤ t.size) (h : scan t q = none) :
    (Rule.pattern lineBlanks name scan : Rule ε String).Misses t q := by
  intro live skipping p hp
  simp only [Rule.pattern, hp, Nat.min_eq_left hq, h]
  exact ⟨rfl, rfl⟩

theorem oneOf_misses {name : String} {words : List String} (hq : q ≤ t.size)
    (h : ∀ w ∈ words, ¬WordAt t q w.toList) : (oneOf lineBlanks name words).Misses t q := by
  refine pattern_misses hq ?_
  rw [Option.map_eq_none_iff, List.find?_eq_none]
  intro w hw hfound
  exact h w hw (slice_eq_iff.1 (by simpa [hasWord] using hfound))

theorem punctuation_takes {blanks : List Char} {w : String} {c : Char} {cs : List Char} (hw : w.toList = c :: cs)
    (h : WordAt t (Rule.start blanks t skipping p) w.toList) :
    (Rule.punctuation blanks w : Rule ε Unit).read t live skipping p =
      ⟨[], .matched () (Rule.start blanks t skipping p + w.length)⟩ := by
  have hlt : Rule.start blanks t skipping p < t.size := (hw ▸ h).lt_size
  simp only [Rule.punctuation, Rule.literal, start_false, if_pos hlt, slice_eq_iff.2 h, if_true]
  rfl

theorem punctuation_misses {blanks : List Char} {w : String} {c : Char} {cs : List Char} (hw : w.toList = c :: cs)
    (h : ¬WordAt t (Rule.start blanks t skipping p) w.toList) :
    ((Rule.punctuation blanks w : Rule ε Unit).read t live skipping p).Missed := by
  have hmiss : ((Rule.literal blanks w : Rule ε String).read t live false (Rule.start blanks t skipping p)).Missed :=
    (silent_literal w).missed fun _ _ hae => h ((literal_matched hw).1 hae).1
  exact hmiss.andThen _

theorem repeated_missed (h : (r.read t live true p).Missed) (fuel : Nat) :
    Rule.repeated r t live fuel p = ⟨[], .matched [] p⟩ := by
  obtain ⟨hsteps, hmiss⟩ := h
  cases fuel with
  | zero => rfl
  | succ fuel =>
    rw [Rule.repeated]
    cases hr : (r.read t live true p).outcome with
    | matched a q => simp [Reply.isMatch, hr] at hmiss
    | failed | overrun => simp only [hsteps]

theorem repeated_matched {fuel n : Nat} {S' : List ε} {as : List α} (h : r.read t live true p = ⟨S, .matched a e⟩)
    (hrest : Rule.repeated r t live fuel e = ⟨S', .matched as n⟩) :
    Rule.repeated r t live (fuel + 1) p = ⟨S ++ S', .matched (a :: as) n⟩ := by
  rw [Rule.repeated]
  simp only [h, hrest]

/-- A repetition that is not empty starts with a match. -/
theorem repeated_cons {fuel n : Nat} {as : List α} (h : Rule.repeated r t live (fuel + 1) p = ⟨S, .matched (a :: as) n⟩) :
    ∃ e S₁ S₂, r.read t live true p = ⟨S₁, .matched a e⟩ ∧ Rule.repeated r t live fuel e = ⟨S₂, .matched as n⟩ ∧
      S = S₁ ++ S₂ := by
  rw [Rule.repeated] at h
  dsimp only at h
  split at h
  · next q hmatch =>
    obtain ⟨bs, m, hrest⟩ : ∃ bs m, (Rule.repeated r t live fuel q).outcome = .matched bs m := repeated_matches
    simp only [hrest, Reply.mk.injEq, Outcome.matched.injEq, List.cons.injEq] at h
    obtain ⟨rfl, ⟨rfl, rfl⟩, rfl⟩ := h
    exact ⟨q, _, _, by rw [← hmatch], by rw [← hrest], rfl⟩
  · cases h

/-! ### Operators -/

def Rule.pair (op : Rule ε β) (operand : Rule ε α) : Rule ε (β × α) := .phrase [] fun t live p =>
  (op.read t live true p).andThen fun o q =>
    (operand.read t live true q).andThen fun a e => ⟨[], .matched (o, a) e⟩

variable {op : Rule ε β} {close : Nat → α → List (β × α) → ε × α} {a' : α} {b b' : β × α}

theorem pair_takes {o : β} {q' n : Nat} {S' : List ε} (hop : op.Takes t live q S o e)
    (hr : r.Takes t live q' S' a n) (hp : skip t p = q) (he : skip t e = q') :
    (Rule.pair op r).read t live skipping p = ⟨S ++ S', .matched (o, a) n⟩ := by
  have hstart : Rule.start [] t skipping p = p := by cases skipping <;> simp
  refine phrase_takes ?_
  rw [hstart, hop true p hp, matched_andThen, hr true e he, matched_andThen, Reply.after, Reply.after, List.append_nil]

theorem many1_pair {bs : List (β × α)} (h : Rule.repeated (Rule.pair op r) t live (t.size + 3) p = ⟨S, .matched (b :: bs) e⟩) :
    (Rule.many1 [] (Rule.pair op r)).read t live true p = ⟨S, .matched (b :: bs) e⟩ := by
  obtain ⟨n, S₁, S₂, hfirst, hrest, rfl⟩ := repeated_cons h
  change ((Rule.pair op r).read t live true _).andThen _ = _
  rw [hfirst, matched_andThen, hrest, matched_andThen, Reply.after, Reply.after, List.append_nil]

theorem chain_single (hq : Solid t q) (h : r.Takes t true q S a e) (h' : r.Takes t false q [] a' e)
    (hpair : ∀ live, ((Rule.pair op r).read t live true e).Missed) :
    (Rule.chain lineBlanks r op close).Takes t true q S a e ∧
      (Rule.chain lineBlanks r op close).Takes t false q [] a' e := by
  constructor
  · intro skipping p hp
    simp only [Rule.chain, hp, if_true]
    refine tryAll_takes (l := [_]) (m := []) (List.forall_mem_singleton.2 ?_) (h true q hq) none
    change (((r.read t false false q).andThen _).andThen _).Missed
    rw [h' false q rfl]
    exact (((hpair false).closed "").andThen _).andThen _
  · intro skipping p hp
    simp only [Rule.chain, hp]
    rw [if_neg (by decide), h' false q rfl, matched_andThen]
    split
    · next hmatch =>
      exact (((hpair false).andThen _).ne_matched hmatch).elim
    · rfl

theorem chain_several {e₁ : Nat} {S' : List ε} {bs bs' : List (β × α)} (h : r.Takes t true q S a e₁)
    (h' : r.Takes t false q [] a' e₁)
    (hrest : Rule.repeated (Rule.pair op r) t true (t.size + 3) e₁ = ⟨S', .matched (b :: bs) e⟩)
    (hrest' : Rule.repeated (Rule.pair op r) t false (t.size + 3) e₁ = ⟨[], .matched (b' :: bs') e⟩) :
    (Rule.chain lineBlanks r op close).Takes t true q (S ++ S' ++ [(close q a (b :: bs)).1]) (close q a (b :: bs)).2 e ∧
      (Rule.chain lineBlanks r op close).Takes t false q [] a' e := by
  obtain ⟨e₂, S₁, S₂, hfirst', -, hsteps⟩ := repeated_cons hrest'
  obtain ⟨rfl, rfl⟩ := List.append_eq_nil_iff.1 hsteps.symm
  have hmany : (Rule.many1 [] (Rule.pair op r)).read t true true e₁ = ⟨S', .matched (b :: bs) e⟩ := many1_pair hrest
  have hmany' : (Rule.many1 [] (Rule.pair op r)).read t false true e₁ = ⟨[], .matched (b' :: bs') e⟩ := many1_pair hrest'
  constructor
  · intro skipping p hp
    simp only [Rule.chain, hp, if_true]
    refine tryAll_matched ?_ _ none
    change ((r.read t false false q).andThen fun a e => (((Rule.pair op r).read t false true e).closed t "").andThen
      fun _ e => ⟨[], .matched a e⟩).andThen (fun _ _ => (r.read t true false q).andThen fun a e =>
        ((Rule.many1 [] (Rule.pair op r)).read t true true e).andThen fun bs e =>
          ⟨[(close q a bs).1], .matched (close q a bs).2 e⟩) = _
    rw [h' false q rfl, matched_andThen, hfirst', h false q rfl, matched_andThen, hmany, matched_andThen]
    simp only [Reply.closed, Reply.andThen, Reply.after, List.nil_append, List.append_assoc]
  · intro skipping p hp
    simp only [Rule.chain, hp]
    rw [if_neg (by decide), h' false q rfl, matched_andThen]
    split
    · next hmatch =>
      cases (congrArg Reply.outcome hmany').symm.trans hmatch
      rfl
    · next hno => exact (hno _ _ (congrArg Reply.outcome hmany')).elim

theorem chain_misses (hq : Solid t q) (h : r.Misses t q) : (Rule.chain lineBlanks r op close).Misses t q := by
  intro live skipping p hp
  simp only [Rule.chain, hp]
  cases live with
  | false => exact (h false false q rfl).andThen _
  | true =>
    refine tryAll_misses (List.forall_mem_cons.2 ⟨?_, List.forall_mem_singleton.2 (h true true q hq)⟩) none
    exact ((h false false q rfl).andThen _).andThen _

end Rules

/-! ### Characters -/

variable {d : Char}

theorem solid_of_char (hd : t[q]? = some d) (h : lineBlanks.contains d = false) : Solid t q := by
  refine run_eq ⟨Nat.le_refl q, fun _ hj hlt => absurd hlt (Nat.not_lt.2 hj), fun d' hd' => ?_⟩
  rwa [← Option.some.inj (hd.symm.trans hd')]

theorem solid_skip (t : Chars) (p : Nat) : Solid t (skip t p) :=
  run_eq ⟨Nat.le_refl _, fun _ hj hlt => absurd hlt (Nat.not_lt.2 hj), (isRun_run _ t p).stop⟩

theorem run1_none {cls : Char → Bool} (h : ∀ d, t[q]? = some d → cls d = false) : run1 cls t q = none := by
  have hrun : run cls t q = q := run_eq ⟨Nat.le_refl q, fun _ hj hlt => absurd hlt (Nat.not_lt.2 hj), h⟩
  simp only [run1, hrun]
  exact if_neg (Nat.lt_irrefl q)

theorem lineBlank_iff : lineBlanks.contains d = true ↔ d = ' ' ∨ d = '\t' ∨ d = '\r' := by
  simp [lineBlanks]

theorem lineBlank_of_digit (h : isDigit d = true) : lineBlanks.contains d = false := by
  rw [Bool.eq_false_iff, ne_eq, lineBlank_iff]
  rintro (rfl | rfl | rfl) <;> revert h <;> decide

theorem name_of_lineBlank (h : lineBlanks.contains d = true) : isNameChar d = false := by
  rcases lineBlank_iff.1 h with rfl | rfl | rfl <;> decide

/-- Two words differ at a place that both have. -/
def clash : List Char → List Char → Bool
  | c :: cs, d :: ds => c != d || clash cs ds
  | _, _ => false

theorem not_wordAt_of_clash {cs ds : List Char} (h : WordAt t q cs) (hclash : clash cs ds = true) :
    ¬WordAt t q ds := by
  intro h'
  induction cs generalizing q ds with
  | nil => simp [clash] at hclash
  | cons c cs ih =>
    cases ds with
    | nil => simp [clash] at hclash
    | cons d ds =>
      obtain rfl : c = d := Option.some.inj ((h 0 c rfl).symm.trans (h' 0 d rfl))
      have htail : ∀ {cs}, WordAt t q (c :: cs) → WordAt t (q + 1) cs := by
        intro cs h i d hd
        rw [Nat.add_assoc, Nat.add_comm 1]
        exact h (i + 1) d (by simpa using hd)
      exact ih (htail h) (by simpa [clash] using hclash) (htail h')

theorem skip_all (hd : t[skip t e]? = some d) (h : allBlanks.contains d = false) :
    skipBlanks allBlanks t e = skip t e := by
  have hrun : IsRun lineBlanks.contains t e (skip t e) := isRun_run _ t e
  refine run_eq ⟨hrun.le, fun j hj hlt => ?_, fun d' hd' => ?_⟩
  · obtain ⟨c, hc, hblank⟩ := hrun.inside j hj hlt
    refine ⟨c, hc, ?_⟩
    rcases lineBlank_iff.1 hblank with rfl | rfl | rfl <;> decide
  · rwa [← Option.some.inj (hd.symm.trans hd')]

theorem wordAt_char (h : t[q]? = some d) : WordAt t q [d] := by
  intro i c hc
  obtain ⟨hi, rfl⟩ := List.getElem?_eq_some_iff.1 hc
  obtain rfl : i = 0 := Nat.lt_one_iff.1 hi
  exact h

/-! ### Operands -/

section Operands

variable {self expr : Rule Step Operand}

/-- No operand starts at the place. -/
def NoOperand (t : Chars) (q : Nat) : Prop :=
  ∀ c, t[q]? = some c → isNameChar c = false ∧ isDigit c = false ∧ c ∉ ['~', '-', '(', '%', '\n']

theorem functionCall_misses (hq : q ≤ t.size)
    (h : ∀ r, run1 isNameChar t q = some r → t[skip t r]? ≠ some '(') :
    (functionCall expr).Misses t q := by
  intro live skipping p hp
  refine Reply.Missed.andThen (Reply.Missed.closed ?_ "") _
  rw [hp]
  cases hrun : run1 isNameChar t q with
  | none => exact (pattern_misses hq hrun live false q rfl).andThen _
  | some r =>
    have hname : identifier.read t live false q = ⟨[], .matched (slice t q r) r⟩ := pattern_takes hq hrun false q rfl
    change ((identifier.read t live false q).andThen _).Missed
    rw [hname, matched_andThen]
    refine Reply.Missed.andThen (punctuation_misses (c := '(') rfl fun hword => ?_) _
    exact h r hrun (hword 0 '(' rfl)

theorem constantAtom_takes (hq : Solid t q) (hlt : q < t.size)
    (hcall : ∀ r, run1 isNameChar t q = some r → t[skip t r]? ≠ some '(')
    (hatom : atomEnd t q = some e) : (constantAtom expr).Takes t live q [] (.word q (slice t q e)) e := by
  refine Rule.Takes.map (a := (q, fun p => Operand.word p (slice t q e)))
    (located_takes hq (firstOf_takes (l := [_]) hq ?_ ?_)) _
  · exact List.forall_mem_singleton.2 ((functionCall_misses hlt.le hcall).map _)
  · exact (pattern_takes hlt.le hatom).map _

theorem constantAtom_misses (hq : q ≤ t.size) (hsolid : Solid t q)
    (h : ∀ d, t[q]? = some d → isNameChar d = false ∧ isDigit d = false ∧ d ≠ '-' ∧ d ≠ '%') :
    (constantAtom expr).Misses t q := by
  have hname : run1 isNameChar t q = none := run1_none fun d hd => (h d hd).1
  refine (located_misses hsolid (firstOf_misses hsolid ?_)).map _
  simp only [List.forall_mem_cons, List.not_mem_nil, false_imp_iff, implies_true, and_true]
  refine ⟨(functionCall_misses hq (by simp [hname])).map _, (pattern_misses hq ?_).map _,
    (oneOf_misses hq fun w hw hword => ?_).map _⟩
  · simp only [atomEnd]
    split
    · next hd => exact absurd (h _ hd).1 (by decide)
    · next hd => exact ((h _ hd).2.2.1 rfl).elim
    · next hd => exact ((h _ hd).2.2.2 rfl).elim
    · exact run1_none fun d hd => (h d hd).2.1
  · have hhead : ∃ d cs, w.toList = d :: cs ∧ isNameChar d = true := by
      revert hw
      simp only [List.mem_cons, List.not_mem_nil, or_false]
      rintro (rfl | rfl | rfl) <;> exact ⟨_, _, rfl, by decide⟩
    obtain ⟨d, cs, hd, hname⟩ := hhead
    rw [(h d ((hd ▸ hword) 0 d rfl)).1] at hname
    cases hname

theorem negationEnd_none (h : ∀ d, t[q]? = some d → d ≠ '~' ∧ d ≠ '-') : negationEnd t q = none := by
  simp only [negationEnd]
  split
  · next hd => exact ((h _ hd).1 rfl).elim
  · next hd => exact ((h _ hd).2 rfl).elim
  · rfl

theorem negated_missed {close : Nat → String → Operand → Step × Operand} {name : String} {skipping : Bool}
    (hq : q ≤ t.size) (h : negationEnd t q = none) :
    ((Rule.prefixed (.pattern lineBlanks name negationEnd) self close).read t live skipping q).Missed := by
  have hop : ((Rule.pattern lineBlanks name negationEnd : Rule Step String).read t false false q).Missed :=
    pattern_misses hq h false false q rfl
  cases live with
  | false | true => exact (hop.andThen _).andThen _

theorem constantUnary_misses (hq : q ≤ t.size) (hsolid : Solid t q) (h : NoOperand t q) :
    (constantUnary self expr).Misses t q := by
  simp only [NoOperand, List.mem_cons, List.not_mem_nil, or_false, not_or] at h
  rintro live skipping p rfl
  refine tryAll_misses ?_ none
  simp only [List.forall_mem_cons, List.not_mem_nil, false_imp_iff, implies_true, and_true]
  refine ⟨negated_missed hq (negationEnd_none ?_), constantAtom_misses hq hsolid ?_ live true _ hsolid, ?_⟩
  · exact fun d hd => ⟨(h d hd).2.2.1, (h d hd).2.2.2.1⟩
  · exact fun d hd => ⟨(h d hd).1, (h d hd).2.1, (h d hd).2.2.2.1, (h d hd).2.2.2.2.2.1⟩
  · refine Reply.Missed.closed (Reply.Missed.andThen (punctuation_misses (c := '(') rfl ?_) _) ""
    have hstop : ∀ d, t[Rule.start lineBlanks t skipping p]? = some d → allBlanks.contains d = false := by
      intro d hd
      have hline := (isRun_run lineBlanks.contains t _).stop d ((congrArg (t[·]?) hsolid).trans hd)
      have hbreak := (h d hd).2.2.2.2.2.2
      simp only [lineBlanks, allBlanks, List.contains_eq_mem, List.mem_cons, List.not_mem_nil, or_false, not_or,
        decide_eq_false_iff_not] at hline ⊢
      exact ⟨hline.1, hbreak, hline.2⟩
    rw [start_false, start_true, skip_of_stop (List.Subset.refl _) hstop]
    exact fun hword => (h '(' (hword 0 '(' rfl)).2.2.2.2.1 rfl

theorem constantUnary_atom (hsolid : Solid t q) (hlt : q < t.size) (hneg : negationEnd t q = none)
    (hcall : ∀ r, run1 isNameChar t q = some r → t[skip t r]? ≠ some '(')
    (hatom : atomEnd t q = some e) : (constantUnary self expr).Takes t live q [] (.word q (slice t q e)) e := by
  rintro skipping p rfl
  exact tryAll_takes (l := [_]) (List.forall_mem_singleton.2 (negated_missed hlt.le hneg))
    (constantAtom_takes hsolid hlt hcall hatom true _ hsolid) none

theorem constantUnary_prefix {S : List Step} {a a' : Operand} {w : String} (expr : Rule Step Operand) (hlt : q < t.size)
    (hneg : negationEnd t q = some (q + 1)) (hw : slice t q (q + 1) = w)
    (h : self.Takes t true (skip t (q + 1)) S a e)
    (h' : self.Takes t false (skip t (q + 1)) [] a' e) :
    (constantUnary self expr).Takes t true q (S ++ [⟨⟨.negation, q, true⟩, none, .negation w a⟩])
      (.expr ⟨.negation, q, true⟩) e ∧ (constantUnary self expr).Takes t false q [] a' e := by
  have hop : ∀ live, (Rule.pattern lineBlanks "Re:('~|-(?!\\\\s*\\\\d)')" negationEnd : Rule Step String).read t live
      false q = ⟨[], .matched w (q + 1)⟩ := fun live => hw ▸ pattern_takes hlt.le hneg false q rfl
  constructor
  · rintro skipping p rfl
    refine tryAll_matched ?_ _ none
    simp only [Rule.prefixed, hop, matched_andThen, h' true _ rfl, h true _ rfl, Reply.after, if_true,
      List.nil_append, List.append_nil]
  · rintro skipping p rfl
    refine tryAll_matched ?_ _ none
    simp only [Rule.prefixed, hop, matched_andThen, h' true _ rfl, Reply.after, if_false, List.nil_append,
      Bool.false_eq_true]

theorem constantUnary_group {S : List Step} {a : Operand} (hopen : t[q]? = some '(')
    (hclose : t[skip t e]? = some ')')
    (h : expr.Takes t live (skip t (q + 1)) S a e) :
    (constantUnary self expr).Takes t live q S a (skip t e + 1) := by
  have hlt := (Array.getElem?_eq_some_iff.1 hopen).1
  have hsolid : Solid t q := solid_of_char hopen (by decide)
  have hleft : skipBlanks allBlanks t q = q := (skip_all (hsolid ▸ hopen) (by decide)).trans hsolid
  have hright := skip_all hclose (by decide)
  have hfirst : (Rule.punctuation allBlanks "(" : Rule Step Unit).first t live q = ⟨[], .matched () (q + 1)⟩ :=
    punctuation_takes (c := '(') rfl (wordAt_char hopen)
  have hlast : (Rule.punctuation allBlanks ")" : Rule Step Unit).next t live e =
      ⟨[], .matched () (skip t e + 1)⟩ := by
    rw [← hright] at hclose ⊢
    exact punctuation_takes (c := ')') rfl (wordAt_char hclose)
  have hparen : (parenthesized expr).read t live true q = ⟨S, .matched a (skip t e + 1)⟩ := by
    refine phrase_takes ?_
    rw [start_true, hleft]
    refine bind_takes (S := []) hfirst ?_
    change (expr.read t live true (q + 1)).andThen (fun a e =>
      ((Rule.punctuation allBlanks ")" : Rule Step Unit).next t live e).andThen fun _ e => ⟨[], .matched a e⟩) = _
    rw [h true (q + 1) rfl, matched_andThen, hlast, matched_andThen, Reply.after, Reply.after, List.append_nil,
      List.append_nil]
  rintro skipping p rfl
  refine tryAll_takes (l := [_, _]) (m := []) ?_ hparen none
  simp only [List.forall_mem_cons, List.not_mem_nil, false_imp_iff, implies_true, and_true]
  refine ⟨negated_missed hlt.le ?_, constantAtom_misses hlt.le hsolid ?_ live true _ hsolid⟩
  · refine negationEnd_none fun d hd => ?_
    obtain rfl := Option.some.inj (hd.symm.trans hopen)
    decide
  · intro d hd
    obtain rfl := Option.some.inj (hd.symm.trans hopen)
    decide

end Operands

end Peephole.Reader
