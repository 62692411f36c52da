import Mathlib
import Peephole.Reader.File

/-!
# Parts of a file

What an optimization is read from does not go beyond the place where the next one starts.  So it is read in the same
way from its part of the text alone.

* `Reads` : an optimization is read from a place to another, said in terms of characters; `optimizationParts_matched` :
  the rule reads nothing else.
* `Reads.cut` : **an optimization is read in the same way from a part of the text, if the part ends at the end of the
  text or where the target ends.**
* `ReadsAll`, `readFile_of_reads` : a file is read as one optimization after another.
* `CutFor.readFile` : the part of an optimization is a file with this optimization only.
-/

namespace Peephole.Reader

open Peephole.Text

variable {ε α β : Type} {t t' : Chars} {live skipping : Bool} {e n p q : Nat} {w : String} {blanks : List Char}

/-! ### Runs and words -/

/-- The characters from `p` up to `q` are in a class, and the one at `q` is not. -/
structure IsRun (cls : Char → Bool) (t : Chars) (p q : Nat) : Prop where
  le : p ≤ q
  inside : ∀ j, p ≤ j → j < q → ∃ c, t[j]? = some c ∧ cls c = true
  stop : ∀ c, t[q]? = some c → cls c = false

theorem isRun_runEnd (cls : Char → Bool) (t : Chars) (n p : Nat) (h : t.size ≤ p + n) :
    IsRun cls t p (runEnd cls t n p) := by
  induction n generalizing p with
  | zero =>
    refine ⟨Nat.le_refl p, fun j hj hlt => absurd hlt (Nat.not_lt.2 hj), fun c hc => ?_⟩
    have := (Array.getElem?_eq_some_iff.1 hc).1
    simp only [runEnd] at this
    omega
  | succ n ih =>
    rw [runEnd]
    cases hp : t[p]? with
    | none => exact ⟨Nat.le_refl p, fun j hj hlt => absurd hlt (Nat.not_lt.2 hj), fun c hc => by simp [hp] at hc⟩
    | some c =>
      dsimp only
      split
      · next hcls =>
        have hrest := ih (p + 1) (by omega)
        refine ⟨Nat.le_of_succ_le hrest.le, fun j hj hlt => ?_, hrest.stop⟩
        rcases Nat.eq_or_lt_of_le hj with rfl | hj
        · exact ⟨c, hp, hcls⟩
        · exact hrest.inside j hj hlt
      · next hcls =>
        refine ⟨Nat.le_refl p, fun j hj hlt => absurd hlt (Nat.not_lt.2 hj), fun d hd => ?_⟩
        obtain rfl := Option.some.inj (hp.symm.trans hd)
        simpa using hcls

theorem isRun_run (cls : Char → Bool) (t : Chars) (p : Nat) : IsRun cls t p (run cls t p) :=
  isRun_runEnd cls t _ p (by omega)

theorem IsRun.unique {cls : Char → Bool} {q' : Nat} (h : IsRun cls t p q) (h' : IsRun cls t p q') : q = q' := by
  -- At the end of the shorter run stands a character that is in the class and is not.
  have hle : ∀ {q q'}, IsRun cls t p q → IsRun cls t p q' → q' ≤ q := by
    intro q q' h h'
    by_contra hlt
    obtain ⟨c, hc, hcls⟩ := h'.inside q h.le (by omega)
    rw [h.stop c hc] at hcls
    cases hcls
  exact Nat.le_antisymm (hle h' h) (hle h h')

theorem run_eq {cls : Char → Bool} (h : IsRun cls t p q) : run cls t p = q := (isRun_run cls t p).unique h

def WordAt (t : Chars) (q : Nat) (w : List Char) : Prop := ∀ i c, w[i]? = some c → t[q + i]? = some c

theorem getElem?_cut {a b : Nat} (j : Nat) : (t.extract a b)[j]? = if a + j < b then t[a + j]? else none := by
  rw [Array.getElem?_extract]
  split_ifs with h₁ h₂ h₂
  · rfl
  · omega
  · exact (Array.getElem?_eq_none (by omega)).symm
  · rfl

theorem getElem?_slice (t : Chars) (p q i : Nat) :
    (slice t p q).toList[i]? = if p + i < q then t[p + i]? else none := by
  rw [slice, String.toList_ofList, Array.getElem?_toList, getElem?_cut]

theorem slice_eq_iff : slice t q (q + w.length) = w ↔ WordAt t q w.toList := by
  rw [← String.toList_inj]
  constructor
  · intro h i c hc
    rw [← h, getElem?_slice] at hc
    split at hc
    · exact hc
    · cases hc
  · intro h
    refine List.ext_getElem? fun i => ?_
    rw [getElem?_slice]
    cases hc : w.toList[i]? with
    | some c =>
      have hlt : i < w.toList.length := (List.getElem?_eq_some_iff.1 hc).1
      rw [String.length_toList] at hlt
      rw [if_pos (Nat.add_lt_add_left hlt q), h i c hc]
    | none =>
      have hle : w.toList.length ≤ i := List.getElem?_eq_none_iff.1 hc
      rw [String.length_toList] at hle
      rw [if_neg (by omega)]

theorem WordAt.lt_size {w : List Char} {c : Char} (h : WordAt t q (c :: w)) : q < t.size :=
  (Array.getElem?_eq_some_iff.1 (h 0 c rfl)).1

/-! ### Matches -/

section Matches

variable {p e : Nat} {blanks : List Char}

@[simp] theorem skipBlanks_nil (t : Chars) (p : Nat) : skipBlanks [] t p = p :=
  run_eq ⟨Nat.le_refl p, fun _ hj hlt => absurd hlt (Nat.not_lt.2 hj), fun _ _ => rfl⟩

@[simp] theorem start_true : Rule.start blanks t true p = skipBlanks blanks t p := rfl

@[simp] theorem start_false : Rule.start blanks t false p = p := rfl

theorem andThen_matched {r : Reply ε α} {f : α → Nat → Reply ε β} {b : β} :
    (r.andThen f).outcome = .matched b e ↔ ∃ a q, r.outcome = .matched a q ∧ (f a q).outcome = .matched b e := by
  unfold Reply.andThen
  cases r.outcome <;> simp

theorem bind_matched {s : Scan ε α} {f : α → Scan ε β} {b : β} : ((s >>= f) t live p).outcome = .matched b e ↔
    ∃ a q, (s t live p).outcome = .matched a q ∧ (f a t live q).outcome = .matched b e := andThen_matched

theorem pure_matched {a b : α} : ((pure a : Scan ε α) t live p).outcome = .matched b e ↔ b = a ∧ e = p := by
  show Outcome.matched a p = _ ↔ _
  rw [Outcome.matched.injEq, eq_comm, @eq_comm _ p]

theorem closed_matched {r : Reply ε α} {message : String} {a : α} :
    (r.closed t message).outcome = .matched a e ↔ r.outcome = .matched a e := by
  unfold Reply.closed
  cases h : r.outcome <;> simp [h]

theorem map_matched {r : Rule ε α} {f : α → β} {b : β} : ((r.map f).read t live skipping p).outcome = .matched b e ↔
    ∃ a, (r.read t live skipping p).outcome = .matched a e ∧ b = f a := by
  refine andThen_matched.trans ⟨?_, ?_⟩
  · rintro ⟨a, q, ha, hb⟩
    obtain ⟨rfl, rfl⟩ := Outcome.matched.inj hb
    exact ⟨a, ha, rfl⟩
  · rintro ⟨a, ha, rfl⟩
    exact ⟨a, e, ha, rfl⟩

theorem phrase_matched {body : Scan ε α} {a : α} :
    ((Rule.phrase blanks body).read t live skipping p).outcome = .matched a e ↔
      (body t live (Rule.start blanks t skipping p)).outcome = .matched a e := closed_matched

theorem literal_matched {v : String} {c : Char} {cs : List Char} (hw : w.toList = c :: cs) :
    ((Rule.literal blanks w : Rule ε String).read t live skipping p).outcome = .matched v e ↔
      WordAt t (Rule.start blanks t skipping p) w.toList ∧ v = w ∧ e = Rule.start blanks t skipping p + w.length := by
  unfold Rule.literal
  dsimp only
  generalize Rule.start blanks t skipping p = q
  by_cases hword : WordAt t q w.toList
  · rw [if_pos (hw ▸ hword).lt_size, if_pos (slice_eq_iff.2 hword)]
    simp [hword, eq_comm]
  · simp only [hword, false_and, iff_false]
    rw [← slice_eq_iff] at hword
    split_ifs <;> simp_all

theorem optional_matched {r : Rule ε α} {o : Option α} :
    ((Rule.optional blanks r).read t live skipping p).outcome = .matched o e ↔
      (∃ a, o = some a ∧ (r.read t live false (Rule.start blanks t skipping p)).outcome = .matched a e) ∨
      (o = none ∧ e = Rule.start blanks t skipping p ∧
        ∀ a e', (r.read t live false (Rule.start blanks t skipping p)).outcome ≠ .matched a e') := by
  unfold Rule.optional
  dsimp only
  generalize Rule.start blanks t skipping p = q
  cases h : (r.read t live false q).outcome with
  | matched a q' =>
    simp only [Outcome.matched.injEq, ne_eq, not_and]
    constructor
    · rintro ⟨rfl, rfl⟩
      exact .inl ⟨a, rfl, rfl, rfl⟩
    · rintro (⟨b, rfl, rfl, rfl⟩ | ⟨-, -, hno⟩)
      · exact ⟨rfl, rfl⟩
      · exact absurd rfl (hno a q' rfl)
  | failed | overrun => simp [eq_comm]

theorem isMatch_iff {r : Reply ε α} : r.isMatch = true ↔ ∃ a q, r.outcome = .matched a q := by
  unfold Reply.isMatch
  cases r.outcome <;> simp

theorem skipTo_matched {r : Rule ε α} {name v : String} :
    ((Rule.skipTo blanks name r).read t live skipping p).outcome = .matched v e ↔
      (Rule.start blanks t skipping p ≤ e ∧ e ≤ t.size ∧ (r.read t false false e).isMatch = true ∧
        ∀ j, Rule.start blanks t skipping p ≤ j → j < e → ¬(r.read t false false j).isMatch = true) ∧
      v = slice t (Rule.start blanks t skipping p) e := by
  unfold Rule.skipTo
  dsimp only
  generalize Rule.start blanks t skipping p = q
  cases hfind : (List.range' q (t.size + 1 - q)).find? fun e => (r.read t false false e).isMatch with
  | some k =>
    obtain ⟨hk, hmem, hfirst⟩ := List.find?_range'_eq_some.1 hfind
    have hrange := List.mem_range'_1.1 hmem
    simp only [Outcome.matched.injEq]
    constructor
    · rintro ⟨rfl, rfl⟩
      exact ⟨⟨hrange.1, by omega, hk, fun j hj hlt => by simpa using hfirst j hj hlt⟩, rfl⟩
    · rintro ⟨⟨hle, hsize, hmatch, hfirst'⟩, rfl⟩
      have hek : k = e := by
        rcases Nat.lt_trichotomy k e with hlt | heq | hlt
        · exact absurd hk (hfirst' k hrange.1 hlt)
        · exact heq
        · exact absurd hmatch (by simpa using hfirst e hle hlt)
      exact ⟨by rw [hek], hek⟩
  | none =>
    have hnone := List.find?_eq_none.1 hfind
    simp only [reduceCtorEq, false_iff]
    rintro ⟨⟨hle, hsize, hmatch, -⟩, -⟩
    exact hnone e (List.mem_range'_1.2 ⟨hle, by omega⟩) hmatch

theorem located_matched {r : Rule ε α} {v : Nat × α} :
    ((Rule.located blanks r).read t live skipping p).outcome = .matched v e ↔
      v.1 = Rule.start blanks t skipping p ∧ (r.read t live true v.1).outcome = .matched v.2 e := by
  refine phrase_matched.trans (andThen_matched.trans ⟨?_, ?_⟩)
  · rintro ⟨a, q, ha, hv⟩
    obtain ⟨rfl, rfl⟩ := Outcome.matched.inj hv
    exact ⟨rfl, ha⟩
  · rintro ⟨hplace, hr⟩
    rw [← hplace]
    exact ⟨v.2, e, hr, rfl⟩

theorem tryAll_isMatch {rs : List (Rule ε α)} {best : Option (Nat × String)} :
    (Rule.tryAll t live p rs best).isMatch = true ↔ ∃ r ∈ rs, (r.read t live true p).isMatch = true := by
  induction rs generalizing best with
  | nil => cases best <;> simp [Rule.tryAll, Reply.isMatch]
  | cons r rs ih =>
    have hafter : ∀ (steps : List ε) (r : Reply ε α), (r.after steps).isMatch = r.isMatch := fun _ _ => rfl
    rw [Rule.tryAll]
    dsimp only
    cases h : (r.read t live true p).outcome with
    | matched a q => simp [Reply.isMatch, h]
    | failed | overrun =>
      have hno : (r.read t live true p).isMatch = false := by simp [Reply.isMatch, h]
      simp only [hafter, ih, List.exists_mem_cons_iff, hno, Bool.false_eq_true, false_or]

end Matches

/-! ### Comments -/

theorem run_le_size {cls : Char → Bool} (h : p ≤ t.size) : run cls t p ≤ t.size := by
  by_contra hlt
  obtain ⟨c, hc, -⟩ := (isRun_run cls t p).inside t.size h (by omega)
  simp at hc

theorem le_skipBlanks (blanks : List Char) (t : Chars) (p : Nat) : p ≤ skipBlanks blanks t p := (isRun_run _ t p).le

/-- Behind all blanks there are no blanks of the line. -/
theorem skip_of_stop (hblanks : blanks ⊆ allBlanks)
    (hp : ∀ c, t[p]? = some c → allBlanks.contains c = false) : skipBlanks blanks t p = p := by
  refine run_eq ⟨Nat.le_refl p, fun j hj hlt => absurd hlt (Nat.not_lt.2 hj), fun c hc => ?_⟩
  have hnot := hp c hc
  simp only [List.contains_eq_mem, decide_eq_false_iff_not] at hnot ⊢
  exact fun hmem => hnot (hblanks hmem)

theorem skip_skip (hblanks : blanks ⊆ allBlanks) (t : Chars) (p : Nat) :
    skipBlanks blanks t (skipBlanks allBlanks t p) = skipBlanks allBlanks t p :=
  skip_of_stop hblanks (isRun_run _ t p).stop

def lineStopAt (t : Chars) (p : Nat) : Nat := run (· != '\n') t p

theorem le_lineStopAt (t : Chars) (p : Nat) : p ≤ lineStopAt t p := (isRun_run _ t p).le

/-- A comment stands at `p`, and blanks behind it. -/
def CommentAt (t : Chars) (p : Nat) : Prop :=
  WordAt t p [';'] ∧ lineStopAt t (p + 1) < skipBlanks allBlanks t (lineStopAt t (p + 1))

def behindComment (t : Chars) (p : Nat) : Nat := skipBlanks allBlanks t (lineStopAt t (p + 1))

/-- Comments stand from `p` up to `q`. -/
inductive Comments (t : Chars) : Nat → Nat → Prop
  | stop {p : Nat} (h : ¬CommentAt t p) : Comments t p p
  | step {p q : Nat} (h : CommentAt t p) (hrest : Comments t (behindComment t p) q) : Comments t p q

theorem lt_behindComment : p < behindComment t p :=
  Nat.lt_of_lt_of_le (le_lineStopAt t (p + 1)) (le_skipBlanks _ t _)

theorem Comments.le (h : Comments t p q) : p ≤ q := by
  induction h with
  | stop => exact Nat.le_refl _
  | step _ _ ih => exact Nat.le_trans (Nat.le_of_lt lt_behindComment) ih

theorem blankRun_matched {u : Unit} :
    ((Rule.blankRun blanks : Rule ε Unit).read t live skipping p).outcome = .matched u q ↔
      p < skipBlanks blanks t p ∧ q = skipBlanks blanks t p := by
  simp only [Rule.blankRun]
  split_ifs with h <;> simp [h, eq_comm]

theorem commentLine_matched {u : Unit} (hp : skipBlanks lineBlanks t p = p) :
    (commentLine.read t live skipping p).outcome = .matched u q ↔ CommentAt t p ∧ q = behindComment t p := by
  have hstart : Rule.start lineBlanks t skipping p = p := by cases skipping <;> simp [hp]
  have hlist : ";".toList = [';'] := rfl
  have hcomment : ∀ (u : Unit) q, ((comment : FileRule Unit).first t live p).outcome = .matched u q ↔
      WordAt t p [';'] ∧ q = lineStopAt t (p + 1) := by
    intro u q
    refine phrase_matched.trans ?_
    simp only [bind_matched, pure_matched, Rule.first, start_false, literal_matched hlist, Rule.next, Rule.pattern,
      start_true, skipBlanks_nil, Outcome.matched.injEq, hlist]
    constructor
    · rintro ⟨v, q₁, ⟨hword, -, rfl⟩, w, q₂, ⟨-, rfl⟩, -, rfl⟩
      exact ⟨hword, congrArg (run _ t) (Nat.min_eq_left hword.lt_size)⟩
    · rintro ⟨hword, rfl⟩
      exact ⟨_, _, ⟨hword, rfl, rfl⟩, _, _, ⟨rfl, rfl⟩, trivial,
        (congrArg (run _ t) (Nat.min_eq_left hword.lt_size)).symm⟩
  refine phrase_matched.trans ?_
  rw [hstart, bind_matched]
  simp only [hcomment, Rule.next, blankRun_matched]
  constructor
  · rintro ⟨-, _, ⟨hword, rfl⟩, hlt, rfl⟩
    exact ⟨⟨hword, hlt⟩, rfl⟩
  · rintro ⟨⟨hword, hlt⟩, rfl⟩
    exact ⟨(), _, ⟨hword, rfl⟩, hlt, rfl⟩

theorem repeated_matches {r : Rule ε α} {fuel : Nat} :
    ∃ as e, (Rule.repeated r t live fuel p).outcome = .matched as e := by
  cases fuel with
  | zero => exact ⟨[], p, rfl⟩
  | succ fuel =>
    rw [Rule.repeated]
    dsimp only
    split
    · split
      · exact ⟨_, _, rfl⟩
      · exact ⟨_, _, rfl⟩
    · exact ⟨_, _, rfl⟩

theorem comments_of_none (h : ¬CommentAt t p) : Comments t p q ↔ q = p := by
  constructor
  · intro hc
    cases hc with
    | stop => rfl
    | step hat => exact absurd hat h
  · rintro rfl
    exact .stop h

theorem comments_of_some (h : CommentAt t p) : Comments t p q ↔ Comments t (behindComment t p) q := by
  constructor
  · intro hc
    cases hc with
    | stop hno => exact absurd h hno
    | step _ hrest => exact hrest
  · exact .step h

/-- Comments are read to their end, as each of them has a character. -/
theorem repeated_commentLine {fuel : Nat} (hp : skipBlanks lineBlanks t p = p) (hfuel : t.size < p + fuel) :
    (∃ as, (Rule.repeated commentLine t live fuel p).outcome = .matched as q) ↔ Comments t p q := by
  induction fuel generalizing p with
  | zero =>
    have hno : ¬CommentAt t p := fun h => absurd h.1.lt_size (by omega)
    rw [comments_of_none hno]
    simp [Rule.repeated, eq_comm]
  | succ fuel ih =>
    rw [Rule.repeated]
    dsimp only
    by_cases hat : CommentAt t p
    · have hfirst := (@commentLine_matched t live true p _ () hp).2 ⟨hat, rfl⟩
      obtain ⟨as, e, hrest⟩ := @repeated_matches _ _ t live (behindComment t p) commentLine fuel
      have hlt := @lt_behindComment t p
      rw [comments_of_some hat, ← @ih (behindComment t p) (skip_skip (by decide) t _) (by omega)]
      simp [hfirst, hrest]
    · have hno : ∀ u e, (commentLine.read t live true p).outcome ≠ .matched u e :=
        fun u e h => hat ((commentLine_matched hp).1 h).1
      rw [comments_of_none hat]
      cases houtcome : (commentLine.read t live true p).outcome with
      | matched u e => exact absurd houtcome (hno u e)
      | failed | overrun => simp [eq_comm]

theorem many_commentLine (hp : skipBlanks lineBlanks t p = p) :
    (∃ as, ((Rule.many lineBlanks commentLine).next t live p).outcome = .matched as q) ↔ Comments t p q := by
  simp only [Rule.next, Rule.many, start_true, hp, Rule.many1, start_false]
  by_cases hat : CommentAt t p
  · have hfirst := (@commentLine_matched t live false p _ () hp).2 ⟨hat, rfl⟩
    obtain ⟨as, e, hrest⟩ := @repeated_matches _ _ t live (behindComment t p) commentLine (t.size + 2)
    have hskip : skipBlanks lineBlanks t (behindComment t p) = behindComment t p := skip_skip (by decide) t _
    rw [comments_of_some hat, ← @repeated_commentLine t live (behindComment t p) _ (t.size + 2) hskip (by omega)]
    simp [hfirst, hrest, Reply.andThen]
  · have hno : ∀ u e, (commentLine.read t live false p).outcome ≠ .matched u e :=
      fun u e h => hat ((commentLine_matched hp).1 h).1
    rw [comments_of_none hat]
    cases houtcome : (commentLine.read t live false p).outcome with
    | matched u e => exact absurd houtcome (hno u e)
    | failed | overrun => simp [Reply.andThen, houtcome, eq_comm]

theorem comments_matched {u : Unit} : (comments.read t live skipping p).outcome = .matched u q ↔
    Comments t (skipBlanks allBlanks t p) q := by
  have hstart : Rule.start [] t skipping p = p := by cases skipping <;> simp
  have hblanks : ∃ o, ((Rule.optional [] (.blankRun allBlanks : FileRule Unit)).first t live p).outcome =
      .matched o (skipBlanks allBlanks t p) := by
    simp only [Rule.first, optional_matched, blankRun_matched, start_false, ne_eq, not_and]
    by_cases hlt : p < skipBlanks allBlanks t p
    · exact ⟨some (), .inl ⟨(), rfl, hlt, trivial⟩⟩
    · have hle := le_skipBlanks allBlanks t p
      exact ⟨none, .inr ⟨rfl, by omega, fun _ _ h => absurd h hlt⟩⟩
  obtain ⟨o, hblanks⟩ := hblanks
  rw [← @many_commentLine t live _ _ (skip_skip (by decide) t p)]
  refine phrase_matched.trans ?_
  rw [hstart]
  simp only [bind_matched, hblanks, Outcome.matched.injEq, pure_matched]
  constructor
  · rintro ⟨_, _, ⟨rfl, rfl⟩, as, e, hmany, -, rfl⟩
    exact ⟨as, hmany⟩
  · rintro ⟨as, hmany⟩
    exact ⟨_, _, ⟨rfl, rfl⟩, as, q, hmany, trivial, rfl⟩

/-! ### Headers and programs -/

theorem restOfLine_matched {v : String} (hp : p ≤ t.size) : (restOfLine.read t live true p).outcome = .matched v e ↔
      e = lineStopAt t (skipBlanks lineBlanks t p) ∧ v = slice t (skipBlanks lineBlanks t p) e := by
  have hend : ∀ j, ((Rule.lineEnd lineBlanks : FileRule Unit).read t false false j).isMatch = true ↔
      t[j]? = some '\n' ∨ j = t.size := by
    intro j
    simp only [Rule.lineEnd, start_false]
    split_ifs with h <;> simp [Reply.isMatch, h]
  have hstart : skipBlanks lineBlanks t p ≤ t.size := run_le_size hp
  unfold restOfLine
  rw [skipTo_matched, start_true]
  simp only [hend]
  generalize skipBlanks lineBlanks t p = x at hstart
  refine and_congr_left fun _ => ⟨?_, ?_⟩
  · rintro ⟨hle, hsize, hstop, hfirst⟩
    refine (run_eq ⟨hle, fun j hj hlt => ?_, fun c hc => ?_⟩).symm
    · obtain ⟨c, hc⟩ : ∃ c, t[j]? = some c := ⟨t[j], Array.getElem?_eq_getElem (by omega)⟩
      refine ⟨c, hc, ?_⟩
      have hno := hfirst j hj hlt
      rw [hc] at hno
      simpa using fun h => hno (.inl (congrArg some h))
    · rcases hstop with hline | rfl
      · obtain rfl := Option.some.inj (hc.symm.trans hline)
        rfl
      · simp at hc
  · rintro rfl
    have hrun := isRun_run (· != '\n') t x
    have hsize : lineStopAt t x ≤ t.size := run_le_size hstart
    refine ⟨hrun.le, hsize, ?_, fun j hj hlt => ?_⟩
    · rcases Nat.eq_or_lt_of_le hsize with heq | hlt
      · exact .inr heq
      · have hc := Array.getElem?_eq_getElem hlt
        have := hrun.stop _ hc
        refine .inl (hc.trans (congrArg some ?_))
        simpa using this
    · obtain ⟨c, hc, hne⟩ := hrun.inside j hj hlt
      rw [hc]
      rintro (heq | rfl)
      · cases heq
        cases hne
      · exact absurd hlt (by omega)

theorem WordAt.le_size {w : List Char} (h : WordAt t q w) (hw : w ≠ []) : q + w.length ≤ t.size := by
  obtain ⟨c, hc⟩ : ∃ c, w[w.length - 1]? = some c := by
    rw [← List.getLast?_eq_getElem?]
    exact ⟨_, List.getLast?_eq_some_getLast hw⟩
  have hlt := (Array.getElem?_eq_some_iff.1 (h _ c hc)).1
  have := List.length_pos_iff.2 hw
  omega

/-- A line of the header is read at `q`, up to `n`: the rest of the line behind a word and blanks, or nothing. -/
inductive LineRead (w : String) (blanks : List Char) (t : Chars) (q : Nat) : Option Excerpt → Nat → Prop
  | absent (h : ¬WordAt t q w.toList) : LineRead w blanks t q none q
  | present {x : Nat} (h : WordAt t q w.toList) (hx : skipBlanks blanks t (q + w.length) = x) :
    LineRead w blanks t q (some ⟨x, slice t x (lineStopAt t x)⟩) (lineStopAt t x)

def First (P : Nat → Prop) (x e : Nat) : Prop := x ≤ e ∧ P e ∧ ∀ j, x ≤ j → j < e → ¬P j

/-- A target ends in front of the next name and at the end of the text. -/
def TargetEnd (t : Chars) (e : Nat) : Prop :=
  WordAt t (skipBlanks allBlanks t e) "Name:".toList ∨ t.size ≤ skipBlanks allBlanks t e

/-- An optimization is read from `p` up to `e`. -/
inductive Reads (t : Chars) (p : Nat) : Parts → Nat → Prop
  | intro {c n c' m x s y e : Nat} {name pre : Option Excerpt}
    (hcomments : Comments t (skipBlanks allBlanks t p) c)
    (hname : LineRead "Name:" lineBlanks t (skipBlanks allBlanks t c) name n)
    (hcomments' : Comments t (skipBlanks allBlanks t n) c')
    (hpre : LineRead "Pre:" allBlanks t (skipBlanks allBlanks t c') pre m)
    (hx : skipBlanks allBlanks t m = x) (hsource : First (WordAt t · "=>".toList) x s)
    (hy : skipBlanks allBlanks t (s + 2) = y) (htarget : First (TargetEnd t) y e) (hsize : e ≤ t.size) :
    Reads t p ⟨p, name.map (·.text), pre, ⟨x, slice t x s⟩, ⟨y, slice t y e⟩⟩ e

theorem line_matched {r : FileRule α} {f : Excerpt → α} {c : Nat} {v : Option α}
    (hr : ∀ {q e : Nat} {a : α}, (r.read t live false q).outcome = .matched a e ↔ WordAt t q w.toList ∧
      e = lineStopAt t (skipBlanks blanks t (q + w.length)) ∧
      a = f ⟨skipBlanks blanks t (q + w.length), slice t (skipBlanks blanks t (q + w.length)) e⟩) :
    ((Rule.optional allBlanks r).next t live c).outcome = .matched v n ↔
      ∃ l, LineRead w blanks t (skipBlanks allBlanks t c) l n ∧ v = l.map f := by
  simp only [Rule.next, optional_matched, start_true, hr, ne_eq, not_and]
  generalize skipBlanks allBlanks t c = q
  constructor
  · rintro (⟨_, rfl, hword, rfl, rfl⟩ | ⟨rfl, rfl, hno⟩)
    · exact ⟨_, .present hword rfl, rfl⟩
    · exact ⟨none, .absent fun hword => hno _ _ hword rfl rfl, rfl⟩
  · rintro ⟨_, hno | ⟨hword, rfl⟩, rfl⟩
    · exact .inr ⟨rfl, rfl, fun _ _ hword => absurd hword hno⟩
    · exact .inl ⟨_, rfl, hword, rfl, rfl⟩

theorem name_matched {c : Nat} {name : Option String} :
    ((Rule.optional allBlanks nameLine).next t live c).outcome = .matched name n ↔
      ∃ l, LineRead "Name:" lineBlanks t (skipBlanks allBlanks t c) l n ∧ name = l.map (·.text) := by
  refine line_matched fun {q e v} => phrase_matched.trans ?_
  rw [start_false, bind_matched]
  simp only [Rule.first, literal_matched (show "Name:".toList = _ from rfl), start_false, Rule.next]
  constructor
  · rintro ⟨_, _, ⟨hword, rfl, rfl⟩, hrest⟩
    exact ⟨hword, (restOfLine_matched (hword.le_size (by decide))).1 hrest⟩
  · rintro ⟨hword, hrest⟩
    exact ⟨_, _, ⟨hword, rfl, rfl⟩, (restOfLine_matched (hword.le_size (by decide))).2 hrest⟩

theorem excerpt_matched {r : FileRule String} {v : Excerpt} : ((excerpt r).next t live p).outcome = .matched v e ↔
      v.place = skipBlanks allBlanks t p ∧ (r.read t live true v.place).outcome = .matched v.text e := by
  refine map_matched.trans ⟨?_, ?_⟩
  · rintro ⟨a, ha, rfl⟩
    exact located_matched.1 ha
  · intro h
    exact ⟨(v.place, v.text), located_matched.2 h, rfl⟩

theorem pre_matched {c : Nat} {pre : Option Excerpt} :
    ((Rule.optional allBlanks preLine).next t live c).outcome = .matched pre n ↔
      ∃ l, LineRead "Pre:" allBlanks t (skipBlanks allBlanks t c) l n ∧ pre = l.map id := by
  refine line_matched fun {q e v} => phrase_matched.trans ?_
  have hrest : WordAt t q "Pre:".toList →
      (((excerpt restOfLine).next t live (q + "Pre:".length)).outcome = .matched v e ↔
      e = lineStopAt t (skipBlanks allBlanks t (q + "Pre:".length)) ∧
        v = ⟨skipBlanks allBlanks t (q + "Pre:".length), slice t (skipBlanks allBlanks t (q + "Pre:".length)) e⟩) := by
    intro hword
    have hsize : skipBlanks allBlanks t (q + "Pre:".length) ≤ t.size := run_le_size (hword.le_size (by decide))
    obtain ⟨place, text⟩ := v
    rw [excerpt_matched, Excerpt.mk.injEq]
    constructor
    · rintro ⟨rfl, hread⟩
      obtain ⟨rfl, rfl⟩ := (restOfLine_matched hsize).1 hread
      rw [skip_skip (by decide)]
      exact ⟨rfl, rfl, rfl⟩
    · rintro ⟨rfl, rfl, rfl⟩
      refine ⟨rfl, (restOfLine_matched hsize).2 ?_⟩
      rw [skip_skip (by decide)]
      exact ⟨rfl, rfl⟩
  rw [start_false, bind_matched]
  simp only [Rule.first, literal_matched (show "Pre:".toList = _ from rfl), start_false]
  constructor
  · rintro ⟨_, _, ⟨hword, rfl, rfl⟩, hread⟩
    exact ⟨hword, (hrest hword).1 hread⟩
  · rintro ⟨hword, hread⟩
    exact ⟨_, _, ⟨hword, rfl, rfl⟩, (hrest hword).2 hread⟩

theorem source_matched {m s : Nat} {v : Excerpt} : ((excerpt sourceText).next t live m).outcome = .matched v s ↔
    First (WordAt t · "=>".toList) (skipBlanks allBlanks t m) s ∧
      v = ⟨skipBlanks allBlanks t m, slice t (skipBlanks allBlanks t m) s⟩ := by
  have harrow : ∀ j, ((Rule.literal allBlanks "=>" : FileRule String).read t false false j).isMatch = true ↔
      WordAt t j "=>".toList := by
    intro j
    rw [isMatch_iff]
    simp only [literal_matched (show "=>".toList = _ from rfl), start_false]
    constructor
    · rintro ⟨_, _, h, -⟩
      exact h
    · exact fun h => ⟨_, _, h, rfl, rfl⟩
  obtain ⟨place, text⟩ := v
  rw [excerpt_matched, sourceText, skipTo_matched, start_true, Excerpt.mk.injEq]
  simp only [harrow]
  constructor
  · rintro ⟨rfl, ⟨hle, -, hword, hfirst⟩, rfl⟩
    rw [skip_skip (by decide)] at hle hfirst ⊢
    exact ⟨⟨hle, hword, hfirst⟩, rfl, rfl⟩
  · rintro ⟨⟨hle, hword, hfirst⟩, rfl, rfl⟩
    rw [skip_skip (by decide)]
    exact ⟨rfl, ⟨hle, Nat.le_of_lt hword.lt_size, hword, hfirst⟩, rfl⟩

theorem target_matched {v : Excerpt} : ((excerpt targetText).next t live p).outcome = .matched v e ↔
    (First (TargetEnd t) (skipBlanks allBlanks t p) e ∧ e ≤ t.size) ∧
      v = ⟨skipBlanks allBlanks t p, slice t (skipBlanks allBlanks t p) e⟩ := by
  have hend : ∀ j, ((Rule.firstOf [(Rule.literal allBlanks "Name:").map fun _ => (),
      .textEnd allBlanks] : FileRule Unit).read t false false j).isMatch = true ↔ TargetEnd t j := by
    intro j
    simp only [Rule.firstOf, tryAll_isMatch, List.exists_mem_cons_iff, List.not_mem_nil, false_and, exists_false,
      or_false]
    refine or_congr ?_ ?_
    · rw [isMatch_iff]
      simp only [map_matched, literal_matched (show "Name:".toList = _ from rfl), start_true]
      constructor
      · rintro ⟨_, _, _, ⟨h, -⟩, -⟩
        exact h
      · exact fun h => ⟨(), _, _, ⟨h, rfl, rfl⟩, trivial⟩
    · rw [isMatch_iff, ← Nat.not_lt]
      simp only [Rule.textEnd, start_true]
      split_ifs with h <;> simp [h]
  obtain ⟨place, text⟩ := v
  rw [excerpt_matched, targetText, skipTo_matched, start_true, skipBlanks_nil, Excerpt.mk.injEq]
  simp only [hend]
  constructor
  · rintro ⟨rfl, ⟨hle, hsize, hends, hfirst⟩, rfl⟩
    exact ⟨⟨⟨hle, hends, hfirst⟩, hsize⟩, rfl, rfl⟩
  · rintro ⟨⟨⟨hle, hends, hfirst⟩, hsize⟩, rfl, rfl⟩
    exact ⟨rfl, ⟨hle, hsize, hends, hfirst⟩, rfl⟩

theorem optimizationParts_matched {o : Parts} :
    (optimizationParts p t live p).outcome = .matched o e ↔ Reads t p o e := by
  have harrow : ∀ {s q : Nat} {u : Unit}, WordAt t s "=>".toList →
      (((Rule.punctuation allBlanks "=>" : FileRule Unit).next t live s).outcome = .matched u q ↔ q = s + 2) := by
    intro s q u hword
    have hstart : skipBlanks allBlanks t s = s :=
      skip_of_stop (fun _ h => h) fun c hc => by cases hc.symm.trans (hword 0 '=' rfl); rfl
    simp only [Rule.next, Rule.punctuation, start_true, hstart, andThen_matched,
      literal_matched (show "=>".toList = _ from rfl), start_false, Outcome.matched.injEq]
    constructor
    · rintro ⟨_, _, ⟨-, -, rfl⟩, -, rfl⟩
      rfl
    · rintro rfl
      exact ⟨_, _, ⟨hword, rfl, rfl⟩, trivial, rfl⟩
  have hcomments : ∀ {q c : Nat} {u : Unit}, (comments.next t live q).outcome = .matched u c ↔
      Comments t (skipBlanks allBlanks t q) c := comments_matched
  have hfirst : ∀ {q c : Nat} {u : Unit}, (comments.first t live q).outcome = .matched u c ↔
      Comments t (skipBlanks allBlanks t q) c := comments_matched
  unfold optimizationParts
  simp only [bind_matched, hcomments, hfirst, name_matched, pre_matched, source_matched, target_matched, pure_matched]
  constructor
  · rintro ⟨_, c, hc, _, n, ⟨name, hname, rfl⟩, _, c', hc', _, m, ⟨pre, hpre, rfl⟩, _, s, ⟨hsource, rfl⟩, _, q, hq,
      _, _, ⟨⟨htarget, hsize⟩, rfl⟩, rfl, rfl⟩
    obtain rfl := (harrow hsource.2.1).1 hq
    rw [Option.map_id]
    exact .intro hc hname hc' hpre rfl hsource rfl htarget hsize
  · rintro ⟨hc, hname, hc', hpre, rfl, hsource, rfl, htarget, hsize⟩
    exact ⟨(), _, hc, _, _, ⟨_, hname, rfl⟩, (), _, hc', _, _, ⟨_, hpre, (congrFun Option.map_id _).symm⟩, _, _,
      ⟨hsource, rfl⟩, (), _, (harrow hsource.2.1).2 rfl, _, _, ⟨⟨htarget, hsize⟩, rfl⟩, rfl, rfl⟩

/-! ### Parts of a text -/

section Cut

variable {a b : Nat} {cls : Char → Bool}

theorem run_cut (ha : a ≤ p) (hb : run cls t p ≤ b) : run cls (t.extract a b) (p - a) = run cls t p - a := by
  have hrun := isRun_run cls t p
  refine run_eq ⟨Nat.sub_le_sub_right hrun.le a, fun j hj hlt => ?_, fun c hc => ?_⟩
  · rw [getElem?_cut, if_pos (by omega)]
    exact hrun.inside _ (by omega) (by omega)
  · rw [getElem?_cut] at hc
    split at hc
    · rw [Nat.add_sub_cancel' (Nat.le_trans ha hrun.le)] at hc
      exact hrun.stop c hc
    · cases hc

/-- A run that goes on behind the part fills its end. -/
theorem run_cut_of_le (ha : a ≤ p) (hp : p ≤ b) (hb : b ≤ run cls t p) : run cls (t.extract a b) (p - a) = b - a := by
  have hrun := isRun_run cls t p
  refine run_eq ⟨Nat.sub_le_sub_right hp a, fun j hj hlt => ?_, fun c hc => ?_⟩
  · rw [getElem?_cut, if_pos (by omega)]
    exact hrun.inside _ (by omega) (by omega)
  · rw [getElem?_cut, if_neg (by omega)] at hc
    cases hc

theorem run_of_le (hp : p ≤ q) (hq : q ≤ run cls t p) : run cls t q = run cls t p :=
  have hrun := isRun_run cls t p
  run_eq ⟨hq, fun j hj => hrun.inside j (Nat.le_trans hp hj), hrun.stop⟩

theorem slice_cut (ha : a ≤ p) (hb : q ≤ b) : slice (t.extract a b) (p - a) (q - a) = slice t p q := by
  unfold slice
  rw [Array.extract_extract, Nat.add_sub_cancel' ha]
  rcases Nat.le_total a q with haq | haq
  · rw [Nat.add_sub_cancel' haq, Nat.min_eq_left hb]
  · rw [Nat.sub_eq_zero_of_le haq, Nat.add_zero, Array.extract_empty_of_stop_le_start (by omega),
      Array.extract_empty_of_stop_le_start (by omega)]

theorem WordAt.cut {w : List Char} (h : WordAt t q w) (ha : a ≤ q) (hb : q + w.length ≤ b) :
    WordAt (t.extract a b) (q - a) w := by
  intro i c hc
  have hlt := (List.getElem?_eq_some_iff.1 hc).1
  rw [getElem?_cut, if_pos (by omega), ← h i c hc]
  congr 1
  omega

theorem WordAt.uncut {w : List Char} (ha : a ≤ q) (h : WordAt (t.extract a b) (q - a) w) : WordAt t q w := by
  intro i c hc
  have hat := h i c hc
  rw [getElem?_cut] at hat
  split at hat
  · rw [← hat]
    congr 1
    omega
  · cases hat

theorem behindComment_cut (ha : a ≤ p) (hb : behindComment t p ≤ b) :
    lineStopAt (t.extract a b) (p - a + 1) = lineStopAt t (p + 1) - a ∧
      behindComment (t.extract a b) (p - a) = behindComment t p - a := by
  have hline := le_lineStopAt t (p + 1)
  have hskip : lineStopAt t (p + 1) ≤ behindComment t p := le_skipBlanks _ t _
  have hstop : lineStopAt (t.extract a b) (p - a + 1) = lineStopAt t (p + 1) - a := by
    rw [show p - a + 1 = p + 1 - a by omega]
    exact run_cut (by omega) (Nat.le_trans hskip hb)
  refine ⟨hstop, ?_⟩
  unfold behindComment
  rw [hstop]
  exact run_cut (by omega) hb

theorem CommentAt.cut (h : CommentAt t p) (ha : a ≤ p) (hb : behindComment t p ≤ b) :
    CommentAt (t.extract a b) (p - a) := by
  have hlt : p < behindComment t p := lt_behindComment
  have hline : lineStopAt t (p + 1) < behindComment t p := h.2
  obtain ⟨hstop, hbehind⟩ := behindComment_cut ha hb
  refine ⟨h.1.cut ha (Nat.le_trans hlt hb), ?_⟩
  change _ < behindComment _ _
  have := le_lineStopAt t (p + 1)
  omega

/-- A comment of the part has blanks behind it in the part. -/
theorem CommentAt.uncut (ha : a ≤ p) (h : CommentAt (t.extract a b) (p - a)) : CommentAt t p := by
  have hsize := h.1.lt_size
  rw [Array.size_extract] at hsize
  have hlt : lineStopAt (t.extract a b) (p - a + 1) < behindComment (t.extract a b) (p - a) := h.2
  have hle : behindComment (t.extract a b) (p - a) ≤ b - a := by
    have hstop : lineStopAt (t.extract a b) (p - a + 1) ≤ (t.extract a b).size := run_le_size h.1.lt_size
    have := @run_le_size _ _ allBlanks.contains hstop
    rw [Array.size_extract] at this
    exact Nat.le_trans this (by omega)
  refine ⟨h.1.uncut ha, Nat.lt_of_not_le fun hskip => ?_⟩
  have hbehind : behindComment t p = lineStopAt t (p + 1) := Nat.le_antisymm hskip (le_skipBlanks _ t _)
  rcases Nat.le_total (lineStopAt t (p + 1)) b with hb | hb
  · obtain ⟨h₁, h₂⟩ := behindComment_cut ha (hbehind.trans_le hb)
    omega
  · have hstop : lineStopAt (t.extract a b) (p - a + 1) = b - a := by
      rw [show p - a + 1 = p + 1 - a by omega]
      exact run_cut_of_le (by omega) (by omega) hb
    omega

theorem Comments.cut (h : Comments t p q) (ha : a ≤ p) (hb : q ≤ b) : Comments (t.extract a b) (p - a) (q - a) := by
  induction h with
  | stop hno => exact .stop fun hat => hno (hat.uncut ha)
  | @step p q hat hrest ih =>
    have hlt : p < behindComment t p := lt_behindComment
    have hle := Nat.le_trans hrest.le hb
    refine .step (hat.cut ha hle) ?_
    rw [(behindComment_cut ha hle).2]
    exact ih (by omega) hb

/-- The excerpt in a part of the text that starts at `a`. -/
def Excerpt.behind (a : Nat) (e : Excerpt) : Excerpt := { e with place := e.place - a }

/-- The parts of an optimization in a part of the text that starts at `a`. -/
def Parts.behind (a : Nat) (o : Parts) : Parts :=
  ⟨o.start - a, o.name, o.pre.map (·.behind a), o.source.behind a, o.target.behind a⟩

theorem LineRead.le {v : Option Excerpt} (h : LineRead w blanks t q v n) : q ≤ n := by
  cases h with
  | absent => exact Nat.le_refl _
  | @present x _ hx =>
    have hskip := le_skipBlanks blanks t (q + w.length)
    have hline := le_lineStopAt t x
    omega

theorem LineRead.cut {v : Option Excerpt} (h : LineRead w blanks t q v n)
    (ha : a ≤ q) (hb : n ≤ b) : LineRead w blanks (t.extract a b) (q - a) (v.map (·.behind a)) (n - a) := by
  cases h with
  | absent hno => exact .absent fun hat => hno (hat.uncut ha)
  | @present x hat hx =>
    have hskip := le_skipBlanks blanks t (q + w.length)
    have hline := le_lineStopAt t x
    have hx' : skipBlanks blanks (t.extract a b) (q - a + w.length) = x - a := by
      rw [← hx, show q - a + w.length = q + w.length - a by omega]
      exact run_cut (by omega) (hx.trans_le (by omega))
    have hstop : lineStopAt (t.extract a b) (x - a) = lineStopAt t x - a := run_cut (by omega) hb
    have := LineRead.present (hat.cut ha (by rw [String.length_toList]; omega)) hx'
    rw [hstop, slice_cut (by omega) hb] at this
    exact this

theorem First.arrow_cut {x s : Nat} (h : First (WordAt t · "=>".toList) x s) (ha : a ≤ x) (hb : s + 2 ≤ b) :
    First (WordAt (t.extract a b) · "=>".toList) (x - a) (s - a) := by
  obtain ⟨hle, hat, hfirst⟩ := h
  refine ⟨Nat.sub_le_sub_right hle a, hat.cut (by omega) hb, fun j hj hlt hat' => ?_⟩
  rw [← Nat.add_sub_cancel_left a j] at hat'
  exact hfirst (a + j) (by omega) (by omega) (hat'.uncut (by omega))

theorem First.target_cut {y : Nat} (h : First (TargetEnd t) y e) (ha : a ≤ y) (hsize : e ≤ t.size)
    (hb : b = e ∨ b = t.size) : First (TargetEnd (t.extract a b)) (y - a) (e - a) := by
  obtain ⟨hle, hend, hfirst⟩ := h
  have hcut : ∀ {k}, a ≤ k → skipBlanks allBlanks t k ≤ b →
      skipBlanks allBlanks (t.extract a b) (k - a) = skipBlanks allBlanks t k - a := fun hk hle => run_cut hk hle
  have hpart : (t.extract a b).size = b - a := by rw [Array.size_extract]; omega
  refine ⟨Nat.sub_le_sub_right hle a, ?_, fun j hj hlt hend' => ?_⟩
  · rcases hb with rfl | rfl
    · exact .inr (hpart.trans_le (le_skipBlanks _ _ _))
    · have hskip : skipBlanks allBlanks t e ≤ t.size := run_le_size hsize
      have hek := le_skipBlanks allBlanks t e
      unfold TargetEnd
      rw [hcut (by omega) hskip, hpart]
      exact hend.imp (fun hat => hat.cut (by omega) (hat.le_size (by decide))) fun h => Nat.sub_le_sub_right h a
  · -- A target that ended in the part at `j` would have ended there in the text.
    rw [← Nat.add_sub_cancel_left a j] at hend'
    refine hfirst (a + j) (by omega) (by omega) ?_
    have hjk := le_skipBlanks allBlanks t (a + j)
    rcases Nat.lt_or_ge (skipBlanks allBlanks t (a + j)) e with hlt' | hge
    · unfold TargetEnd at hend'
      rw [hcut (by omega) (by omega), hpart] at hend'
      rcases hend' with hat | hend'
      · exact .inl (hat.uncut (by omega))
      · omega
    · have hsame : skipBlanks allBlanks t e = skipBlanks allBlanks t (a + j) := run_of_le (by omega) hge
      unfold TargetEnd at hend ⊢
      rwa [← hsame]

/-- **A part of the text is read as in the text** if it ends where the target ends or at the end of the text. -/
theorem Reads.cut {o : Parts} (h : Reads t p o e) (ha : a ≤ p) (hb : b = e ∨ b = t.size) :
    Reads (t.extract a b) (p - a) (o.behind a) (e - a) := by
  cases h with
  | @intro c n c' m x s y _ name pre hcomments hname hcomments' hpre hx hsource hy htarget hsize =>
    have hskip : ∀ {q}, a ≤ q → skipBlanks allBlanks t q ≤ b →
        skipBlanks allBlanks (t.extract a b) (q - a) = skipBlanks allBlanks t q - a := fun hq hle => run_cut hq hle
    -- All places of the header are in front of the arrow, and the arrow in front of the target's end.
    have h₁ := And.intro (le_skipBlanks allBlanks t p) hcomments.le
    have h₂ := And.intro (le_skipBlanks allBlanks t c) hname.le
    have h₃ := And.intro (le_skipBlanks allBlanks t n) hcomments'.le
    have h₄ := And.intro (le_skipBlanks allBlanks t c') hpre.le
    have h₅ := And.intro (le_skipBlanks allBlanks t m) hsource.1
    have h₆ := And.intro (le_skipBlanks allBlanks t (s + 2)) htarget.1
    have heb : e ≤ b := by omega
    have hc := hcomments.cut (a := a) (b := b) (by omega) (by omega)
    have hn := hname.cut (a := a) (b := b) (by omega) (by omega)
    have hc' := hcomments'.cut (a := a) (b := b) (by omega) (by omega)
    have hm := hpre.cut (a := a) (b := b) (by omega) (by omega)
    rw [← hskip (by omega) (by omega)] at hc hn hc' hm
    have hx' : skipBlanks allBlanks (t.extract a b) (m - a) = x - a := by rw [hskip (by omega) (by omega), hx]
    have hy' : skipBlanks allBlanks (t.extract a b) (s - a + 2) = y - a := by
      rw [show s - a + 2 = s + 2 - a by omega, hskip (by omega) (by omega), hy]
    have hreads := Reads.intro hc hn hc' hm hx' (hsource.arrow_cut (by omega) (by omega)) hy'
      (htarget.target_cut (by omega) hsize hb) (by rw [Array.size_extract]; omega)
    rw [slice_cut (by omega) (by omega), slice_cut (by omega) (by omega), Option.map_map] at hreads
    exact hreads

end Cut

/-! ### Rules that record nothing -/

/-- Reading on records nothing. -/
structure Scan.Silent (s : Scan ε α) : Prop where
  steps : ∀ t live p, (s t live p).steps = []

/-- The rule records nothing. -/
structure Rule.Silent (r : Rule ε α) : Prop where
  steps : ∀ t live skipping p, (r.read t live skipping p).steps = []

section Silent

variable {blanks : List Char} {r : Rule ε α}

theorem steps_andThen {r : Reply ε α} {f : α → Nat → Reply ε β} (h : r.steps = []) (hf : ∀ a q, (f a q).steps = []) :
    (r.andThen f).steps = [] := by
  unfold Reply.andThen
  cases r.outcome <;> simp [h, hf]

theorem Rule.Silent.first (h : r.Silent) : r.first.Silent := ⟨fun t live p => h.steps t live false p⟩

theorem Rule.Silent.next (h : r.Silent) : r.next.Silent := ⟨fun t live p => h.steps t live true p⟩

theorem silent_pure (a : α) : (pure a : Scan ε α).Silent := ⟨fun _ _ _ => rfl⟩

theorem silent_bind {s : Scan ε α} {f : α → Scan ε β} (h : s.Silent) (hf : ∀ a, (f a).Silent) : (s >>= f).Silent :=
  ⟨fun t live p => steps_andThen (h.steps t live p) fun a q => (hf a).steps t live q⟩

theorem silent_phrase {body : Scan ε α} (h : body.Silent) : (Rule.phrase blanks body).Silent := by
  refine ⟨fun t live skipping p => ?_⟩
  have := h.steps t live (Rule.start blanks t skipping p)
  simp only [Rule.phrase, Reply.closed]
  split <;> exact this

theorem silent_inside (h : r.Silent) : (Rule.inside blanks r).Silent := ⟨fun t live _ _ => h.steps t live false _⟩

theorem silent_map (f : α → β) (h : r.Silent) : (r.map f).Silent :=
  ⟨fun t live skipping p => steps_andThen (h.steps t live skipping p) fun _ _ => rfl⟩

theorem silent_literal (w : String) : (Rule.literal blanks w : Rule ε String).Silent := by
  refine ⟨fun t live skipping p => ?_⟩
  simp only [Rule.literal]
  split_ifs <;> rfl

theorem silent_pattern (name : String) (scan : Chars → Nat → Option Nat) :
    (Rule.pattern blanks name scan : Rule ε String).Silent := by
  refine ⟨fun t live skipping p => ?_⟩
  simp only [Rule.pattern]
  split <;> rfl

theorem silent_punctuation (w : String) : (Rule.punctuation blanks w : Rule ε Unit).Silent := by
  refine ⟨fun t live skipping p => ?_⟩
  refine steps_andThen ?_ fun _ _ => rfl
  exact (silent_literal w).steps t live false _

theorem silent_blankRun : (Rule.blankRun blanks : Rule ε Unit).Silent := by
  refine ⟨fun t live skipping p => ?_⟩
  simp only [Rule.blankRun]
  split_ifs <;> rfl

theorem silent_skipTo (name : String) : (Rule.skipTo blanks name r).Silent := by
  refine ⟨fun t live skipping p => ?_⟩
  unfold Rule.skipTo
  dsimp only
  generalize List.find? _ _ = found
  cases found <;> rfl

theorem silent_optional (h : r.Silent) : (Rule.optional blanks r).Silent := by
  refine ⟨fun t live skipping p => ?_⟩
  have := h.steps t live false (Rule.start blanks t skipping p)
  simp only [Rule.optional]
  split <;> exact this

theorem silent_located (h : r.Silent) : (Rule.located blanks r).Silent :=
  silent_phrase ⟨fun t live p => steps_andThen (h.steps t live true p) fun _ _ => rfl⟩

theorem steps_repeated (h : r.Silent) (t : Chars) (live : Bool) (fuel p : Nat) :
    (Rule.repeated r t live fuel p).steps = [] := by
  induction fuel generalizing p with
  | zero => rfl
  | succ fuel ih =>
    have hr := h.steps t live true p
    rw [Rule.repeated]
    dsimp only
    split
    · split
      · simp [hr, ih]
      · exact hr
    · exact hr

theorem silent_many (h : r.Silent) : (Rule.many blanks r).Silent := by
  have hmany : ∀ t live skipping p, ((Rule.many1 blanks r).read t live skipping p).steps = [] :=
    fun t live _ _ => steps_andThen (h.steps t live false _) fun _ q =>
      steps_andThen (steps_repeated h t live _ q) fun _ _ => rfl
  refine ⟨fun t live skipping p => ?_⟩
  simp only [Rule.many]
  split <;> exact hmany t live false _

theorem silent_comments : comments.Silent := by
  have hcomment : (comment : FileRule Unit).Silent := silent_inside <| silent_phrase <|
    silent_bind (silent_literal _).first fun _ => silent_bind (silent_pattern _ _).next fun _ => silent_pure ()
  have hline : commentLine.Silent := silent_phrase (silent_bind hcomment.first fun _ => silent_blankRun.next)
  exact silent_inside <| silent_phrase <| silent_bind (silent_optional silent_blankRun).first fun _ =>
    silent_bind (silent_many hline).next fun _ => silent_pure ()

theorem silent_optimizationParts (start : Nat) : (optimizationParts start).Silent := by
  have hexcerpt : ∀ {r : FileRule String}, r.Silent → (excerpt r).Silent := fun h => silent_map _ (silent_located h)
  have hname : nameLine.Silent :=
    silent_phrase (silent_bind (silent_literal _).first fun _ => (silent_skipTo _).next)
  have hpre : preLine.Silent :=
    silent_phrase (silent_bind (silent_literal _).first fun _ => (hexcerpt (silent_skipTo _)).next)
  exact silent_bind silent_comments.first fun _ => silent_bind (silent_optional hname).next fun _ =>
    silent_bind silent_comments.next fun _ => silent_bind (silent_optional hpre).next fun _ =>
    silent_bind (hexcerpt (silent_skipTo _)).next fun _ => silent_bind (silent_punctuation _).next fun _ =>
    silent_bind (hexcerpt (silent_skipTo _)).next fun _ => silent_pure _

end Silent

/-! ### Files -/

section Files

variable {p q e : Nat} {o : Parts} {os : List Parts}

/-- What is recorded for an optimization is recorded where it has been read to its end. -/
theorem optimization_read : optimization.read t live skipping p =
    ((⟨[], (optimizationParts p t live p).outcome⟩ : Reply Parts Parts).closed t "").andThen
      fun o e => ⟨[o], .matched () e⟩ := by
  have hstart : Rule.start [] t skipping p = p := by cases skipping <;> simp
  simp only [optimization, Rule.phrase, hstart]
  rw [← (silent_optimizationParts p).steps t live p]

theorem optimization_of_reads (h : Reads t p o e) : optimization.read t live skipping p = ⟨[o], .matched () e⟩ := by
  rw [optimization_read, optimizationParts_matched.2 h]
  rfl

theorem optimization_of_not_reads (h : ∀ o e, ¬Reads t p o e) : (optimization.read t live skipping p).steps = [] ∧
    ∀ u e, (optimization.read t live skipping p).outcome ≠ .matched u e := by
  rw [optimization_read]
  cases hout : (optimizationParts p t live p).outcome with
  | matched o e => exact absurd (optimizationParts_matched.1 hout) (h o e)
  | failed | overrun => simp [Reply.closed, Reply.andThen]

/-- Optimizations are read one after another from `p` to `e`, where no more can be read. -/
inductive ReadsAll (t : Chars) : Nat → List Parts → Nat → Prop
  | nil {p : Nat} (h : ∀ o e, ¬Reads t p o e) : ReadsAll t p [] p
  | cons {p q e : Nat} {o : Parts} {os : List Parts} (h : Reads t p o q) (hrest : ReadsAll t q os e) :
    ReadsAll t p (o :: os) e

/-- An optimization has an arrow, and its target ends behind it. -/
theorem Reads.arrow (h : Reads t p o e) :
    ∃ s, p ≤ s ∧ WordAt t s "=>".toList ∧ s + 2 ≤ e ∧ e ≤ t.size ∧ TargetEnd t e := by
  cases h with
  | @intro c n c' m x s y _ name pre hcomments hname hcomments' hpre hx hsource hy htarget hsize =>
    have h₁ := And.intro (le_skipBlanks allBlanks t p) hcomments.le
    have h₂ := And.intro (le_skipBlanks allBlanks t c) hname.le
    have h₃ := And.intro (le_skipBlanks allBlanks t n) hcomments'.le
    have h₄ := And.intro (le_skipBlanks allBlanks t c') hpre.le
    have h₅ := And.intro (le_skipBlanks allBlanks t m) hsource.1
    have h₆ := And.intro (le_skipBlanks allBlanks t (s + 2)) htarget.1
    exact ⟨s, by omega, hsource.2.1, by omega, hsize, htarget.2.1⟩

theorem Reads.lt (h : Reads t p o e) : p < e ∧ e ≤ t.size := by
  obtain ⟨s, hps, -, hse, hsize, -⟩ := h.arrow
  exact ⟨by omega, hsize⟩

theorem not_reads_of_blank (h : t.size ≤ skipBlanks allBlanks t p) : ¬Reads t p o e := by
  intro hread
  obtain ⟨s, hps, hword, -⟩ := hread.arrow
  obtain ⟨c, hc, hblank⟩ := (isRun_run allBlanks.contains t p).inside s hps (Nat.lt_of_lt_of_le hword.lt_size h)
  cases hc.symm.trans (hword 0 '=' rfl)
  revert hblank
  decide

/-- An optimization behind another one has a name. -/
theorem Reads.named (h : Reads t p o e) (hend : TargetEnd t p) : o.name.isSome = true := by
  rcases hend with hword | hend
  · cases h with
    | @intro c n c' m x s y _ name pre hcomments hname =>
      have hno : ¬CommentAt t (skipBlanks allBlanks t p) := fun hat => by
        cases (hword 0 'N' rfl).symm.trans (hat.1 0 ';' rfl)
      obtain rfl := (comments_of_none hno).1 hcomments
      rw [skip_skip (fun _ h => h)] at hname
      cases hname with
      | absent hno => exact absurd hword hno
      | present => rfl
  · exact absurd h (not_reads_of_blank hend)

theorem ReadsAll.named (h : ReadsAll t p os e) (hend : TargetEnd t p) : ∀ o ∈ os, o.name.isSome = true := by
  induction h with
  | nil => simp
  | cons h _ ih =>
    obtain ⟨-, -, -, -, -, hend'⟩ := h.arrow
    exact List.forall_mem_cons.2 ⟨h.named hend, ih hend'⟩

theorem repeated_optimization {fuel : Nat} (hfuel : t.size < p + fuel) :
    ∃ os as e, Rule.repeated optimization t live fuel p = ⟨os, .matched as e⟩ ∧ ReadsAll t p os e := by
  induction fuel generalizing p with
  | zero => exact ⟨[], [], p, rfl, .nil fun o e h => absurd h.lt (by omega)⟩
  | succ fuel ih =>
    rw [Rule.repeated]
    by_cases h : ∃ o q, Reads t p o q
    · obtain ⟨o, q, h⟩ := h
      have := h.lt
      obtain ⟨os, as, e, hrest, hall⟩ := @ih q (by omega)
      exact ⟨o :: os, () :: as, e, by simp [optimization_of_reads h, hrest], .cons h hall⟩
    · have hno : ∀ o e, ¬Reads t p o e := fun o e hread => h ⟨o, e, hread⟩
      obtain ⟨hsteps, hout⟩ := @optimization_of_not_reads t live true p hno
      refine ⟨[], [], p, ?_, .nil hno⟩
      dsimp only
      split
      · next heq => exact absurd heq (hout _ _)
      · rw [hsteps]

theorem readFile_eq (t : Chars) : readFile t = (((Rule.many1 [] optimization).first t true 0).andThen
    fun _ e => (Rule.textEnd allBlanks).next t true e).closed t "" := by
  unfold readFile file Rule.phrase
  simp only [start_true, skipBlanks_nil]
  rfl

/-- A file is read if it starts with an optimization and there are blanks only behind the last one. -/
theorem readFile_of_reads (h : Reads t 0 o q) : ∃ os e, ReadsAll t q os e ∧ (readFile t).steps = o :: os ∧
    ((readFile t).isMatch = true ↔ t.size ≤ skipBlanks allBlanks t e) := by
  obtain ⟨os, as, e, hrest, hall⟩ := @repeated_optimization t true q (t.size + 2) (by omega)
  refine ⟨os, e, hall, ?_⟩
  have hmany : (Rule.many1 [] optimization).first t true 0 = ⟨o :: os, .matched (() :: as) e⟩ := by
    simp [Rule.first, Rule.many1, optimization_of_reads h, hrest, Reply.andThen]
  rw [readFile_eq, hmany]
  simp only [Reply.andThen, Rule.next, Rule.textEnd, start_true]
  split_ifs with hlt
  · simp [Reply.closed, Reply.isMatch, hlt]
  · simp [Reply.closed, Reply.isMatch, hlt, Nat.not_lt.1 hlt]

theorem reads_of_readFile (h : (readFile t).isMatch = true) : ∃ o q, Reads t 0 o q := by
  by_contra hno
  obtain ⟨-, hout⟩ := @optimization_of_not_reads t true false 0 fun o q hread => hno ⟨o, q, hread⟩
  obtain ⟨u, e, hfile⟩ := isMatch_iff.1 h
  obtain ⟨as, q, hmany, -⟩ := bind_matched.1 (phrase_matched.1 hfile)
  rw [start_true, skipBlanks_nil] at hmany
  obtain ⟨a, q', hfirst, -⟩ := andThen_matched.1 hmany
  exact hout a q' hfirst

/-- The part of the text from `c.1` to `c.2` is that of an optimization: the text that it was read from, and all blanks
behind it if it is the last one. -/
def CutFor (t : Chars) (c : Nat × Nat) (o : Parts) : Prop :=
  ∃ e, Reads t c.1 o e ∧ (c.2 = e ∨ c.2 = t.size ∧ t.size ≤ skipBlanks allBlanks t e)

theorem CutFor.readFile {c : Nat × Nat} (h : CutFor t c o) : (readFile (t.extract c.1 c.2)).isMatch = true ∧
    (readFile (t.extract c.1 c.2)).steps = [o.behind c.1] := by
  obtain ⟨a, b⟩ := c
  obtain ⟨e, hread, hb⟩ := h
  dsimp only at hread hb ⊢
  have hlt := hread.lt
  have hpart := hread.cut (Nat.le_refl a) (hb.imp_right And.left)
  rw [Nat.sub_self] at hpart
  have hblank : (t.extract a b).size ≤ skipBlanks allBlanks (t.extract a b) (e - a) := by
    rw [Array.size_extract]
    rcases hb with rfl | ⟨rfl, hend⟩
    · exact Nat.le_trans (by omega) (le_skipBlanks _ _ _)
    · have hcut : skipBlanks allBlanks (t.extract a t.size) (e - a) = skipBlanks allBlanks t e - a :=
        run_cut (by omega) (run_le_size hlt.2)
      omega
  obtain ⟨os, e', hall, hsteps, hmatch⟩ := readFile_of_reads hpart
  cases hall with
  | nil => exact ⟨hmatch.2 hblank, hsteps⟩
  | cons h => exact absurd h (not_reads_of_blank hblank)

theorem cutFor_zip (h : Reads t p o q) (hall : ReadsAll t q os e) (hend : t.size ≤ skipBlanks allBlanks t e) :
    List.Forall₂ (CutFor t) (((o :: os).map (·.start)).zip ((os.map (·.start)) ++ [t.size])) (o :: os) := by
  have hstart : ∀ {p e o}, Reads t p o e → o.start = p := fun h => by cases h; rfl
  induction hall generalizing p o with
  | nil =>
    obtain rfl := hstart h
    exact .cons ⟨_, h, .inr ⟨rfl, hend⟩⟩ .nil
  | cons h' hrest ih =>
    obtain rfl := hstart h
    exact .cons ⟨_, h, .inl (hstart h')⟩ (ih h' hend)

end Files

end Peephole.Reader
