import Peephole.Proofs.Elaborate.Spelling
import Peephole.Proofs.Reader.Attempt

/-!
# Precedence

Constant expressions are read by one rule for each precedence, which looks ahead before it goes on.  What they build
together is the tree of the text: prefix operators bind tightest, then come the six precedences, and the operators of
each are joined from left to right.

* `Sequence` : the texts, operands with operators between them; `tree` : the expression of a sequence.
* `Parsed.chain` : operands of one level with its operators between them are an expression of the next level; by
  `Tail.join` this is the joining of the operands that `tree` does.
* `constantExpr_tree` : **a sequence is read to its end and its tree is built.**

What may stand behind a sequence is said by `Stops`: the end of the line, a comma, a closing parenthesis, a comparison,
or a logical operator, whose first character is also an operator on constants but has no operand.
-/

namespace Peephole.Elaborate

open Peephole.Program Peephole.Reader
open Peephole.Encode (Const)
open Peephole.Text (Chars isDigit isSpace slice)

variable {names : Dict ValueId} {t : Chars} {live : Bool} {d n q e e₀ e₁ : Nat} {c : Const} {o : BinaryConst}
  {l : List (BinaryConst × Const)}

/-! ### Texts and trees -/

/-- How loosely an operator binds. -/
def precedence : BinaryConst → Nat
  | .mul | .sdiv | .udiv | .srem | .urem => 0
  | .add | .sub => 1
  | .shl | .ashr | .lshr => 2
  | .and => 3
  | .xor => 4
  | .or => 5

/-- Join the operands of the operators of one precedence, from left to right. -/
def join (n : Nat) : Const → List (BinaryConst × Const) → Const × List (BinaryConst × Const)
  | c, [] => (c, [])
  | c, (op, b) :: l =>
    if precedence op = n then join n (.binary op c b) l else (c, (op, (join n b l).1) :: (join n b l).2)

/-- Join the operands of all operators of a precedence below `n`, the tightest first. -/
def joinBelow : Nat → Const → List (BinaryConst × Const) → Const × List (BinaryConst × Const)
  | 0, c, l => (c, l)
  | n + 1, c, l => join n (joinBelow n c l).1 (joinBelow n c l).2

/-- The expression of a sequence: its first operand, and the operators behind it with their operands. -/
def tree (c : Const) (l : List (BinaryConst × Const)) : Const := (joinBelow 6 c l).1

/-- Behind `e` stands the operator, with blanks around it, and then `q`. -/
structure OpAt (t : Chars) (e : Nat) (op : BinaryConst) (q : Nat) : Prop where
  before : e < skip t e
  word : WordAt t (skip t e) op.text.toList
  behind : skip t e + op.text.length < q
  next : skip t (skip t e + op.text.length) = q

/-- From `q` to `e` stands a sequence of operands and operators on one line.  A minus sign in front of digits would be
part of the number. -/
inductive Sequence (names : Dict ValueId) (t : Chars) : Nat → Nat → Const → List (BinaryConst × Const) → Prop
  | symbol {q e : Nat} (hc : t[q]? = some 'C') (hdigits : run isDigit t (q + 1) = e)
    (hname : (names.get? (slice t q e)).isSome) : Sequence names t q e (.symbol (slice t q e)) []
  | literal {q e n : Nat} (hdigits : run isDigit t q = e) (hlt : q < e)
    (hn : Text.natural? (slice t q e).toList = some n) : Sequence names t q e (.literal n) []
  | unary {q e : Nat} {op : UnaryConst} {c : Const} (hop : WordAt t q op.text.toList)
    (hneg : op = .neg → ∀ x, t[run isSpace t (q + 1)]? = some x → isDigit x = false)
    (h : Sequence names t (skip t (q + 1)) e c []) : Sequence names t q e (.unary op c) []
  | group {q e : Nat} {c : Const} {l : List (BinaryConst × Const)} (hopen : t[q]? = some '(')
    (h : Sequence names t (skip t (q + 1)) e c l) (hclose : t[skip t e]? = some ')') :
    Sequence names t q (skip t e + 1) (tree c l) []
  | more {q e q' e' : Nat} {op : BinaryConst} {c b : Const} {l : List (BinaryConst × Const)}
    (h : Sequence names t q e c []) (hop : OpAt t e op q') (h' : Sequence names t q' e' b l) :
    Sequence names t q e' c ((op, b) :: l)

theorem Sequence.lt (h : Sequence names t q e c l) : q < e := by
  induction h with
  | symbol hc hdigits => exact hdigits ▸ (isRun_run isDigit t _).le
  | literal hdigits hlt => exact hlt
  | unary _ _ _ ih => exact Nat.lt_trans (le_skip t _) ih
  | group _ _ _ ih =>
    have hskip := le_skip t
    exact Nat.lt_succ_of_lt (Nat.lt_of_lt_of_le (Nat.lt_trans (hskip _) ih) (hskip _))
  | more _ hop _ ih ih' => exact ih.trans ((hop.before.trans_le (Nat.le_add_right _ _)).trans (hop.behind.trans ih'))

/-- An expression with operators of a precedence below `n` ends at the place: no name and no call goes on there, and
such an operator has no operand. -/
structure Stops (t : Chars) (n e : Nat) : Prop where
  le : e ≤ t.size
  name : ∀ x, t[e]? = some x → isNameChar x = false
  call : t[skip t e]? ≠ some '('
  operator : ∀ op, precedence op < n → WordAt t (skip t e) op.text.toList →
    NoOperand t (skip t (skip t e + op.text.length))

theorem Stops.mono {n' : Nat} (h : Stops t n e) (hn : n' ≤ n) : Stops t n' e :=
  ⟨h.le, h.name, h.call, fun op hop => h.operator op (Nat.lt_of_lt_of_le hop hn)⟩

theorem Stops.of_char {x : Char} (hx : t[skip t e]? = some x) (hname : isNameChar x = false ∨ e < skip t e)
    (hcall : x ≠ '(') (hop : ∀ op, precedence op < n → ¬WordAt t (skip t e) op.text.toList) : Stops t n e := by
  have hlt := (Array.getElem?_eq_some_iff.1 hx).1
  have hrun : IsRun lineBlanks.contains t e (skip t e) := isRun_run _ t e
  refine ⟨hrun.le.trans hlt.le, fun y hy => ?_, fun h => hcall (Option.some.inj (hx.symm.trans h)),
    fun op hn hword => (hop op hn hword).elim⟩
  rcases Nat.eq_or_lt_of_le hrun.le with heq | hgap
  · rw [← heq] at hx hname
    rw [← Option.some.inj (hx.symm.trans hy)]
    exact hname.resolve_right (Nat.lt_irrefl e)
  · obtain ⟨y', hy', hblank⟩ := hrun.inside e (Nat.le_refl e) hgap
    rw [Option.some.inj (hy.symm.trans hy')]
    exact name_of_lineBlank hblank

theorem head_text (op : BinaryConst) : ∃ x cs, op.text.toList = x :: cs ∧ x ≠ '(' ∧ x ≠ ')' := by
  cases op <;> exact ⟨_, _, rfl, by decide, by decide⟩

theorem OpAt.stops (h : OpAt t e o q) (hn : n ≤ precedence o) : Stops t n e := by
  obtain ⟨x, cs, hx, hcall, -⟩ := head_text o
  refine .of_char ((hx ▸ h.word) 0 x rfl) (.inr h.before) hcall fun op hop => not_wordAt_of_clash h.word ?_
  have hne : precedence op ≠ precedence o := by omega
  revert hne
  cases op <;> cases o <;> decide

/-! ### Operators -/

/-- The operators of a precedence, in the order in which they are tried. -/
def wordsOf (n : Nat) : List String := constantLevels.getD n []

theorem mem_wordsOf {w : String} (hn : n < 6) (h : w ∈ wordsOf n) : ∃ op, precedence op = n ∧ w = op.text := by
  have hall : ∀ n < 6, ∀ w ∈ wordsOf n, ∃ op ∈ BinaryConst.all, precedence op = n ∧ w = op.text := by decide
  obtain ⟨op, -, hop⟩ := hall n hn w h
  exact ⟨op, hop⟩

theorem OpAt.word_blank (h : OpAt t e o q) : ∃ x ∈ lineBlanks, WordAt t (skip t e) (o.text.toList ++ [x]) := by
  have hrun : IsRun lineBlanks.contains t (skip t e + o.text.length) q := h.next ▸ isRun_run _ t _
  obtain ⟨x, hx, hblank⟩ := hrun.inside _ (Nat.le_refl _) h.behind
  refine ⟨x, by simpa using hblank, fun i y hy => ?_⟩
  rw [List.getElem?_append] at hy
  split at hy
  · exact h.word i y hy
  · next hi =>
    obtain ⟨hi', rfl⟩ := List.getElem?_eq_some_iff.1 hy
    rw [String.length_toList] at hi hi'
    simp only [List.length_singleton] at hi'
    obtain rfl : i = o.text.length := by omega
    simpa using hx

/-- The operator is read, and nothing that starts in the same way: the blank behind it is part of no operator. -/
theorem OpAt.takes (h : OpAt t e o q) : (oneOf lineBlanks "" (wordsOf (precedence o))).Takes t live (skip t e) [] o.text
    (skip t e + o.text.length) := by
  obtain ⟨x, hx, hword⟩ := h.word_blank
  have hfind : (wordsOf (precedence o)).find? (hasWord t (skip t e)) = some o.text := by
    rw [List.find?_eq_some_iff_append]
    refine ⟨by simpa [hasWord] using slice_eq_iff.2 h.word, (wordsOf (precedence o)).takeWhile (· != o.text),
      ((wordsOf (precedence o)).dropWhile (· != o.text)).tail, by cases o <;> decide, fun w hw => ?_⟩
    have hclash : (lineBlanks.all fun x => ((wordsOf (precedence o)).takeWhile (· != o.text)).all fun w =>
        clash (o.text.toList ++ [x]) w.toList) = true := by
      cases o <;> decide
    have hno := not_wordAt_of_clash hword (List.all_eq_true.1 (List.all_eq_true.1 hclash x hx) w hw)
    simpa [hasWord] using fun hslice => hno (slice_eq_iff.1 hslice)
  have htakes : (oneOf lineBlanks "" (wordsOf (precedence o))).Takes t live (skip t e) []
      (slice t (skip t e) (skip t e + o.text.length)) (skip t e + o.text.length) :=
    pattern_takes (run_le_size (h.stops (Nat.zero_le _)).le) (by rw [hfind]; rfl)
  rwa [slice_eq_iff.2 h.word] at htakes

/-! ### Levels -/

/-- The rule for expressions with operators of a precedence below `n`, nested at most `d` deep. -/
def levelRule (d : Nat) : Nat → Rule Step Operand
  | 0 => constantUnary (constantRules d).1 (constantRules d).2
  | n + 1 => constantLevel n (wordsOf n) (levelRule d n)

theorem constantRules_succ (d : Nat) : constantRules (d + 1) = (levelRule d 0, levelRule d 6) := by
  simp only [constantRules, constantBinary, constantLevels, List.foldl_cons, List.foldl_nil, levelRule, wordsOf,
    List.getD_cons_zero, List.getD_cons_succ]

theorem levelRule_zero (d : Nat) : levelRule (d + 1) 0 = constantUnary (levelRule d 0) (levelRule d 6) := by
  rw [levelRule, constantRules_succ]

theorem levelRule_succ (d n : Nat) : levelRule d (n + 1) =
    .chain lineBlanks (levelRule d n) (oneOf lineBlanks "" (wordsOf n)) fun p a rest =>
      (⟨⟨.level n, p, true⟩, none, .chain a rest⟩, .expr ⟨.level n, p, true⟩) := rfl

theorem levelRule_misses (hq : q ≤ t.size) (hsolid : Solid t q) (h : NoOperand t q) (n : Nat) :
    (levelRule d n).Misses t q := by
  induction n with
  | zero => exact constantUnary_misses hq hsolid h
  | succ n ih =>
    rw [levelRule_succ]
    exact chain_misses hsolid ih

/-- An operator of a precedence with its operand. -/
def pairRule (d n : Nat) : Rule Step (String × Operand) :=
  .pair (oneOf lineBlanks "" (wordsOf n)) (levelRule d n)

theorem OpAt.pair {S : List Step} {a : Operand} (h : OpAt t e o q) (hn : precedence o = n)
    (hr : (levelRule d n).Takes t live q S a e₁) (skipping : Bool) :
    (pairRule d n).read t live skipping e = ⟨S, .matched (o.text, a) e₁⟩ :=
  pair_takes (S := []) (hn ▸ h.takes) hr rfl h.next

theorem Stops.pair_missed (h : Stops t (n + 1) e) (hn : n < 6) (live : Bool) :
    ((pairRule d n).read t live true e).Missed := by
  refine Reply.Missed.closed ?_ ""
  rw [start_true, skipBlanks_nil]
  have hle : skip t e ≤ t.size := run_le_size h.le
  cases hfind : (wordsOf n).find? (hasWord t (skip t e)) with
  | none => exact (pattern_misses hle (by rw [hfind]; rfl) live true e rfl).andThen _
  | some w =>
    obtain ⟨op, hop, rfl⟩ := mem_wordsOf hn (List.mem_of_find?_eq_some hfind)
    have hword : WordAt t (skip t e) op.text.toList := slice_eq_iff.1 (by simpa [hasWord] using List.find?_some hfind)
    have hread : (oneOf lineBlanks "" (wordsOf n)).read t live true e = ⟨[], .matched _ _⟩ :=
      pattern_takes hle (by rw [hfind]; rfl) true e rfl
    obtain ⟨x, cs, hx, -⟩ := head_text op
    have hend : skip t e + op.text.length ≤ t.size := by
      rw [← String.length_toList]
      exact hword.le_size (by simp [hx])
    dsimp only
    rw [hread, matched_andThen]
    have hmiss := levelRule_misses (d := d) (run_le_size hend) (solid_skip t _) (h.operator op (by omega) hword) n
    exact (hmiss live true _ rfl).andThen _

/-! ### Readings -/

/-- The mark is of a phrase from `q` to `e`.  At `q` itself stand only prefix operators and lower levels. -/
def Inside (n q e : Nat) (m : Mark) : Prop :=
  q ≤ m.place ∧ m.place < e ∧ (m.place = q → m.phrase = .negation ∨ ∃ k < n, m.phrase = .level k)

theorem Inside.mono {n' e' : Nat} {m : Mark} (h : Inside n q e m) (hn : n ≤ n') (he : e ≤ e') : Inside n' q e' m :=
  ⟨h.1, Nat.lt_of_lt_of_le h.2.1 he, fun hm => (h.2.2 hm).imp id fun hk => hk.imp fun _ hk =>
    ⟨Nat.lt_of_lt_of_le hk.1 hn, hk.2⟩⟩

theorem Inside.ne_level {m : Mark} (h : Inside n q e m) : m ≠ ⟨.level n, q, true⟩ := by
  rintro rfl
  rcases h.2.2 rfl with hphrase | ⟨k, hk, hphrase⟩
  · cases hphrase
  · cases hphrase
    exact Nat.lt_irrefl _ hk

/-- The rule reads the expression from `q` to `e`, with and without taking steps, and the steps build it. -/
structure Reading (names : Dict ValueId) (t : Chars) (d n q e : Nat) (c : Const) (S : List Step)
    (M : List (Mark × Const)) (a a' : Operand) : Prop where
  lt : q < e
  solid : Solid t q
  live : (levelRule d n).Takes t true q S a e
  ahead : (levelRule d n).Takes t false q [] a' e
  builds : Builds names S M [(a, c)]
  inside : ∀ x ∈ M, Inside n q e x.1

/-- If the text stops there, the expression from `q` to `e` is read by the rule of the level. -/
def Parsed (names : Dict ValueId) (t : Chars) (d n q e : Nat) (c : Const) : Prop :=
  Stops t n e → ∃ S M a a', Reading names t d n q e c S M a a'

/-- Operators with operands of a level stand behind `e₀` up to `e`. -/
inductive Tail (names : Dict ValueId) (t : Chars) (d n : Nat) : Nat → Nat → List (BinaryConst × Const) → Prop
  | nil {e : Nat} : Tail names t d n e e []
  | cons {e₀ q e₁ e : Nat} {op : BinaryConst} {b : Const} {l : List (BinaryConst × Const)} (hop : OpAt t e₀ op q)
    (hb : Parsed names t d n q e₁ b) (h : Tail names t d n e₁ e l) : Tail names t d n e₀ e ((op, b) :: l)

theorem Tail.stops (h : Tail names t d n e₀ e l) (hl : ∀ y ∈ l, n ≤ precedence y.1) (hstops : Stops t n e) :
    Stops t n e₀ := by
  cases h with
  | nil => exact hstops
  | cons hop => exact hop.stops (hl _ List.mem_cons_self)

/-- The operators of a precedence behind `e₀` are read with their operands up to `e`. -/
structure TailReading (names : Dict ValueId) (t : Chars) (d n e₀ e : Nat) (S : List Step)
    (M : List (Mark × Const)) (x : List (BinaryConst × Operand × Const)) (x' : List (String × Operand)) : Prop where
  le : e₀ ≤ e
  length : x'.length = x.length
  live : ∀ fuel, t.size < e₀ + fuel →
    Rule.repeated (pairRule d n) t true fuel e₀ = ⟨S, .matched (x.map fun y => (y.1.text, y.2.1)) e⟩
  ahead : ∀ fuel, t.size < e₀ + fuel → Rule.repeated (pairRule d n) t false fuel e₀ = ⟨[], .matched x' e⟩
  builds : Builds names S M (x.map (·.2))
  inside : ∀ x ∈ M, e₀ ≤ x.1.place ∧ x.1.place < e

theorem Tail.reading (hn : n < 6) (h : Tail names t d n e₀ e l) (hl : ∀ y ∈ l, precedence y.1 = n)
    (hstops : Stops t (n + 1) e) : ∃ S M x x', TailReading names t d n e₀ e S M x x' ∧
      x.map (fun y => (y.1, y.2.2)) = l := by
  induction h with
  | nil =>
    refine ⟨[], [], [], [], ⟨Nat.le_refl _, rfl, fun fuel _ => ?_, fun fuel _ => ?_, builds_nil (by simp), by simp⟩, rfl⟩
    · exact repeated_missed (hstops.pair_missed hn true) fuel
    · exact repeated_missed (hstops.pair_missed hn false) fuel
  | @cons e₀ q e₁ e op b l hop hb h ih =>
    obtain ⟨hprec, hl⟩ := List.forall_mem_cons.1 hl
    obtain ⟨S₁, M₁, a, a', hr⟩ := hb (h.stops (fun y hy => (hl y hy).ge) (hstops.mono (Nat.le_succ n)))
    obtain ⟨S₂, M₂, x, x', hx, rfl⟩ := ih hl hstops
    have hle := (hop.stops (Nat.zero_le _)).le
    have hbefore := hop.before
    have hbehind := hop.behind
    have hlt := hr.lt
    have hle' := hx.le
    have hfuel : ∀ {fuel}, t.size < e₀ + fuel → ∃ k, fuel = k + 1 ∧ t.size < e₁ + k :=
      fun {fuel} hfuel => ⟨fuel - 1, by omega, by omega⟩
    refine ⟨S₁ ++ S₂, M₁ ++ M₂, (op, a, b) :: x, (op.text, a') :: x',
      ⟨by omega, congrArg (· + 1) hx.length, fun fuel h => ?_, fun fuel h => ?_, ?_, fun y hy => ?_⟩, rfl⟩
    · obtain ⟨k, rfl, hk⟩ := hfuel h
      exact repeated_matched (hop.pair hprec hr.live true) (hx.live k hk)
    · obtain ⟨k, rfl, hk⟩ := hfuel h
      exact repeated_matched (hop.pair hprec hr.ahead true) (hx.ahead k hk)
    · exact hr.builds.append hx.builds fun y hy z hz heq =>
        Nat.not_lt.2 (hx.inside z hz).1 (heq ▸ (hr.inside y hy).2.1)
    · rcases List.mem_append.1 hy with hy | hy
      · obtain ⟨hplace, hplace', -⟩ := hr.inside y hy
        omega
      · have hplace := hx.inside y hy
        omega

/-- Operands of one level with its operators between them are an expression of the next level. -/
theorem Parsed.chain (hn : n < 6) (h : Parsed names t d n q e₁ c) (htail : Tail names t d n e₁ e l)
    (hl : ∀ y ∈ l, precedence y.1 = n) : Parsed names t d (n + 1) q e (leftFold c l) := by
  intro hstops
  obtain ⟨S, M, a, a', hr⟩ := h (htail.stops (fun y hy => (hl y hy).ge) (hstops.mono (Nat.le_succ n)))
  obtain ⟨S', M', x, x', hx, rfl⟩ := htail.reading hn hl hstops
  have hlt := hr.lt
  have hle := hx.le
  cases x with
  | nil =>
    cases htail
    have htakes := levelRule_succ d n ▸ chain_single hr.solid hr.live hr.ahead (hstops.pair_missed hn)
    exact ⟨S, M, a, a', hlt, hr.solid, htakes.1, htakes.2, hr.builds, fun y hy =>
      (hr.inside y hy).mono (Nat.le_succ n) hle⟩
  | cons y x =>
    obtain ⟨y', x', rfl⟩ := List.exists_cons_of_length_eq_add_one hx.length
    have htakes := levelRule_succ d n ▸ chain_several hr.live hr.ahead (hx.live _ (by omega)) (hx.ahead _ (by omega))
    have hbuilds := hr.builds.append hx.builds fun y hy z hz heq =>
      Nat.not_lt.2 (hx.inside z hz).1 (heq ▸ (hr.inside y hy).2.1)
    refine ⟨_, _, _, a', by omega, hr.solid, htakes.1, htakes.2, Builds.chain (x := y :: x) hbuilds fun z hz => ?_,
      fun z hz => ?_⟩
    · rcases List.mem_append.1 hz with hz | hz
      · exact (hr.inside z hz).ne_level
      · exact fun heq => Nat.not_le.2 hlt ((hx.inside z hz).1.trans_eq (congrArg Mark.place heq))
    · rcases List.mem_append.1 hz with hz | hz
      · rcases List.mem_append.1 hz with hz | hz
        · exact (hr.inside z hz).mono (Nat.le_succ n) hle
        · have hplace := hx.inside z hz
          exact ⟨by omega, by omega, fun _ => by omega⟩
      · obtain rfl := List.mem_singleton.1 hz
        exact ⟨Nat.le_refl q, Nat.lt_of_lt_of_le hlt hle, fun _ => .inr ⟨n, Nat.lt_succ_self n, rfl⟩⟩

/-- Joining the operands of one precedence goes from one level to the next. -/
theorem Tail.join (hn : n < 6) (h : Tail names t d n e₀ e l) (hl : ∀ y ∈ l, n ≤ precedence y.1) :
    ∃ l₁ e₁ l₂, Tail names t d n e₀ e₁ l₁ ∧ (∀ y ∈ l₁, precedence y.1 = n) ∧ (∀ c, join n c l = (leftFold c l₁, l₂)) ∧
      Tail names t d (n + 1) e₁ e l₂ ∧ ∀ y ∈ l₂, n + 1 ≤ precedence y.1 := by
  -- The induction is from the right: what is joined in front of an operator does not depend on the first operand.
  induction h with
  | nil => exact ⟨[], _, [], .nil, by simp, fun c => rfl, .nil, by simp⟩
  | @cons e₀ q e' e op b l hop hb h ih =>
    obtain ⟨hprec, hl⟩ := List.forall_mem_cons.1 hl
    obtain ⟨l₁, e₁, l₂, htail₁, hl₁, hjoin, htail₂, hl₂⟩ := ih hl
    by_cases heq : precedence op = n
    · refine ⟨(op, b) :: l₁, e₁, l₂, .cons hop hb htail₁, List.forall_mem_cons.2 ⟨heq, hl₁⟩, fun c => ?_, htail₂, hl₂⟩
      rw [Elaborate.join, if_pos heq, hjoin]
      rfl
    · refine ⟨[], e₀, (op, leftFold b l₁) :: l₂, .nil, by simp, fun c => ?_, .cons hop (hb.chain hn htail₁ hl₁) htail₂,
        List.forall_mem_cons.2 ⟨Nat.lt_of_le_of_ne hprec (Ne.symm heq), hl₂⟩⟩
      rw [Elaborate.join, if_neg heq, hjoin]
      rfl

theorem Parsed.joinBelow (h : Parsed names t d 0 q e₀ c) (htail : Tail names t d 0 e₀ e l) (hn : n ≤ 6) :
    ∃ e₁, Parsed names t d n q e₁ (joinBelow n c l).1 ∧ Tail names t d n e₁ e (joinBelow n c l).2 ∧
      ∀ y ∈ (joinBelow n c l).2, n ≤ precedence y.1 := by
  induction n with
  | zero => exact ⟨e₀, h, htail, fun _ _ => Nat.zero_le _⟩
  | succ n ih =>
    obtain ⟨e₁, hfirst, htail, hl⟩ := ih (by omega)
    obtain ⟨l₁, e₂, l₂, htail₁, hl₁, hjoin, htail₂, hl₂⟩ := htail.join (by omega) hl
    rw [Elaborate.joinBelow, hjoin]
    exact ⟨e₂, hfirst.chain (by omega) htail₁ hl₁, htail₂, hl₂⟩

/-- Operands with operators between them are a whole expression. -/
theorem Parsed.tree (h : Parsed names t d 0 q e₀ c) (htail : Tail names t d 0 e₀ e l) :
    Parsed names t d 6 q e (tree c l) := by
  obtain ⟨e₁, hfirst, hrest, hl⟩ := h.joinBelow htail (Nat.le_refl 6)
  rw [Elaborate.tree]
  generalize (Elaborate.joinBelow 6 c l).2 = l' at hrest hl
  cases hrest with
  | nil => exact hfirst
  | @cons _ _ _ _ op =>
    have hprec : precedence op < 6 := by cases op <;> decide
    exact absurd (hl _ List.mem_cons_self) (Nat.not_le.2 hprec)

/-! ### Operands -/

theorem slice_head {x : Char} (hx : t[q]? = some x) (h : q < e) : ∃ xs, (slice t q e).toList = x :: xs := by
  have hhead := getElem?_slice t q e 0
  rw [Nat.add_zero, if_pos h, hx] at hhead
  cases hslice : (slice t q e).toList with
  | nil => simp [hslice] at hhead
  | cons y xs =>
    rw [hslice] at hhead
    cases hhead
    exact ⟨xs, rfl⟩

/-- A name or a number is read as it stands. -/
theorem Parsed.atom (hlt : q < e) (hatom : atomEnd t q = some e)
    (hchars : ∀ j, q ≤ j → j < e → ∃ x, t[j]? = some x ∧ (x = 'C' ∨ isDigit x = true))
    (hc : ∀ s : Session, s.names = names → Denotes s (.word q (slice t q e)) c) : Parsed names t d 0 q e c := by
  have hblank : ∀ {x}, x = 'C' ∨ isDigit x = true → lineBlanks.contains x = false := by
    rintro x (rfl | hx)
    · decide
    · exact lineBlank_of_digit hx
  have hother : ∀ {x y}, x = 'C' ∨ isDigit x = true → isDigit y = false → y ≠ 'C' → x ≠ y := by
    rintro x y (rfl | hx) hy hne rfl
    · exact hne rfl
    · rw [hx] at hy
      cases hy
  obtain ⟨x, hx, hcls⟩ := hchars q (Nat.le_refl q) hlt
  have hsolid := solid_of_char hx (hblank hcls)
  intro hstops
  have htakes : ∀ live, (levelRule d 0).Takes t live q [] (.word q (slice t q e)) e := by
    refine fun live => constantUnary_atom hsolid (Array.getElem?_eq_some_iff.1 hx).1 (negationEnd_none fun y hy => ?_)
      (fun r hr => ?_) hatom
    · obtain rfl := Option.some.inj (hx.symm.trans hy)
      exact ⟨hother hcls (by decide) (by decide), hother hcls (by decide) (by decide)⟩
    · -- The run of name characters ends at `e`, or before it at a digit of another script.
      have hrun : IsRun isNameChar t q r := by
        have hrun := isRun_run isNameChar t q
        simp only [run1] at hr
        split at hr
        · rwa [← Option.some.inj hr]
        · cases hr
      rcases Nat.lt_trichotomy r e with hre | rfl | hre
      · obtain ⟨y, hy, hcls'⟩ := hchars r hrun.le hre
        rw [show skip t r = r from solid_of_char hy (hblank hcls'), hy]
        exact fun heq => hother hcls' (by decide) (by decide) (Option.some.inj heq)
      · exact hstops.call
      · obtain ⟨y, hy, hname⟩ := hrun.inside e hlt.le hre
        rw [hstops.name y hy] at hname
        cases hname
  refine ⟨[], [], _, _, hlt, hsolid, htakes true, htakes false, builds_nil fun s hs x hx => ?_, by simp⟩
  obtain rfl := List.mem_singleton.1 hx
  exact hc s hs

theorem Parsed.unary {op : UnaryConst} (hop : WordAt t q op.text.toList)
    (hneg : op = .neg → ∀ x, t[run isSpace t (q + 1)]? = some x → isDigit x = false)
    (h : Parsed names t d 0 (skip t (q + 1)) e c) : Parsed names t (d + 1) 0 q e (.unary op c) := by
  intro hstops
  obtain ⟨S, M, a, a', hr⟩ := h hstops
  have hlt := hr.lt
  have hskip := le_skip t (q + 1)
  obtain ⟨x, hx, hblank, hlen, hend⟩ : ∃ x, t[q]? = some x ∧ lineBlanks.contains x = false ∧ op.text.length = 1 ∧
      negationEnd t q = some (q + 1) := by
    cases op with
    | not =>
      have hchar : t[q]? = some '~' := hop 0 '~' rfl
      exact ⟨'~', hchar, by decide, rfl, by rw [negationEnd, hchar]; rfl⟩
    | neg =>
      have hchar : t[q]? = some '-' := hop 0 '-' rfl
      exact ⟨'-', hchar, by decide, rfl, by rw [negationEnd, hchar]; simp [run1_none (hneg rfl)]⟩
  obtain ⟨hlive, hahead⟩ := constantUnary_prefix (levelRule d 6) (Array.getElem?_eq_some_iff.1 hx).1 hend
    (hlen ▸ slice_eq_iff.2 hop) hr.live hr.ahead
  rw [← levelRule_zero] at hlive hahead
  refine ⟨_, _, _, a', by omega, solid_of_char hx hblank, hlive, hahead, hr.builds.negation fun y hy heq => ?_,
    fun y hy => ?_⟩
  · exact Nat.not_le.2 hskip ((hr.inside y hy).1.trans_eq (congrArg Mark.place heq))
  · rcases List.mem_append.1 hy with hy | hy
    · obtain ⟨hplace, hplace', -⟩ := hr.inside y hy
      exact ⟨by omega, by omega, fun _ => by omega⟩
    · obtain rfl := List.mem_singleton.1 hy
      exact ⟨Nat.le_refl q, Nat.lt_trans hskip hlt, fun _ => .inl rfl⟩

theorem Parsed.group (hopen : t[q]? = some '(') (h : Parsed names t d 6 (skip t (q + 1)) e c)
    (hclose : t[skip t e]? = some ')') : Parsed names t (d + 1) 0 q (skip t e + 1) c := by
  intro _
  have hinner : Stops t 6 e := .of_char hclose (.inl (by decide)) (by decide) fun op _ hword => by
    obtain ⟨x, cs, hx, -, hne⟩ := head_text op
    exact hne (Option.some.inj (((hx ▸ hword) 0 x rfl).symm.trans hclose))
  obtain ⟨S, M, a, a', hr⟩ := h hinner
  have hlt := hr.lt
  have hskip := le_skip t (q + 1)
  have hskip' := le_skip t e
  have htakes : ∀ {live S a}, (levelRule d 6).Takes t live (skip t (q + 1)) S a e →
      (levelRule (d + 1) 0).Takes t live q S a (skip t e + 1) := by
    intro live S a h
    rw [levelRule_zero]
    exact constantUnary_group hopen hclose h
  refine ⟨S, M, a, a', by omega, solid_of_char hopen (by decide), htakes hr.live, htakes hr.ahead, hr.builds,
    fun y hy => ?_⟩
  obtain ⟨hplace, hplace', -⟩ := hr.inside y hy
  exact ⟨by omega, by omega, fun _ => by omega⟩

/-- The operands of a sequence are read by the rules of every depth that is not less than its length. -/
theorem Sequence.parsed (h : Sequence names t q e c l) (d : Nat) (hd : e ≤ q + d) :
    ∃ e₀, Parsed names t d 0 q e₀ c ∧ Tail names t d 0 e₀ e l := by
  induction h generalizing d with
  | @symbol q e hc hdigits hname =>
    have hrun : IsRun isDigit t (q + 1) e := hdigits ▸ isRun_run isDigit t _
    refine ⟨e, .atom hrun.le ?_ (fun j hj hlt => ?_) fun s hs => ?_, .nil⟩
    · rw [atomEnd, hc]
      exact congrArg some hdigits
    · rcases Nat.eq_or_lt_of_le hj with rfl | hj
      · exact ⟨'C', hc, .inl rfl⟩
      · exact (hrun.inside j hj hlt).imp fun _ h => ⟨h.1, .inr h.2⟩
    · obtain ⟨ds, hds⟩ := slice_head hc hrun.le
      exact denotes_symbol q hds (hs ▸ hname)
  | @literal q e n hdigits hlt hn =>
    have hrun : IsRun isDigit t q e := hdigits ▸ isRun_run isDigit t _
    obtain ⟨x, hx, hdigit⟩ := hrun.inside q (Nat.le_refl q) hlt
    have hhead : ∀ {y}, t[q]? = some y → isDigit y = true := fun hy => Option.some.inj (hx.symm.trans hy) ▸ hdigit
    refine ⟨e, .atom hlt ?_ (fun j hj hlt => ?_) fun s hs => ?_, .nil⟩
    · simp only [atomEnd]
      split
      · next hy => exact absurd (hhead hy) (by decide)
      · next hy => exact absurd (hhead hy) (by decide)
      · next hy => exact absurd (hhead hy) (by decide)
      · simp only [run1, hdigits]
        exact if_pos hlt
    · exact (hrun.inside j hj hlt).imp fun _ h => ⟨h.1, .inr h.2⟩
    · obtain ⟨ds, hds⟩ := slice_head hx hlt
      exact denotes_literal q hds hdigit hn
  | @unary q e op c hop hneg h ih =>
    have hlt := h.lt
    have hskip := le_skip t (q + 1)
    obtain ⟨d, rfl⟩ : ∃ k, d = k + 1 := ⟨d - 1, by omega⟩
    obtain ⟨e₀, hfirst, htail⟩ := ih d (by omega)
    cases htail
    exact ⟨e, hfirst.unary hop hneg, .nil⟩
  | @group q e c l hopen h hclose ih =>
    have hlt := h.lt
    have hskip := le_skip t (q + 1)
    have hskip' := le_skip t e
    obtain ⟨d, rfl⟩ : ∃ k, d = k + 1 := ⟨d - 1, by omega⟩
    obtain ⟨e₀, hfirst, htail⟩ := ih d (by omega)
    exact ⟨_, (hfirst.tree htail).group hopen hclose, .nil⟩
  | more h hop h' ih ih' =>
    have hlt := h.lt
    have hlt' := h'.lt
    have hbefore := hop.before
    have hbehind := hop.behind
    obtain ⟨e₀, hfirst, htail⟩ := ih d (by omega)
    obtain ⟨e₁, hsecond, htail'⟩ := ih' d (by omega)
    cases htail
    exact ⟨_, hfirst, .cons hop hsecond htail'⟩

theorem stops_size (t : Chars) (n : Nat) : Stops t n t.size := by
  have hnone : ∀ {j x}, t.size ≤ j → t[j]? ≠ some x := fun hj hx =>
    Nat.not_lt.2 hj (Array.getElem?_eq_some_iff.1 hx).1
  refine ⟨Nat.le_refl _, fun x hx => (hnone (Nat.le_refl _) hx).elim, hnone (le_skip _ _), fun op _ hword => ?_⟩
  obtain ⟨x, cs, hx, -⟩ := head_text op
  exact (hnone (le_skip _ _) ((hx ▸ hword) 0 x rfl)).elim

/-- **Constant expressions are read by precedence and from left to right.**  A sequence of operands and operators is read
to its end, and the steps that this takes build its tree, in every session that is not in a source program.  The steps
may have been done before, for a phrase that has been read there already: what their marks recall is used. -/
theorem constantExpr_tree (h : Sequence names t q e c l) (hend : Stops t 6 e) : ∃ S M a,
    (∀ skipping p, Rule.start lineBlanks t skipping p = q →
      (constantExpr t.size).read t true skipping p = ⟨S, .matched a e⟩) ∧ S.map (·.mark) = M.map (·.1) ∧
    ∀ s : Session, s.phase ≠ .source → s.names = names → Recalls names M s →
      ∃ s₁, Gives (S.forM Step.perform) s () s₁ ∧ ∀ s₂, Later s₁ s₂ → Recalls names M s₂ ∧
        ∃ i s₃, Gives (constant a) s₂ i s₃ ∧ Spells names s₃.table i (tree c l) := by
  have hle := hend.le
  obtain ⟨e₀, hfirst, htail⟩ := h.parsed (t.size + 1) (by omega)
  obtain ⟨S, M, a, a', hr⟩ := hfirst.tree htail hend
  refine ⟨S, M, a, fun skipping p hp => ?_, hr.builds.marks, fun s hphase hs hrecalls => ?_⟩
  · rw [constantExpr, constantRules_succ]
    exact hr.live skipping p hp
  · obtain ⟨s₁, hgives, hlater, hstands, -, hl⟩ := hr.builds.run s hphase hs hrecalls
    refine ⟨s₁, hgives, fun s₂ h₂ => ⟨fun x hx => .inr ((hstands x hx).later h₂), ?_⟩⟩
    obtain ⟨i, s₃, hi, -, -, hspells⟩ := hl _ List.mem_cons_self s₂ h₂
    exact ⟨i, s₃, hi, hs ▸ hlater.names ▸ hspells⟩

/-- A text with operators of two precedences. -/
def mixed : Chars := "C - 2 * ~C".toList.toArray

def mixedNames : Dict ValueId := Dict.put [] "C" 0

theorem mixed_tree : ∃ S M a,
    (∀ skipping p, Rule.start lineBlanks mixed skipping p = 0 →
      (constantExpr 10).read mixed true skipping p = ⟨S, .matched a 10⟩) ∧ S.map (·.mark) = M.map (·.1) ∧
    ∀ s : Session, s.phase ≠ .source → s.names = mixedNames → Recalls mixedNames M s →
      ∃ s₁, Gives (S.forM Step.perform) s () s₁ ∧ ∀ s₂, Later s₁ s₂ → Recalls mixedNames M s₂ ∧
        ∃ i s₃, Gives (constant a) s₂ i s₃ ∧ Spells mixedNames s₃.table i
          (.binary .sub (.symbol "C") (.binary .mul (.literal 2) (.unary .not (.symbol "C")))) := by
  have hsub : OpAt mixed 1 .sub 4 := ⟨by decide, slice_eq_iff.1 (by decide), by decide, by decide⟩
  have hmul : OpAt mixed 5 .mul 8 := ⟨by decide, slice_eq_iff.1 (by decide), by decide, by decide⟩
  have hsymbol : Sequence mixedNames mixed 0 1 (.symbol "C") [] := .symbol rfl rfl rfl
  have hliteral : Sequence mixedNames mixed 4 5 (.literal 2) [] := .literal rfl (by decide) (by decide)
  have hnot : Sequence mixedNames mixed 8 10 (.unary .not (.symbol "C")) [] :=
    .unary (slice_eq_iff.1 (by decide)) nofun (.symbol (q := 9) rfl rfl rfl)
  exact constantExpr_tree (.more hsymbol hsub (.more hliteral hmul hnot)) (stops_size mixed 6)

end Peephole.Elaborate
