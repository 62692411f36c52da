import Peephole.Proofs.Encode.Constant

/-!
# What steps build

The steps that are recorded for a constant expression build one value for each of its operators.  What a step found is
kept under its mark, so that a phrase that is read again is not built again.

* `Spells` : a value of a table is an expression.
* `Builds` : **in every session the steps give operands that stand for expressions, from now on**, whether they are done
  now or were done before.
* `Builds.append`, `Builds.chain`, `Builds.negation` : how it is put together.
-/

namespace Peephole.Elaborate

open Peephole.Program
open Peephole.Reader (Act Mark Operand Step)
open Peephole.Encode (Const)

variable {α β : Type} {names : Dict ValueId} {s s₁ s₂ s' : Session} {o : Operand} {c : Const} {m : Mark} {i : ValueId}

/-! ### Sessions -/

/-- The computation gives the value and leads from one session to another. -/
def Gives (x : SessionM α) (s : Session) (a : α) (s' : Session) : Prop := x.run.run s = (.ok a, s')

theorem Gives.bind {x : SessionM α} {f : α → SessionM β} {a : α} {b : β} (h : Gives x s a s₁)
    (hf : Gives (f a) s₁ b s₂) : Gives (x >>= f) s b s₂ := by
  unfold Gives at *
  rw [ExceptT.run_bind, StateT.run_bind, h]
  exact hf

/-- The value is the expression; constant symbols are known by their names. -/
inductive Spells (names : Dict ValueId) (t : Table) : ValueId → Const → Prop
  | symbol {i : ValueId} {x : String} (h : names.get? x = some i) : Spells names t i (.symbol x)
  | literal {i : ValueId} {n : Int} (hi : i < t.values.size) (hop : (t.get i).op = .literal n) :
    Spells names t i (.literal n)
  | unary {i x : ValueId} {op : UnaryConst} {a : Const} (hi : i < t.values.size) (hop : (t.get i).op = .unary op x)
    (ha : Spells names t x a) : Spells names t i (.unary op a)
  | binary {i x y : ValueId} {op : BinaryConst} {a b : Const} (hi : i < t.values.size)
    (hop : (t.get i).op = .binary op x y) (ha : Spells names t x a) (hb : Spells names t y b) :
    Spells names t i (.binary op a b)

def found (s : Session) (m : Mark) : Option (Mark × Meaning) := s.done.find? fun d => d.1 == m

/-- What a session has found is still there in a later one. -/
structure Later (s s' : Session) : Prop where
  phase : s'.phase = s.phase
  names : s'.names = s.names
  table : ∀ i < s.table.values.size, i < s'.table.values.size ∧ s'.table.get i = s.table.get i
  done : ∀ m d, found s m = some d → found s' m = some d

theorem Later.refl (s : Session) : Later s s := ⟨rfl, rfl, fun _ hi => ⟨hi, rfl⟩, fun _ _ h => h⟩

theorem Later.trans (h : Later s s₁) (h' : Later s₁ s₂) : Later s s₂ := by
  refine ⟨h'.phase.trans h.phase, h'.names.trans h.names, fun i hi => ?_, fun m d hd => h'.done m d (h.done m d hd)⟩
  obtain ⟨hi₁, heq⟩ := h.table i hi
  exact ⟨(h'.table i hi₁).1, (h'.table i hi₁).2.trans heq⟩

theorem Spells.later (h : Spells names s.table i c) (hs : Later s s') : Spells names s'.table i c := by
  induction h with
  | symbol h => exact .symbol h
  | literal hi hop => exact .literal (hs.table _ hi).1 ((hs.table _ hi).2 ▸ hop)
  | unary hi hop _ ih => exact .unary (hs.table _ hi).1 ((hs.table _ hi).2 ▸ hop) ih
  | binary hi hop _ _ ih ih' => exact .binary (hs.table _ hi).1 ((hs.table _ hi).2 ▸ hop) ih ih'

/-! ### New values -/

/-- The computation puts a value with the operation behind the others. -/
def Adds (x : BuildM ValueId) (op : Op) : Prop :=
  ∀ t : Table, ∃ v t', x.run t = .ok (t.values.size, t') ∧ t'.values = t.values.push v ∧ v.op = op

theorem adds_newConstant (text : String) (op : Op) : Adds (newConstant text (.int none) op) op :=
  fun _ => ⟨_, _, rfl, rfl, rfl⟩

theorem adds_newUnary (op : UnaryConst) (i : ValueId) : Adds (newUnary op i) (.unary op i) :=
  fun t => adds_newConstant (op.text ++ (t.get i).name) _ t

theorem adds_newBinary (op : BinaryConst) (i j : ValueId) : Adds (newBinary op i j) (.binary op i j) :=
  fun t => adds_newConstant ("(" ++ (t.get i).name ++ " " ++ op.text ++ " " ++ (t.get j).name ++ ")") _ t

theorem Adds.gives {x : BuildM ValueId} {op : Op} (h : Adds x op) (s : Session) : ∃ i s', Gives (build x) s i s' ∧
    Later s s' ∧ s'.done = s.done ∧ i < s'.table.values.size ∧ (s'.table.get i).op = op := by
  obtain ⟨v, t, hx, hvalues, hop⟩ := h s.table
  refine ⟨s.table.values.size, { s with table := t }, ?_, ⟨rfl, rfl, fun i hi => ?_, fun _ _ h => h⟩, rfl, ?_, ?_⟩
  · refine Gives.bind (x := get) (a := s) rfl ?_
    rw [hx]
    rfl
  · simp [Table.get, hvalues, Array.getD, Array.getElem_push_lt hi, hi, Nat.lt_succ_of_lt hi]
  · simp [hvalues]
  · simp [Table.get, hvalues, Array.getD, hop]

/-! ### Operands -/

/-- The operand stands for the expression from now on. -/
def Denotes (s : Session) (o : Operand) (c : Const) : Prop :=
  ∀ s₁, Later s s₁ → ∃ i s₂, Gives (constant o) s₁ i s₂ ∧ Later s₁ s₂ ∧ s₂.done = s₁.done ∧
    Spells s.names s₂.table i c

theorem Denotes.later (h : Denotes s o c) (hs : Later s s') : Denotes s' o c := by
  intro s₁ h₁
  rw [hs.names]
  exact h s₁ (hs.trans h₁)

theorem denotes_symbol {w : String} {cs : List Char} (p : Nat) (hw : w.toList = 'C' :: cs)
    (hname : (s.names.get? w).isSome) : Denotes s (.word p w) (.symbol w) := by
  intro s₁ h₁
  obtain ⟨i, hi⟩ := Option.isSome_iff_exists.1 hname
  have hnumber : isNumber w = false := by
    simp only [isNumber, hw]
    decide
  have hregister : w.startsWith "%" = false := by
    rw [String.startsWith_string_eq_false_iff, hw]
    rintro ⟨cs, hcs⟩
    cases hcs
  obtain ⟨s₂, hs₂⟩ : ∃ s₂ : Session, s₂ =
    { s₁ with place := p, used := if s₁.used.contains w then s₁.used else w :: s₁.used } := ⟨_, rfl⟩
  have huse : Gives (useName? w) { s₁ with place := p } (some i) s₂ := by
    subst hs₂
    refine Gives.bind (x := get) (a := { s₁ with place := p }) rfl ?_
    rw [h₁.names.trans rfl, hi]
    rfl
  have hnote : Gives (note p) s₁ () { s₁ with place := p } := rfl
  have hlater : Later s₁ s₂ ∧ s₂.done = s₁.done := hs₂ ▸ ⟨⟨rfl, rfl, fun _ hi => ⟨hi, rfl⟩, fun _ _ h => h⟩, rfl⟩
  refine ⟨i, s₂, ?_, hlater.1, hlater.2, .symbol hi⟩
  simp only [constant, hnumber, hregister, Bool.false_eq_true, if_false]
  exact hnote.bind (huse.bind rfl)

theorem denotes_literal {w : String} {n : Nat} {x : Char} {xs : List Char} (p : Nat) (hw : w.toList = x :: xs)
    (hx : Text.isDigit x = true) (hn : Text.natural? w.toList = some n) : Denotes s (.word p w) (.literal n) := by
  intro s₁ h₁
  have hnumber : isNumber w = true := by
    rw [isNumber, hw]
    simp [hx]
  have hinteger : Text.integer? w.toList = some (n : Int) := by
    unfold Text.integer?
    split
    · next hminus =>
      rw [hw] at hminus
      cases hminus
      cases hx
    · rw [hn]
      rfl
  obtain ⟨i, s₂, hnew, hlater, hdone, hsize, hop⟩ := (adds_newConstant _ (.literal n)).gives s₁
  refine ⟨i, s₂, ?_, hlater, hdone, .literal hsize hop⟩
  simp only [constant, hnumber, if_true, numeral, hinteger]
  exact hnew

/-- What was found under the mark is a value that is the expression. -/
def Stands (names : Dict ValueId) (s : Session) (m : Mark) (c : Const) : Prop :=
  ∃ i, found s m = some (m, .value i) ∧ Spells names s.table i c

theorem Stands.later (h : Stands names s m c) (hs : Later s s') : Stands names s' m c :=
  h.imp fun _ hi => ⟨hs.done _ _ hi.1, hi.2.later hs⟩

theorem Stands.denotes (h : Stands s.names s m c) : Denotes s (.expr m) c := by
  intro s₁ h₁
  obtain ⟨i, hfound, hspells⟩ := h.later h₁
  have hmeaning : Gives (meaning m) s₁ (.value i) s₁ := by
    refine Gives.bind (x := get) (a := s₁) rfl ?_
    rw [show s₁.done.find? (fun d => d.1 == m) = _ from hfound]
    rfl
  exact ⟨i, s₁, hmeaning.bind rfl, .refl s₁, rfl, hspells⟩

/-! ### Steps -/

/-- The marks stand for expressions if there is anything under them. -/
def Recalls (names : Dict ValueId) (M : List (Mark × Const)) (s : Session) : Prop :=
  ∀ x ∈ M, found s x.1 = none ∨ Stands names s x.1 x.2

/-- The steps have the marks `M`.  In a session that is not in a source program, and where these marks recall nothing
else, they find the expression of each mark and nothing for other marks, and each operand stands for its expression. -/
structure Builds (names : Dict ValueId) (S : List Step) (M : List (Mark × Const)) (l : List (Operand × Const)) :
    Prop where
  marks : S.map (·.mark) = M.map (·.1)
  run : ∀ s, s.phase ≠ .source → s.names = names → Recalls names M s →
    ∃ s', Gives (S.forM Step.perform) s () s' ∧ Later s s' ∧ (∀ x ∈ M, Stands names s' x.1 x.2) ∧
      (∀ m, found s m = none → (∀ x ∈ M, x.1 ≠ m) → found s' m = none) ∧ ∀ x ∈ l, Denotes s' x.1 x.2

variable {S S' : List Step} {M M' : List (Mark × Const)} {l l' : List (Operand × Const)}

theorem builds_nil (h : ∀ s : Session, s.names = names → ∀ x ∈ l, Denotes s x.1 x.2) : Builds names [] [] l :=
  ⟨rfl, fun s _ hs _ => ⟨s, rfl, .refl s, by simp, fun _ hm _ => hm, h s hs⟩⟩

theorem Builds.append (h : Builds names S M l) (h' : Builds names S' M' l') (hapart : ∀ x ∈ M, ∀ y ∈ M', x.1 ≠ y.1) :
    Builds names (S ++ S') (M ++ M') (l ++ l') := by
  refine ⟨by rw [List.map_append, List.map_append, h.marks, h'.marks], fun s hphase hs hrecalls => ?_⟩
  obtain ⟨hM, hM'⟩ := List.forall_mem_append.1 hrecalls
  obtain ⟨s₁, hrun, hlater, hstands, hnone, hl⟩ := h.run s hphase hs hM
  obtain ⟨s₂, hrun', hlater', hstands', hnone', hl'⟩ := h'.run s₁ (hlater.phase ▸ hphase) (hlater.names.trans hs)
    fun y hy => (hM' y hy).imp (fun hy' => hnone _ hy' fun x hx => hapart x hx y hy) (·.later hlater)
  refine ⟨s₂, ?_, hlater.trans hlater', List.forall_mem_append.2 ⟨fun x hx => (hstands x hx).later hlater', hstands'⟩,
    fun m hm hMM => ?_, List.forall_mem_append.2 ⟨fun x hx => (hl x hx).later hlater', hl'⟩⟩
  · change Gives (forM (S ++ S') Step.perform) s () s₂
    rw [List.forM_append]
    exact hrun.bind hrun'
  · obtain ⟨hm₁, hm₂⟩ := List.forall_mem_append.1 hMM
    exact hnone' m (hnone m hm hm₁) hm₂

/-- A step that finds a value for the expression of its mark, if it is done. -/
theorem Builds.step {act : Act} (h : Builds names S M l) (hline : Act.endsLine act = false) (hm : ∀ x ∈ M, x.1 ≠ m)
    (hact : ∀ s, s.phase ≠ .source → s.names = names → (∀ x ∈ l, Denotes s x.1 x.2) → ∃ i s',
      Gives (Act.perform act) s (.value i) s' ∧ Later s s' ∧ s'.done = s.done ∧ Spells names s'.table i c) :
    Builds names (S ++ [⟨m, none, act⟩]) (M ++ [(m, c)]) [(.expr m, c)] := by
  refine ⟨by rw [List.map_append, List.map_append, h.marks]; rfl, fun s hphase hs hrecalls => ?_⟩
  obtain ⟨hM, hMm⟩ := List.forall_mem_append.1 hrecalls
  obtain ⟨s₁, hrun, hlater, hstands, hnone, hl⟩ := h.run s hphase hs hM
  have hnames := hlater.names.trans hs
  obtain ⟨s₂, hgives, hlater', hm₂, hnone'⟩ : ∃ s₂, Gives (Step.perform ⟨m, none, act⟩) s₁ () s₂ ∧ Later s₁ s₂ ∧
      Stands names s₂ m c ∧ ∀ m', m ≠ m' → found s₂ m' = found s₁ m' := by
    rcases (List.forall_mem_singleton.1 hMm).imp_left fun hm' => hnone m hm' hm with hnew | hold
    · obtain ⟨i, s₂, hgives, hlater', hdone, hspells⟩ := hact s₁ (hlater.phase ▸ hphase) hnames hl
      have hany : (s₁.done.any fun d => d.1 == m) = false := by
        rw [List.any_eq_false]
        simpa [found] using hnew
      have hkept : Later s₂ { s₂ with done := (m, .value i) :: s₂.done } := by
        refine ⟨rfl, rfl, fun _ hi => ⟨hi, rfl⟩, fun m' d hd => ?_⟩
        have hne : m ≠ m' := by
          rintro rfl
          rw [found, hdone] at hd
          exact absurd (hnew.symm.trans hd) nofun
        simpa [found, hne] using hd
      refine ⟨{ s₂ with done := (m, .value i) :: s₂.done }, ?_, hlater'.trans hkept,
        ⟨i, by simp [found], hspells.later hkept⟩, fun m' hne => by simp [found, hne, hdone]⟩
      refine Gives.bind (x := get) (a := s₁) rfl ?_
      rw [hany]
      refine hgives.bind ?_
      rw [hline]
      rfl
    · have hold := hold.later hlater
      have hany : (s₁.done.any fun d => d.1 == m) = true := by
        obtain ⟨i, hi, -⟩ := hold
        exact List.any_eq_true.2 ⟨_, List.mem_of_find?_eq_some hi, by simp⟩
      refine ⟨s₁, ?_, .refl s₁, hold, fun _ _ => rfl⟩
      refine Gives.bind (x := get) (a := s₁) rfl ?_
      rw [hany]
      rfl
  refine ⟨s₂, ?_, hlater.trans hlater', List.forall_mem_append.2 ⟨fun x hx => (hstands x hx).later hlater',
    List.forall_mem_singleton.2 hm₂⟩, fun m' hm' hMM => ?_, List.forall_mem_singleton.2 (Stands.denotes ?_)⟩
  · change Gives (forM (S ++ [⟨m, none, act⟩]) Step.perform) s () _
    rw [List.forM_append]
    exact hrun.bind (hgives.bind rfl)
  · obtain ⟨hm₁, hne⟩ := List.forall_mem_append.1 hMM
    rw [hnone' m' (hne (m, c) List.mem_cons_self)]
    exact hnone m' hm' hm₁
  · rwa [hlater'.names, hnames]

/-! ### Operators -/

/-- Operators from left to right. -/
def leftFold (c : Const) (l : List (BinaryConst × Const)) : Const := l.foldl (fun a x => .binary x.1 a x.2) c

theorem notInSource_gives (h : s.phase ≠ .source) : Gives notInSource s () s := by
  refine Gives.bind (x := get) (a := s) rfl ?_
  rw [if_neg h]
  rfl

/-- An operator behind the value so far. -/
def operate (v : ValueId) (x : String × Operand) : SessionM ValueId := do
  notInSource
  let w ← constant x.2
  match BinaryConst.all.find? fun b => b.text == x.1 with
  | some op => build (newBinary op v w)
  | none => stop .brokenInvariant

theorem operate_gives {op : BinaryConst} {b : Const} (hphase : s.phase ≠ .source) (hi : Spells s.names s.table i c)
    (ho : Denotes s o b) : ∃ j s', Gives (operate i (op.text, o)) s j s' ∧ Later s s' ∧ s'.done = s.done ∧
      Spells s.names s'.table j (.binary op c b) := by
  obtain ⟨j, s₁, hgives, hlater, hdone, hj⟩ := ho s (.refl s)
  obtain ⟨k, s₂, hnew, hlater', hdone', hsize, hop⟩ := (adds_newBinary op i j).gives s₁
  refine ⟨k, s₂, (notInSource_gives hphase).bind (hgives.bind ?_), hlater.trans hlater', hdone'.trans hdone,
    .binary hsize hop (hi.later (hlater.trans hlater')) (hj.later hlater')⟩
  have hfind : (BinaryConst.all.find? fun b => b.text == op.text) = some op := by cases op <;> decide
  rw [hfind]
  exact hnew

theorem foldlM_operate_gives (x : List (BinaryConst × Operand × Const)) (hphase : s.phase ≠ .source)
    (hi : Spells s.names s.table i c) (hx : ∀ y ∈ x, Denotes s y.2.1 y.2.2) :
    ∃ j s', Gives ((x.map fun y => (y.1.text, y.2.1)).foldlM operate i) s j s' ∧ Later s s' ∧ s'.done = s.done ∧
      Spells s.names s'.table j (leftFold c (x.map fun y => (y.1, y.2.2))) := by
  induction x generalizing s c i with
  | nil => exact ⟨i, s, rfl, .refl s, rfl, hi⟩
  | cons y x ih =>
    obtain ⟨hy, hx⟩ := List.forall_mem_cons.1 hx
    obtain ⟨j, s₁, hgives, hlater, hdone, hj⟩ := operate_gives hphase hi hy
    obtain ⟨k, s₂, hgives', hlater', hdone', hk⟩ := ih (hlater.phase ▸ hphase) (hlater.names ▸ hj)
      fun y hy => (hx y hy).later hlater
    exact ⟨k, s₂, hgives.bind hgives', hlater.trans hlater', hdone'.trans hdone, hlater.names ▸ hk⟩

theorem Builds.chain {x : List (BinaryConst × Operand × Const)} (h : Builds names S M ((o, c) :: x.map (·.2)))
    (hm : ∀ x ∈ M, x.1 ≠ m) : Builds names (S ++ [⟨m, none, .chain o (x.map fun y => (y.1.text, y.2.1))⟩])
      (M ++ [(m, leftFold c (x.map fun y => (y.1, y.2.2)))]) [(.expr m, leftFold c (x.map fun y => (y.1, y.2.2)))] := by
  refine h.step rfl hm fun s hphase hs hl => ?_
  obtain ⟨ho, hx⟩ := List.forall_mem_cons.1 hl
  obtain ⟨i, s₁, hgives, hlater, hdone, hi⟩ := ho s (.refl s)
  obtain ⟨j, s₂, hgives', hlater', hdone', hj⟩ := foldlM_operate_gives x (hlater.phase ▸ hphase) (hlater.names ▸ hi)
    fun y hy => (hx y.2 (List.mem_map_of_mem hy)).later hlater
  refine ⟨j, s₂, Gives.bind (x := Elaborate.chain o _) (hgives.bind hgives') rfl, hlater.trans hlater',
    hdone'.trans hdone, ?_⟩
  rwa [hlater.names, hs] at hj

theorem Builds.negation {op : UnaryConst} (h : Builds names S M [(o, c)]) (hm : ∀ x ∈ M, x.1 ≠ m) :
    Builds names (S ++ [⟨m, none, .negation op.text o⟩]) (M ++ [(m, .unary op c)]) [(.expr m, .unary op c)] := by
  refine h.step rfl hm fun s hphase hs hl => ?_
  obtain ⟨i, s₁, hgives, hlater, hdone, hi⟩ := List.forall_mem_singleton.1 hl s (.refl s)
  obtain ⟨j, s₂, hnew, hlater', hdone', hsize, hop⟩ := (adds_newUnary op i).gives s₁
  refine ⟨j, s₂, Gives.bind (x := Elaborate.negation op.text o) ((notInSource_gives hphase).bind (hgives.bind ?_)) rfl,
    hlater.trans hlater', hdone'.trans hdone, .unary hsize hop (hs ▸ hi.later hlater')⟩
  have hpick : (if op.text = "~" then UnaryConst.not else .neg) = op := by cases op <;> decide
  rw [hpick]
  exact hnew

end Peephole.Elaborate
