import Mathlib
import Peephole.Elaborate.Optimization
import Peephole.Proofs.Reader.Part

/-!
# Splitting a file

A file is cut where its optimizations start.  Every optimization behind the first one starts with its name, and no text
of an optimization goes beyond the start of the next one.  So an optimization is read from its part alone as it is read
from the file.

* `Blind` : the place that was noted last does not matter; `readOptimization_alike` : an optimization is what its texts
  say, wherever they stand.
* `parts_read_alone` : **a file has as many parts as optimizations, and each part is read as its optimization**, except
  that tabs are to be expanded first: the cuts are counted in the expanded text.  `tab_moves_cut` is a file with a tab
  that is cut in the middle of a name.
-/

namespace Peephole.Elaborate

open Peephole.Program
open Peephole.Reader (Act Mark Need Operand Step)

variable {α β : Type}
variable {t : Text.Chars}

/-! ### The noted place

The place that was noted last is only there for the text of an error.  That it changes nothing else is said of every
computation of a session by the same rules.
-/

/-- Sessions that differ at most in the place that was noted last. -/
def Alike (s s' : Session) : Prop := ∃ p, s' = { s with place := p }

/-- The computations come to the same from sessions that differ at most in the noted place. -/
def Agree (x y : SessionM α) : Prop :=
  ∀ s s', Alike s s' → (x.run.run s).1 = (y.run.run s').1 ∧ Alike (x.run.run s).2 (y.run.run s').2

/-- The noted place does not matter to the computation. -/
structure Blind (x : SessionM α) : Prop where
  agree : Agree x x

@[grind ←] theorem blind_pure (a : α) : Blind (pure a) := ⟨fun _ _ h => ⟨rfl, h⟩⟩

@[grind ←] theorem blind_throw (e : Error) : Blind (throw e : SessionM α) :=
  ⟨fun _ _ h => ⟨rfl, h⟩⟩

@[grind ←] theorem blind_bind {x : SessionM α} {f : α → SessionM β} (h : Blind x) (hf : ∀ a, Blind (f a)) :
    Blind (x >>= f) := by
  constructor
  intro s s' hs
  obtain ⟨hval, hs'⟩ := h.agree s s' hs
  rcases hx : x.run.run s with ⟨v, s₁⟩
  rcases hx' : x.run.run s' with ⟨v', s₁'⟩
  rw [hx, hx'] at hval hs'
  obtain rfl : v = v' := hval
  rw [ExceptT.run_bind, StateT.run_bind, StateT.run_bind, hx, hx']
  cases v with
  | ok a => exact (hf a).agree s₁ s₁' hs'
  | error e => exact ⟨rfl, hs'⟩

theorem blind_get {f : Session → SessionM β} (h : ∀ s p, Agree (f s) (f { s with place := p })) :
    Blind (get >>= f) := by
  constructor
  rintro s _ ⟨p, rfl⟩
  exact h s p s _ ⟨p, rfl⟩

theorem blind_modify {f : Session → Session} (h : ∀ s p, Alike (f s) (f { s with place := p })) :
    Blind (modify f) := by
  constructor
  rintro s _ ⟨p, rfl⟩
  exact ⟨rfl, h s p⟩

@[grind ←] theorem blind_mapM {f : α → SessionM β} (h : ∀ a, Blind (f a)) (as : List α) : Blind (as.mapM f) := by
  induction as with
  | nil => exact blind_pure []
  | cons a as ih =>
    rw [List.mapM_cons]
    grind

@[grind ←] theorem blind_foldlM {f : β → α → SessionM β} (h : ∀ b a, Blind (f b a)) (as : List α) (b : β) :
    Blind (as.foldlM f b) := by
  induction as generalizing b with
  | nil => exact blind_pure b
  | cons a as ih =>
    rw [List.foldlM_cons]
    grind

@[grind ←] theorem blind_reject (message : String) : Blind (reject message : SessionM α) := blind_throw _

@[grind ←] theorem blind_stop (f : Fault) : Blind (stop f : SessionM α) := blind_throw _

@[grind ←] theorem blind_check (r : Except Error α) : Blind (check r) := by
  cases r with
  | ok a => exact blind_pure a
  | error e => exact blind_throw e

@[grind ←] theorem blind_build (m : BuildM α) : Blind (build m) := by
  refine blind_get fun s p => ?_
  dsimp only
  cases m.run s.table with
  | ok r => exact (blind_bind (blind_modify fun s p => ⟨p, rfl⟩) fun _ => blind_pure _).agree
  | error e => exact (blind_throw e).agree

@[grind ←] theorem blind_note (p : Nat) : Blind (note p) := blind_modify fun _ _ => ⟨p, rfl⟩

@[grind ←] theorem blind_valueAt (v : ValueId) : Blind (valueAt v) := blind_get fun _ _ => (blind_pure _).agree

@[grind ←] theorem blind_putName (name : String) (v : ValueId) : Blind (putName name v) :=
  blind_modify fun _ p => ⟨p, rfl⟩

@[grind ←] theorem blind_putValue (v : ValueId) : Blind (putValue v) := by
  unfold putValue
  grind

@[grind ←] theorem blind_useName? (name : String) : Blind (useName? name) := by
  refine blind_get fun s p => ?_
  dsimp only
  cases s.names.get? name with
  | some v => exact fun _ _ _ => ⟨rfl, p, rfl⟩
  | none => exact (blind_pure none).agree

@[grind ←] theorem blind_putInstr (key : String) (v : ValueId) : Blind (putInstr key v) :=
  blind_bind (blind_putName key v) fun _ => blind_modify fun _ p => ⟨p, rfl⟩

@[grind ←] theorem blind_meaning (m : Mark) : Blind (meaning m) := blind_get fun _ _ => (blind_pure _).agree

@[grind ←] theorem blind_valueOf (m : Mark) : Blind (valueOf m) := by
  unfold valueOf
  grind

@[grind ←] theorem blind_typeOf (m : Mark) : Blind (typeOf m) := by
  unfold typeOf
  grind

@[grind ←] theorem blind_typedOf (m : Mark) : Blind (typedOf m) := by
  unfold typedOf
  grind

@[grind ←] theorem blind_draftOf (m : Mark) : Blind (draftOf m) := by
  unfold draftOf
  grind

@[grind ←] theorem blind_conditionOf (m : Mark) : Blind (conditionOf m) := by
  unfold conditionOf
  grind

@[grind ←] theorem blind_numeral (s : String) : Blind (numeral s) := by
  unfold numeral
  grind

@[grind ←] theorem blind_nameOperand (name : String) (ty : Ty) : Blind (nameOperand name ty) := by
  unfold nameOperand
  refine blind_bind (blind_useName? name) fun o => ?_
  cases o with
  | some v => exact blind_pure _
  | none =>
    refine blind_get fun s p => ?_
    exact Blind.agree (by grind)

@[grind ←] theorem blind_wordOperand (s : String) (ty : Ty) : Blind (wordOperand s ty) := by
  unfold wordOperand literalOperand
  grind

@[grind ←] theorem blind_operand (o : Operand) (ty : Ty) : Blind (operand o ty) := by
  unfold operand
  grind

@[grind ←] theorem blind_constant (o : Operand) : Blind (constant o) := by
  have hunknown : ∀ o, Blind (do
      if (← get).phase = .condition then reject "Identifier used in precondition was not defined"
      return (← operand o (.int none)).1) :=
    fun o => blind_get fun s p => Blind.agree (by grind)
  unfold constant
  repeat' first | exact hunknown _ | intro _ | with_reducible apply blind_bind | split | grind

@[grind ←] theorem blind_notInSource : Blind notInSource := by
  refine blind_get fun s p => ?_
  exact Blind.agree (by grind)

@[grind ←] theorem blind_define (reg : String) (instr : Mark) : Blind (define reg instr) := by
  have hdraft : Blind (do
      let v ← build (newInstr reg (← draftOf instr))
      putInstr reg v) := by grind
  refine blind_get fun s p => ?_
  dsimp only
  split
  · split
    · intro s₁ s₂ _
      exact hdraft.agree _ _ ⟨p, rfl⟩
    · exact fun _ _ h => ⟨rfl, h⟩
  · exact hdraft.agree

@[grind ←] theorem blind_startBlock (name : String) : Blind (startBlock name) := by
  refine blind_get fun s p => ?_
  dsimp only
  split
  · exact fun _ _ h => ⟨rfl, h⟩
  · exact fun _ _ _ => ⟨rfl, p, rfl⟩

@[grind ←] theorem blind_terminator (name : String) (type : Option Ty) (op : Op) : Blind (terminator name type op) := by
  exact blind_get fun s p => Blind.agree (by grind)

@[grind ←] theorem blind_testArgs (ks : List ArgKind) (os : List Operand) : Blind (testArgs ks os) := by
  fun_induction testArgs ks os <;> grind

@[grind ←] theorem blind_comparisons (v : ValueId) (rest : List (String × Operand)) : Blind (comparisons v rest) := by
  induction rest generalizing v with
  | nil => exact blind_pure []
  | cons r rest ih =>
    rw [comparisons]
    grind

theorem blind_perform (act : Act) : Blind (Act.perform act) := by
  cases act <;> simp only [Act.perform, call, negation, chain, typedOperand, copy, icmp, select, alloca, gep, load, arith,
      convert, store, bare, br, ret, test, comparison, pointer] <;>
    repeat' first | intro _ | with_reducible apply blind_bind | split | grind

theorem blind_step (s : Step) : Blind (Step.perform s) := by
  have hact : Blind (do
      let m ← Act.perform s.act
      modify fun e => { e with done := (s.mark, m) :: if Act.endsLine s.act then [] else e.done }) :=
    blind_bind (blind_perform s.act) fun _ => blind_modify fun _ p => ⟨p, rfl⟩
  refine blind_get fun e p => Blind.agree ?_
  dsimp only
  split
  · exact blind_pure ()
  · split <;> grind

theorem blind_steps (steps : List Step) : Blind (steps.forM Step.perform) := by
  induction steps with
  | nil => exact blind_pure ()
  | cons s steps ih => exact blind_bind (blind_step s) fun _ => ih

/-- A part is read in the same way wherever it stands. -/
theorem readPart_alike {part : Part} (part' : Part) {r : Reader.Reply Step α} {s s' s₁ : Session} {a : α}
    (hs : Alike s s') (h : readPart part r s = .ok (a, s₁)) :
    ∃ s₁', readPart part' r s' = .ok (a, s₁') ∧ Alike s₁ s₁' := by
  obtain ⟨p, rfl⟩ := hs
  obtain ⟨hval, hs⟩ := (blind_steps r.steps).agree { s with done := [] } { s with place := p, done := [] } ⟨p, rfl⟩
  unfold readPart at h ⊢
  revert h hval hs
  generalize (r.steps.forM Step.perform).run.run { s with done := [] } = x
  generalize (r.steps.forM Step.perform).run.run { s with place := p, done := [] } = y
  obtain ⟨v, s₂⟩ := x
  obtain ⟨v', s₂'⟩ := y
  rintro h rfl hs
  cases v with
  | error e => cases h
  | ok u =>
    dsimp only at h ⊢
    cases hout : r.outcome with
    | matched a' q =>
      rw [hout] at h
      cases h
      exact ⟨_, rfl, hs⟩
    | failed | overrun => rw [hout] at h; cases h

theorem ok_of_bind {ε : Type} {x : Except ε α} {f : α → Except ε β} {b : β} (h : x >>= f = .ok b) :
    ∃ a, x = .ok a ∧ f a = .ok b := by
  cases x with
  | ok a => exact ⟨a, rfl, h⟩
  | error e => cases h

theorem ok_of_toOption {ε : Type} {x : Except ε α} {f : α → β} {b : β} (h : x.toOption.map f = some b) :
    ∃ a, x = .ok a ∧ f a = b := by
  cases x with
  | ok a => exact ⟨a, rfl, Option.some.inj h⟩
  | error e => cases h

theorem readOptimization_alike (t' : Text.Chars) {number number' place : Nat} (place' : Nat)
    {place₁ : Nat} {p p' : Reader.Parts} {o : Optimization}
    (hname : p'.name.getD (toString number') = p.name.getD (toString number))
    (hsource : p'.source.text = p.source.text) (htarget : p'.target.text = p.target.text)
    (hpre : p'.pre.map (·.text) = p.pre.map (·.text))
    (h : readOptimization t number place p = .ok (o, place₁)) :
    ∃ place₁', readOptimization t' number' place' p' = .ok (o, place₁') := by
  have hpart : ∀ {e e' : Reader.Excerpt}, e'.text = e.text → (partOf t' e').text = (partOf t e).text :=
    fun h => congrArg Text.chars h
  have hpart' : (p'.pre.getD ⟨0, ""⟩).text = (p.pre.getD ⟨0, ""⟩).text := by
    cases hp : p.pre <;> cases hp' : p'.pre <;> simp_all
  unfold readOptimization at h ⊢
  dsimp only at h ⊢
  rw [hpart hsource, hpart htarget, hpart hpart']
  obtain ⟨⟨u, s₁⟩, h₁, h⟩ := ok_of_bind h
  obtain ⟨⟨v, s₂⟩, h₂, h⟩ := ok_of_bind h
  obtain ⟨⟨m, s₃⟩, h₃, h⟩ := ok_of_bind h
  have hstart : Alike (startSource { (default : Session) with place := place })
    (startSource { (default : Session) with place := place' }) := ⟨place', rfl⟩
  obtain ⟨_, h₁', q₁, rfl⟩ := readPart_alike (partOf t' p'.source) hstart h₁
  have hstart : Alike (startTarget s₁) (startTarget { s₁ with place := q₁ }) := ⟨q₁, rfl⟩
  obtain ⟨_, h₂', q₂, rfl⟩ := readPart_alike (partOf t' p'.target) hstart h₂
  have hstart : Alike { s₂ with phase := .condition, names := s₁.names }
    { s₂ with phase := .condition, names := s₁.names, place := q₂ } := ⟨q₂, rfl⟩
  obtain ⟨_, h₃', q₃, rfl⟩ := readPart_alike (partOf t' (p'.pre.getD ⟨0, ""⟩)) hstart h₃
  obtain ⟨rfl, rfl⟩ := Prod.mk.inj (Except.ok.inj h)
  refine ⟨q₃, ?_⟩
  rw [h₁']
  change (readPart _ _ (startTarget { s₁ with place := q₁ }) >>= _) = _
  rw [h₂']
  change (readPart _ _ { s₂ with phase := .condition, names := s₁.names, place := q₂ } >>= _) = _
  rw [h₃']
  dsimp only [Bind.bind, Except.bind]
  rw [hname]
  rfl

/-! ### Tabs -/

theorem expandTabs_eq (h : '\t' ∉ t) : Text.expandTabs t = t := by
  have hlist : ∀ (cs : List Char) (acc : Text.Chars) (col : Nat), '\t' ∉ cs →
      (cs.foldl Text.expandTabs.step (acc, col)).1 = acc ++ cs.toArray := by
    intro cs
    induction cs with
    | nil => simp
    | cons c cs ih =>
      intro acc col hc
      rw [List.mem_cons, not_or] at hc
      obtain ⟨hne, hrest⟩ := hc
      have hstep : ∃ col', Text.expandTabs.step (acc, col) c = (acc.push c, col') := by
        unfold Text.expandTabs.step
        rw [if_neg (Ne.symm hne)]
        split <;> exact ⟨_, rfl⟩
      obtain ⟨col', hstep⟩ := hstep
      rw [List.foldl_cons, hstep, ih _ _ hrest]
      simp
  unfold Text.expandTabs
  rw [← Array.foldl_toList, hlist _ _ _ (by simpa using h)]
  simp

theorem not_mem_expandTabs (t : Text.Chars) : '\t' ∉ Text.expandTabs t := by
  have hlist : ∀ (cs : List Char) (s : Text.Chars × Nat), '\t' ∉ s.1 → '\t' ∉ (cs.foldl Text.expandTabs.step s).1 := by
    intro cs
    induction cs with
    | nil => exact fun _ h => h
    | cons c cs ih =>
      intro s hs
      refine ih _ ?_
      unfold Text.expandTabs.step
      grind
  unfold Text.expandTabs
  rw [← Array.foldl_toList]
  exact hlist _ _ (by simp)

def tabsExpanded (text : String) : String := String.ofList (Text.expandTabs (Text.chars text)).toList

theorem chars_ofList (t : Text.Chars) : Text.chars (String.ofList t.toList) = t := by
  simp [Text.chars]

/-! ### Parts of a file -/

/-- The optimization is read from its parts in a text, under the number one if it has no name. -/
def Yields (t : Text.Chars) (p : Reader.Parts) (o : Optimization) : Prop :=
  ∃ n place place', readOptimization t n place p = .ok (o, place') ∧ (n = 1 ∨ p.name.isSome = true)

theorem yields_of_named {number place : Nat} {ps : List Reader.Parts} {os : List Optimization}
    (h : readAll t number place ps = .ok os) (hnamed : ∀ p ∈ ps, p.name.isSome = true) :
    List.Forall₂ (Yields t) ps os := by
  induction ps generalizing number place os with
  | nil =>
    cases h
    exact .nil
  | cons p ps ih =>
    rw [List.forall_mem_cons] at hnamed
    obtain ⟨⟨o, place'⟩, ho, h⟩ := ok_of_bind h
    obtain ⟨os', hos, h⟩ := ok_of_bind h
    cases h
    exact .cons ⟨number, place, place', ho, .inr hnamed.1⟩ (ih hos hnamed.2)

/-- What the optimizations of a file are read from: the part of each of them, cut at the starts. -/
theorem exists_cuts {text : String} {os : List Optimization} (h : readOptimizations text = .ok os) :
    let t := Text.expandTabs (Text.chars text)
    let starts := (Reader.readFile t).steps.map (·.start)
    (Reader.readFile t).isMatch = true ∧ List.Forall₂ (Yields t) (Reader.readFile t).steps os ∧
      List.Forall₂ (Reader.CutFor t) (starts.zip (starts.drop 1 ++ [t.size])) (Reader.readFile t).steps := by
  unfold readOptimizations readNumbered at h
  dsimp only at h ⊢
  generalize Text.expandTabs (Text.chars text) = t at h ⊢
  obtain ⟨os', hos, h⟩ := ok_of_bind h
  have hmatch : (Reader.readFile t).isMatch = true ∧ os' = os := by
    rw [Reader.isMatch_iff]
    cases hout : (Reader.readFile t).outcome with
    | matched u e =>
      rw [hout] at h
      exact ⟨⟨u, e, rfl⟩, Except.ok.inj h⟩
    | failed | overrun => rw [hout] at h; cases h
  obtain ⟨hmatch, rfl⟩ := hmatch
  obtain ⟨p, q, hread⟩ := Reader.reads_of_readFile hmatch
  obtain ⟨ps, e, hall, hsteps, hend⟩ := Reader.readFile_of_reads hread
  rw [hsteps] at hos ⊢
  obtain ⟨-, -, -, -, -, htarget⟩ := hread.arrow
  obtain ⟨⟨o, place⟩, ho, h⟩ := ok_of_bind hos
  obtain ⟨os, hrest, h⟩ := ok_of_bind h
  cases h
  exact ⟨hmatch, .cons ⟨1, 0, place, ho, .inl rfl⟩ (yields_of_named hrest (hall.named htarget)),
    Reader.cutFor_zip hread hall (hend.1 hmatch)⟩

theorem readOptimizations_part {c : Nat × Nat} {p : Reader.Parts} {o : Optimization}
    (htabs : '\t' ∉ t) (hcut : Reader.CutFor t c p) (h : Yields t p o) :
    readOptimizations (Text.slice t c.1 c.2) = .ok [o] := by
  obtain ⟨hmatch, hsteps⟩ := hcut.readFile
  obtain ⟨u, e, hout⟩ := Reader.isMatch_iff.1 hmatch
  obtain ⟨n, place, place', hread, hname⟩ := h
  have hname' : (p.behind c.1).name.getD (toString 1) = p.name.getD (toString n) := by
    rcases hname with rfl | hname
    · rfl
    · obtain ⟨name, hname⟩ := Option.isSome_iff_exists.1 hname
      change p.name.getD _ = _
      rw [hname]
      rfl
  have hpre : (p.behind c.1).pre.map (·.text) = p.pre.map (·.text) := by
    change (p.pre.map _).map _ = _
    rw [Option.map_map]
    rfl
  obtain ⟨place₁, hone⟩ := readOptimization_alike (t.extract c.1 c.2) 0 hname' rfl rfl hpre hread
  have htabs' : '\t' ∉ t.extract c.1 c.2 := fun hmem => htabs <| by
    obtain ⟨i, hi⟩ := Array.mem_iff_getElem?.1 hmem
    rw [Reader.getElem?_cut] at hi
    split at hi
    · exact Array.mem_iff_getElem?.2 ⟨_, hi⟩
    · cases hi
  unfold readOptimizations readNumbered
  dsimp only
  rw [Text.slice, chars_ofList, expandTabs_eq htabs', hsteps, hout]
  simp only [readAll, hone]
  rfl

theorem splitOptimizations_eq {text : String}
    (h : (Reader.readFile (Text.expandTabs (Text.chars text))).isMatch = true) :
    let starts := (Reader.readFile (Text.expandTabs (Text.chars text))).steps.map (·.start)
    splitOptimizations text = .ok ((starts.zip (starts.drop 1 ++ [(Text.chars text).size])).map
      fun c => Text.slice (Text.chars text) c.1 c.2) := by
  obtain ⟨u, e, hout⟩ := Reader.isMatch_iff.1 h
  unfold splitOptimizations
  dsimp only
  rw [hout]
  rfl

theorem split_of_no_tab {text : String} {os : List Optimization} (htabs : '\t' ∉ text.toList)
    (h : readOptimizations text = .ok os) :
    ∃ parts, splitOptimizations text = .ok parts ∧ parts.map readOptimizations = os.map fun o => .ok [o] := by
  obtain ⟨hmatch, hyields, hcuts⟩ := exists_cuts h
  refine ⟨_, splitOptimizations_eq hmatch, ?_⟩
  have htabs' : '\t' ∉ Text.chars text := by simpa [Text.chars] using htabs
  rw [expandTabs_eq htabs'] at hyields hcuts ⊢
  generalize (Reader.readFile (Text.chars text)).steps = ps at hyields hcuts ⊢
  generalize (ps.map (·.start)).zip _ = cuts at hcuts ⊢
  clear h
  induction hcuts generalizing os with
  | nil =>
    cases hyields
    rfl
  | cons hcut _ ih =>
    cases hyields with
    | cons hyield hyields => simp [readOptimizations_part htabs' hcut hyield, ih hyields]

/-- **Splitting a file agrees with reading it.**  There are as many parts as optimizations, and a part of a text without
tabs is read as its optimization.  Where there are tabs, this holds of the text with its tabs expanded. -/
theorem parts_read_alone {text : String} {os : List Optimization} (h : readOptimizations text = .ok os) :
    (∃ parts, splitOptimizations text = .ok parts ∧ parts.length = os.length ∧
      ('\t' ∉ text.toList → parts.map readOptimizations = os.map fun o => .ok [o])) ∧
    ∃ parts, splitOptimizations (tabsExpanded text) = .ok parts ∧
      parts.map readOptimizations = os.map fun o => .ok [o] := by
  constructor
  · obtain ⟨hmatch, hyields, hcuts⟩ := exists_cuts h
    refine ⟨_, splitOptimizations_eq hmatch, ?_, fun htabs => ?_⟩
    · have hlength := hyields.length_eq
      simp
      omega
    · obtain ⟨parts, hsplit, hparts⟩ := split_of_no_tab htabs h
      rw [splitOptimizations_eq hmatch] at hsplit
      obtain rfl := Except.ok.inj hsplit
      exact hparts
  · have htabs := not_mem_expandTabs (Text.chars text)
    have hsame : readOptimizations (tabsExpanded text) = readOptimizations text := by
      unfold readOptimizations readNumbered tabsExpanded
      rw [chars_ofList, expandTabs_eq htabs]
    exact split_of_no_tab (by simpa [tabsExpanded] using htabs) (hsame.trans h)

/-- Two optimizations, the first one without a name, with comments and blank lines between them. -/
def commentedPair : String :=
  "%r = or %x, 0\n=>\n%r = %x\n;\n\n  Name: b\n; one\n%r = or %y, C\n=>\n%r = %y\n\n"

theorem commentedPair_read_alone : ∃ os parts, readOptimizations commentedPair = .ok os ∧
    os.map (·.name) = ["1", "b"] ∧ splitOptimizations commentedPair = .ok parts ∧
    parts.map readOptimizations = os.map fun o => .ok [o] := by
  have hnames : (readOptimizations commentedPair).toOption.map (·.map (·.name)) = some ["1", "b"] := by decide +kernel
  obtain ⟨os, h, hnames⟩ := ok_of_toOption hnames
  obtain ⟨⟨parts, hsplit, -, hparts⟩, -⟩ := parts_read_alone h
  exact ⟨os, parts, h, hnames, hsplit, hparts (by decide)⟩

/-- The cut is seven characters too late, as the tab is counted as eight blanks. -/
theorem tab_moves_cut :
    (splitOptimizations "%r = add\t%x, 0\n=>\n%r = %x\n\nName: b\n%r = add %x, 0\n=>\n%r = %x\n").toOption =
      some ["%r = add\t%x, 0\n=>\n%r = %x\n\nName:", " b\n%r = add %x, 0\n=>\n%r = %x\n"] := by
  decide +kernel

end Peephole.Elaborate
