import Peephole.Proofs.Typing.Generate
import Peephole.Proofs.Verify.Behaviour
import Peephole.Proofs.Verify.Typings

/-!
# The checked typings cover all types

A clause of the search names as few type variables as are enough to satisfy the constraints.  These variables fix the
types of all values: the variables of a type that are not among them could be set to values that the type does not
allow.

* `typeUnder` : the type that an assignment gives to a type with open parts.
* `typeUnder_eq_of_fits` : **variables that are enough for a type to fit determine it**.
* `typings_covered` : **if an optimization is found correct, every typing agrees with a checked one on the types of all
  values**.  The width of pointers is one of the variables only if the constraints depend on it; else the typings with
  the other width are never checked.
-/

namespace Peephole.Typing

open Program
open Encode (Shape)

variable {T : Table} {σ τ : Assignment} {vs : List String} {p : String}

/-! ### Types under an assignment -/

/-- A type without open parts.  The element count is missing if the type does not refer to a count. -/
inductive PlainTy where
  | int (width : Int)
  | ptr (pointee : PlainTy)
  | array (count : Option Int) (elem : PlainTy)
  deriving Inhabited, Repr, DecidableEq

/-- The number that the assignment gives to a count. -/
def countUnder (T : Table) (σ : Assignment) (i : ValueId) : Option Int :=
  match (T.get i).op with
  | .count _ _ _ var => some (σ var)
  | _ => none

/-- The integer type at a place. -/
def intUnder (σ : Assignment) (p : String) : Option Nat → PlainTy
  | some w => .int w
  | none => .int (σ (sizeVar p))

/-- The alternative of one kind of an open type. -/
def kindUnder (T : Table) (σ : Assignment) (p : String) (c : Choice) : TyKind → Option PlainTy
  | .int => c.int.map (intUnder σ p)
  | .ptr => if c.ptr then some (.ptr (intUnder σ (pointeePlace p) none)) else none
  | .array => c.array.map fun n => .array (countUnder T σ n.id) (intUnder σ (elemPlace p) none)

/-- The type that an open type has. -/
def choiceUnder (T : Table) (σ : Assignment) (p : String) (c : Choice) : Option PlainTy :=
  (Shape.kindOfCode? (σ (kindVar p))).bind (kindUnder T σ p c)

/-- The type at a place under an assignment, if the assignment settles all its open parts. -/
def typeUnder (T : Table) (σ : Assignment) (p : String) : Ty → Option PlainTy
  | .int w => some (intUnder σ p w)
  | .ptr t => (typeUnder T σ (pointeePlace p) t).map .ptr
  | .array n t => (typeUnder T σ (elemPlace p) t).map (.array (countUnder T σ n.id))
  | .unknown c => choiceUnder T σ p c
  | .named name c _ => choiceUnder T σ name c

def resultUnder (T : Table) (σ : Assignment) (i : ValueId) : Option PlainTy :=
  (resultTy? (T.get i)).bind fun t => typeUnder T σ t.place t.ty

/-- The number of elements that a value allocates. -/
def allocatedUnder (T : Table) (σ : Assignment) (i : ValueId) : Option Int :=
  (allocated? (T.get i).op).bind (countUnder T σ)

/-! ### What agreement fixes -/

theorem TyKind.code_injective {k k' : TyKind} (h : k.code = k'.code) : k = k' := by
  cases k <;> cases k' <;> first | rfl | cases h

theorem intUnder_eq_of_fits {w : Option Nat} (h : ∀ σ', AgreeOn vs σ σ' → IntFits σ' p w) (hτ : AgreeOn vs σ τ) :
    intUnder τ p w = intUnder σ p w := by
  cases w with
  | some w => rfl
  | none =>
    have hmem : sizeVar p ∈ vs := mem_of_forced h 65 (by simp [IntFits])
    exact congrArg PlainTy.int (hτ _ hmem)

theorem countUnder_eq_of_fits {i : ValueId} (h : ∀ σ', AgreeOn vs σ σ' → CountFits T σ' i) (hτ : AgreeOn vs σ τ) :
    countUnder T τ i = countUnder T σ i := by
  unfold countUnder CountFits at *
  split
  · next v lo hi var hop =>
    simp only [hop] at h
    have hmem : var ∈ vs := by
      split at h
      · next n _ => exact mem_of_forced h (n + 1) (by simp only [Function.update_self]; omega)
      · exact mem_of_forced h (hi + 1) (by simp only [Function.update_self]; omega)
    exact congrArg some (hτ var hmem)
  · rfl

theorem kindUnder_eq_of_fits {c : Choice} {k : TyKind} (h : ∀ σ', AgreeOn vs σ σ' → KindFits T σ' p c k)
    (hτ : AgreeOn vs σ τ) : kindUnder T τ p c k = kindUnder T σ p c k := by
  cases k with
  | int =>
    obtain ⟨w, hw, -⟩ := h τ hτ
    have hfits : ∀ σ', AgreeOn vs σ σ' → IntFits σ' p w := by
      intro σ' hσ'
      obtain ⟨w', hw', hfits⟩ := h σ' hσ'
      cases hw.symm.trans hw'
      exact hfits
    simp only [kindUnder, hw, Option.map_some, intUnder_eq_of_fits hfits hτ]
  | ptr =>
    have hpointee := intUnder_eq_of_fits (fun σ' hσ' => (h σ' hσ').2) hτ
    simp only [kindUnder, hpointee]
  | array =>
    obtain ⟨n, hn, -⟩ := h τ hτ
    have hfits : ∀ σ', AgreeOn vs σ σ' → CountFits T σ' n.id ∧ IntFits σ' (elemPlace p) none := by
      intro σ' hσ'
      obtain ⟨n', hn', hfits⟩ := h σ' hσ'
      cases hn.symm.trans hn'
      exact hfits
    have hcount := countUnder_eq_of_fits (fun σ' hσ' => (hfits σ' hσ').1) hτ
    have helem := intUnder_eq_of_fits (fun σ' hσ' => (hfits σ' hσ').2) hτ
    simp only [kindUnder, hn, Option.map_some, hcount, helem]

theorem choiceUnder_eq_of_fits {c : Choice} (h : ∀ σ', AgreeOn vs σ σ' → ChoiceFits T σ' p c) (hτ : AgreeOn vs σ τ) :
    choiceUnder T τ p c = choiceUnder T σ p c := by
  have hmem : kindVar p ∈ vs := by
    refine mem_of_forced h 3 ?_
    rintro ⟨k, hk, -⟩
    rw [Function.update_self] at hk
    cases k <;> cases hk
  obtain ⟨k, hk, -⟩ := h τ hτ
  -- Agreement fixes the kind, so all that fits is of that kind.
  have hkind : ∀ σ', AgreeOn vs σ σ' → KindFits T σ' p c k := by
    intro σ' hσ'
    obtain ⟨k', hk', hfits⟩ := h σ' hσ'
    have hcode : k'.code = k.code := by rw [← hk', ← hk, hσ' _ hmem, hτ _ hmem]
    rw [← TyKind.code_injective hcode]
    exact hfits
  have hfound : Shape.kindOfCode? k.code = some k := by cases k <;> rfl
  unfold choiceUnder
  rw [← hτ _ hmem, hk, hfound]
  exact kindUnder_eq_of_fits hkind hτ

theorem typeUnder_eq_of_fits {t : Ty} (h : ∀ σ', AgreeOn vs σ σ' → Fits T σ' p t) (hτ : AgreeOn vs σ τ) :
    typeUnder T τ p t = typeUnder T σ p t := by
  induction t generalizing p with
  | int w => exact congrArg some (intUnder_eq_of_fits h hτ)
  | ptr t ih => rw [typeUnder, typeUnder, ih h]
  | array n t ih =>
    have helem := ih fun σ' hσ' => (h σ' hσ').2
    have hcount := countUnder_eq_of_fits (fun σ' hσ' => (h σ' hσ').1) hτ
    rw [typeUnder, typeUnder, helem, hcount]
  | unknown c => exact choiceUnder_eq_of_fits h hτ
  | named name c here _ => exact choiceUnder_eq_of_fits h hτ

/-- The assignments give the value the same type, and the same number of elements if it allocates some. -/
def SameType (T : Table) (σ τ : Assignment) (i : ValueId) : Prop :=
  resultUnder T τ i = resultUnder T σ i ∧ allocatedUnder T τ i = allocatedUnder T σ i

theorem sameType_of_fits {i : ValueId} (h : ∀ σ', AgreeOn vs σ σ' → ValueFits T σ' i) (hτ : AgreeOn vs σ τ) :
    SameType T σ τ i := by
  constructor
  · unfold resultUnder
    cases ht : resultTy? (T.get i) with
    | none => rfl
    | some t => exact typeUnder_eq_of_fits (fun σ' hσ' => (h σ' hσ').type t ht) hτ
  · unfold allocatedUnder
    cases hn : allocated? (T.get i).op with
    | none => rfl
    | some n => exact countUnder_eq_of_fits (fun σ' hσ' => (h σ' hσ').allocated n hn) hτ

end Peephole.Typing

namespace Peephole.Verify

open Encode Program Typing
open Elaborate (Optimization)

variable {solvers : Solvers} {o : Optimization} {options : Options}

theorem verify_correct_iff {n : Nat} : verify solvers o options = .ok (.correct n) ↔
    ∃ p, typeProblem o = .ok p ∧ rejection? solvers.types o p = none ∧
      forAllTypings solvers.types p solvers.limit (checkTyping solvers o options) = .ok (.exhausted n) := by
  constructor
  · intro h
    obtain ⟨p, hp, h⟩ := bind_eq_ok h
    cases hreject : rejection? solvers.types o p with
    | some r =>
      rw [hreject] at h
      cases h
    | none =>
      rw [hreject] at h
      obtain ⟨r, hr, h⟩ := bind_eq_ok h
      refine ⟨p, hp, hreject, ?_⟩
      rw [hr]
      cases r with
      | exhausted k =>
        cases h
        rfl
      | stopped k t => cases h
      | unfinished k => cases h
  · rintro ⟨p, hp, hreject, hall⟩
    unfold verify
    simp only [hp, Bind.bind, Except.bind, hreject, hall]
    rfl

/-- The constraints of the source and the target hold of a typing with any width of pointers. -/
def AnyPointerWidth (p : TypeProblem) (σ : Assignment) : Prop :=
  ∀ w, Constraint.holdsAll (Function.update σ "ptrsize" w) (p.source ++ p.target) = true

/-- **Every typing of a correct optimization is checked**, up to what does not show in the types of its values: it
agrees with a checked typing on these types.  It also agrees on the width of pointers, unless the constraints leave that
open once the other variables are fixed. -/
theorem typings_covered (hs : SolvesTypes solvers.types) {n : Nat}
    (h : verify solvers o options = .ok (.correct n)) :
    ∃ p, typeProblem o = .ok p ∧ ∃ ms : List Model, ms.length = n ∧
      (∀ m ∈ ms, Constraint.holdsAll m.assignment (typingConstraints p) = true ∧
        checkTyping solvers o options m = .ok none) ∧
      ∀ τ, Constraint.holdsAll τ (typingConstraints p) = true → KeepsWidths solvers.types p τ →
        ∃ m ∈ ms, (∀ e ∈ o.sourceNames ++ o.targetNames, SameType o.table m.assignment τ e.2) ∧
          (τ "ptrsize" = m.assignment "ptrsize" ∨ AnyPointerWidth p m.assignment) := by
  obtain ⟨p, hp, -, hall⟩ := verify_correct_iff.1 h
  obtain ⟨ms, hlen, hms, hcovers⟩ := forAllTypings_covers hs hall
  refine ⟨p, hp, ms, hlen, hms, fun τ hτ hwidths => ?_⟩
  obtain ⟨m, hm, vs, hagree, henough⟩ := hcovers τ hτ hwidths
  refine ⟨m, hm, fun e he => ?_, ?_⟩
  · exact sameType_of_fits (fun σ hσ => typeProblem_fits hp (henough σ hσ) e he) hagree
  · by_cases hptr : "ptrsize" ∈ vs
    · exact .inl (hagree _ hptr)
    · refine .inr fun w => henough _ fun v hv => Function.update_of_ne ?_ w m.assignment
      rintro rfl
      exact hptr hv

/-! ### An optimization of pointers -/

/-- `%r = icmp ule i8* %p, %q` becomes `%r = icmp uge i8* %q, %p`. -/
def swappedCompare : Optimization :=
  let pointer (k : String) : Value := ⟨k, k, some ⟨k, .ptr (.int (some 8))⟩, .input⟩
  let compare (c : Logic.Comparison) (a b : ValueId) : Value :=
    ⟨"%r", "%r", some ⟨"%r", .int (some 1)⟩, .icmp (.known c) ⟨"%r_in", .ptr (.int (some 8))⟩ a b⟩
  { (default : Optimization) with
    table := ⟨#[pointer "%p", pointer "%q", compare .ule 0 1, compare .uge 1 0], 0⟩
    pre := .always
    source := [("", [("%r", 2)])]
    target := [("", [("%r", 3)])]
    sourceNames := [("%p", 0), ("%q", 1), ("%r", 2)]
    targetNames := [("%p", 0), ("%q", 1), ("%r", 3)] }

/-- The constraints of `swappedCompare`. -/
def swappedTypes : TypeProblem :=
  let pointer (k : String) : Constraint := .and [kindIs k .ptr, intConstraint (pointeePlace k) (some 8)]
  let same (k : String) : Constraint :=
    .rel .eq (.var (sizeVar (pointeePlace "%r_in"))) (.var (sizeVar (pointeePlace k)))
  let compare (a b : String) : Constraint :=
    .and [same a, same b, intConstraint "%r" (some 1), pointer "%r_in"]
  ⟨[pointer "%p", pointer "%q", compare "%p" "%q"], [pointer "%p", pointer "%q", compare "%q" "%p"], .lit true,
    swappedCompare.table⟩

/-- The types of `swappedCompare`, with pointers of 32 bits. -/
def swappedTyping : Model :=
  [("ptrsize", 32), ("t_%p", 1), ("t_*%p", 0), ("size_*%p", 8), ("t_%q", 1), ("t_*%q", 0), ("size_*%q", 8),
    ("t_%r", 0), ("size_%r", 1), ("t_%r_in", 1), ("t_*%r_in", 0), ("size_*%r_in", 8)]

def pointerInput (k : String) : Encoded := ⟨some (.var k 32), .none⟩

def pointerCompare (c : Logic.Comparison) (a b : String) : Encoded :=
  ⟨some (.ite (.cmp c (.var a 32) (.var b 32)) (.const 1 1) (.const 0 1)), .none⟩

/-- The encoding of `swappedCompare` with these types. -/
def swappedProblem : Problem :=
  let state (r : Encoded) : State :=
    ⟨[("%p", pointerInput "%p"), ("%q", pointerInput "%q"), ("%r", r)], [],
      [⟨"%p", 32, false, 32, 7, 1⟩, ⟨"%q", 32, false, 32, 7, 1⟩], [], [], some (.byte (.var "mem0" 8))⟩
  ⟨state (pointerCompare .ule "%p" "%q"), state (pointerCompare .uge "%q" "%p"), ⟨[], []⟩,
    Shape.ofModel swappedTyping⟩

theorem swappedCompare_types : typeProblem swappedCompare = .ok swappedTypes := by
  cbv

theorem swappedCompare_encoded :
    encodeOptimization swappedCompare (Shape.ofModel swappedTyping) {} = .ok swappedProblem := by
  cbv

theorem swapped_compared : compared swappedProblem =
    [("%p", pointerInput "%p", pointerInput "%p"), ("%q", pointerInput "%q", pointerInput "%q"),
      ("%r", pointerCompare .ule "%p" "%q", pointerCompare .uge "%q" "%p")] := by
  cbv

theorem swappedCompare_accepted :
    checkTyping ⟨idealTypes swappedTyping, ideal, 2⟩ swappedCompare {} swappedTyping = .ok none := by
  refine checkTyping_of_allows ideal_answers rfl swappedCompare_encoded rfl rfl ?_
  simp only [swapped_compared, List.forall_mem_cons]
  refine ⟨?_, ?_, ?_, nofun⟩
  · exact ⟨_, _, rfl, rfl, rfl, fun env => .refl env _ _⟩
  · exact ⟨_, _, rfl, rfl, rfl, fun env => .refl env _ _⟩
  · exact ⟨_, _, rfl, rfl, rfl, fun env _ _ => ⟨rfl, rfl, (BitVec.setWidth_eq _).symm⟩⟩

theorem swappedTyping_values : ∀ l ∈ swappedTyping, swappedTyping.assignment l.1 = l.2 := by
  decide +kernel

theorem swappedTypes_vars : ∀ v ∈ Constraint.varsOf swappedTypes.all, v ∈ swappedTyping.tail.map Prod.fst := by
  decide +kernel

/-- The constraints of `swappedCompare` leave no choice but the width of pointers. -/
theorem swappedTypes_given (σ : Assignment) (h : Constraint.holdsAll σ swappedTypes.all = true) :
    AgreeOn (Constraint.varsOf swappedTypes.all) swappedTyping.assignment σ := by
  have hvalues : ∀ l ∈ swappedTyping.tail, σ l.1 = l.2 := by
    simp only [TypeProblem.all, swappedTypes, List.cons_append, Constraint.holdsAll, Bool.and_eq_true, intConstraint,
      kindIs, Constraint.holds_and_cons, Constraint.holds_varIs] at h
    obtain ⟨-, ⟨hp, ⟨hp', hp'', -⟩, -⟩, ⟨hq, ⟨hq', hq'', -⟩, -⟩, ⟨-, -, ⟨hr, hr', -⟩,
      ⟨hin, ⟨hin', hin'', -⟩, -⟩, -⟩, -⟩ := h
    simp only [swappedTyping, List.tail_cons, List.forall_mem_cons]
    exact ⟨hp, hp', hp'', hq, hq', hq'', hr, hr', hin, hin', hin'', List.forall_mem_nil _⟩
  intro v hv
  obtain ⟨l, hl, rfl⟩ := List.mem_map.1 (swappedTypes_vars v hv)
  rw [hvalues l hl, swappedTyping_values l (List.mem_of_mem_tail hl)]

theorem swappedCompare_correct :
    verify ⟨idealTypes swappedTyping, ideal, 2⟩ swappedCompare {} = .ok (.correct 1) := by
  have hsolve : ∀ cs, Constraint.holdsAll swappedTyping.assignment cs = true →
      idealTypes swappedTyping cs = some swappedTyping := fun cs h => if_pos h
  refine verify_correct_iff.2 ⟨swappedTypes, swappedCompare_types, ?_, ?_⟩
  · have hpre := hsolve [swappedTypes.pre] (by decide +kernel)
    have hsource := hsolve (swappedTypes.pre :: swappedTypes.source) (by decide +kernel)
    have hall := hsolve swappedTypes.all (by decide +kernel)
    simp only [rejection?, hpre, hsource, hall]
    cbv
  · refine forAllTypings_once (idealTypes_solves swappedTyping_values) (hsolve _ ?_) (fun v hv => ?_) ?_
      swappedTypes_given swappedCompare_accepted 0
    · decide +kernel
    · exact List.map_subset _ (List.tail_subset _) (swappedTypes_vars v hv)
    · decide +kernel

/-- The theorem at `swappedCompare`: with pointers of 64 bits, its values have the types of a checked typing. -/
theorem swappedCompare_covered :
    ∃ m, checkTyping ⟨idealTypes swappedTyping, ideal, 2⟩ swappedCompare {} m = .ok none ∧
      ∀ e ∈ swappedCompare.sourceNames ++ swappedCompare.targetNames,
        SameType swappedCompare.table m.assignment (Model.assignment (("ptrsize", 64) :: swappedTyping.tail)) e.2 := by
  have honce : pickedOnce swappedTypes = [] := by decide +kernel
  have hwidths : KeepsWidths (idealTypes swappedTyping) swappedTypes
      (Model.assignment (("ptrsize", 64) :: swappedTyping.tail)) := by
    intro m _
    rw [honce]
    simp [wideConstraints, Constraint.holdsAll]
  obtain ⟨p, hp, ms, -, hms, hcovers⟩ := typings_covered (idealTypes_solves swappedTyping_values) swappedCompare_correct
  cases swappedCompare_types.symm.trans hp
  obtain ⟨m, hm, hsame, -⟩ := hcovers _ (by decide +kernel) hwidths
  exact ⟨m, (hms m hm).2, hsame⟩

end Peephole.Verify
