import Peephole.Proofs.Typing.Choice
import Peephole.Typing.Optimization

/-!
# What the typing constraints of a value say

The constraints of a value are found with a table whose open types are settled on the way.  The table stays the same up
to these choices (`Table.Like`), and the constraints bound what they say about the type of the value:

* `Yields` : a computation on tables keeps the table up to choices and has a result with a property.
* `Fits` : the type variables of a type have one of the values that the type allows.
* `constraint_fits` : **where its constraint holds, the type of a value fits**; the variable of a count is bounded.
* `typeProblem_fits` : the same of all values of the source and the target of an optimization.
-/

namespace Peephole.Program

open Typing (Place)

/-- The type at a place with no kind chosen. -/
def PlacedTy.bare (t : PlacedTy) : PlacedTy := ⟨t.place, t.ty.bare⟩

/-- The operation with no kind chosen in the type of its operand. -/
def Op.bare (op : Op) : Op :=
  match Place.operandTy? op with
  | some t => Place.setOperandTy t.bare op
  | none => op

/-- The value with no kind chosen. -/
def Value.bare (v : Value) : Value := { v with type := v.type.map PlacedTy.bare, op := v.op.bare }

/-- The tables are the same up to the kinds that are chosen in open types. -/
def Table.Like (T T' : Table) : Prop := ∀ i, (T'.get i).bare = (T.get i).bare

theorem Table.Like.refl (T : Table) : T.Like T := fun _ => rfl

theorem operandTy?_bare (op : Op) : Place.operandTy? op.bare = (Place.operandTy? op).map PlacedTy.bare := by
  cases op <;> rfl

theorem Op.bare_eq {op : Op} (h : Place.operandTy? op = none) : op.bare = op := by
  simp [Op.bare, h]

/-- An operation without a type for its operand is the same in like tables. -/
theorem Op.eq_of_bare {op op' : Op} (h : op'.bare = op.bare) (hnone : Place.operandTy? op' = none) : op = op' := by
  have hoperand := operandTy?_bare op
  rw [← h, operandTy?_bare, hnone] at hoperand
  have hnone' : Place.operandTy? op = none := by simpa using hoperand.symm
  rw [Op.bare_eq hnone, Op.bare_eq hnone'] at h
  exact h.symm

theorem Op.bare_setOperandTy {op : Op} {t : PlacedTy} {ty : Ty} (h : Place.operandTy? op = some t)
    (hty : ty.bare = t.ty.bare) : (Place.setOperandTy { t with ty := ty } op).bare = op.bare := by
  have hbare : PlacedTy.bare { t with ty := ty } = t.bare := by simp [PlacedTy.bare, hty]
  cases op with
  | convert _ _ _ | icmp _ _ _ _ | alloca _ _ _ | load _ _ _ | store _ _ _ _ =>
    cases h
    simp [Op.bare, Place.operandTy?, Place.setOperandTy, hbare]
  | _ => cases h

theorem Table.get_modify (T : Table) (i j : ValueId) (f : Value → Value) :
    (T.modify i f).get j = T.get j ∨ j = i ∧ (T.modify i f).get j = f (T.get j) := by
  unfold Table.get Table.modify
  by_cases hj : j < T.values.size
  · simp only [Array.getD_eq_getD_getElem?, Array.getElem?_modify]
    by_cases hij : i = j
    · exact .inr ⟨hij.symm, by simp [hij, hj]⟩
    · exact .inl (by simp [hij])
  · exact .inl (by simp [Array.getD_eq_getD_getElem?, hj])

end Peephole.Program

namespace Peephole.Typing

open Program

variable {α β : Type} {T T₀ : Table} {σ : Assignment}
variable {i : ValueId}

/-! ### Computations on tables -/

/-- In a table that is like `T`, the computation keeps the table so, and its result has the property. -/
def Yields (T : Table) (x : TableM α) (P : α → Prop) : Prop :=
  ∀ T₁ a T₂, T.Like T₁ → x T₁ = .ok (a, T₂) → T.Like T₂ ∧ P a

namespace Yields

variable {P : α → Prop} {Q : β → Prop}

theorem pure {a : α} (h : P a) : Yields T (Pure.pure a) P := by
  intro T₁ b T₂ hT hx
  cases hx
  exact ⟨hT, h⟩

theorem throw (e : Error) : Yields T (MonadExcept.throw e : TableM α) P := by
  intro T₁ b T₂ hT hx
  cases hx

theorem bind {x : TableM α} {f : α → TableM β} (hx : Yields T x P) (hf : ∀ a, P a → Yields T (f a) Q) :
    Yields T (x >>= f) Q := by
  intro T₁ b T₂ hT h
  obtain ⟨⟨a, T₃⟩, h₁, h₂⟩ := bind_eq_ok h
  obtain ⟨hT₃, ha⟩ := hx T₁ a T₃ hT h₁
  exact hf a ha T₃ b T₂ hT₃ h₂

theorem mono {P' : α → Prop} {x : TableM α} (hx : Yields T x P) (h : ∀ a, P a → P' a) : Yields T x P' := by
  intro T₁ a T₂ hT hok
  obtain ⟨hT₂, ha⟩ := hx T₁ a T₂ hT hok
  exact ⟨hT₂, h a ha⟩

theorem get : Yields T MonadState.get T.Like := by
  intro T₁ a T₂ hT h
  cases h
  exact ⟨hT, hT⟩

theorem lift {r : Except Error α} (h : ∀ a, r = .ok a → P a) : Yields T (liftM r : TableM α) P := by
  intro T₁ a T₂ hT hx
  cases r with
  | error e => cases hx
  | ok b =>
    cases hx
    exact ⟨hT, h _ rfl⟩

theorem mapM {γ : Type} {P : γ → β → Prop} {f : γ → TableM β} {as : List γ} (hf : ∀ a ∈ as, Yields T (f a) (P a)) :
    Yields T (as.mapM f) fun bs => (∀ b ∈ bs, ∃ a ∈ as, P a b) ∧ ∀ a ∈ as, ∃ b ∈ bs, P a b := by
  induction as with
  | nil =>
    rw [List.mapM_nil]
    exact .pure (by simp)
  | cons a as ih =>
    rw [List.mapM_cons]
    refine .bind (hf a List.mem_cons_self) fun b hb => ?_
    refine .bind (ih fun a' ha' => hf a' (List.mem_cons_of_mem a ha')) fun bs hbs => .pure ⟨?_, ?_⟩
    · refine List.forall_mem_cons.2 ⟨⟨a, List.mem_cons_self, hb⟩, fun b' hb' => ?_⟩
      obtain ⟨a', ha', hP⟩ := hbs.1 b' hb'
      exact ⟨a', List.mem_cons_of_mem a ha', hP⟩
    · refine List.forall_mem_cons.2 ⟨⟨b, List.mem_cons_self, hb⟩, fun a' ha' => ?_⟩
      obtain ⟨b', hb', hP⟩ := hbs.2 a' ha'
      exact ⟨b', List.mem_cons_of_mem b hb', hP⟩

end Yields

/-- The computation keeps the table up to choices. -/
abbrev KeepsTable (T : Table) (x : TableM α) : Prop := Yields T x fun _ => True

theorem Yields.keeps {x : TableM α} {P : α → Prop} (h : Yields T x P) : KeepsTable T x := h.mono fun _ _ => trivial

theorem Yields.keepsAll {γ : Type} {f : γ → TableM β} {as : List γ} (hf : ∀ a ∈ as, KeepsTable T (f a)) :
    KeepsTable T (as.mapM f) := (Yields.mapM hf).keeps

/-! ### Places -/

def Place.find? (T : Table) (p : Place) : Option PlacedTy :=
  match p.slot with
  | .result => (T.get p.value).type
  | .operand => operandTy? (T.get p.value).op

/-- The type is the one at the place up to choices. -/
def Place.Holds (T : Table) (p : Place) (t : PlacedTy) : Prop := ∀ t₀, p.find? T = some t₀ → t.bare = t₀.bare

theorem Place.find?_like {T' : Table} (h : T.Like T') (p : Place) :
    (p.find? T').map PlacedTy.bare = (p.find? T).map PlacedTy.bare := by
  have hv := h p.value
  unfold Place.find?
  cases p.slot with
  | result => exact congrArg Value.type hv
  | operand =>
    have hop : (T'.get p.value).op.bare = (T.get p.value).op.bare := congrArg Value.op hv
    dsimp only
    rw [← operandTy?_bare, ← operandTy?_bare, hop]

theorem Yields.read (p : Place) : Yields T p.read (p.Holds T) := by
  refine .bind .get fun T' hT' => ?_
  have hlike := Place.find?_like hT' p
  have hfound : ∀ t, p.find? T' = some t → p.Holds T t := by
    intro t ht t₀ ht₀
    rw [ht, ht₀] at hlike
    exact Option.some.inj hlike
  change Yields T (match p.find? T' with
    | some t => Pure.pure t
    | none => MonadExcept.throw (.fault .noSuchPart)) _
  cases ht : p.find? T' with
  | none => exact .throw _
  | some t => exact .pure (hfound t ht)

/-- Writing the type that stands at the place, up to choices. -/
theorem Yields.write {p : Place} {t : PlacedTy} {ty : Ty} (ht : p.Holds T t) (h : ty.bare = t.ty.bare) :
    KeepsTable T (p.write ty) := by
  intro T₁ a T₂ hT hx
  cases hx
  refine ⟨fun j => ?_, trivial⟩
  rcases Table.get_modify T₁ p.value j _ with hsame | ⟨rfl, hnew⟩
  · rw [hsame]
    exact hT j
  · rw [hnew, ← hT p.value]
    -- What is written is the type that stood there up to choices, so the value is the same up to choices.
    have hty : ∀ t₁, p.find? T₁ = some t₁ → ty.bare = t₁.ty.bare := by
      intro t₁ ht₁
      have hlike := Place.find?_like hT p
      rw [ht₁] at hlike
      obtain ⟨t₀, ht₀, heq⟩ := Option.map_eq_some_iff.1 hlike.symm
      have hbare : t.bare = t₁.bare := (ht t₀ ht₀).trans heq
      exact h.trans (congrArg PlacedTy.ty hbare)
    unfold Place.find? at hty
    cases hslot : p.slot with
    | result =>
      simp only [hslot] at hty
      cases htype : (T₁.get p.value).type with
      | none => simp [Value.bare, htype]
      | some t₁ => simp [Value.bare, htype, PlacedTy.bare, hty t₁ htype]
    | operand =>
      simp only [hslot] at hty
      cases hop : Place.operandTy? (T₁.get p.value).op with
      | none => simp
      | some t₁ => simp [Value.bare, Op.bare_setOperandTy hop (hty t₁ hop)]

/-! ### Relations between places -/

section Relations

variable (T)

theorem keeps_equal (p q : Place) : KeepsTable T (equal p q) := by
  refine .bind (.read p) fun s hs => .bind (.read q) fun t ht => .bind .get fun T' _ => ?_
  refine .bind (.lift (P := fun r => r.2.1.bare = s.ty.bare ∧ r.2.2.bare = t.ty.bare) fun r hr => equate_bare hr) ?_
  rintro ⟨c, s', t'⟩ ⟨hs', ht'⟩
  exact .bind (.write hs hs') fun _ _ => .bind (.write ht ht') fun _ _ => .pure trivial

theorem keeps_equalPointee (p q : Place) : KeepsTable T (equalPointee p q) := by
  refine .bind (.read q) fun t ht => ?_
  refine .bind (.lift (P := fun r => ∀ u, u.bare = r.2.1.bare → (r.2.2 u).bare = t.ty.bare)
    fun r hr u hu => pointee_bare hr hu) ?_
  rintro ⟨place, target, rebuild⟩ hrebuild
  refine .bind (.write ht (hrebuild target rfl)) fun _ _ => .bind (.read p) fun s hs => .bind .get fun T' _ => ?_
  refine .bind (.lift (P := fun r => r.2.1.bare = s.ty.bare ∧ r.2.2.bare = target.bare) fun r hr => equate_bare hr) ?_
  rintro ⟨c, s', target'⟩ ⟨hs', ht'⟩
  exact .bind (.write hs hs') fun _ _ => .bind (.write ht (hrebuild target' ht')) fun _ _ => .pure trivial

theorem keeps_related (r : Relation) (p q : Place) : KeepsTable T (related r p q) := by
  refine .bind (.read p) fun s hs => .bind (.read q) fun t ht => ?_
  refine .bind (.lift (P := fun r => r.2.1.bare = s.ty.bare ∧ r.2.2.bare = t.ty.bare)
    fun r hr => compareWidths_bare hr) ?_
  rintro ⟨c, s', t'⟩ ⟨hs', ht'⟩
  exact .bind (.write hs hs') fun _ _ => .bind (.write ht ht') fun _ _ => .pure trivial

theorem keeps_relatedTo (r : Relation) (p : Place) (n : Int) : KeepsTable T (relatedTo r p n) := by
  refine .bind (.read p) fun s hs => ?_
  refine .bind (.lift (P := fun r => r.2.bare = s.ty.bare) fun r hr => compareWidth_bare hr) ?_
  rintro ⟨c, s'⟩ hs'
  exact .bind (.write hs hs') fun _ _ => .pure trivial

theorem keeps_hasWidth (p : Place) (n : Int) : KeepsTable T (hasWidth p n) :=
  .bind (.read p) fun _ _ => .lift fun _ _ => trivial

theorem keeps_hasKind (p : Place) (k : TyKind) : KeepsTable T (hasKind p k) :=
  .bind (.read p) fun _ _ => .pure trivial

theorem keeps_allEqual (k : TyKind) (is : List ValueId) : KeepsTable T (allEqual k is) := by
  cases is with
  | nil => exact .pure trivial
  | cons i is =>
    refine .bind (keeps_hasKind T (own i) k) fun _ _ => ?_
    exact .bind (.keepsAll fun j _ => keeps_equal T (own i) (own j)) fun _ _ => .pure trivial

theorem keeps_definedWidth (i : ValueId) : KeepsTable T (definedWidth i) := by
  refine .bind (.read (own i)) fun t _ => ?_
  split
  · exact .pure trivial
  · exact .throw _

theorem keeps_callConstraint (i : ValueId) (fn : ConstFn) (args : List ValueId) :
    KeepsTable T (callConstraint i fn args) := by
  unfold callConstraint
  split
  case h_11 | h_12 | h_13 => exact .bind (keeps_related T _ _ _) fun _ _ => .pure trivial
  case h_14 => exact .pure trivial
  case h_15 => exact .throw _
  all_goals exact keeps_allEqual T .int _

theorem keeps_convertConstraint (i : ValueId) (op : ConvertOp) : KeepsTable T (convertConstraint i op) := by
  cases op with
  | trunc => exact keeps_related T _ _ _
  | zext | sext => exact keeps_related T _ _ _
  | zextOrTrunc | ptrToInt | intToPtr => exact .pure trivial
  | bitcast =>
    refine .bind (.read (ofOperand i)) fun s _ => .bind (.read (own i)) fun t _ => .bind .get fun T' _ => ?_
    refine .bind (.lift (P := fun _ => True) fun _ _ => trivial) fun a _ => ?_
    exact .bind (.lift (P := fun _ => True) fun _ _ => trivial) fun b _ => .pure trivial

end Relations

/-! ### Types that fit -/

/-- The width of an integer type: an open one is between 1 and 64. -/
def IntFits (σ : Assignment) (p : String) : Option Nat → Prop
  | some _ => True
  | none => 0 < σ (sizeVar p) ∧ σ (sizeVar p) ≤ 64

/-- The variable of a count has the value that is written, or is bounded. -/
def CountFits (T : Table) (σ : Assignment) (i : ValueId) : Prop :=
  match (T.get i).op with
  | .count v _ hi var =>
    match (T.get v).op with
    | .literal n => σ var = n
    | _ => σ var ≤ hi
  | _ => True

/-- The variables of the alternative of one kind of an open type have values that it allows. -/
def KindFits (T : Table) (σ : Assignment) (p : String) (c : Choice) : TyKind → Prop
  | .int => ∃ w, c.int = some w ∧ IntFits σ p w
  | .ptr => c.ptr = true ∧ IntFits σ (pointeePlace p) none
  | .array => ∃ n, c.array = some n ∧ CountFits T σ n.id ∧ IntFits σ (elemPlace p) none

/-- The variables of an open type have values that it allows. -/
def ChoiceFits (T : Table) (σ : Assignment) (p : String) (c : Choice) : Prop :=
  ∃ k : TyKind, σ (kindVar p) = k.code ∧ KindFits T σ p c k

/-- The variables of a type have values that it allows. -/
def Fits (T : Table) (σ : Assignment) (p : String) : Ty → Prop
  | .int w => IntFits σ p w
  | .ptr t => Fits T σ (pointeePlace p) t
  | .array n t => CountFits T σ n.id ∧ Fits T σ (elemPlace p) t
  | .unknown c => ChoiceFits T σ p c
  | .named name c _ => ChoiceFits T σ name c

/-- What fits does not depend on the kinds that are chosen. -/
theorem fits_bare {p : String} (t : Ty) : Fits T σ p t.bare ↔ Fits T σ p t := by
  induction t generalizing p with
  | int w => exact Iff.rfl
  | ptr t ih => exact ih
  | array n t ih => exact and_congr_right fun _ => ih
  | unknown c => exact Iff.rfl
  | named name c here _ => exact Iff.rfl

theorem fits_of_bare {p : String} {t t' : Ty} (h : t.bare = t'.bare) (ht : Fits T σ p t) : Fits T σ p t' := by
  rw [← fits_bare, ← h, fits_bare]
  exact ht

section Types

variable {count : ValueId → TableM Constraint}
  (hcount : ∀ j, Yields T (count j) fun c => ∀ σ, c.holds σ = true → CountFits T σ j)

theorem intConstraint_fits {p : String} {w : Option Nat} (h : (intConstraint p w).holds σ = true) :
    σ (kindVar p) = TyKind.int.code ∧ IntFits σ p w := by
  cases w with
  | some w =>
    obtain ⟨hkind, -⟩ := Constraint.holds_and_cons.1 h
    exact ⟨Constraint.holds_varIs.1 hkind, trivial⟩
  | none =>
    simp only [intConstraint, widthRange, Constraint.holds_and_cons] at h
    obtain ⟨hkind, ⟨hlow, hhigh, -⟩, -⟩ := h
    exact ⟨Constraint.holds_varIs.1 hkind, of_decide_eq_true hlow, of_decide_eq_true hhigh⟩

include hcount

theorem kindConstraint_fits (p : String) (c : Choice) (k : TyKind) :
    Yields T (kindConstraint count p c k) fun e =>
      ∀ σ, e.holds σ = true → σ (kindVar p) = k.code ∧ KindFits T σ p c k := by
  cases k with
  | int =>
    rw [kindConstraint]
    split
    · next w hw =>
      refine .pure fun σ h => ?_
      obtain ⟨hkind, hfits⟩ := intConstraint_fits h
      exact ⟨hkind, w, hw, hfits⟩
    · exact .throw _
  | ptr =>
    rw [kindConstraint]
    split
    · next hptr =>
      refine .pure fun σ h => ?_
      obtain ⟨hkind, hint, -⟩ := by simpa only [Constraint.holds_and_cons] using h
      exact ⟨Constraint.holds_varIs.1 hkind, hptr, (intConstraint_fits hint).2⟩
    · exact .throw _
  | array =>
    rw [kindConstraint]
    split
    · next n hn =>
      refine .bind (hcount n.id) fun e he => .pure fun σ h => ?_
      obtain ⟨hkind, hn', hint, -⟩ := by simpa only [Constraint.holds_and_cons] using h
      exact ⟨Constraint.holds_varIs.1 hkind, n, hn, he σ hn', (intConstraint_fits hint).2⟩
    · exact .throw _

theorem openConstraint_fits (p : String) (c : Choice) :
    Yields T (openConstraint count p c) fun e => ∀ σ, e.holds σ = true → ChoiceFits T σ p c := by
  unfold openConstraint
  split
  · next k _ =>
    refine (kindConstraint_fits hcount p c k).mono fun e he σ h => ?_
    exact ⟨k, he σ h⟩
  · refine .bind (.mapM fun k _ => kindConstraint_fits hcount p c k) fun es hes => .pure fun σ h => ?_
    obtain ⟨e, he, hholds⟩ := holds_anyOf h
    obtain ⟨k, -, hk⟩ := hes.1 e he
    exact ⟨k, hk σ hholds⟩

theorem keeps_plainConstraint (p : String) (t : Ty) : KeepsTable T (plainConstraint count p t) := by
  induction t generalizing p with
  | int w => exact .pure trivial
  | ptr t ih => exact .bind (ih _) fun _ _ => .pure trivial
  | array n t ih => exact .bind (hcount n.id).keeps fun _ _ => .bind (ih _) fun _ _ => .pure trivial
  | unknown c => exact (openConstraint_fits hcount p c).keeps
  | named name c here => exact .throw _

/-- **Where the constraint of a type holds, the type fits**; and it stays as it is up to choices. -/
theorem tyConstraint_fits (p : String) (t : Ty) :
    Yields T (tyConstraint count p t) fun r =>
      r.2.bare = t.bare ∧ ∀ σ, r.1.holds σ = true → Fits T σ p t := by
  induction t generalizing p with
  | int w => exact .pure ⟨rfl, fun σ h => (intConstraint_fits h).2⟩
  | ptr t ih =>
    refine .bind (ih _) fun r hr => .pure ⟨congrArg Ty.ptr hr.1, fun σ h => ?_⟩
    obtain ⟨-, ht, -⟩ := by simpa only [Constraint.holds_and_cons] using h
    exact hr.2 σ ht
  | array n t ih =>
    refine .bind (hcount n.id) fun e he => .bind (ih _) fun r hr => .pure ⟨congrArg (Ty.array n) hr.1, fun σ h => ?_⟩
    obtain ⟨-, hn, ht, -⟩ := by simpa only [Constraint.holds_and_cons] using h
    exact ⟨he σ hn, hr.2 σ ht⟩
  | unknown c => exact .bind (openConstraint_fits hcount p c) fun e he => .pure ⟨rfl, he⟩
  | named name c here _ =>
    refine .bind .get fun T' _ => ?_
    refine .bind (.lift (P := fun r => r.2.1.bare = c.bare ∧ r.2.2.bare = here.bare) fun r hr => equateOpen_bare hr) ?_
    rintro ⟨e, c', here'⟩ ⟨hc, hhere⟩
    refine .bind (openConstraint_fits hcount name c') fun e₁ he₁ => ?_
    refine .bind (keeps_plainConstraint hcount p here') fun e₂ _ => .pure ⟨?_, fun σ h => ?_⟩
    · simp [Ty.bare, hc, hhere]
    · obtain ⟨-, hname, -⟩ := by simpa only [Constraint.holds_and_cons] using h
      have hopen : Ty.bare (.unknown c') = Ty.bare (.unknown c) := congrArg Ty.unknown hc
      exact fits_of_bare (p := name) hopen (he₁ σ hname)

end Types

/-! ### Values -/

/-- The type of the result of a value; branches and numbers that the typing fixes have none. -/
def resultTy? (v : Value) : Option PlacedTy :=
  match v.op with
  | .count _ _ _ _ | .br _ _ _ | .skip | .unreachable => none
  | _ => v.type

/-- The number of elements that an operation allocates. -/
def allocated? : Op → Option ValueId
  | .alloca _ n _ => some n
  | _ => none

theorem allocated?_bare (op : Op) : allocated? op.bare = allocated? op := by
  cases op <;> rfl

/-- The type variables of a value have values that its type allows. -/
structure ValueFits (T : Table) (σ : Assignment) (i : ValueId) : Prop where
  count : CountFits T σ i
  type : ∀ t, resultTy? (T.get i) = some t → Fits T σ t.place t.ty
  allocated : ∀ n, allocated? (T.get i).op = some n → CountFits T σ n

section Values

variable {sub : ValueId → TableM Constraint}
  (hsub : ∀ j, Yields T (sub j) fun c => ∀ σ, c.holds σ = true → ValueFits T σ j)

include hsub

theorem placeConstraint_fits (p : Place) :
    Yields T (placeConstraint sub p) fun c =>
      ∀ σ, c.holds σ = true → ∀ t, p.find? T = some t → Fits T σ t.place t.ty := by
  have hcount : ∀ j, Yields T (sub j) fun c => ∀ σ, c.holds σ = true → CountFits T σ j :=
    fun j => (hsub j).mono fun c hc σ h => (hc σ h).count
  refine .bind (.read p) fun t ht => .bind (tyConstraint_fits hcount t.place t.ty) ?_
  rintro ⟨c, ty⟩ ⟨hty, hfits⟩
  refine .bind (.write ht hty) fun _ _ => .pure fun σ h t₀ ht₀ => ?_
  have hbare := ht t₀ ht₀
  have hplace : t.bare.place = t₀.bare.place := congrArg PlacedTy.place hbare
  change t.place = t₀.place at hplace
  rw [← hplace]
  exact fits_of_bare (congrArg PlacedTy.ty hbare) (hfits σ h)

/-- The constraint on a number that the typing fixes bounds its variable. -/
theorem countConstraint_fits {v : ValueId} {lo hi : Int} {var : String} (hop : (T.get i).op = .count v lo hi var) :
    Yields T (countConstraint sub v lo hi var) fun c => ∀ σ, c.holds σ = true → CountFits T σ i := by
  refine .bind (hsub v) fun c _ => .bind .get fun T' hT' => ?_
  have hv : (T'.get v).op.bare = (T.get v).op.bare := congrArg Value.op (hT' v)
  unfold CountFits
  simp only [hop]
  split
  · next _ _ n hliteral =>
    have hop' : (T'.get v).op = .literal n := congrArg Value.op hliteral
    rw [hop'] at hv
    have hvalue : ∀ {cs : List Constraint} {σ : Assignment},
        (Constraint.allOf (c :: .varIs var n :: cs)).holds σ = true → σ var = n := by
      intro cs σ h
      have hmem := Constraint.holds_allOf.1 h (.varIs var n) (by simp)
      exact Constraint.holds_varIs.1 hmem
    simp only [Op.eq_of_bare hv rfl]
    refine .bind (keeps_definedWidth T v) fun w _ => ?_
    cases w with
    | none => exact .bind (keeps_hasWidth T _ _) fun _ _ => .pure fun σ h => hvalue h
    | some w => exact .pure fun σ h => hvalue h
  · next hother =>
    have hopen : ∀ n, (T.get v).op ≠ .literal n := by
      intro n hn
      rw [hn] at hv
      have hop' : (T'.get v).op = .literal n := Op.eq_of_bare hv.symm rfl
      cases hvalue : T'.get v with
      | mk name key type op =>
        rw [hvalue] at hop'
        cases hop'
        exact hother _ _ _ _ hvalue
    have hbound : ∀ {cs : List Constraint} {σ : Assignment} {m : Int}, m ≤ hi →
        .rel .le (.var var) (.const m) ∈ cs → (Constraint.allOf cs).holds σ = true → σ var ≤ hi := by
      intro cs σ m hm hmem h
      have hle : σ var ≤ m := of_decide_eq_true (Constraint.holds_allOf.1 h _ hmem)
      omega
    split
    · next n hn => exact absurd hn (hopen n)
    refine .bind (keeps_definedWidth T v) fun w _ => ?_
    cases w with
    | some w =>
      refine .pure fun σ h => hbound (m := min hi ((1 <<< w : Nat) - 1)) (Int.min_le_left _ _) ?_ h
      simp
    | none => exact .bind (keeps_relatedTo T _ _ _) fun _ _ => .pure fun σ h => hbound (Int.le_refl hi) (by simp) h

def TypeFits (T : Table) (i : ValueId) (c : Constraint) : Prop :=
  ∀ σ, c.holds σ = true → ∀ t, (T.get i).type = some t → Fits T σ t.place t.ty

omit hsub in
theorem TypeFits.and {c : Constraint} {cs : List Constraint} (h : TypeFits T i c) (hc : c ∈ cs) :
    TypeFits T i (.and cs) := fun σ hcs => h σ (Constraint.holds_and.1 hcs c hc)

omit hsub in
theorem TypeFits.allOf {c : Constraint} {cs : List Constraint} (h : TypeFits T i c) (hc : c ∈ cs) :
    TypeFits T i (.allOf cs) := fun σ hcs => h σ (Constraint.holds_allOf.1 hcs c hc)

omit hsub in
/-- An operation that is no number of the typing: what is left to show of its constraint. -/
theorem valueFits_of_typeFits {T' : Table} (hT : T.Like T') {c : Constraint}
    (hop : ∀ v lo hi var, (T'.get i).op ≠ .count v lo hi var) (htype : TypeFits T i c)
    (halloc : ∀ n, allocated? (T'.get i).op = some n → ∀ σ, c.holds σ = true → CountFits T σ n) :
    ∀ σ, c.holds σ = true → ValueFits T σ i := by
  intro σ hc
  have hi : (T'.get i).op.bare = (T.get i).op.bare := congrArg Value.op (hT i)
  refine ⟨?_, fun t ht => htype σ hc t ?_, fun n hn => halloc n ?_ σ hc⟩
  · unfold CountFits
    split
    · next v lo hi' var hcount =>
      rw [hcount] at hi
      exact absurd (Op.eq_of_bare hi.symm rfl) (hop v lo hi' var)
    · trivial
  · unfold resultTy? at ht
    split at ht
    case h_5 => exact ht
    all_goals cases ht
  · rw [← allocated?_bare, hi, allocated?_bare]
    exact hn

omit hsub in
theorem valueFits_of_untyped (htype : resultTy? (T.get i) = none)
    (halloc : allocated? (T.get i).op = none) (hcount : CountFits T σ i) : ValueFits T σ i := by
  refine ⟨hcount, fun t ht => ?_, fun n hn => ?_⟩
  · rw [htype] at ht
    cases ht
  · rw [halloc] at hn
    cases hn

/-- **Where the constraint of a value holds, its type fits**, given the same of the values before it. -/
theorem valueConstraint_fits (i : ValueId) :
    Yields T (valueConstraint sub i) fun c => ∀ σ, c.holds σ = true → ValueFits T σ i := by
  have htype : Yields T (placeConstraint sub (own i)) (TypeFits T i) := placeConstraint_fits hsub (own i)
  have hoperand : KeepsTable T (placeConstraint sub (ofOperand i)) := (placeConstraint_fits hsub (ofOperand i)).keeps
  have hkeeps : ∀ j, KeepsTable T (sub j) := fun j => (hsub j).keeps
  refine .bind .get fun T' hT' => ?_
  have hi : (T'.get i).op.bare = (T.get i).op.bare := congrArg Value.op (hT' i)
  have hfits := fun c => valueFits_of_typeFits (i := i) (c := c) hT'
  generalize (T'.get i).op = op at hi hfits
  have htyped : ∀ {c : Constraint}, (∀ v lo hi var, op ≠ .count v lo hi var) → allocated? op = none →
      TypeFits T i c → ∀ σ, c.holds σ = true → ValueFits T σ i := by
    intro c hop hnone htype
    refine hfits c hop htype fun n hn => ?_
    rw [hnone] at hn
    cases hn
  cases op with
  | input | undefined => exact htype.mono fun c hc => htyped (by simp) rfl hc
  | literal n =>
    refine .bind htype fun c hc => ?_
    split
    · refine .bind (keeps_definedWidth T i) fun w _ => ?_
      cases w with
      | none => exact .bind (keeps_relatedTo T _ _ _) fun e _ => .pure (htyped (by simp) rfl (hc.and (by simp)))
      | some w => exact .pure (htyped (by simp) rfl hc)
    · exact .pure (htyped (by simp) rfl hc)
  | unary op v =>
    refine .bind (keeps_equal T _ _) fun e _ => .bind (hkeeps v) fun c _ => .bind htype fun t ht => ?_
    exact .pure (htyped (by simp) rfl (ht.allOf (by simp)))
  | binary op a b =>
    refine .bind (keeps_equal T _ _) fun e₁ _ => .bind (keeps_equal T _ _) fun e₂ _ => ?_
    refine .bind (hkeeps a) fun c₁ _ => .bind (hkeeps b) fun c₂ _ => .bind htype fun t ht => ?_
    exact .pure (htyped (by simp) rfl (ht.allOf (by simp)))
  | call fn args =>
    refine .bind (keeps_callConstraint T i fn args) fun cs _ => .bind (.keepsAll fun j _ => hkeeps j) fun as _ => ?_
    exact .bind htype fun t ht => .pure (htyped (by simp) rfl (ht.allOf (by simp)))
  | count v lo hi' var =>
    have hop : (T.get i).op = .count v lo hi' var := Op.eq_of_bare hi rfl
    refine (countConstraint_fits hsub hop).mono fun c hc σ h => valueFits_of_untyped ?_ ?_ (hc σ h)
    · simp [resultTy?, hop]
    · simp [allocated?, hop]
  | copy v | ret v =>
    refine .bind (keeps_equal T _ _) fun e _ => .bind htype fun t ht => ?_
    exact .pure (htyped (by simp) rfl (ht.and (by simp)))
  | arith op a b flags =>
    refine .bind (keeps_equal T _ _) fun e₁ _ => .bind (keeps_equal T _ _) fun e₂ _ => .bind htype fun t ht => ?_
    exact .pure (htyped (by simp) rfl (ht.and (by simp)))
  | convert op s v =>
    refine .bind (keeps_convertConstraint T i op) fun c _ => .bind (keeps_equal T _ _) fun e _ => ?_
    refine .bind htype fun t ht => .bind hoperand fun u _ => ?_
    exact .pure (htyped (by simp) rfl (ht.and (by simp)))
  | icmp p s a b =>
    refine .bind (keeps_equal T _ _) fun e₁ _ => .bind (keeps_equal T _ _) fun e₂ _ => ?_
    refine .bind htype fun t ht => .bind hoperand fun u _ => ?_
    exact .pure (htyped (by simp) rfl (ht.and (by simp)))
  | select c a b =>
    refine .bind (keeps_equal T _ _) fun e₁ _ => .bind (keeps_equal T _ _) fun e₂ _ => ?_
    refine .bind (keeps_hasWidth T _ _) fun e₃ _ => .bind htype fun t ht => ?_
    exact .pure (htyped (by simp) rfl (ht.and (by simp)))
  | alloca s n align =>
    refine .bind .get fun T'' _ => ?_
    split
    · refine .bind (keeps_equal T _ _) fun e _ => .bind htype fun t ht => ?_
      refine .bind hoperand fun u _ => .bind (hsub n) fun c hc => .pure ?_
      refine hfits _ (by simp) (ht.and (by simp)) fun n' hn σ h => ?_
      cases hn
      exact (hc σ (Constraint.holds_and.1 h c (by simp))).count
    · exact .throw _
  | gep p indices inbounds =>
    refine .bind (.read _) fun t _ => .bind (.lift (P := fun _ => True) fun _ _ => trivial) fun d _ => ?_
    refine .bind (.keepsAll fun j _ => hkeeps j) fun cs _ => .bind (hkeeps p) fun c _ => .bind htype fun t' ht' => ?_
    have hlast : TypeFits T i (.allOf (cs ++ [c, t'])) := ht'.allOf (by simp)
    exact .pure (htyped (by simp) rfl (hlast.and (by simp)))
  | load s v align =>
    refine .bind (keeps_equal T _ _) fun e₁ _ => .bind (keeps_equalPointee T _ _) fun e₂ _ => .bind htype fun t ht => ?_
    exact .pure (htyped (by simp) rfl (ht.and (by simp)))
  | store s src dst align =>
    refine .bind (keeps_equalPointee T _ _) fun e₁ _ => .bind (keeps_equal T _ _) fun e₂ _ => ?_
    refine .bind (keeps_equal T _ _) fun e₃ _ => .bind hoperand fun u _ => .bind htype fun t ht => ?_
    exact .pure (htyped (by simp) rfl (ht.and (by simp)))
  | skip | unreachable =>
    have hop := Op.eq_of_bare hi rfl
    refine .pure fun σ _ => valueFits_of_untyped ?_ ?_ ?_
    all_goals simp [resultTy?, allocated?, CountFits, hop]
  | br c l₁ l₂ =>
    have hop := Op.eq_of_bare hi rfl
    refine (hkeeps c).mono fun e _ σ _ => valueFits_of_untyped ?_ ?_ ?_
    all_goals simp [resultTy?, allocated?, CountFits, hop]

end Values

/-! ### Programs -/

theorem constraint_fits (i : ValueId) :
    Yields T (constraint i) fun c => ∀ σ, c.holds σ = true → ValueFits T σ i := by
  induction i using Nat.strongRecOn with
  | ind i ih =>
    rw [constraint]
    refine valueConstraint_fits (fun j => ?_) i
    split
    · next hj => exact ih j hj
    · exact .throw _

theorem constraints_fits (names : Dict ValueId) :
    Yields T (constraints names) fun cs =>
      ∀ σ, Constraint.holdsAll σ cs = true → ∀ e ∈ names, ValueFits T σ e.2 := by
  refine .bind (.mapM fun e _ => constraint_fits e.2) fun cs hcs => .bind .get fun T' _ => ?_
  have hfits : ∀ {more : List Constraint} {σ : Assignment}, Constraint.holdsAll σ (cs ++ more) = true →
      ∀ e ∈ names, ValueFits T σ e.2 := by
    intro more σ h e he
    obtain ⟨c, hc, himp⟩ := hcs.2 e he
    exact himp σ (Constraint.holdsAll_iff.1 h c (List.mem_append_left _ hc))
  dsimp only
  split
  · refine .pure fun σ h => @hfits [] σ ?_
    rwa [List.append_nil]
  · exact .bind (.keepsAll fun j _ => keeps_equal T _ _) fun es _ => .pure fun σ h => hfits h

theorem typeProblem_fits {o : Elaborate.Optimization} {p : TypeProblem} (h : typeProblem o = .ok p)
    (hσ : Constraint.holdsAll σ (p.source ++ p.target) = true) :
    ∀ e ∈ o.sourceNames ++ o.targetNames, ValueFits o.table σ e.2 := by
  obtain ⟨⟨⟨source, target, pre⟩, T'⟩, hrun, hp⟩ := bind_eq_ok h
  cases hp
  rw [Constraint.holdsAll_append] at hσ
  obtain ⟨⟨cs, T₁⟩, hsource, hrun⟩ := bind_eq_ok hrun
  obtain ⟨⟨ct, T₂⟩, htarget, hrun⟩ := bind_eq_ok hrun
  obtain ⟨⟨c, T₃⟩, _, hrun⟩ := bind_eq_ok hrun
  cases hrun
  obtain ⟨hlike, hs⟩ := constraints_fits o.sourceNames o.table _ _ (.refl _) hsource
  obtain ⟨-, ht⟩ := constraints_fits o.targetNames T₁ _ _ hlike htarget
  intro e he
  rcases List.mem_append.1 he with he | he
  · exact hs σ hσ.1 e he
  · exact ht σ hσ.2 e he

end Peephole.Typing
