import Peephole.Emit.Rule
import Peephole.Proofs.Emit.Run
import Peephole.Proofs.Program.Dict

/-!
# Names in generated code

A match binds names, and tells values and predicates apart by them.

* `newNames_legal` : **any fresh names are distinct and legal.**
* `Yields`, `Maintains` : a computation keeps a property of states; `Yields.register` : **registering what a value
  requires of types keeps every property that is not about types.**
* `Generator.Tidy` : all names are bound, and all bound names are taken.
* `Generator.Introduces` : a state binds one name more.
-/

namespace Peephole.Emit

open Program Cpp

variable {α β : Type} {t : Table} {g g' : Generator} {hint x : String} {i : ValueId} {u : Unit}

/-! ### Types -/

/-- The computation keeps the property `I` of states, and its results have the property `P`. -/
def Yields (t : Table) (I : Generator → Prop) (x : EmitM α) (P : α → Prop) : Prop :=
  ∀ g a g', I g → Runs x t g a g' → I g' ∧ P a

/-- The computation keeps a property of states. -/
abbrev Maintains (t : Table) (I : Generator → Prop) (x : EmitM α) : Prop := Yields t I x fun _ => True

section Yields

variable {I : Generator → Prop} {P : α → Prop} {Q : β → Prop}

theorem Yields.bind {x : EmitM α} {f : α → EmitM β} (hx : Yields t I x P) (hf : ∀ a, P a → Yields t I (f a) Q) :
    Yields t I (x >>= f) Q := by
  intro g b g' hg h
  obtain ⟨a, g₁, h₁, h₂⟩ := runs_bind.1 h
  obtain ⟨hg₁, ha⟩ := hx g a g₁ hg h₁
  exact hf a ha g₁ b g' hg₁ h₂

theorem Yields.pure {a : α} (h : P a) : Yields t I (pure a) P := by
  intro g b g' hg hrun
  obtain ⟨rfl, rfl⟩ := runs_pure.1 hrun
  exact ⟨hg, h⟩

theorem Yields.fail (f : Fault) : Yields t I (fail f : EmitM α) P := fun _ _ _ _ h => absurd h runs_fail

theorem Yields.unsupported (s : String) : Yields t I (unsupported s : EmitM α) P :=
  fun _ _ _ _ h => absurd h runs_unsupported

theorem Yields.valueAt (i : ValueId) : Yields t I (valueAt i) fun v => v = t.get i := by
  intro g v g' hg h
  obtain ⟨rfl, rfl⟩ := runs_valueAt.1 h
  exact ⟨hg, rfl⟩

theorem Yields.outcome {r : Except Error α} (h : ∀ a, r = .ok a → P a) : Yields t I (outcome r) P := by
  intro g a g' hg hrun
  obtain ⟨ha, rfl⟩ := runs_outcome.1 hrun
  exact ⟨hg, h a ha⟩

/-- What follows a look at the state sees a state with the property. -/
theorem Yields.get {f : Generator → EmitM β} (hf : ∀ g, I g → Yields t I (f g) Q) : Yields t I (get >>= f) Q := by
  intro g b g' hg h
  have h₁ := runs_get_bind.1 h
  exact hf _ hg _ b g' hg h₁

theorem Yields.mapM {γ : Type} {f : γ → EmitM α} {as : List γ} (hf : ∀ a ∈ as, Yields t I (f a) P) :
    Yields t I (as.mapM f) fun bs => ∀ b ∈ bs, P b := by
  induction as with
  | nil =>
    rw [List.mapM_nil]
    exact .pure nofun
  | cons a as ih =>
    obtain ⟨ha, has⟩ := List.forall_mem_cons.1 hf
    rw [List.mapM_cons]
    exact .bind ha fun b hb => .bind (ih has) fun bs hbs => .pure (List.forall_mem_cons.2 ⟨hb, hbs⟩)

theorem Yields.forM {γ : Type} {f : γ → EmitM PUnit} {as : List γ} (hf : ∀ a ∈ as, Maintains t I (f a)) :
    Maintains t I (as.forM f) := by
  induction as with
  | nil => exact .pure trivial
  | cons a as ih =>
    obtain ⟨ha, has⟩ := List.forall_mem_cons.1 hf
    exact .bind ha fun _ _ => ih has

theorem Yields.combined (a b : Ty) : Maintains t I (combined a b) :=
  .bind (.outcome fun _ h => h) fun _ _ => .pure trivial

theorem Yields.withEntry (a : Ty) (entry : Option Ty) : Maintains t I (withEntry a entry) := by
  cases entry with
  | some b => exact .combined a b
  | none => exact .pure trivial

theorem Yields.typeOf (v : Value) : Maintains t I (typeOf v) := by
  unfold Emit.typeOf
  split
  · exact .pure trivial
  · exact .fail _

theorem Yields.joinEntries (entries : Slots Ty) (r s : ValueId) : Maintains t I (joinEntries entries r s) := by
  unfold Emit.joinEntries
  split
  · exact .pure trivial
  · split
    · exact .fail _
    · exact .bind (.combined _ _) fun _ _ => .pure trivial

/-- The property is not about types, and tests of types keep it. -/
structure TypeBlind (t : Table) (I : Generator → Prop) : Prop where
  types : ∀ {g g'}, g'.naming = g.naming → I g → I g'
  tests : ∀ r s, Maintains t I (testTypes r s)

variable (hI : TypeBlind t I)

include hI

theorem Yields.modify {f : Generator → Generator} (hf : ∀ g, (f g).naming = g.naming) :
    Maintains t I (modify f : EmitM PUnit) := by
  intro g u g' hg h
  obtain rfl := runs_modify.1 h
  exact ⟨hI.types (hf g) hg, trivial⟩

theorem Yields.representative (i : ValueId) : Maintains t I (representative i) :=
  fun _ _ _ hg h => ⟨hI.types (representative_naming h) hg, trivial⟩

theorem Yields.noteType (r : ValueId) (ty : Ty) : Maintains t I (noteType r ty) := by
  unfold Emit.noteType
  split
  · exact .modify hI fun _ => rfl
  · exact .pure trivial

theorem Yields.registerType (i : ValueId) (actual minimal : Ty) : Maintains t I (registerType i actual minimal) := by
  refine .bind (.representative hI i) fun r _ => .bind (.noteType hI r _) fun _ _ => .bind (.combined _ _) fun _ _ =>
    .get fun _ _ => .bind (.withEntry _ _) fun _ _ => .bind (.modify hI fun _ => rfl) fun _ _ => .get fun _ _ => ?_
  split
  · exact .get fun _ _ => .bind (.withEntry _ _) fun _ _ => .modify hI fun _ => rfl
  · exact .pure trivial

theorem Yields.linkClasses (r s : ValueId) : Maintains t I (linkClasses r s) :=
  .bind (.modify hI fun _ => rfl) fun _ _ => .get fun _ _ => .bind (.joinEntries _ _ _) fun _ _ =>
    .bind (.modify hI fun _ => rfl) fun _ _ => .get fun _ _ => .bind (.joinEntries _ _ _) fun _ _ =>
    .bind (.modify hI fun _ => rfl) fun _ _ => .pure trivial

theorem Yields.joinClass (r i : ValueId) : Maintains t I (joinClass r i) := by
  refine .bind (.representative hI i) fun s _ => ?_
  split
  · exact .pure trivial
  · refine .bind (hI.tests r s) fun _ _ => .get fun g _ => ?_
    split
    · exact .linkClasses hI s r
    · exact .linkClasses hI r s

theorem Yields.unify (is : List ValueId) : Maintains t I (unify is) := by
  cases is with
  | nil => exact .pure trivial
  | cons i is =>
    refine .bind (.representative hI i) fun r _ => .bind (P := fun _ => True) ?_ fun _ _ => .pure trivial
    induction is generalizing r with
    | nil => exact .pure trivial
    | cons j is ih =>
      rw [List.foldlM_cons]
      exact .bind (.joinClass hI r j) fun r _ => ih r

theorem Yields.registerWith {sub : ValueId → EmitM Unit} (hsub : ∀ j, Maintains t I (sub j)) (i : ValueId) :
    Maintains t I (registerWith sub i) := by
  unfold Emit.registerWith
  refine .bind (.valueAt i) fun v _ => ?_
  have hown : ∀ minimal, Maintains t I (do Emit.registerType i (← Emit.typeOf v) minimal) := fun minimal =>
    .bind (.typeOf v) fun _ _ => .registerType hI _ _ _
  -- An own type is registered, and then some types are made equal.
  have hthen : ∀ minimal is, Maintains t I (do Emit.registerType i (← Emit.typeOf v) minimal; Emit.unify is) :=
    fun minimal is => .bind (.typeOf v) fun _ _ => .bind (.registerType hI _ _ _) fun _ _ => .unify hI is
  split
  · exact hown _
  · exact .bind (.typeOf v) fun _ _ => .registerType hI _ _ _
  · exact hown _
  · exact .bind (hsub _) fun _ _ => hthen _ _
  · exact .bind (hsub _) fun _ _ => .bind (hsub _) fun _ _ => hthen _ _
  · refine .bind (.forM fun j _ => hsub j) fun _ _ => .bind (.typeOf v) fun _ _ =>
      .bind (.registerType hI _ _ _) fun _ _ => ?_
    split
    all_goals first | exact .unify hI _ | exact .pure trivial
  · exact hthen _ _
  · exact hthen _ _
  · exact .bind (.registerType hI _ _ _) fun _ _ => hown _
  · exact .bind (.typeOf v) fun _ _ => .bind (.registerType hI _ _ _) fun _ _ =>
      .bind (.registerType hI _ _ _) fun _ _ => .unify hI _
  · exact .bind (.typeOf v) fun _ _ => .bind (.registerType hI _ _ _) fun _ _ => .bind (.valueAt _) fun _ _ =>
      .bind (.typeOf _) fun _ _ => .bind (.registerType hI _ _ _) fun _ _ => .unify hI _
  · exact .fail _

/-- What a value requires of types is registered without a change to anything else but the tests of types. -/
theorem Yields.register (i : ValueId) : Maintains t I (register i) := by
  induction i using Nat.strongRecOn with
  | ind i ih =>
    rw [Emit.register]
    refine .registerWith hI (fun j => ?_) i
    split
    · next h => exact ih j h
    · exact .fail _

end Yields

/-- While the source is matched, no tests of types are added. -/
theorem typeBlind_inSource (n : Generator) : TypeBlind t fun g => g.inSource = true ∧ g.naming = n := by
  refine ⟨fun hsame hg => ⟨?_, hsame.trans hg.2⟩, fun r s g u g' hg h => ?_⟩
  · exact (congrArg Generator.inSource hsame :).trans hg.1
  · rw [testTypes, runs_get_bind, hg.1] at h
    obtain ⟨-, rfl⟩ := runs_pure.1 h
    exact ⟨hg, trivial⟩

/-- While the source is matched, registering what a value requires changes nothing but what is known about types. -/
theorem register_naming (hg : g.inSource = true) (h : Runs (register i) t g u g') : g'.naming = g.naming :=
  (Yields.register (typeBlind_inSource g.naming) i g u g' ⟨hg, rfl⟩ h).1.2

/-! ### Bound names -/

/-- All names of values and predicates are bound; the names that are taken are those that are bound, each once. -/
structure Generator.Tidy (g : Generator) : Prop where
  value_bound : ∀ i x, g.valueNames.get? i = some x → g.bound.has x = true
  key_bound : ∀ k x, g.keyNames.get? k = some x → g.bound.has x = true
  bound_iff_taken : ∀ x, g.bound.has x = true ↔ x ∈ g.names.taken
  bound_nodup : g.bound.keys.Nodup
  no_colon : ∀ x ∈ g.names.taken, ':' ∉ x.toList
  inSource : g.inSource = true
  no_clauses : g.clauses = []

theorem Generator.Tidy.value_taken (h : g.Tidy) (hx : g.valueNames.get? i = some x) : x ∈ g.names.taken :=
  (h.bound_iff_taken x).1 (h.value_bound i x hx)

theorem Generator.Tidy.key_taken (h : g.Tidy) {k : String} (hx : g.keyNames.get? k = some x) : x ∈ g.names.taken :=
  (h.bound_iff_taken x).1 (h.key_bound k x hx)

theorem Generator.Tidy.of_naming (h : g.Tidy) (hsame : g'.naming = g.naming) : g'.Tidy := by
  have hvalues := valueNames_of_naming hsame
  have hkeys : g'.keyNames = g.keyNames := (congrArg Generator.keyNames hsame :)
  have hbound : g'.bound = g.bound := (congrArg Generator.bound hsame :)
  have hnames : g'.names = g.names := (congrArg Generator.names hsame :)
  exact ⟨hvalues ▸ hbound ▸ h.value_bound, hkeys ▸ hbound ▸ h.key_bound,
    hbound ▸ hnames ▸ h.bound_iff_taken, hbound ▸ h.bound_nodup, hnames ▸ h.no_colon,
    (congrArg Generator.inSource hsame :).trans h.inSource, (congrArg Generator.clauses hsame :).trans h.no_clauses⟩

def Generator.nameFor (g : Generator) (hint : String) : String := (g.names.choose hint).1

/-- The state after a fresh name has been bound. -/
def Generator.introduce (g : Generator) (hint : String) (type : CType) : Generator :=
  { g with names := (g.names.choose hint).2, bound := g.bound.put (g.nameFor hint) type }

/-- The state after a value has got a name that is bound. -/
def Generator.introduceValue (g : Generator) (i : ValueId) (v : Value) : Generator :=
  { g.introduce v.name (cppType v) with valueNames := g.valueNames.put i (g.nameFor v.name) }

/-- The state after a predicate has got a name that is bound. -/
def Generator.introduceKey (g : Generator) (key : String) : Generator :=
  { g.introduce key predicateType with keyNames := g.keyNames.put key (g.nameFor key) }

theorem Generator.nameFor_fresh (g : Generator) (hint : String) : g.nameFor hint ∉ g.names.taken :=
  Names.choose_fresh _ _

theorem Generator.nameFor_mem_taken (g : Generator) (hint : String) : g.nameFor hint ∈ (g.names.choose hint).2.taken :=
  Names.mem_taken_choose.2 (.inr rfl)

theorem has_put (d : Dict α) (k k' : String) (a : α) : (d.put k a).has k' = true ↔ k = k' ∨ d.has k' = true := by
  have hkeys : ∀ d : Dict α, d.has k' = true ↔ k' ∈ d.keys := fun d => by simp [Dict.has, Dict.keys]
  rw [hkeys, hkeys, mem_put_iff, eq_comm]

/-- A state stays tidy when a fresh name is bound and given to a value or to a predicate. -/
theorem Generator.Tidy.introduce (h : g.Tidy) {type : CType}
    (hnames : g'.names = (g.introduce hint type).names) (hbound : g'.bound = (g.introduce hint type).bound)
    (hsource : g'.inSource = g.inSource) (hclauses : g'.clauses = g.clauses)
    (hvalues : ∀ i x, g'.valueNames.get? i = some x → g.valueNames.get? i = some x ∨ x = g.nameFor hint)
    (hkeys : ∀ k x, g'.keyNames.get? k = some x → g.keyNames.get? k = some x ∨ x = g.nameFor hint) : g'.Tidy := by
  have hhas : ∀ x, g'.bound.has x = true ↔ g.nameFor hint = x ∨ g.bound.has x = true := fun x => by
    rw [hbound]
    exact has_put _ _ _ _
  have htaken : ∀ x, x ∈ g'.names.taken ↔ x ∈ g.names.taken ∨ x = g.nameFor hint := fun x => by
    rw [hnames]
    exact Names.mem_taken_choose
  refine ⟨fun i x hx => ?_, fun k x hx => ?_, fun x => ?_, ?_, fun x hx => ?_, hsource.trans h.inSource,
    hclauses.trans h.no_clauses⟩
  · exact (hhas x).2 ((hvalues i x hx).elim (fun hold => .inr (h.value_bound i x hold)) fun hnew => .inl hnew.symm)
  · exact (hhas x).2 ((hkeys k x hx).elim (fun hold => .inr (h.key_bound k x hold)) fun hnew => .inl hnew.symm)
  · rw [hhas, htaken, h.bound_iff_taken, or_comm, eq_comm]
  · rw [hbound]
    exact nodup_put h.bound_nodup
  · rcases (htaken x).1 hx with hold | rfl
    · exact h.no_colon x hold
    · exact Names.no_colon_choose _ _

theorem runs_newName (h : Runs (newName hint) t g x g') :
    x = g.nameFor hint ∧ g' = { g with names := (g.names.choose hint).2 } := by
  cases h
  exact ⟨rfl, rfl⟩

/-- Fresh names are distinct, legal and taken from then on. -/
theorem exists_newNames (t : Table) (hints : List String) (g : Generator) :
    ∃ names g', Runs (hints.mapM newName) t g names g' ∧ names.length = hints.length ∧ names.Nodup ∧
      (∀ x ∈ names, x ∉ g.names.taken ∧ Legal x) ∧ g'.names.taken = g.names.taken ++ names := by
  induction hints generalizing g with
  | nil => exact ⟨[], g, rfl, rfl, .nil, nofun, (List.append_nil _).symm⟩
  | cons hint hints ih =>
    obtain ⟨names, g', hrun, hlen, hnodup, hall, htaken⟩ := ih { g with names := (g.names.choose hint).2 }
    simp only [Names.mem_taken_choose, not_or] at hall
    refine ⟨g.nameFor hint :: names, g', ?_, congrArg (· + 1) hlen, List.nodup_cons.2 ⟨fun hmem => ?_, hnodup⟩,
      List.forall_mem_cons.2 ⟨⟨g.nameFor_fresh hint, legal_choose _ _⟩, fun x hx => ?_⟩, ?_⟩
    · rw [List.mapM_cons]
      exact runs_bind.2 ⟨_, _, rfl, runs_bind.2 ⟨_, _, hrun, runs_pure.2 ⟨rfl, rfl⟩⟩⟩
    · exact (hall _ hmem).1.2 rfl
    · exact ⟨(hall x hx).1.1, (hall x hx).2⟩
    · exact htaken.trans (List.append_assoc _ [_] _)

/-- **Fresh names.**  Each call ends with the first name of its search that is not taken, and the names of any calls are
distinct and legal, whatever the hints are. -/
theorem newNames_legal (t : Table) (g : Generator) (hints : List String) :
    (∀ hint, ∃ x g', Runs (newName hint) t g x g' ∧
      Tries g.names.taken (wantedName hint) (wantedName hint) g.names.next x g'.names.next) ∧
    ∃ names g', Runs (hints.mapM newName) t g names g' ∧ names.length = hints.length ∧ names.Nodup ∧
      (∀ x ∈ names, x ∉ g.names.taken ∧ Legal x) ∧ g'.names.taken = g.names.taken ++ names :=
  ⟨fun hint => ⟨_, _, rfl, tries_choose g.names hint⟩, exists_newNames t hints g⟩

theorem runs_isBoundName {b : Bool} : Runs (isBoundName x) t g b g' ↔ b = g.bound.has x ∧ g' = g := by
  constructor
  · intro h
    have h₁ := runs_get_bind.1 h
    exact runs_pure.1 h₁
  · rintro ⟨rfl, rfl⟩
    rfl

theorem runs_bindName {type : CType} (hx : x ∈ g.names.taken) (h : Runs (bindName x type) t g u g') :
    g.bound.has x = false ∧ g' = { g with bound := g.bound.put x type } := by
  obtain ⟨b, g₁, hb, h₁⟩ := runs_bind.1 h
  obtain ⟨rfl, rfl⟩ := runs_isBoundName.1 hb
  obtain ⟨hnot, h₂⟩ := runs_ensure_bind.1 h₁
  have h₃ := runs_get_bind.1 h₂
  rw [if_pos (List.contains_iff_mem.2 hx)] at h₃
  obtain ⟨y, g₄, hy, h₄⟩ := runs_bind.1 h₃
  obtain ⟨rfl, rfl⟩ := runs_pure.1 hy
  exact ⟨by simpa using hnot, runs_modify.1 h₄⟩

/-- A name that has just been made is bound. -/
theorem introduce_of_runs {type : CType} {g₁ : Generator}
    (hx : Runs (newName hint) t g x g₁) (h : Runs (bindName x type) t g₁ u g') :
    x = g.nameFor hint ∧ g' = g.introduce hint type := by
  obtain ⟨rfl, rfl⟩ := runs_newName hx
  exact ⟨rfl, (runs_bindName (g.nameFor_mem_taken _) h).2⟩

theorem runs_nameOf_of_named {y : String} (hy : g.valueNames.get? i = some y)
    (h : Runs (nameOf i) t g x g') : x = y ∧ g' = g := by
  have h₁ := runs_valueAt_bind.1 h
  obtain ⟨-, h₂⟩ := runs_ensure_bind.1 h₁
  have h₃ := runs_get_bind.1 h₂
  rw [hy] at h₃
  exact runs_pure.1 h₃

theorem runs_nameOf_of_unnamed (hi : g.valueNames.get? i = none) (h : Runs (nameOf i) t g x g') :
    x = g.nameFor (t.get i).name ∧
      g' = { g with names := (g.names.choose (t.get i).name).2, valueNames := g.valueNames.put i x } := by
  have h₁ := runs_valueAt_bind.1 h
  obtain ⟨-, h₂⟩ := runs_ensure_bind.1 h₁
  have h₃ := runs_get_bind.1 h₂
  rw [hi] at h₃
  obtain ⟨y, g₄, hy, h₄⟩ := runs_bind.1 h₃
  obtain ⟨rfl, rfl⟩ := runs_newName hy
  obtain ⟨w, g₅, hw, h₅⟩ := runs_bind.1 h₄
  obtain rfl := runs_modify.1 hw
  obtain ⟨rfl, rfl⟩ := runs_pure.1 h₅
  exact ⟨rfl, rfl⟩

theorem runs_nameExpr_of_named {e : Expr} {y : String} (hy : g.valueNames.get? i = some y)
    (h : Runs (nameExpr i) t g e g') : e = .var y ∧ g' = g := by
  obtain ⟨x, g₁, hx, h₁⟩ := runs_bind.1 h
  obtain ⟨rfl, rfl⟩ := runs_nameOf_of_named hy hx
  exact runs_pure.1 h₁

theorem Generator.Tidy.isBound_eq (hg : g.Tidy) : g.isBound i = (g.valueNames.get? i).isSome := by
  unfold Generator.isBound
  cases hname : g.valueNames.get? i with
  | none => rfl
  | some x => exact hg.value_bound i x hname

theorem Generator.isBound_iff : g.isBound i = true ↔ ∃ x, g.valueNames.get? i = some x ∧ g.bound.has x = true := by
  cases h : g.valueNames.get? i <;> simp [Generator.isBound, h]

/-- The type of a value is read off its representative, which is bound. -/
theorem runs_typeExpr {e : Expr} (h : Runs (typeExpr i) t g e g') : ∃ r x, Runs (representative i) t g r g' ∧
    g'.valueNames.get? r = some x ∧ g'.bound.has x = true ∧ e = .method true (.var x) "getType" [] := by
  obtain ⟨r, g₁, hr, h₁⟩ := runs_bind.1 h
  have h₂ := runs_isBound_bind.1 h₁
  obtain ⟨hbound, h₃⟩ := runs_ensure_bind.1 h₂
  obtain ⟨x, hx, hhas⟩ := Generator.isBound_iff.1 hbound
  obtain ⟨a, g₄, ha, h₄⟩ := runs_bind.1 h₃
  obtain ⟨rfl, rfl⟩ := runs_nameExpr_of_named hx ha
  obtain ⟨rfl, rfl⟩ := runs_pure.1 h₄
  exact ⟨r, x, hr, hx, hhas, rfl⟩

/-- A value without a name gets one when it is bound. -/
theorem runs_bindValue (hi : g.valueNames.get? i = none) (h : Runs (bindValue i) t g u g') :
    g' = g.introduceValue i (t.get i) := by
  have h₁ := runs_valueAt_bind.1 h
  obtain ⟨x, g₂, hx, h₂⟩ := runs_bind.1 h₁
  obtain ⟨rfl, rfl⟩ := runs_nameOf_of_unnamed hi hx
  exact (runs_bindName (Names.mem_taken_choose.2 (.inr rfl)) h₂).2

end Peephole.Emit
