import Peephole.Proofs.Emit.Graph
import Peephole.Proofs.Emit.Naming

/-!
# What one match tests

The match of an instruction binds its operands.  An operand that has no name yet gets one; a value that was bound by an
earlier match must be found again; a value that occurs twice in the same match gets a second name, and the two names
must be equal.  Predicates are treated alike.

* `Builds` : runs of the computations that build a pattern.
* `Subpattern` : the patterns of an operand; `subpattern_of_builds` : there are no others.
-/

namespace Peephole.Emit

open Program Cpp
open Logic (Comparison)

variable {α β : Type} {t : Table} {g g' g₀ : Generator} {p p' : Pattern} {i : ValueId} {a e : Expr} {x : String}

/-! ### Building patterns -/

/-- The computation ends well with the result `a`, the pattern `p'` and the state `g'`. -/
def Builds (x : PatternM α) (t : Table) (p : Pattern) (g : Generator) (a : α) (p' : Pattern) (g' : Generator) : Prop :=
  Runs (x p) t g (a, p') g'

theorem builds_bind {x : PatternM α} {f : α → PatternM β} {b : β} :
    Builds (x >>= f) t p g b p' g' ↔ ∃ a p₁ g₁, Builds x t p g a p₁ g₁ ∧ Builds (f a) t p₁ g₁ b p' g' := by
  constructor
  · intro h
    obtain ⟨⟨a, p₁⟩, g₁, hx, hf⟩ := runs_bind.1 h
    exact ⟨a, p₁, g₁, hx, hf⟩
  · rintro ⟨a, p₁, g₁, hx, hf⟩
    exact runs_bind.2 ⟨(a, p₁), g₁, hx, hf⟩

theorem builds_pure {a b : α} : Builds (pure a : PatternM α) t p g b p' g' ↔ b = a ∧ p' = p ∧ g' = g := by
  unfold Builds
  show Runs (pure (a, p)) t g (b, p') g' ↔ _
  rw [runs_pure, Prod.mk.injEq, and_assoc]

theorem builds_outside {x : EmitM α} {a : α} :
    Builds (outside x) t p g a p' g' ↔ Runs x t g a g' ∧ p' = p := by
  constructor
  · intro h
    obtain ⟨b, hx, hpair⟩ := runs_bind_pure.1 h
    cases hpair
    exact ⟨hx, rfl⟩
  · rintro ⟨hx, rfl⟩
    exact runs_bind.2 ⟨a, g', hx, rfl⟩

theorem builds_outside_bind {x : EmitM α} {f : α → PatternM β} {b : β} :
    Builds (outside x >>= f) t p g b p' g' ↔ ∃ a g₁, Runs x t g a g₁ ∧ Builds (f a) t p g₁ b p' g' := by
  simp only [builds_bind, builds_outside]
  constructor
  · rintro ⟨a, p₁, g₁, ⟨hx, rfl⟩, hf⟩
    exact ⟨a, g₁, hx, hf⟩
  · rintro ⟨a, g₁, hx, hf⟩
    exact ⟨a, p, g₁, ⟨hx, rfl⟩, hf⟩

theorem builds_get_bind {f : Pattern → PatternM β} {b : β} :
    Builds (get >>= f) t p g b p' g' ↔ Builds (f p) t p g b p' g' := Iff.rfl

theorem builds_modify_bind {f : Pattern → Pattern} {k : PUnit → PatternM β} {b : β} :
    Builds (modify f >>= k) t p g b p' g' ↔ Builds (k ⟨⟩) t (f p) g b p' g' := Iff.rfl

/-! ### Operands -/

/-- The pattern that binds a name to the node of a value. -/
def leafPattern (v : Value) (x : String) : Expr :=
  .call (if v.name.startsWith "C" then "m_ConstantInt" else "m_Value") [.var x]

/-- The test that two names are equal. -/
def sameName (x y : String) : Expr := .binary .eq (.var x) (.var y)

/-- The pattern of the operand `i`, where the match has built `p` so far. -/
inductive Subpattern (t : Table) (g : Generator) (p : Pattern) (i : ValueId) : Expr → Pattern → Generator → Prop
  /-- A literal is looked at, not bound. -/
  | literal {n : Int} (hop : (t.get i).op = .literal n) :
    Subpattern t g p i (.call "m_SpecificInt" [.var (toString n)]) ⟨p.bound ++ [i], p.extras⟩ g
  /-- The value has occurred in this match. -/
  | again {y : String} (hop : ∀ n, (t.get i).op ≠ .literal n) (hmem : i ∈ p.bound)
    (hy : g.valueNames.get? i = some y) (hkind : ((t.get i).op.isInput || (t.get i).op.isInstr) = true) :
    Subpattern t g p i (leafPattern (t.get i) (g.nameFor (t.get i).name))
      ⟨p.bound, p.extras ++ [sameName y (g.nameFor (t.get i).name)]⟩
      (g.introduce (t.get i).name (cppType (t.get i)))
  /-- The value was bound by an earlier match. -/
  | earlier {x : String} (hop : ∀ n, (t.get i).op ≠ .literal n) (hmem : i ∉ p.bound)
    (hx : g.valueNames.get? i = some x) (hkind : ((t.get i).op.isInput || (t.get i).op.isInstr) = true) :
    Subpattern t g p i (.call "m_Specific" [.var x]) p g
  /-- The value is bound now. -/
  | first (hop : ∀ n, (t.get i).op ≠ .literal n) (hnone : g.valueNames.get? i = none)
    (hkind : ((t.get i).op.isInput || (t.get i).op.isInstr) = true) :
    Subpattern t g p i (leafPattern (t.get i) (g.nameFor (t.get i).name)) ⟨p.bound ++ [i], p.extras⟩
      (g.introduceValue i (t.get i))

/-- The operand has a pattern of one of these forms. -/
theorem subpattern_of_builds (hg : g.Tidy)
    (hbound : ∀ j ∈ p.bound, (∀ n, (t.get j).op ≠ .literal n) → ∃ x, g.valueNames.get? j = some x)
    (h : Builds (subpattern i) t p g e p' g') : Subpattern t g p i e p' g' := by
  obtain ⟨v, g₁, hv, h₁⟩ := builds_outside_bind.1 h
  obtain ⟨rfl, rfl⟩ := runs_valueAt.1 hv
  split at h₁
  · next n hop =>
    have h₂ := builds_modify_bind.1 h₁
    obtain ⟨rfl, rfl, rfl⟩ := builds_pure.1 h₂
    exact .literal hop
  · next hop =>
    have hop : ∀ n, (t.get i).op ≠ .literal n := fun n hn => hop n hn
    obtain ⟨u, g₂, hu, h₂⟩ := builds_outside_bind.1 h₁
    obtain ⟨hkind, rfl⟩ := runs_ensure.1 hu
    have h₃ := builds_get_bind.1 h₂
    split at h₃
    · next hmem =>
      have hmem := List.contains_iff_mem.1 hmem
      obtain ⟨y, hy⟩ := hbound i hmem hop
      obtain ⟨x, g₄, hx, h₄⟩ := builds_outside_bind.1 h₃
      obtain ⟨u', g₅, hb, h₅⟩ := builds_outside_bind.1 h₄
      obtain ⟨rfl, rfl⟩ := introduce_of_runs hx hb
      obtain ⟨e', g₆, he, h₆⟩ := builds_outside_bind.1 h₅
      obtain ⟨rfl, rfl⟩ := runs_nameExpr_of_named (g := g₂.introduce _ _) hy he
      have h₇ := builds_modify_bind.1 h₆
      obtain ⟨rfl, rfl, rfl⟩ := builds_pure.1 h₇
      exact .again hop hmem hy hkind
    · next hmem =>
      have hmem : i ∉ p.bound := fun h => hmem (List.contains_iff_mem.2 h)
      obtain ⟨b, g₄, hb, h₄⟩ := builds_outside_bind.1 h₃
      obtain ⟨rfl, rfl⟩ := runs_isBound.1 hb
      rw [hg.isBound_eq] at h₄
      split at h₄
      · next hyes =>
        obtain ⟨x, hx⟩ := Option.isSome_iff_exists.1 hyes
        obtain ⟨e', g₅, he, h₅⟩ := builds_outside_bind.1 h₄
        obtain ⟨rfl, rfl⟩ := runs_nameExpr_of_named hx he
        obtain ⟨rfl, rfl, rfl⟩ := builds_pure.1 h₅
        exact .earlier hop hmem hx hkind
      · next hno =>
        have hnone := Option.not_isSome_iff_eq_none.1 hno
        obtain ⟨u', g₅, hbind, h₅⟩ := builds_outside_bind.1 (builds_modify_bind.1 h₄)
        obtain rfl := runs_bindValue hnone hbind
        obtain ⟨x, g₆, hx, h₆⟩ := builds_outside_bind.1 h₅
        obtain ⟨rfl, rfl⟩ := runs_nameOf_of_named (Slots.get?_put_self _ _ _) hx
        obtain ⟨rfl, rfl, rfl⟩ := builds_pure.1 h₆
        exact .first hop hnone hkind

/-! ### States during a match -/

/-- Names are kept. -/
structure Generator.Keeps (g g' : Generator) : Prop where
  value : ∀ i x, g.valueNames.get? i = some x → g'.valueNames.get? i = some x
  key : ∀ k x, g.keyNames.get? k = some x → g'.keyNames.get? k = some x
  taken : ∀ x ∈ g.names.taken, x ∈ g'.names.taken

theorem Generator.Keeps.refl (g : Generator) : g.Keeps g := ⟨fun _ _ h => h, fun _ _ h => h, fun _ h => h⟩

theorem Generator.Keeps.trans {g₁ : Generator} (h : g.Keeps g₁) (h' : g₁.Keeps g') : g.Keeps g' :=
  ⟨fun i x hx => h'.value i x (h.value i x hx), fun k x hx => h'.key k x (h.key k x hx),
    fun x hx => h'.taken x (h.taken x hx)⟩

/-- The match that began in `g₀` has built the pattern `p` and has come to the state `g`. -/
structure Midway (t : Table) (g₀ : Generator) (p : Pattern) (g : Generator) : Prop where
  start : g₀.Tidy
  tidy : g.Tidy
  keeps : g₀.Keeps g
  /-- What has a name now had it before, or was bound by this match. -/
  since : ∀ i x, g.valueNames.get? i = some x → i ∈ p.bound ∨ g₀.valueNames.get? i = some x
  named : ∀ i ∈ p.bound, (∀ n, (t.get i).op ≠ .literal n) → ∃ x, g.valueNames.get? i = some x
  extras : ∀ e ∈ p.extras, ∃ x y, e = sameName x y ∧ x ∈ g.names.taken ∧ y ∈ g.names.taken

theorem Midway.nil (hg : g.Tidy) : Midway t g ⟨[], []⟩ g :=
  ⟨hg, hg, .refl g, fun _ _ h => .inr h, nofun, nofun⟩

theorem Generator.keeps_introduce {hint : String} (hnames : g'.names = (g.names.choose hint).2)
    (hvalue : ∀ i x, g.valueNames.get? i = some x → g'.valueNames.get? i = some x)
    (hkey : ∀ k x, g.keyNames.get? k = some x → g'.keyNames.get? k = some x) : g.Keeps g' :=
  ⟨hvalue, hkey, fun x hx => by
    rw [hnames]
    exact Names.mem_taken_choose.2 (.inl hx)⟩

/-- A fresh name, given to a predicate or to nothing. -/
theorem Midway.introduce {hint : String} {type : CType} (extras : List Expr) (hm : Midway t g₀ p g)
    (hnames : g'.names = (g.introduce hint type).names) (hbound : g'.bound = (g.introduce hint type).bound)
    (hsource : g'.inSource = g.inSource) (hclauses : g'.clauses = g.clauses) (hvalues : g'.valueNames = g.valueNames)
    (hold : ∀ k x, g.keyNames.get? k = some x → g'.keyNames.get? k = some x)
    (hnew : ∀ k x, g'.keyNames.get? k = some x → g.keyNames.get? k = some x ∨ x = g.nameFor hint)
    (hextras : ∀ e ∈ extras, e ∈ p.extras ∨
      ∃ x y, e = sameName x y ∧ x ∈ g'.names.taken ∧ y ∈ g'.names.taken) :
    Midway t g₀ ⟨p.bound, extras⟩ g' ∧ g.Keeps g' := by
  have hkeeps : g.Keeps g' := Generator.keeps_introduce hnames (fun i x hx => by rwa [hvalues]) hold
  have htidy : g'.Tidy :=
    hm.tidy.introduce hnames hbound hsource hclauses (fun i x hx => .inl (by rwa [← hvalues])) hnew
  refine ⟨⟨hm.start, htidy, hm.keeps.trans hkeeps, ?_, ?_, fun e he => ?_⟩, hkeeps⟩
  · rw [hvalues]
    exact hm.since
  · rw [hvalues]
    exact hm.named
  · rcases hextras e he with he | he
    · obtain ⟨x, y, rfl, hx, hy⟩ := hm.extras e he
      exact ⟨x, y, rfl, hkeeps.taken x hx, hkeeps.taken y hy⟩
    · exact he

/-- What one operand does to the state. -/
theorem Subpattern.step (h : Subpattern t g p i e p' g')
    (hm : Midway t g₀ p g) : Midway t g₀ p' g' ∧ g.Keeps g' ∧ p.extras ⊆ p'.extras := by
  cases h with
  | literal hop =>
    refine ⟨⟨hm.start, hm.tidy, hm.keeps, fun j x hx => ?_, fun j hj hj' => ?_, hm.extras⟩, .refl _, List.Subset.refl _⟩
    · exact (hm.since j x hx).imp_left fun hmem => List.mem_append_left _ hmem
    · rcases List.mem_append.1 hj with hj | hj
      · exact hm.named j hj hj'
      · obtain rfl := List.mem_singleton.1 hj
        exact absurd hop (hj' _)
  | @again y hop hmem hy =>
    obtain ⟨hm', hkeeps⟩ := Midway.introduce _ hm rfl rfl rfl rfl rfl (fun _ _ h => h) (fun _ _ h => .inl h)
      fun e he => (List.mem_append.1 he).imp_right fun he => ⟨_, _, List.mem_singleton.1 he,
        Names.mem_taken_choose.2 (.inl (hm.tidy.value_taken hy)), g.nameFor_mem_taken _⟩
    exact ⟨hm', hkeeps, List.subset_append_left _ _⟩
  | earlier hop hmem hx => exact ⟨hm, .refl _, List.Subset.refl _⟩
  | first hop hnone =>
    have hkeeps : g.Keeps (g.introduceValue i (t.get i)) :=
      Generator.keeps_introduce rfl (fun j x hx => Slots.get?_put_of_none hnone hx _) fun _ _ h => h
    refine ⟨⟨hm.start, ?_, hm.keeps.trans hkeeps, fun j x hx => ?_, fun j hj hj' => ?_, fun e he => ?_⟩, hkeeps,
      List.Subset.refl _⟩
    · exact hm.tidy.introduce rfl rfl rfl rfl (fun j x hx => (Slots.get?_put_cases hx).imp_right And.right)
        fun _ _ h => .inl h
    · rcases Slots.get?_put_cases hx with hx | ⟨rfl, -⟩
      · exact (hm.since j x hx).imp_left fun hmem => List.mem_append_left _ hmem
      · exact .inl (List.mem_append_right _ (List.mem_singleton_self _))
    · rcases List.mem_append.1 hj with hj | hj
      · obtain ⟨x, hx⟩ := hm.named j hj hj'
        exact ⟨x, hkeeps.value j x hx⟩
      · obtain rfl := List.mem_singleton.1 hj
        exact ⟨_, Slots.get?_put_self _ _ _⟩
    · obtain ⟨x, z, rfl, hx, hz⟩ := hm.extras e he
      exact ⟨x, z, rfl, hkeeps.taken x hx, hkeeps.taken z hz⟩

/-! ### Operands in a graph -/

section Meaning

variable {N : Type} {G : Graph N} {φ : ValueId → N} {ψ : String → Comparison} {ρ₀ ρ ρ' ρ₁ : Scope N}

/-- The variables have the nodes of the values and the predicates whose names they are. -/
structure Agrees (t : Table) (G : Graph N) (g : Generator) (φ : ValueId → N) (ψ : String → Comparison)
    (ρ : Scope N) : Prop where
  value : ∀ i x, g.valueNames.get? i = some x → ρ x = some (.node (φ i))
  key : ∀ k x, g.keyNames.get? k = some x → ρ x = some (.predicate (ψ k))
  symbol : ∀ i x, g.valueNames.get? i = some x → (t.get i).name.startsWith "C" = true → ∃ k, G (φ i) = .constant k

/-- The names that are taken keep their variables. -/
def Grows (g : Generator) (ρ ρ' : Scope N) : Prop := ∀ x ∈ g.names.taken, ρ' x = ρ x

theorem Grows.refl (g : Generator) (ρ : Scope N) : Grows g ρ ρ := fun _ _ => rfl

theorem Grows.trans (h : Grows g ρ ρ') (h' : Grows g' ρ' ρ₁) (hkeeps : g.Keeps g') : Grows g ρ ρ₁ :=
  fun x hx => (h' x (hkeeps.taken x hx)).trans (h x hx)

theorem grows_set (hx : x ∉ g.names.taken) (b : Binding N) : Grows g ρ (ρ.set x b) :=
  fun _ hy => Scope.set_of_ne ρ (ne_of_mem_of_not_mem hy hx) b

/-- What holds of the variables at the end held of those that there were before. -/
theorem Agrees.restrict (h : Agrees t G g' φ ψ ρ') (hg : g.Tidy) (hkeeps : g.Keeps g') (hgrows : Grows g ρ ρ') :
    Agrees t G g φ ψ ρ where
  value i x hx := (hgrows x (hg.value_taken hx)).symm.trans (h.value i x (hkeeps.value i x hx))
  key k x hx := (hgrows x (hg.key_taken hx)).symm.trans (h.key k x (hkeeps.key k x hx))
  symbol i x hx := h.symbol i x (hkeeps.value i x hx)

/-- A fresh variable changes nothing for the names that there are. -/
theorem Agrees.grow (h : Agrees t G g φ ψ ρ) (hg : g.Tidy) (hgrows : Grows g ρ ρ') : Agrees t G g φ ψ ρ' where
  value i x hx := (hgrows x (hg.value_taken hx)).trans (h.value i x hx)
  key k x hx := (hgrows x (hg.key_taken hx)).trans (h.key k x hx)
  symbol := h.symbol

theorem Agrees.introduceValue (h : Agrees t G g φ ψ ρ) (hg : g.Tidy)
    (hsymbol : (t.get i).name.startsWith "C" = true → ∃ k, G (φ i) = .constant k) :
    Agrees t G (g.introduceValue i (t.get i)) φ ψ (ρ.set (g.nameFor (t.get i).name) (.node (φ i))) := by
  have hgrow := h.grow hg (grows_set (g.nameFor_fresh (t.get i).name) (.node (φ i)))
  refine ⟨fun j x hx => ?_, hgrow.key, fun j x hx => ?_⟩
  · rcases Slots.get?_put_cases hx with hx | ⟨rfl, rfl⟩
    · exact hgrow.value j x hx
    · exact Scope.set_self _ _ _
  · rcases Slots.get?_put_cases hx with hx | ⟨rfl, -⟩
    · exact hgrow.symbol j x hx
    · exact hsymbol

variable [DecidableEq N]

theorem accept_leafPattern {v : Value} {n : N} : accept G ρ₀ (leafPattern v x) n ρ = some ρ' ↔
      (v.name.startsWith "C" = true → ∃ k, G n = .constant k) ∧ ρ' = ρ.set x (.node n) := by
  unfold leafPattern
  split
  · next h => simp [accept_constantInt, h]
  · next h => simp [accept_value, h, eq_comm]

theorem passes_sameName {y : String} (hg : g.Tidy) (hx : x ∈ g.names.taken) (hy : y ∈ g.names.taken) :
    passes G (sameName x y) ρ = some ρ' ↔ (∃ b, ρ x = some b ∧ ρ y = some b) ∧ ρ' = ρ :=
  passes_eq (hg.no_colon x hx) (hg.no_colon y hy)

/-- All extra tests of a match pass. -/
def ExtrasHold (G : Graph N) (p : Pattern) (ρ : Scope N) : Prop := ∀ e ∈ p.extras, passes G e ρ = some ρ

theorem ExtrasHold.grow (h : ExtrasHold G p ρ) (hm : Midway t g₀ p g) (hgrows : Grows g ρ ρ') : ExtrasHold G p ρ' := by
  intro e he
  obtain ⟨x, y, rfl, hx, hy⟩ := hm.extras e he
  obtain ⟨⟨b, hxb, hyb⟩, -⟩ := (passes_sameName hm.tidy hx hy).1 (h _ he)
  exact (passes_sameName hm.tidy hx hy).2 ⟨⟨b, (hgrows x hx).trans hxb, (hgrows y hy).trans hyb⟩, rfl⟩

/-- What the match of an operand leaves of the variables. -/
theorem Subpattern.grows {n : N} (h : Subpattern t g p i e p' g')
    (hacc : accept G ρ₀ e n ρ = some ρ') : Grows g ρ ρ' := by
  cases h with
  | literal hop =>
    obtain ⟨-, rfl⟩ := (accept_specificInt _).1 hacc
    exact .refl _ _
  | again hop hmem hy =>
    obtain ⟨-, rfl⟩ := accept_leafPattern.1 hacc
    exact grows_set (g.nameFor_fresh _) _
  | earlier hop hmem hx =>
    obtain ⟨-, rfl⟩ := (accept_specific _).1 hacc
    exact .refl _ _
  | first hop hnone =>
    obtain ⟨-, rfl⟩ := accept_leafPattern.1 hacc
    exact grows_set (g.nameFor_fresh _) _

/-- If an operand matches, its variables stand for nodes of the graph. -/
theorem Subpattern.agrees {n : N} (h : Subpattern t g p i e p' g') (hg : g.Tidy)
    (hacc : accept G ρ₀ e n ρ = some ρ') (hag : ∃ φ ψ, Agrees t G g φ ψ ρ) : ∃ φ ψ, Agrees t G g' φ ψ ρ' := by
  obtain ⟨φ, ψ, hag⟩ := hag
  cases h with
  | literal hop =>
    obtain ⟨-, rfl⟩ := (accept_specificInt _).1 hacc
    exact ⟨φ, ψ, hag⟩
  | again hop hmem hy =>
    obtain ⟨-, rfl⟩ := accept_leafPattern.1 hacc
    have hgrow := hag.grow hg (grows_set (g.nameFor_fresh (t.get i).name) (.node n))
    exact ⟨φ, ψ, hgrow.value, hgrow.key, hgrow.symbol⟩
  | earlier hop hmem hx =>
    obtain ⟨-, rfl⟩ := (accept_specific _).1 hacc
    exact ⟨φ, ψ, hag⟩
  | first hop hnone =>
    obtain ⟨hsymbol, rfl⟩ := accept_leafPattern.1 hacc
    -- The value had no name, so its node can be chosen anew.
    have hchanged : Agrees t G g (Function.update φ i n) ψ ρ := by
      have hne : ∀ j x, g.valueNames.get? j = some x → j ≠ i := by
        rintro j x hx rfl
        rw [hnone] at hx
        cases hx
      refine ⟨fun j x hx => ?_, hag.key, fun j x hx => ?_⟩
      · rw [Function.update_of_ne (hne j x hx)]
        exact hag.value j x hx
      · rw [Function.update_of_ne (hne j x hx)]
        exact hag.symbol j x hx
    have hput := hchanged.introduceValue hg (i := i) (by rwa [Function.update_self])
    rw [Function.update_self] at hput
    exact ⟨_, ψ, hput⟩

/-- If an operand and the extra tests match, the node stands for the operand. -/
theorem Subpattern.stands {n : N} (h : Subpattern t g p i e p' g')
    (hm : Midway t g₀ p g) (hstart : Grows g₀ ρ₀ ρ) (hacc : accept G ρ₀ e n ρ = some ρ')
    (hag : Agrees t G g' φ ψ ρ₁) (hgrows : Grows g' ρ' ρ₁) (hextras : ExtrasHold G p' ρ₁) : Stands t G φ i n := by
  have hm' := (h.step hm).1
  cases h with
  | literal hop => exact (stands_literal hop).2 ((accept_specificInt _).1 hacc).1
  | @again y hop hmem hy =>
    obtain ⟨hsymbol, rfl⟩ := accept_leafPattern.1 hacc
    -- The extra test makes the new variable equal to that of the value.
    have hlast := hextras _ (List.mem_append_right _ (List.mem_singleton_self _))
    have hnew : g.nameFor (t.get i).name ∈ (g.introduce (t.get i).name (cppType (t.get i))).names.taken :=
      g.nameFor_mem_taken _
    obtain ⟨⟨b, hyb, hxb⟩, -⟩ := (passes_sameName hm'.tidy (hm'.tidy.value_taken hy) hnew).1 hlast
    have hnode : ρ₁ (g.nameFor (t.get i).name) = some (.node n) := (hgrows _ hnew).trans (Scope.set_self _ _ _)
    have hsame : some (Binding.node n) = some (.node (φ i)) :=
      hnode.symm.trans (hxb.trans (hyb.symm.trans (hag.value i y hy)))
    refine (stands_of_not_literal hop).2 ⟨?_, hsymbol⟩
    cases hsame
    rfl
  | @earlier x hop hmem hx =>
    obtain ⟨hbefore, rfl⟩ := (accept_specific _).1 hacc
    have hx₀ : g₀.valueNames.get? i = some x := (hm.since i x hx).resolve_left hmem
    have hnode : ρ₁ x = some (.node n) :=
      (hgrows x (hm.tidy.value_taken hx)).trans ((hstart x (hm.start.value_taken hx₀)).trans hbefore)
    have hsame := hnode.symm.trans (hag.value i x hx)
    cases hsame
    exact (stands_of_not_literal hop).2 ⟨rfl, hag.symbol i x hx⟩
  | first hop hnone =>
    obtain ⟨hsymbol, rfl⟩ := accept_leafPattern.1 hacc
    have hname := Slots.get?_put_self g.valueNames i (g.nameFor (t.get i).name)
    have hnode := (hgrows _ (g.nameFor_mem_taken _)).trans (Scope.set_self _ _ _)
    have hsame := hnode.symm.trans (hag.value i _ hname)
    refine (stands_of_not_literal hop).2 ⟨?_, hsymbol⟩
    cases hsame
    rfl

/-- If the node stands for the operand, the operand and the extra tests match. -/
theorem Subpattern.accepts {n : N} (h : Subpattern t g p i e p' g')
    (hm : Midway t g₀ p g) (hstart : Grows g₀ ρ₀ ρ) (hag : Agrees t G g φ ψ ρ) (hextras : ExtrasHold G p ρ)
    (hstands : Stands t G φ i n) :
    ∃ ρ', accept G ρ₀ e n ρ = some ρ' ∧ Agrees t G g' φ ψ ρ' ∧ ExtrasHold G p' ρ' := by
  have hm' := (h.step hm).1
  cases h with
  | literal hop => exact ⟨ρ, (accept_specificInt _).2 ⟨(stands_literal hop).1 hstands, rfl⟩, hag, hextras⟩
  | @again y hop hmem hy =>
    obtain ⟨rfl, hsymbol⟩ := (stands_of_not_literal hop).1 hstands
    have hgrows : Grows g ρ (ρ.set (g.nameFor (t.get i).name) (.node (φ i))) := grows_set (g.nameFor_fresh _) _
    have hgrow := hag.grow hm.tidy hgrows
    refine ⟨_, accept_leafPattern.2 ⟨hsymbol, rfl⟩, ⟨hgrow.value, hgrow.key, hgrow.symbol⟩, fun e he => ?_⟩
    rcases List.mem_append.1 he with he | he
    · exact hextras.grow hm hgrows e he
    · obtain rfl := List.mem_singleton.1 he
      have hnew : g.nameFor (t.get i).name ∈ (g.introduce (t.get i).name (cppType (t.get i))).names.taken :=
        g.nameFor_mem_taken _
      exact (passes_sameName hm'.tidy (hm'.tidy.value_taken hy) hnew).2
        ⟨⟨_, hgrow.value i y hy, Scope.set_self _ _ _⟩, rfl⟩
  | @earlier x hop hmem hx =>
    obtain ⟨rfl, -⟩ := (stands_of_not_literal hop).1 hstands
    have hx₀ : g₀.valueNames.get? i = some x := (hm.since i x hx).resolve_left hmem
    have hbefore : ρ₀ x = some (.node (φ i)) :=
      (hstart x (hm.start.value_taken hx₀)).symm.trans (hag.value i x hx)
    exact ⟨ρ, (accept_specific _).2 ⟨hbefore, rfl⟩, hag, hextras⟩
  | first hop hnone =>
    obtain ⟨rfl, hsymbol⟩ := (stands_of_not_literal hop).1 hstands
    refine ⟨_, accept_leafPattern.2 ⟨hsymbol, rfl⟩, hag.introduceValue hm.tidy hsymbol, ?_⟩
    exact ExtrasHold.grow (p := p) hextras hm (grows_set (g.nameFor_fresh _) _)

end Meaning

/-! ### All operands of an instruction -/

/-- The patterns of operands, one after the other. -/
inductive Subpatterns (t : Table) : Generator → Pattern → List ValueId → List Expr → Pattern → Generator → Prop
  | nil {g : Generator} {p : Pattern} : Subpatterns t g p [] [] p g
  | cons {g g₁ g' : Generator} {p p₁ p' : Pattern} {i : ValueId} {is : List ValueId} {e : Expr} {es : List Expr}
    (h : Subpattern t g p i e p₁ g₁) (hs : Subpatterns t g₁ p₁ is es p' g') : Subpatterns t g p (i :: is) (e :: es) p' g'

/-- What the operands do to the state. -/
theorem Subpatterns.step {is : List ValueId} {es : List Expr} (h : Subpatterns t g p is es p' g')
    (hm : Midway t g₀ p g) : Midway t g₀ p' g' ∧ g.Keeps g' ∧ p.extras ⊆ p'.extras := by
  induction h with
  | nil => exact ⟨hm, .refl _, List.Subset.refl _⟩
  | cons h _ ih =>
    obtain ⟨hm₁, hkeeps₁, hsub₁⟩ := h.step hm
    obtain ⟨hm', hkeeps', hsub'⟩ := ih hm₁
    exact ⟨hm', hkeeps₁.trans hkeeps', List.Subset.trans hsub₁ hsub'⟩

section Meaning

variable {N : Type} [DecidableEq N] {G : Graph N} {φ : ValueId → N} {ψ : String → Comparison} {ρ₀ ρ ρ' ρ₁ : Scope N}
  {is : List ValueId} {es : List Expr} {nodes : List N}
  (h : Subpatterns t g p is es p' g') (hm : Midway t g₀ p g)

include h hm

theorem Subpatterns.grows (hacc : acceptAll G ρ₀ (es.zip nodes) ρ = some ρ') : Grows g ρ ρ' := by
  induction h generalizing ρ nodes with
  | nil =>
    cases hacc
    exact .refl _ _
  | @cons g g₁ g' p p₁ p' i is e es h _ ih =>
    cases nodes with
    | nil =>
      cases hacc
      exact .refl _ _
    | cons n nodes =>
      obtain ⟨ρ₂, hfirst, hrest⟩ := Option.bind_eq_some_iff.1 hacc
      obtain ⟨hm₁, hkeeps, -⟩ := h.step hm
      exact (h.grows hfirst).trans (ih hm₁ hrest) hkeeps

theorem Subpatterns.agrees (hlen : nodes.length = is.length) (hacc : acceptAll G ρ₀ (es.zip nodes) ρ = some ρ')
    (hag : ∃ φ ψ, Agrees t G g φ ψ ρ) : ∃ φ ψ, Agrees t G g' φ ψ ρ' := by
  induction h generalizing ρ nodes with
  | nil =>
    cases hacc
    exact hag
  | @cons g g₁ g' p p₁ p' i is e es h _ ih =>
    cases nodes with
    | nil => cases hlen
    | cons n nodes =>
      obtain ⟨ρ₂, hfirst, hrest⟩ := Option.bind_eq_some_iff.1 hacc
      exact ih (h.step hm).1 (Nat.succ.inj hlen) hrest (h.agrees hm.tidy hfirst hag)

/-- If the operands and the extra tests match, the nodes stand for the operands. -/
theorem Subpatterns.stands (hstart : Grows g₀ ρ₀ ρ) (hlen : nodes.length = is.length)
    (hacc : acceptAll G ρ₀ (es.zip nodes) ρ = some ρ') (hag : Agrees t G g' φ ψ ρ₁) (hgrows : Grows g' ρ' ρ₁)
    (hextras : ExtrasHold G p' ρ₁) : List.Forall₂ (Stands t G φ) is nodes := by
  induction h generalizing ρ nodes with
  | nil =>
    obtain rfl := List.length_eq_zero_iff.1 hlen
    exact .nil
  | @cons g g₁ g' p p₁ p' i is e es h hs ih =>
    cases nodes with
    | nil => cases hlen
    | cons n nodes =>
      obtain ⟨ρ₂, hfirst, hrest⟩ := Option.bind_eq_some_iff.1 hacc
      obtain ⟨hm₁, hkeeps₁, -⟩ := h.step hm
      obtain ⟨-, hkeeps', hsub'⟩ := hs.step hm₁
      -- What the rest adds changes nothing for the first operand.
      have hgrows₁ : Grows g₁ ρ₂ ρ₁ := (hs.grows hm₁ hrest).trans hgrows hkeeps'
      have hag₁ : Agrees t G g₁ φ ψ ρ₁ :=
        hag.restrict hm₁.tidy hkeeps' (.refl _ _)
      refine .cons (h.stands hm hstart hfirst hag₁ hgrows₁ fun e he => hextras e (hsub' he)) ?_
      have hstart₁ : Grows g₀ ρ₀ ρ₂ := hstart.trans (h.grows hfirst) hm.keeps
      exact ih hm₁ hstart₁ (Nat.succ.inj hlen) hrest hag hgrows hextras

/-- If the nodes stand for the operands, the operands and the extra tests match. -/
theorem Subpatterns.accepts (hstart : Grows g₀ ρ₀ ρ) (hag : Agrees t G g φ ψ ρ) (hextras : ExtrasHold G p ρ)
    (hstands : List.Forall₂ (Stands t G φ) is nodes) :
    ∃ ρ', acceptAll G ρ₀ (es.zip nodes) ρ = some ρ' ∧ Agrees t G g' φ ψ ρ' ∧ ExtrasHold G p' ρ' := by
  induction h generalizing ρ nodes with
  | nil => exact ⟨ρ, rfl, hag, hextras⟩
  | @cons g g₁ g' p p₁ p' i is e es h _ ih =>
    cases hstands with
    | @cons _ n _ nodes hn hrest =>
      obtain ⟨ρ₂, hfirst, hag₁, hextras₁⟩ := h.accepts hm hstart hag hextras hn
      have hstart₁ : Grows g₀ ρ₀ ρ₂ := hstart.trans (h.grows hfirst) hm.keeps
      obtain ⟨ρ', hall, hfinal⟩ := ih (h.step hm).1 hstart₁ hag₁ hextras₁ hrest
      exact ⟨ρ', Option.bind_eq_some_iff.2 ⟨ρ₂, hfirst, hall⟩, hfinal⟩

end Meaning

/-! ### The pattern of an instruction -/

/-- The pattern asks for the operation, and matches the operands against the patterns `es`. -/
def Shaped (op : Op) (es : List Expr) (pattern : Expr) : Prop :=
  ∀ (N : Type) (_ : DecidableEq N) (G : Graph N) (ψ : String → Comparison) (register : String) (ρ₀ ρ ρ' : Scope N)
    (n : N), accept G ρ₀ pattern n ρ = some ρ' ↔
      Likewise ψ register op (G n) ∧ acceptAll G ρ₀ (es.zip (G n).operands) ρ = some ρ'

theorem shaped_arith {op : ArithOp} {x y : ValueId} {flags : List Flag} {b : Expr} (h : flags ⊆ op.flags) :
    Shaped (.arith op x y flags) [a, b] (arithPattern op flags a b) := by
  intro N _ G ψ register ρ₀ ρ ρ' n
  rw [accept_arithPattern h]
  constructor
  · rintro ⟨flags', c, d, hn, hflags, hacc⟩
    rw [hn]
    exact ⟨.arith hflags, hacc⟩
  · rintro ⟨hlike, hacc⟩
    generalize G n = node at hlike hacc
    cases hlike with
    | arith hflags => exact ⟨_, _, _, rfl, hflags, hacc⟩

theorem shaped_convert {op : ConvertOp} {source : PlacedTy} {x : ValueId} {pattern : Expr} (hop : op ≠ .zextOrTrunc)
    (h : convertPattern? op a = some pattern) : Shaped (.convert op source x) [a] pattern := by
  intro N _ G ψ register ρ₀ ρ ρ' n
  rw [accept_convertPattern hop h]
  constructor
  · rintro ⟨c, hn, hacc⟩
    rw [hn]
    exact ⟨.convert, hacc⟩
  · rintro ⟨hlike, hacc⟩
    generalize G n = node at hlike hacc
    cases hlike with
    | convert => exact ⟨_, rfl, hacc⟩

theorem shaped_select {c x y : ValueId} {b : Expr} : Shaped (.select c x y) [e, a, b] (.call "m_Select" [e, a, b]) := by
  intro N _ G ψ register ρ₀ ρ ρ' n
  rw [accept_select]
  constructor
  · rintro ⟨d, k, l, hn, hacc⟩
    rw [hn]
    exact ⟨.select, hacc⟩
  · rintro ⟨hlike, hacc⟩
    generalize G n = node at hlike hacc
    cases hlike with
    | select => exact ⟨_, _, _, rfl, hacc⟩

/-- The pattern of an operation that needs no variables of its own, where `es` are the patterns of the operands. -/
inductive Plain : Op → List Expr → Expr → Prop
  | arith {op : ArithOp} {x y : ValueId} {flags : List Flag} {a b : Expr} :
    Plain (.arith op x y flags) [a, b] (arithPattern op flags a b)
  | convert {op : ConvertOp} {source : PlacedTy} {x : ValueId} {a pattern : Expr}
    (h : convertPattern? op a = some pattern) : Plain (.convert op source x) [a] pattern
  | select {c x y : ValueId} {e a b : Expr} : Plain (.select c x y) [e, a, b] (.call "m_Select" [e, a, b])

theorem Plain.shaped {v : Value} {es : List Expr} {pattern : Expr} (h : Plain v.op es pattern) (hpat : IsPattern v) :
    Shaped v.op es pattern := by
  unfold IsPattern at hpat
  generalize v.op = op at h hpat
  cases h with
  | arith => exact shaped_arith hpat.1
  | convert h =>
    refine shaped_convert ?_ h
    rintro rfl
    exact absurd hpat.1 (by decide)
  | select => exact shaped_select

/-- The test that matches a variable against a pattern. -/
def matchTest (y : String) (pattern : Expr) : Expr := .call "match" [.var y, pattern]

def icmpTest (y x : String) (a b : Expr) : Expr := matchTest y (.call "m_ICmp" [.var x, a, b])

/-- The test of an instruction with the variable `y` and the operand patterns `es`, without the extra tests. -/
inductive Head (v : Value) (g : Generator) (p : Pattern) (y : String) : List Expr → Expr → Pattern → Generator → Prop
  | plain {es : List Expr} {pattern : Expr} (h : Plain v.op es pattern) : Head v g p y es (matchTest y pattern) p g
  /-- A known predicate is compared after the match. -/
  | known {c : Comparison} {operand : PlacedTy} {k l : ValueId} {a b : Expr}
    (hop : v.op = .icmp (.known c) operand k l) :
    Head v g p y [a, b]
      (.binary .and (icmpTest y (g.nameFor "P") a b) (.binary .eq (.var (g.nameFor "P")) (.var (predicateName c)))) p
      (g.introduce "P" predicateType)
  | unknown {name : String} {operand : PlacedTy} {k l : ValueId} {a b : Expr}
    (hop : v.op = .icmp (.any name) operand k l) (hnone : g.keyNames.get? (predicateKey name v.name) = none) :
    Head v g p y [a, b] (icmpTest y (g.nameFor (predicateKey name v.name)) a b) p
      (g.introduceKey (predicateKey name v.name))
  /-- An unknown predicate that is bound already gets a second variable, which must be equal. -/
  | repeated {name x : String} {operand : PlacedTy} {k l : ValueId} {a b : Expr}
    (hop : v.op = .icmp (.any name) operand k l) (hx : g.keyNames.get? (predicateKey name v.name) = some x) :
    Head v g p y [a, b] (icmpTest y (g.nameFor x) a b) ⟨p.bound, p.extras ++ [sameName (g.nameFor x) x]⟩
      (g.introduce x predicateType)

/-- Giving a name to a predicate changes nothing else. -/
theorem get?_put_cases {d : Dict α} {k k' : String} {a b : α} (h : (d.put k a).get? k' = some b) :
    d.get? k' = some b ∨ (k' = k ∧ b = a) := by
  rw [get?_put] at h
  split at h
  · next hk => exact .inr ⟨hk.symm, (Option.some.inj h).symm⟩
  · exact .inl h

/-- What the test of an instruction does to the state. -/
theorem Head.step {v : Value} {y : String} {es : List Expr} (h : Head v g p y es e p' g')
    (hm : Midway t g₀ p g) : Midway t g₀ p' g' ∧ g.Keeps g' ∧ p.extras ⊆ p'.extras ∧ p'.bound = p.bound ∧
      g'.valueNames = g.valueNames := by
  cases h with
  | plain h => exact ⟨hm, .refl _, List.Subset.refl _, rfl, rfl⟩
  | known hop =>
    obtain ⟨hm', hkeeps⟩ := Midway.introduce p.extras hm rfl rfl rfl rfl rfl (fun _ _ h => h) (fun _ _ h => .inl h)
      fun _ h => .inl h
    exact ⟨hm', hkeeps, List.Subset.refl _, rfl, rfl⟩
  | @unknown name operand k l a b hop hnone =>
    have hold : ∀ key x, g.keyNames.get? key = some x →
        (g.keyNames.put (predicateKey name v.name) (g.nameFor (predicateKey name v.name))).get? key = some x := by
      intro key x hx
      have hne : predicateKey name v.name ≠ key := by
        rintro rfl
        rw [hnone] at hx
        cases hx
      rwa [get?_put, if_neg hne]
    have hboth : Midway t g₀ p (g.introduceKey (predicateKey name v.name)) ∧
        g.Keeps (g.introduceKey (predicateKey name v.name)) :=
      Midway.introduce p.extras hm rfl rfl rfl rfl rfl hold (fun _ _ h => (get?_put_cases h).imp_right And.right)
        fun _ h => .inl h
    exact ⟨hboth.1, hboth.2, List.Subset.refl _, rfl, rfl⟩
  | @repeated name x operand k l a b hop hx =>
    have hextra : ∀ e ∈ p.extras ++ [sameName (g.nameFor x) x], e ∈ p.extras ∨ ∃ z w, e = sameName z w ∧
        z ∈ (g.introduce x predicateType).names.taken ∧ w ∈ (g.introduce x predicateType).names.taken := by
      intro e he
      refine (List.mem_append.1 he).imp_right fun he => ⟨_, _, List.mem_singleton.1 he, ?_, ?_⟩
      · exact g.nameFor_mem_taken _
      · exact Names.mem_taken_choose.2 (.inl (hm.tidy.key_taken hx))
    obtain ⟨hm', hkeeps⟩ := Midway.introduce _ hm rfl rfl rfl rfl rfl (fun _ _ h => h) (fun _ _ h => .inl h) hextra
    exact ⟨hm', hkeeps, List.subset_append_left _ _, rfl, rfl⟩

section Meaning

variable {N : Type} [DecidableEq N] {G : Graph N} {φ : ValueId → N} {ψ : String → Comparison} {ρ₀ ρ ρ' ρ₁ : Scope N}
  {v : Value} {y : String} {es : List Expr} {e : Expr} {n : N}

theorem passes_icmpTest {b : Expr} (hy : ρ y = some (.node n)) : passes G (icmpTest y x a b) ρ = some ρ' ↔
      ∃ c k l ρ₁, G n = .icmp c k l ∧ acceptAll G ρ [(a, k), (b, l)] ρ = some ρ₁ ∧ ρ' = ρ₁.set x (.predicate c) := by
  rw [icmpTest, matchTest, passes_match]
  constructor
  · rintro ⟨m, hm, hacc⟩
    rw [hy] at hm
    cases hm
    exact accept_icmp.1 hacc
  · intro h
    exact ⟨n, hy, accept_icmp.2 h⟩

theorem get?_introduceKey_self (g : Generator) (key : String) :
    (g.introduceKey key).keyNames.get? key = some (g.nameFor key) := by
  show (g.keyNames.put _ _).get? _ = _
  rw [get?_put, if_pos rfl]

/-- If the test passes, the operands have matched, and the variables stand for the predicates too. -/
theorem Head.sound (h : Head v g p y es e p' g') (hm : Midway t g₀ p g) (hpat : IsPattern v)
    (hy : ρ y = some (.node n)) (hpass : passes G e ρ = some ρ') :
    ∃ ρ₁, (G n).operands.length = v.op.operands.length ∧ acceptAll G ρ (es.zip (G n).operands) ρ = some ρ₁ ∧
      Grows g ρ₁ ρ' ∧ ((∃ φ ψ, Agrees t G g φ ψ ρ₁) → ∃ φ ψ, Agrees t G g' φ ψ ρ') ∧
      ∀ φ ψ, Agrees t G g' φ ψ ρ' → ExtrasHold G p' ρ' → Likewise ψ v.name v.op (G n) := by
  have hm' := (h.step hm).1
  cases h with
  | plain h =>
    obtain ⟨m, hm₁, hacc⟩ := passes_match.1 hpass
    rw [hy] at hm₁
    cases hm₁
    have hlike := fun ψ => (h.shaped hpat N _ G ψ v.name ρ ρ ρ' n).1 hacc
    exact ⟨ρ', (hlike fun _ => .eq).1.length_eq, (hlike fun _ => .eq).2, .refl _ _, id, fun φ ψ _ _ => (hlike ψ).1⟩
  | @known c operand k l a b hop =>
    obtain ⟨ρ₂, hmatch, heq⟩ := Option.bind_eq_some_iff.1 hpass
    obtain ⟨d, r, s, ρ₁, hn, hall, rfl⟩ := (passes_icmpTest hy).1 hmatch
    obtain ⟨hx, rfl⟩ := (passes_predicate (hm'.tidy.no_colon _ (g.nameFor_mem_taken _))).1 heq
    rw [Scope.set_self] at hx
    cases hx
    have hgrows := grows_set (g.nameFor_fresh "P") (ρ := ρ₁) (.predicate c)
    rw [hop, hn]
    refine ⟨ρ₁, rfl, hall, hgrows, ?_, fun φ ψ _ _ => .known⟩
    rintro ⟨φ, ψ, hag⟩
    have hgrow := hag.grow hm.tidy hgrows
    exact ⟨φ, ψ, hgrow.value, hgrow.key, hgrow.symbol⟩
  | @unknown name operand k l a b hop hnone =>
    obtain ⟨d, r, s, ρ₁, hn, hall, rfl⟩ := (passes_icmpTest hy).1 hpass
    have hgrows := grows_set (g.nameFor_fresh (predicateKey name v.name)) (ρ := ρ₁) (.predicate d)
    rw [hop, hn]
    refine ⟨ρ₁, rfl, hall, hgrows, ?_, fun φ ψ hag _ => ?_⟩
    · rintro ⟨φ, ψ, hag⟩
      have hgrow := hag.grow hm.tidy hgrows
      -- The predicate had no name, so it can be chosen anew.
      refine ⟨φ, Function.update ψ (predicateKey name v.name) d, hgrow.value, fun key x hx => ?_, hgrow.symbol⟩
      by_cases hkey : key = predicateKey name v.name
      · subst hkey
        obtain rfl := Option.some.inj ((get?_introduceKey_self g _).symm.trans hx)
        rw [Scope.set_self, Function.update_self]
      · rw [Function.update_of_ne hkey]
        exact hgrow.key key x ((get?_put_cases hx).resolve_right fun h => hkey h.1)
    · have hpred := hag.key _ _ (get?_introduceKey_self g _)
      rw [Scope.set_self] at hpred
      cases hpred
      exact .any
  | @repeated name x operand k l a b hop hx =>
    obtain ⟨d, r, s, ρ₁, hn, hall, rfl⟩ := (passes_icmpTest hy).1 hpass
    have hgrows := grows_set (g.nameFor_fresh x) (ρ := ρ₁) (.predicate d)
    rw [hop, hn]
    refine ⟨ρ₁, rfl, hall, hgrows, ?_, fun φ ψ hag hextras => ?_⟩
    · rintro ⟨φ, ψ, hag⟩
      have hgrow := hag.grow hm.tidy hgrows
      exact ⟨φ, ψ, hgrow.value, hgrow.key, hgrow.symbol⟩
    · have hlast := hextras _ (List.mem_append_right _ (List.mem_singleton_self _))
      obtain ⟨⟨c, hnew, hold⟩, -⟩ := (passes_sameName hm'.tidy (g.nameFor_mem_taken _)
        (hm'.tidy.key_taken hx)).1 hlast
      have hsame : some (Binding.predicate d) = some (.predicate (ψ (predicateKey name v.name))) :=
        (Scope.set_self _ _ _).symm.trans (hnew.trans (hold.symm.trans (hag.key _ x hx)))
      cases hsame
      exact .any

/-- If the node is the same instruction and its operands match, the test passes. -/
theorem Head.complete (h : Head v g p y es e p' g') (hm : Midway t g₀ p g) (hpat : IsPattern v)
    (hy : ρ y = some (.node n)) (hlike : Likewise ψ v.name v.op (G n))
    (hall : acceptAll G ρ (es.zip (G n).operands) ρ = some ρ₁) (hag : Agrees t G g φ ψ ρ₁)
    (hextras : ExtrasHold G p ρ₁) :
    ∃ ρ', passes G e ρ = some ρ' ∧ Agrees t G g' φ ψ ρ' ∧ ExtrasHold G p' ρ' := by
  have hm' := (h.step hm).1
  cases h with
  | plain h =>
    exact ⟨ρ₁, passes_match.2 ⟨n, hy, (h.shaped hpat N _ G ψ v.name ρ ρ ρ₁ n).2 ⟨hlike, hall⟩⟩, hag, hextras⟩
  | @known c operand k l a b hop =>
    rw [hop] at hlike
    generalize hn : G n = node at hlike hall
    cases hlike with
    | @known _ _ _ _ r s =>
      have hgrows := grows_set (g.nameFor_fresh "P") (ρ := ρ₁) (.predicate c)
      have hgrow := hag.grow hm.tidy hgrows
      refine ⟨_, Option.bind_eq_some_iff.2 ⟨_, (passes_icmpTest hy).2 ⟨c, r, s, ρ₁, hn, hall, rfl⟩, ?_⟩,
        ⟨hgrow.value, hgrow.key, hgrow.symbol⟩, hextras.grow hm hgrows⟩
      exact (passes_predicate (hm'.tidy.no_colon _ (g.nameFor_mem_taken _))).2
        ⟨Scope.set_self _ _ _, rfl⟩
  | @unknown name operand k l a b hop hnone =>
    rw [hop] at hlike
    generalize hn : G n = node at hlike hall
    cases hlike with
    | @any _ _ _ _ r s =>
      have hgrows := grows_set (g.nameFor_fresh (predicateKey name v.name)) (ρ := ρ₁)
        (.predicate (ψ (predicateKey name v.name)))
      have hgrow := hag.grow hm.tidy hgrows
      refine ⟨_, (passes_icmpTest hy).2 ⟨_, r, s, ρ₁, hn, hall, rfl⟩,
        ⟨hgrow.value, fun key x hx => ?_, hgrow.symbol⟩, hextras.grow hm hgrows⟩
      rcases get?_put_cases hx with hx | ⟨rfl, rfl⟩
      · exact hgrow.key key x hx
      · exact Scope.set_self _ _ _
  | @repeated name x operand k l a b hop hx =>
    rw [hop] at hlike
    generalize hn : G n = node at hlike hall
    cases hlike with
    | @any _ _ _ _ r s =>
      have hgrows := grows_set (g.nameFor_fresh x) (ρ := ρ₁) (.predicate (ψ (predicateKey name v.name)))
      have hgrow := hag.grow hm.tidy hgrows
      refine ⟨_, (passes_icmpTest hy).2 ⟨_, r, s, ρ₁, hn, hall, rfl⟩,
        ⟨hgrow.value, hgrow.key, hgrow.symbol⟩, fun e he => ?_⟩
      rcases List.mem_append.1 he with he | he
      · exact hextras.grow hm hgrows e he
      · obtain rfl := List.mem_singleton.1 he
        exact (passes_sameName hm'.tidy (g.nameFor_mem_taken _) (hm'.tidy.key_taken hx)).2
          ⟨⟨_, Scope.set_self _ _ _, hgrow.key _ x hx⟩, rfl⟩

end Meaning

end Peephole.Emit
