import Peephole.Proofs.Emit.Clause

/-!
# The source and its instances

The source is matched by a worklist, which starts with the root and goes on with what each match binds.

* `Clause` : the test of one instruction; `Clause.sound`, `Clause.complete` : **it passes exactly if the node is the
  same instruction.**
* `Matches` : a run of the worklist; `matches_of_runs` : it ends, for each instruction is bound once.
* `source_match_iff_isInstance` : **the tests of the source pass exactly on its instances.**
-/

namespace Peephole.Emit

open Program Cpp
open Logic (Comparison)

variable {α β : Type} {t : Table} {g g' : Generator} {p p' : Pattern} {x y : String} {e : Expr} {i r : ValueId}
  {is todo : List ValueId} {es : List Expr}

/-! ### The match of an instruction -/

theorem builds_bindFresh_of_unbound {type : CType}
    (h : Builds (bindFresh x type) t p g e p' g') (hx : x ∈ g.names.taken) (hno : g.bound.has x = false) :
    e = .var x ∧ p' = p ∧ g' = { g with bound := g.bound.put x type } := by
  obtain ⟨b, g₁, hb, h₁⟩ := builds_outside_bind.1 h
  obtain ⟨rfl, rfl⟩ := runs_isBoundName.1 hb
  rw [if_neg (by simp [hno])] at h₁
  obtain ⟨y, p₁, g₂, hy, h₂⟩ := builds_bind.1 h₁
  obtain ⟨rfl, rfl, rfl⟩ := builds_pure.1 hy
  obtain ⟨u, g₃, hu, h₃⟩ := builds_outside_bind.1 h₂
  obtain ⟨-, rfl⟩ := runs_bindName hx hu
  exact builds_pure.1 h₃

/-- For a name that is bound there is a second one, and a test that the two are equal. -/
theorem builds_bindFresh_of_bound {type : CType}
    (h : Builds (bindFresh x type) t p g e p' g') (hyes : g.bound.has x = true) :
    e = .var (g.nameFor x) ∧ p' = ⟨p.bound, p.extras ++ [sameName (g.nameFor x) x]⟩ ∧ g' = g.introduce x type := by
  obtain ⟨b, g₁, hb, h₁⟩ := builds_outside_bind.1 h
  obtain ⟨rfl, rfl⟩ := runs_isBoundName.1 hb
  rw [if_pos hyes] at h₁
  obtain ⟨y, g₂, hy, h₂⟩ := builds_outside_bind.1 h₁
  have h₃ := builds_modify_bind.1 h₂
  obtain ⟨z, p₁, g₄, hz, h₄⟩ := builds_bind.1 h₃
  obtain ⟨rfl, rfl, rfl⟩ := builds_pure.1 hz
  obtain ⟨u, g₅, hu, h₅⟩ := builds_outside_bind.1 h₄
  obtain ⟨rfl, rfl⟩ := introduce_of_runs hy hu
  exact builds_pure.1 h₅

theorem Generator.Tidy.nameFor_unbound (hg : g.Tidy) (hint : String) : g.bound.has (g.nameFor hint) = false := by
  by_contra hb
  exact g.nameFor_fresh hint ((hg.bound_iff_taken _).1 (by simpa using hb))

theorem builds_matched {pattern : Expr} (h : Builds (matched i pattern) t p g e p' g')
    (hy : g.valueNames.get? i = some y) : e = matchTest y pattern ∧ p' = p ∧ g' = g := by
  obtain ⟨x, g₁, hx, h₁⟩ := builds_outside_bind.1 h
  obtain ⟨rfl, rfl⟩ := runs_nameExpr_of_named hy hx
  exact builds_pure.1 h₁

theorem runs_keyName_of_named {key : String} (h : Runs (keyName key) t g x g')
    (hy : g.keyNames.get? key = some y) : x = y ∧ g' = g := by
  have h₁ := runs_get_bind.1 h
  rw [hy] at h₁
  exact runs_pure.1 h₁

theorem runs_keyName_of_unnamed {key : String} (h : Runs (keyName key) t g x g') (hkey : g.keyNames.get? key = none) :
    x = g.nameFor key ∧ g' = { g with names := (g.names.choose key).2, keyNames := g.keyNames.put key x } := by
  have h₁ := runs_get_bind.1 h
  rw [hkey] at h₁
  obtain ⟨y, g₂, hy, h₂⟩ := runs_bind.1 h₁
  obtain ⟨rfl, rfl⟩ := runs_newName hy
  obtain ⟨u, g₃, hu, h₃⟩ := runs_bind.1 h₂
  obtain rfl := runs_modify.1 hu
  obtain ⟨rfl, rfl⟩ := runs_pure.1 h₃
  exact ⟨rfl, rfl⟩

/-- An unknown predicate is bound, or compared with the one that is bound. -/
theorem head_of_any {k l : ValueId} {name : String} {operand : PlacedTy} {a b : Expr} {g₁ : Generator}
    (hop : (t.get i).op = .icmp (.any name) operand k l) (hg : g.Tidy) (hy : g.valueNames.get? i = some y)
    (hx : Runs (keyName (predicateKey name (t.get i).name)) t g x g₁)
    (h : Builds (do
      let q ← bindFresh x predicateType
      matched i (.call "m_ICmp" [q, a, b])) t p g₁ e p' g') : Head (t.get i) g p y [a, b] e p' g' := by
  obtain ⟨q, p₁, g₂, hq, h₂⟩ := builds_bind.1 h
  cases hkey : g.keyNames.get? (predicateKey name (t.get i).name) with
  | none =>
    obtain ⟨rfl, rfl⟩ := runs_keyName_of_unnamed hx hkey
    obtain ⟨rfl, rfl, rfl⟩ := builds_bindFresh_of_unbound hq (g.nameFor_mem_taken _) (hg.nameFor_unbound _)
    obtain ⟨rfl, rfl, rfl⟩ := builds_matched h₂ hy
    exact .unknown hop hkey
  | some z =>
    obtain ⟨rfl, rfl⟩ := runs_keyName_of_named hx hkey
    obtain ⟨rfl, rfl, rfl⟩ := builds_bindFresh_of_bound hq (hg.key_bound _ _ hkey)
    obtain ⟨rfl, rfl, rfl⟩ := builds_matched h₂ hy
    exact .repeated hop hkey

/-- The pattern of the first operand that is asked for. -/
theorem subpattern_bind {g₀ : Generator} {f : Expr → PatternM β} {b : β} (hm : Midway t g₀ p g)
    (h : Builds (subpattern i >>= f) t p g b p' g') :
    ∃ e p₁ g₁, Subpattern t g p i e p₁ g₁ ∧ Midway t g₀ p₁ g₁ ∧ Builds (f e) t p₁ g₁ b p' g' := by
  obtain ⟨e, p₁, g₁, he, h₁⟩ := builds_bind.1 h
  have hsub := subpattern_of_builds hm.tidy hm.named he
  exact ⟨e, p₁, g₁, hsub, (hsub.step hm).1, h₁⟩

/-- The test of an instruction is made of the patterns of its operands. -/
theorem head_of_builds (hg : g.Tidy) (hy : g.valueNames.get? i = some y)
    (h : Builds (matchInstr i) t ⟨[], []⟩ g e p' g') :
    ∃ es p₁ g₁, Subpatterns t g ⟨[], []⟩ (t.get i).op.operands es p₁ g₁ ∧ Head (t.get i) g₁ p₁ y es e p' g' := by
  have hm : Midway t g ⟨[], []⟩ g := .nil hg
  obtain ⟨v, g₁, hv, h₁⟩ := builds_outside_bind.1 h
  obtain ⟨rfl, rfl⟩ := runs_valueAt.1 hv
  split at h₁
  · next op k l flags hop =>
    obtain ⟨a, p₂, g₂, ha, hm₂, h₂⟩ := subpattern_bind hm h₁
    obtain ⟨b, p₃, g₃, hb, hm₃, h₃⟩ := subpattern_bind hm₂ h₂
    obtain ⟨rfl, rfl, rfl⟩ := builds_matched h₃ (hm₃.keeps.value i y hy)
    rw [hop]
    exact ⟨_, _, _, .cons ha (.cons hb .nil), .plain (hop ▸ .arith)⟩
  · next op source k hop =>
    obtain ⟨a, p₂, g₂, ha, hm₂, h₂⟩ := subpattern_bind hm h₁
    split at h₂
    · next pattern hpattern =>
      obtain ⟨rfl, rfl, rfl⟩ := builds_matched h₂ (hm₂.keeps.value i y hy)
      rw [hop]
      exact ⟨_, _, _, .cons ha .nil, .plain (hop ▸ .convert hpattern)⟩
    · exact absurd (builds_outside.1 h₂).1 runs_fail
  · next pred operand k l hop =>
    obtain ⟨a, p₂, g₂, ha, hm₂, h₂⟩ := subpattern_bind hm h₁
    obtain ⟨b, p₃, g₃, hb, hm₃, h₃⟩ := subpattern_bind hm₂ h₂
    have hy₃ := hm₃.keeps.value i y hy
    rw [hop]
    refine ⟨_, _, _, .cons ha (.cons hb .nil), ?_⟩
    split at h₃
    · obtain ⟨x, g₄, hx, h₄⟩ := builds_outside_bind.1 h₃
      exact head_of_any hop hm₃.tidy hy₃ hx h₄
    · obtain ⟨x, g₄, hx, h₄⟩ := builds_outside_bind.1 h₃
      obtain ⟨rfl, rfl⟩ := runs_newName hx
      obtain ⟨q, p₄, g₅, hq, h₅⟩ := builds_bind.1 h₄
      obtain ⟨rfl, rfl, rfl⟩ := builds_bindFresh_of_unbound hq (g₃.nameFor_mem_taken "P") (hm₃.tidy.nameFor_unbound "P")
      obtain ⟨m, p₅, g₆, hmatch, h₆⟩ := builds_bind.1 h₅
      obtain ⟨rfl, rfl, rfl⟩ := builds_matched hmatch hy₃
      obtain ⟨rfl, rfl, rfl⟩ := builds_pure.1 h₆
      exact .known hop
  · next c k l hop =>
    obtain ⟨q, p₂, g₂, hq, hm₂, h₂⟩ := subpattern_bind hm h₁
    obtain ⟨a, p₃, g₃, ha, hm₃, h₃⟩ := subpattern_bind hm₂ h₂
    obtain ⟨b, p₄, g₄, hb, hm₄, h₄⟩ := subpattern_bind hm₃ h₃
    obtain ⟨rfl, rfl, rfl⟩ := builds_matched h₄ (hm₄.keeps.value i y hy)
    rw [hop]
    exact ⟨_, _, _, .cons hq (.cons ha (.cons hb .nil)), .plain (hop ▸ .select)⟩
  · exact absurd (builds_outside.1 h₁).1 runs_fail

/-- The test of an instruction, with its extra tests. -/
def withExtras (e : Expr) (extras : List Expr) : Expr :=
  match Expr.joined? .and extras with
  | some x => .binary .and e x
  | none => e

/-- The test of the instruction `i`, and the values that it binds. -/
inductive Clause (t : Table) (g : Generator) (i : ValueId) : Expr → List ValueId → Generator → Prop
  | intro {y : String} {es : List Expr} {e : Expr} {p p' : Pattern} {g₁ g' : Generator}
    (hy : g.valueNames.get? i = some y) (hops : Subpatterns t g ⟨[], []⟩ (t.get i).op.operands es p g₁)
    (hhead : Head (t.get i) g₁ p y es e p' g') : Clause t g i (withExtras e p'.extras) p'.bound g'

theorem clause_of_runs {bound : List ValueId} (hg : g.Tidy)
    (hy : g.valueNames.get? i = some y) (h : Runs (matchValue i) t g (e, bound) g') :
    Clause t g i e bound g' := by
  obtain ⟨⟨e', p⟩, g₁, hbuilds, h₁⟩ := runs_bind.1 h
  obtain ⟨es, p₁, g₂, hops, hhead⟩ := head_of_builds hg hy hbuilds
  have hclause := Clause.intro hy hops hhead
  unfold withExtras at hclause
  dsimp only at h₁
  split at h₁
  · next x hx =>
    obtain ⟨hpair, rfl⟩ := runs_pure.1 h₁
    cases hpair
    rwa [hx] at hclause
  · next hx =>
    obtain ⟨hpair, rfl⟩ := runs_pure.1 h₁
    cases hpair
    rwa [hx] at hclause

/-- The instructions that have no name yet. -/
def unnamedInstrs (t : Table) (g : Generator) : List ValueId :=
  (List.range t.values.size).filter fun j => (t.get j).op.isInstr && (g.valueNames.get? j).isNone

def instrCount (t : Table) (is : List ValueId) : Nat := is.countP fun j => (t.get j).op.isInstr

theorem Table.lt_of_isInstr (h : (t.get i).op.isInstr = true) : i < t.values.size := by
  by_contra hi
  rw [Table.get, Array.getD_eq_getD_getElem?, Array.getElem?_eq_none (Nat.le_of_not_lt hi)] at h
  cases h

/-- An operand that is bound for the first time leaves one instruction less without a name. -/
theorem Subpattern.count_le (h : Subpattern t g p i e p' g') :
    instrCount t p'.bound + (unnamedInstrs t g').length ≤ instrCount t p.bound + (unnamedInstrs t g).length ∧
      p'.bound.length ≤ p.bound.length + 1 := by
  cases h with
  | literal hop => simp [instrCount, hop, Op.isInstr]
  | again | earlier => exact ⟨Nat.le_refl _, Nat.le_succ _⟩
  | first hop hnone =>
    refine ⟨?_, by simp⟩
    have hget : ∀ j, (g.introduceValue i (t.get i)).valueNames.get? j =
        if j == i then some (g.nameFor (t.get i).name) else g.valueNames.get? j := fun j => Slots.get?_put _ _ j _
    have herase : unnamedInstrs t (g.introduceValue i (t.get i)) = (unnamedInstrs t g).filter (· ≠ i) := by
      rw [unnamedInstrs, unnamedInstrs, List.filter_filter]
      refine List.filter_congr fun j _ => ?_
      by_cases hji : j = i
      · simp [hget, hji]
      · simp [hget, hji]
    by_cases hinstr : (t.get i).op.isInstr = true
    · have hmem : i ∈ unnamedInstrs t g := by
        simp [unnamedInstrs, hinstr, hnone, Table.lt_of_isInstr hinstr]
      have hlt : ((unnamedInstrs t g).filter (· ≠ i)).length < (unnamedInstrs t g).length := by
        exact List.length_filter_lt_length_iff_exists.2 ⟨i, hmem, by simp⟩
      rw [herase]
      simp only [instrCount, List.countP_append, List.countP_singleton, hinstr, if_true]
      omega
    · have hle := List.length_filter_le (· ≠ i) (unnamedInstrs t g)
      rw [herase]
      simp only [instrCount, List.countP_append, List.countP_singleton, hinstr]
      simpa using hle

theorem Subpatterns.count_le (h : Subpatterns t g p is es p' g') :
    instrCount t p'.bound + (unnamedInstrs t g').length ≤ instrCount t p.bound + (unnamedInstrs t g).length ∧
      p'.bound.length ≤ p.bound.length + is.length := by
  induction h with
  | nil => exact ⟨Nat.le_refl _, Nat.le_refl _⟩
  | cons h _ ih =>
    have := h.count_le
    simp only [List.length_cons]
    omega

theorem Subpattern.bound_subset (h : Subpattern t g p i e p' g') : p.bound ⊆ p'.bound ∧ p'.bound ⊆ i :: p.bound := by
  cases h with
  | again hop hmem _ | earlier hop hmem _ => exact ⟨List.Subset.refl _, List.subset_cons_self _ _⟩
  | _ => exact ⟨List.subset_append_left _ _, by simp⟩

theorem Subpatterns.bound_subset (h : Subpatterns t g p is es p' g') : p'.bound ⊆ is ++ p.bound := by
  induction h with
  | nil => exact List.Subset.refl _
  | cons h _ ih =>
    intro j hj
    have := ih hj
    have hfirst := h.bound_subset.2
    simp only [List.cons_append, List.mem_cons, List.mem_append] at this ⊢
    rcases this with hj | hj
    · exact .inr (.inl hj)
    · exact (List.mem_cons.1 (hfirst hj)).imp_right .inr

/-- The value can be matched as an operand: it is a literal, an input or an instruction. -/
def IsOperand (op : Op) : Prop := (∃ n, op = .literal n) ∨ (op.isInput || op.isInstr) = true

theorem Subpattern.isOperand (h : Subpattern t g p i e p' g') : IsOperand (t.get i).op := by
  cases h with
  | literal hop => exact .inl ⟨_, hop⟩
  | again _ _ _ hkind | earlier _ _ _ hkind | first _ _ hkind => exact .inr hkind

theorem Subpatterns.isOperand (h : Subpatterns t g p is es p' g') : ∀ i ∈ is, IsOperand (t.get i).op := by
  induction h with
  | nil => exact nofun
  | cons h _ ih => exact List.forall_mem_cons.2 ⟨h.isOperand, ih⟩

/-- An operand that is no literal has a name afterwards. -/
theorem Subpattern.named (h : Subpattern t g p i e p' g')
    (hop : ∀ n, (t.get i).op ≠ .literal n) : ∃ x, g'.valueNames.get? i = some x := by
  cases h with
  | literal hop' => exact absurd hop' (hop _)
  | again _ _ hy => exact ⟨_, hy⟩
  | earlier _ _ hx => exact ⟨_, hx⟩
  | first _ _ => exact ⟨_, Slots.get?_put_self _ _ _⟩

theorem Subpatterns.named {g₀ : Generator} (h : Subpatterns t g p is es p' g') (hm : Midway t g₀ p g) :
    ∀ i ∈ is, (∀ n, (t.get i).op ≠ .literal n) → ∃ x, g'.valueNames.get? i = some x := by
  induction h with
  | nil => exact nofun
  | cons h hs ih =>
    have hm₁ := (h.step hm).1
    intro i hi hop
    rcases List.mem_cons.1 hi with rfl | hi
    · obtain ⟨x, hx⟩ := h.named hop
      exact ⟨x, (hs.step hm₁).2.1.value _ x hx⟩
    · exact ih hm₁ i hi hop

theorem length_operands_le (op : Op) : op.operands.length ≤ 3 := by
  cases op <;> simp [Op.operands]

/-- What the test of an instruction leaves behind. -/
structure Clause.Leaves (t : Table) (g : Generator) (i : ValueId) (bound : List ValueId) (g' : Generator) : Prop where
  tidy : g'.Tidy
  keeps : g.Keeps g'
  named : ∀ j ∈ (t.get i).op.operands, (∀ n, (t.get j).op ≠ .literal n) → ∃ x, g'.valueNames.get? j = some x
  isOperand : ∀ j ∈ (t.get i).op.operands, IsOperand (t.get j).op
  since : ∀ j x, g'.valueNames.get? j = some x → j ∈ bound ∨ g.valueNames.get? j = some x
  operands : bound ⊆ (t.get i).op.operands
  length_le : bound.length ≤ 3
  count_le : instrCount t bound + (unnamedInstrs t g').length ≤ (unnamedInstrs t g).length

theorem Clause.leaves {bound : List ValueId} (hg : g.Tidy) (h : Clause t g i e bound g') :
    Clause.Leaves t g i bound g' := by
  cases h with
  | @intro y es e p p' g₁ _ hy hops hhead =>
    obtain ⟨hm₁, hkeeps₁, -⟩ := hops.step (.nil hg)
    obtain ⟨hm', hkeeps', -, hbound, hvalues⟩ := hhead.step hm₁
    have hcount := hops.count_le
    have hlen := length_operands_le (t.get i).op
    have hsame : unnamedInstrs t g' = unnamedInstrs t g₁ := by
      unfold unnamedInstrs
      rw [hvalues]
    refine ⟨hm'.tidy, hm'.keeps, ?_, hops.isOperand, hm'.since, ?_, ?_, ?_⟩
    · rw [hvalues]
      exact hops.named (.nil hg)
    · rw [hbound]
      simpa using hops.bound_subset
    · rw [hbound]
      simp only [List.length_nil] at hcount
      omega
    · rw [hbound, hsame]
      simpa [instrCount] using hcount.1

section Meaning

variable {N : Type} [DecidableEq N] {G : Graph N} {φ : ValueId → N} {ψ : String → Comparison} {ρ ρ' : Scope N}

theorem passes_withExtras (e : Expr) (extras : List Expr) :
    passes G (withExtras e extras) ρ = (passes G e ρ).bind (passesAll G extras) := by
  cases extras with
  | nil => exact (Option.bind_fun_some (passes G e ρ)).symm
  | cons x xs =>
    have hjoined : Expr.joined? .and (x :: xs) = some (xs.foldl (.binary .and) x) := rfl
    rw [withExtras, hjoined]
    dsimp only
    rw [passes]
    refine congrArg _ (funext fun ρ₁ => ?_)
    exact passes_joined hjoined ρ₁

/-- The extra tests bind nothing. -/
theorem passesAll_extras (hg : g.Tidy)
    (hes : ∀ e ∈ es, ∃ x y, e = sameName x y ∧ x ∈ g.names.taken ∧ y ∈ g.names.taken) :
    passesAll G es ρ = some ρ' ↔ (∀ e ∈ es, passes G e ρ = some ρ) ∧ ρ' = ρ := by
  induction es with
  | nil => simp [passesAll, eq_comm]
  | cons e es ih =>
    obtain ⟨x, y, rfl, hx, hy⟩ := hes e List.mem_cons_self
    have ih := ih fun e he => hes e (List.mem_cons_of_mem _ he)
    simp only [passesAll, Option.bind_eq_some_iff, List.forall_mem_cons]
    constructor
    · rintro ⟨ρ₁, hfirst, hrest⟩
      obtain ⟨hboth, rfl⟩ := (passes_sameName hg hx hy).1 hfirst
      obtain ⟨hall, rfl⟩ := ih.1 hrest
      exact ⟨⟨hfirst, hall⟩, rfl⟩
    · rintro ⟨⟨hfirst, hall⟩, rfl⟩
      exact ⟨_, hfirst, ih.2 ⟨hall, rfl⟩⟩

/-- If the test of an instruction passes, its node is the same instruction. -/
theorem Clause.sound {bound : List ValueId} (hg : g.Tidy) (h : Clause t g i e bound g')
    (hpat : IsPattern (t.get i)) (hpass : passes G e ρ = some ρ') (hag : ∃ φ ψ, Agrees t G g φ ψ ρ) :
    Grows g ρ ρ' ∧ (∃ φ ψ, Agrees t G g' φ ψ ρ') ∧ ∀ φ ψ, Agrees t G g' φ ψ ρ' → Respects t G φ ψ i := by
  cases h with
  | @intro y es e p p' g₁ _ hy hops hhead =>
    have hm : Midway t g ⟨[], []⟩ g := .nil hg
    obtain ⟨hm₁, hkeeps₁, -⟩ := hops.step hm
    obtain ⟨hm', hkeeps', hsub, -, -⟩ := hhead.step hm₁
    obtain ⟨φ₀, ψ₀, hag₀⟩ := hag
    rw [passes_withExtras, Option.bind_eq_some_iff] at hpass
    obtain ⟨ρ₂, hpass, hextras⟩ := hpass
    obtain ⟨hextras, rfl⟩ := (passesAll_extras hm'.tidy hm'.extras).1 hextras
    obtain ⟨ρ₁, hlen, hacc, hgrows', hagrees, hlike⟩ := hhead.sound hm₁ hpat (hag₀.value i y hy) hpass
    have hgrows₁ : Grows g ρ ρ₁ := hops.grows hm hacc
    have hgrows : Grows g ρ ρ' := hgrows₁.trans hgrows' hkeeps₁
    refine ⟨hgrows, hagrees (hops.agrees hm hlen hacc ⟨φ₀, ψ₀, hag₀⟩), fun φ ψ hag => ?_⟩
    -- The variable of the instruction is kept, so that both maps send it to the same node.
    have hnode : φ i = φ₀ i := by
      have hnow := hag.value i y (hm'.keeps.value i y hy)
      rw [hgrows y (hg.value_taken hy), hag₀.value i y hy] at hnow
      exact (Binding.node.inj (Option.some.inj hnow)).symm
    have hag₁ : Agrees t G g₁ φ ψ ρ' := hag.restrict hm₁.tidy hkeeps' (.refl _ _)
    refine ⟨?_, ?_⟩
    · rw [hnode]
      exact hlike φ ψ hag hextras
    · rw [hnode]
      exact hops.stands hm (.refl _ _) hlen hacc hag₁ hgrows' fun e he => hextras e (hsub he)

/-- If the node of an instruction is the same instruction, the test passes. -/
theorem Clause.complete {bound : List ValueId} (hg : g.Tidy) (h : Clause t g i e bound g')
    (hpat : IsPattern (t.get i)) (hag : Agrees t G g φ ψ ρ) (hi : Respects t G φ ψ i) :
    ∃ ρ', passes G e ρ = some ρ' ∧ Agrees t G g' φ ψ ρ' := by
  cases h with
  | @intro y es e p p' g₁ _ hy hops hhead =>
    have hm : Midway t g ⟨[], []⟩ g := .nil hg
    have hm₁ := (hops.step hm).1
    have hm' := (hhead.step hm₁).1
    have hnone : ExtrasHold G ⟨[], []⟩ ρ := nofun
    obtain ⟨ρ₁, hacc, hag₁, hextras₁⟩ := hops.accepts hm (.refl _ _) hag hnone hi.operands
    obtain ⟨ρ', hpass, hag', hextras⟩ := hhead.complete hm₁ hpat (hag.value i y hy) hi.likewise hacc hag₁ hextras₁
    refine ⟨ρ', ?_, hag'⟩
    rw [passes_withExtras, Option.bind_eq_some_iff]
    exact ⟨ρ', hpass, (passesAll_extras hm'.tidy hm'.extras).2 ⟨hextras, rfl⟩⟩

end Meaning

/-! ### The worklist -/

/-- A run of the worklist to its end, with the instructions that it matches and their tests. -/
inductive Matches (t : Table) : Generator → List ValueId → List ValueId → List Expr → Generator → Prop
  | nil {g : Generator} : Matches t g [] [] [] g
  | instr {g g₁ g₂ g' : Generator} {i : ValueId} {e : Expr} {bound todo is : List ValueId} {es : List Expr}
    (hi : (t.get i).op.isInstr = true) (h : Clause t g i e bound g₁) (hsame : g₂.naming = g₁.naming)
    (hrest : Matches t g₂ (bound ++ todo) is es g') : Matches t g (i :: todo) (i :: is) (e :: es) g'
  | other {g g₁ g' : Generator} {i : ValueId} {todo is : List ValueId} {es : List Expr}
    (hi : (t.get i).op.isInstr = false) (hsame : g₁.naming = g.naming) (hrest : Matches t g₁ todo is es g') :
    Matches t g (i :: todo) is es g'

/-- How many steps the worklist can still take: an instruction that is matched binds at most three operands. -/
def stepsLeft (t : Table) (g : Generator) (todo : List ValueId) : Nat :=
  todo.length + 3 * (instrCount t todo + (unnamedInstrs t g).length)

theorem unnamedInstrs_of_naming (h : g'.naming = g.naming) : unnamedInstrs t g' = unnamedInstrs t g := by
  have hvalues := Generator.valueNames_of_naming h
  rw [unnamedInstrs, hvalues]
  rfl

/-- The values that wait to be matched have names if they are instructions. -/
def Waits (t : Table) (g : Generator) (todo : List ValueId) : Prop :=
  ∀ i ∈ todo, (t.get i).op.isInstr = true → ∃ x, g.valueNames.get? i = some x

theorem Waits.of_naming (h : Waits t g todo) (hsame : g'.naming = g.naming) : Waits t g' todo := by
  rw [Waits, Generator.valueNames_of_naming hsame]
  exact h

theorem not_literal_of_isInstr (h : (t.get i).op.isInstr = true) (n : Int) : (t.get i).op ≠ .literal n := by
  intro hop
  rw [hop] at h
  cases h

/-- What a match binds waits after it. -/
theorem Waits.bound {bound : List ValueId} (h : Waits t g (i :: todo)) (hg : g.Tidy)
    (hc : Clause t g i e bound g') : Waits t g' (bound ++ todo) := by
  have hleaves := hc.leaves hg
  refine List.forall_mem_append.2 ⟨fun j hj hinstr => ?_, fun j hj hinstr => ?_⟩
  · exact hleaves.named j (hleaves.operands hj) (not_literal_of_isInstr hinstr)
  · obtain ⟨x, hx⟩ := h j (List.mem_cons_of_mem _ hj) hinstr
    exact ⟨x, hleaves.keeps.value j x hx⟩

theorem matchAll_nil (fuel : Nat) : matchAll fuel [] = pure [] := by cases fuel <;> rfl

/-- With enough fuel, the worklist runs to its end, and more fuel changes nothing. -/
theorem matches_of_runs {fuel : Nat} (hg : g.Tidy) (hwaits : Waits t g todo)
    (hfuel : stepsLeft t g todo ≤ fuel) (h : Runs (matchAll fuel todo) t g es g') :
    ∃ is, Matches t g todo is es g' ∧ ∀ extra, Runs (matchAll (fuel + extra) todo) t g es g' := by
  induction fuel generalizing g todo es with
  | zero =>
    obtain rfl : todo = [] := List.length_eq_zero_iff.1 (by unfold stepsLeft at hfuel; omega)
    obtain ⟨rfl, rfl⟩ := runs_pure.1 h
    exact ⟨[], .nil, fun _ => matchAll_nil _ ▸ h⟩
  | succ fuel ih =>
    cases todo with
    | nil =>
      obtain ⟨rfl, rfl⟩ := runs_pure.1 h
      exact ⟨[], .nil, fun _ => matchAll_nil _ ▸ h⟩
    | cons i todo =>
      simp only [Nat.add_right_comm fuel 1]
      rw [matchAll] at h
      have h₁ := runs_valueAt_bind.1 h
      split at h₁
      · next hi =>
        obtain ⟨⟨e, bound⟩, g₂, hmatch, h₂⟩ := runs_bind.1 h₁
        obtain ⟨u, g₃, hreg, h₃⟩ := runs_bind.1 h₂
        obtain ⟨es', hrest, rfl⟩ := runs_bind_pure.1 h₃
        obtain ⟨y, hy⟩ := hwaits i List.mem_cons_self hi
        have hc := clause_of_runs hg hy hmatch
        have hleaves := hc.leaves hg
        have hsame := register_naming hleaves.tidy.inSource hreg
        have hsteps : stepsLeft t g₃ (bound ++ todo) ≤ fuel := by
          have hcount := hleaves.count_le
          have hlen := hleaves.length_le
          simp only [stepsLeft, unnamedInstrs_of_naming hsame, instrCount, List.countP_append, List.countP_cons,
            List.length_append, List.length_cons, hi, if_true] at hfuel hcount ⊢
          omega
        obtain ⟨is, his, hmore⟩ :=
          ih (hleaves.tidy.of_naming hsame) ((hwaits.bound hg hc).of_naming hsame) hsteps hrest
        refine ⟨i :: is, .instr hi hc hsame his, fun extra => runs_valueAt_bind.2 ?_⟩
        rw [if_pos hi]
        exact runs_bind.2 ⟨_, g₂, hmatch, runs_bind.2 ⟨u, g₃, hreg, runs_bind.2 ⟨es', _, hmore extra, rfl⟩⟩⟩
      · next hi =>
        obtain ⟨u, g₂, hreg, h₂⟩ := runs_bind.1 h₁
        have hsame := register_naming hg.inSource hreg
        have hwaits' : Waits t g₂ todo := Waits.of_naming (List.forall_mem_cons.1 hwaits).2 hsame
        have hsteps : stepsLeft t g₂ todo ≤ fuel := by
          simp only [stepsLeft, unnamedInstrs_of_naming hsame, instrCount, List.countP_cons, List.length_cons,
            hi] at hfuel ⊢
          omega
        obtain ⟨is, his, hmore⟩ := ih (hg.of_naming hsame) hwaits' hsteps h₂
        refine ⟨is, .other (Bool.not_eq_true _ ▸ hi) hsame his, fun extra => runs_valueAt_bind.2 ?_⟩
        rw [if_neg hi]
        exact runs_bind.2 ⟨u, g₂, hreg, hmore extra⟩

/-- What a run of the worklist leaves behind. -/
structure Matches.Leaves (t : Table) (g : Generator) (todo is : List ValueId) (g' : Generator) : Prop where
  tidy : g'.Tidy
  keeps : g.Keeps g'
  /-- What waits is matched. -/
  todo : ∀ i ∈ todo, (t.get i).op.isInstr = true → i ∈ is
  /-- What gets a name is matched, if it is an instruction. -/
  since : ∀ i x, g'.valueNames.get? i = some x → (t.get i).op.isInstr = true →
    i ∈ is ∨ g.valueNames.get? i = some x
  operands : ∀ i ∈ is, ∀ j ∈ (t.get i).op.operands, (∀ n, (t.get j).op ≠ .literal n) →
    ∃ x, g'.valueNames.get? j = some x
  isOperand : ∀ i ∈ is, ∀ j ∈ (t.get i).op.operands, IsOperand (t.get j).op

theorem Generator.Keeps.of_naming {g₁ : Generator} (h : g.Keeps g₁) (hsame : g'.naming = g₁.naming) : g.Keeps g' := by
  have hvalues := Generator.valueNames_of_naming hsame
  have hkeys : g'.keyNames = g₁.keyNames := (congrArg Generator.keyNames hsame :)
  have hnames : g'.names = g₁.names := (congrArg Generator.names hsame :)
  exact ⟨hvalues ▸ h.value, hkeys ▸ h.key, hnames ▸ h.taken⟩

theorem Matches.leaves (h : Matches t g todo is es g') (hg : g.Tidy) : Matches.Leaves t g todo is g' := by
  induction h with
  | nil =>
    exact ⟨hg, .refl _, nofun, fun _ _ hx _ => .inr hx,
      nofun, nofun⟩
  | @instr g g₁ g₂ g' i e bound todo is es hi hc hsame hrest ih =>
    have hleaves := hc.leaves hg
    obtain ⟨htidy, hkeeps, htodo, hsince, hoperands, hisOperand⟩ := ih (hleaves.tidy.of_naming hsame)
    have hvalues := Generator.valueNames_of_naming hsame
    refine ⟨htidy, (hleaves.keeps.of_naming hsame).trans hkeeps, fun j hj hinstr => ?_, fun j x hx hinstr => ?_,
      fun j hj k hk hop => ?_, List.forall_mem_cons.2 ⟨hleaves.isOperand, hisOperand⟩⟩
    · rcases List.mem_cons.1 hj with rfl | hj
      · exact List.mem_cons_self
      · exact List.mem_cons_of_mem _ (htodo j (List.mem_append_right _ hj) hinstr)
    · rcases hsince j x hx hinstr with hmem | hx
      · exact .inl (List.mem_cons_of_mem _ hmem)
      · refine (hleaves.since j x (hvalues ▸ hx)).imp_left fun hmem => ?_
        exact List.mem_cons_of_mem _ (htodo j (List.mem_append_left _ hmem) hinstr)
    · rcases List.mem_cons.1 hj with rfl | hj
      · obtain ⟨x, hx⟩ := hleaves.named k hk hop
        exact ⟨x, hkeeps.value k x (hvalues ▸ hx)⟩
      · exact hoperands j hj k hk hop
  | @other g g₁ g' i todo is es hi hsame hrest ih =>
    obtain ⟨htidy, hkeeps, htodo, hsince, hoperands, hisOperand⟩ := ih (hg.of_naming hsame)
    have hvalues := Generator.valueNames_of_naming hsame
    refine ⟨htidy, ((Generator.Keeps.refl g).of_naming hsame).trans hkeeps, fun j hj hinstr => ?_, hvalues ▸ hsince,
      hoperands, hisOperand⟩
    rcases List.mem_cons.1 hj with rfl | hj
    · rw [hi] at hinstr
      cases hinstr
    · exact htodo j hj hinstr

/-- Only parts of the pattern are matched and get names. -/
theorem Matches.reachable (h : Matches t g todo is es g') (hg : g.Tidy) (htodo : ∀ i ∈ todo, Reachable t r i)
    (hnamed : ∀ i x, g.valueNames.get? i = some x → Reachable t r i) :
    (∀ i ∈ is, Reachable t r i) ∧ ∀ i x, g'.valueNames.get? i = some x → Reachable t r i := by
  induction h with
  | nil => exact ⟨nofun, hnamed⟩
  | @instr g g₁ g₂ g' i e bound todo is es hi hc hsame hrest ih =>
    have hleaves := hc.leaves hg
    obtain ⟨hroot, htodo⟩ := List.forall_mem_cons.1 htodo
    have hbound : ∀ j ∈ bound, Reachable t r j := fun j hj => .operand hroot (hleaves.operands hj)
    have hvalues := Generator.valueNames_of_naming hsame
    obtain ⟨his, hnamed'⟩ := ih (hleaves.tidy.of_naming hsame) (List.forall_mem_append.2 ⟨hbound, htodo⟩)
      fun j x hx => (hleaves.since j x (hvalues ▸ hx)).elim (hbound j) (hnamed j x)
    exact ⟨List.forall_mem_cons.2 ⟨hroot, his⟩, hnamed'⟩
  | other hi hsame hrest ih =>
    exact ih (hg.of_naming hsame) (List.forall_mem_cons.1 htodo).2 (Generator.valueNames_of_naming hsame ▸ hnamed)

theorem Matches.isInstr (h : Matches t g todo is es g') : ∀ i ∈ is, (t.get i).op.isInstr = true := by
  induction h with
  | nil => exact nofun
  | instr hi hc hsame hrest ih => exact List.forall_mem_cons.2 ⟨hi, ih⟩
  | other hi hsame hrest ih => exact ih

section Meaning

variable {N : Type} [DecidableEq N] {G : Graph N} {φ : ValueId → N} {ψ : String → Comparison} {ρ ρ' : Scope N}

omit [DecidableEq N] in
theorem Agrees.of_naming (h : Agrees t G g φ ψ ρ) (hsame : g'.naming = g.naming) : Agrees t G g' φ ψ ρ := by
  have hvalues := Generator.valueNames_of_naming hsame
  have hkeys : g'.keyNames = g.keyNames := (congrArg Generator.keyNames hsame :)
  exact ⟨hvalues ▸ h.value, hkeys ▸ h.key, hvalues ▸ h.symbol⟩

/-- If all tests pass, the nodes of the instructions that are matched are the same instructions. -/
theorem Matches.sound (h : Matches t g todo is es g') (hg : g.Tidy)
    (hpat : ∀ i ∈ is, IsPattern (t.get i)) (hpass : passesAll G es ρ = some ρ') (hag : ∃ φ ψ, Agrees t G g φ ψ ρ) :
    Grows g ρ ρ' ∧ (∃ φ ψ, Agrees t G g' φ ψ ρ') ∧ ∀ φ ψ, Agrees t G g' φ ψ ρ' → ∀ i ∈ is, Respects t G φ ψ i := by
  induction h generalizing ρ with
  | nil =>
    cases hpass
    exact ⟨.refl _ _, hag, nofun⟩
  | @instr g g₁ g₂ g' i e bound todo is es hi hc hsame hrest ih =>
    obtain ⟨ρ₁, hfirst, hothers⟩ := Option.bind_eq_some_iff.1 hpass
    obtain ⟨hpat, hpats⟩ := List.forall_mem_cons.1 hpat
    have hleaves := hc.leaves hg
    have htidy₂ := hleaves.tidy.of_naming hsame
    obtain ⟨hgrows₁, ⟨φ₁, ψ₁, hag₁⟩, hrespects⟩ := hc.sound hg hpat hfirst hag
    obtain ⟨hgrows', hag', hall⟩ := ih htidy₂ hpats hothers ⟨φ₁, ψ₁, hag₁.of_naming hsame⟩
    refine ⟨hgrows₁.trans hgrows' (hleaves.keeps.of_naming hsame), hag', fun φ ψ hag => ?_⟩
    -- What the other tests bind changes nothing for this instruction.
    have hag₂ : Agrees t G g₂ φ ψ ρ₁ := hag.restrict htidy₂ (hrest.leaves htidy₂).keeps hgrows'
    exact List.forall_mem_cons.2 ⟨hrespects φ ψ (hag₂.of_naming hsame.symm), hall φ ψ hag⟩
  | @other g g₁ g' i todo is es hi hsame hrest ih =>
    obtain ⟨φ₁, ψ₁, hag₁⟩ := hag
    obtain ⟨hgrows', hag', hall⟩ := ih (hg.of_naming hsame) hpat hpass ⟨φ₁, ψ₁, hag₁.of_naming hsame⟩
    exact ⟨(Grows.refl g ρ).trans hgrows' ((Generator.Keeps.refl g).of_naming hsame), hag', hall⟩

/-- If the nodes of the instructions that are matched are the same instructions, all tests pass. -/
theorem Matches.complete (h : Matches t g todo is es g') (hg : g.Tidy)
    (hpat : ∀ i ∈ is, IsPattern (t.get i)) (hag : Agrees t G g φ ψ ρ) (hall : ∀ i ∈ is, Respects t G φ ψ i) :
    ∃ ρ', passesAll G es ρ = some ρ' := by
  induction h generalizing ρ with
  | nil => exact ⟨ρ, rfl⟩
  | instr hi hc hsame hrest ih =>
    obtain ⟨hfirst, hothers⟩ := List.forall_mem_cons.1 hall
    obtain ⟨hpat, hpats⟩ := List.forall_mem_cons.1 hpat
    obtain ⟨ρ₁, hpass, hag₁⟩ := hc.complete hg hpat hag hfirst
    obtain ⟨ρ', hpass'⟩ := ih ((hc.leaves hg).tidy.of_naming hsame) hpats (hag₁.of_naming hsame) hothers
    exact ⟨ρ', Option.bind_eq_some_iff.2 ⟨ρ₁, hpass, hpass'⟩⟩
  | other hi hsame hrest ih => exact ih (hg.of_naming hsame) hpat (hag.of_naming hsame) hall

end Meaning

/-! ### The match of the source -/

open Elaborate (Optimization)

/-- The state in which the match begins: the root is known as `I`. -/
def Generator.rooted (t : Table) (r : ValueId) : Generator :=
  { Generator.start with names := ⟨["I"], 0⟩, valueNames := [(r, "I")], bound := [("I", cppType (t.get r))] }

theorem choose_root : Names.none.choose "I" = ("I", ⟨["I"], 0⟩) := by
  have hname : (Names.none.choose "I").1 = "I" := by decide +kernel
  have htaken : (Names.none.choose "I").2.taken = ["I"] := by decide +kernel
  have hnext : (Names.none.choose "I").2.next = 0 := by decide +kernel
  rcases hchosen : Names.none.choose "I" with ⟨name, taken, next⟩
  rw [hchosen] at hname htaken hnext
  cases hname
  cases htaken
  cases hnext
  rfl

theorem get?_rooted : (Generator.rooted t r).valueNames.get? i = some x ↔ i = r ∧ x = "I" := by
  show List.lookup i [(r, "I")] = some x ↔ _
  by_cases h : i = r
  · simp [h, eq_comm]
  · simp [List.lookup_cons, beq_eq_false_iff_ne.2 h, h]

theorem tidy_rooted (t : Table) (r : ValueId) : (Generator.rooted t r).Tidy := by
  have hbound : ∀ x, (Generator.rooted t r).bound.has x = true ↔ x = "I" := fun x => by
    show Dict.has [("I", cppType (t.get r))] x = true ↔ _
    rw [Dict.has, List.any_cons, List.any_nil, Bool.or_false, beq_iff_eq]
    exact eq_comm
  refine ⟨fun i x hx => ?_, fun k x hx => ?_, fun x => ?_, List.nodup_singleton _, fun x hx => ?_, rfl, rfl⟩
  · exact (hbound x).2 (get?_rooted.1 hx).2
  · cases hx
  · rw [hbound]
    exact List.mem_singleton.symm
  · obtain rfl := List.mem_singleton.1 hx
    decide

/-- The root is bound to the name that it has been given. -/
theorem runs_bindValue_root {u : Unit}
    (h : Runs (bindValue r) t { Generator.start with valueNames := [(r, "I")] } u g') : g' = .rooted t r := by
  have h₁ := runs_valueAt_bind.1 h
  obtain ⟨x, g₂, hx, h₂⟩ := runs_bind.1 h₁
  obtain ⟨rfl, rfl⟩ := runs_nameOf_of_named (y := "I") (by simp [Slots.get?]) hx
  obtain ⟨b, g₃, hb, h₃⟩ := runs_bind.1 h₂
  obtain ⟨rfl, rfl⟩ := runs_isBoundName.1 hb
  obtain ⟨-, h₄⟩ := runs_ensure_bind.1 h₃
  have h₅ := runs_get_bind.1 h₄
  obtain ⟨y, g₆, hy, h₆⟩ := runs_bind.1 h₅
  obtain ⟨rfl, rfl⟩ := runs_newName hy
  obtain rfl := runs_modify.1 h₆
  rw [Generator.nameFor, show Generator.start.names = Names.none from rfl, choose_root]
  rfl

theorem runs_matchSource {o : Optimization} {found : List Expr} (h : Runs (matchSource o) t .start (r, found) g') :
    root o = .ok r ∧ Runs (matchAll (2 * o.table.values.size * (o.table.values.size + 1) + 1) [r]) t
      (.rooted t r) found g' := by
  obtain ⟨r', g₁, hr, h₁⟩ := runs_bind.1 h
  obtain ⟨hroot, rfl⟩ := runs_outcome.1 hr
  obtain ⟨u, g₂, hu, h₂⟩ := runs_bind.1 h₁
  obtain rfl := runs_modify.1 hu
  obtain ⟨u', g₃, hbind, h₃⟩ := runs_bind.1 h₂
  obtain ⟨found', hall, hpair⟩ := runs_bind_pure.1 h₃
  cases hpair
  obtain rfl := runs_bindValue_root hbind
  exact ⟨hroot, hall⟩

theorem isInstr_of_root {o : Optimization} (h : root o = .ok r) : (o.table.get r).op.isInstr = true := by
  unfold root at h
  split at h
  · next i hi =>
    cases h
    obtain ⟨e, he, rfl⟩ := Option.map_eq_some_iff.1 hi
    exact (List.find?_some he :)
  · cases h

/-- The worklist has enough fuel. -/
theorem stepsLeft_rooted_le (hr : (t.get r).op.isInstr = true) :
    stepsLeft t (.rooted t r) [r] ≤ 2 * t.values.size * (t.values.size + 1) + 1 := by
  have hlt : (unnamedInstrs t (.rooted t r)).length < (List.range t.values.size).length := by
    refine List.length_filter_lt_length_iff_exists.2 ⟨r, List.mem_range.2 (Table.lt_of_isInstr hr), ?_⟩
    simp [get?_rooted.2 ⟨rfl, rfl⟩]
  have hpos : t.values.size * 1 ≤ t.values.size * t.values.size :=
    Nat.mul_le_mul_left _ (Nat.zero_lt_of_lt (Table.lt_of_isInstr hr))
  rw [List.length_range] at hlt
  simp only [stepsLeft, instrCount, List.countP_singleton, hr, if_true, List.length_singleton]
  rw [Nat.mul_assoc, Nat.mul_succ]
  omega

theorem IsOperand.isInstr {op : Op} (h : IsOperand op) {j : ValueId} (hj : j ∈ op.operands) : op.isInstr = true := by
  rcases h with ⟨n, rfl⟩ | hkind
  · cases hj
  · cases op <;> simp_all [Op.isInput, Op.isInstr, Op.operands]

/-- Only literals, inputs and instructions are parts of the source, and all of the instructions are matched. -/
theorem Matches.isOperand_of_reachable
    (h : Matches t (.rooted t r) [r] is es g') (hr : (t.get r).op.isInstr = true) (hi : Reachable t r i) :
    IsOperand (t.get i).op ∧ ((t.get i).op.isInstr = true → i ∈ is) := by
  have hleaves := h.leaves (tidy_rooted t r)
  have hroot : r ∈ is := hleaves.todo r (List.mem_singleton_self _) hr
  induction hi with
  | root => exact ⟨.inr (by simp [hr]), fun _ => hroot⟩
  | @operand i j hi hj ih =>
    have hmem := ih.2 (ih.1.isInstr hj)
    refine ⟨hleaves.isOperand i hmem j hj, fun hinstr => ?_⟩
    obtain ⟨x, hx⟩ := hleaves.operands i hmem j hj (not_literal_of_isInstr hinstr)
    refine (hleaves.since j x hx hinstr).elim id fun hold => ?_
    rwa [(get?_rooted.1 hold).1]

/-- The source is matched by a run of the worklist, to its end. -/
theorem exists_matches {o : Optimization} {found : List Expr} (h : Runs (matchSource o) o.table .start (r, found) g') :
    (o.table.get r).op.isInstr = true ∧ ∃ is, Matches o.table (.rooted o.table r) [r] is found g' ∧
      ((∀ i ∈ is, Reachable o.table r i) ∧ ∀ i x, g'.valueNames.get? i = some x → Reachable o.table r i) ∧
      ∀ extra, Runs (matchAll (2 * o.table.values.size * (o.table.values.size + 1) + 1 + extra) [r]) o.table
        (.rooted o.table r) found g' := by
  obtain ⟨hroot, hall⟩ := runs_matchSource h
  have hr := isInstr_of_root hroot
  have hwaits : Waits o.table (.rooted o.table r) [r] :=
    fun i hi _ => ⟨"I", get?_rooted.2 ⟨List.mem_singleton.1 hi, rfl⟩⟩
  obtain ⟨is, hmatches, hmore⟩ := matches_of_runs (tidy_rooted o.table r) hwaits (stepsLeft_rooted_le hr) hall
  refine ⟨hr, is, hmatches, hmatches.reachable (tidy_rooted o.table r) (List.forall_mem_singleton.2 .root)
    fun i x hx => ?_, hmore⟩
  rw [(get?_rooted.1 hx).1]
  exact .root

/-- The variables before the match. -/
def rootScope {N : Type} (I : N) : Scope N := Scope.set (fun _ => none) "I" (.node I)

/-- The tests of the source, in a graph of instructions with the node `I`, pass exactly if `I` with what it depends on
is an instance of the root with what it depends on. -/
theorem source_match_iff_isInstance {o : Optimization} {r : ValueId} {found : List Expr}
    (h : Runs (matchSource o) o.table .start (r, found) g')
    (hpat : ∀ i, Reachable o.table r i → IsPattern (o.table.get i)) :
    root o = .ok r ∧ ∃ test, Expr.joined? .and found = some test ∧
      ∀ (N : Type) [DecidableEq N] (G : Graph N) (I : N),
        (passes G test (rootScope I)).isSome = true ↔ ∃ φ ψ, IsInstance o.table G φ ψ r I := by
  have hroot := (runs_matchSource h).1
  have htidy := tidy_rooted o.table r
  obtain ⟨hr, is, hmatches, ⟨hreach, -⟩, -⟩ := exists_matches h
  have hpats := fun i hi => hpat i (hreach i hi)
  have hname : (o.table.get r).name.startsWith "C" = false := by
    have := hpat r .root
    unfold IsPattern at this
    cases hop : (o.table.get r).op <;> simp_all [Op.isInstr]
  have hagrees : ∀ (N : Type) (G : Graph N) (I : N) (φ : ValueId → N) (ψ : String → Comparison), φ r = I →
      Agrees o.table G (.rooted o.table r) φ ψ (rootScope I) := by
    rintro N G I φ ψ rfl
    refine ⟨fun i x hx => ?_, fun k x hx => (by cases hx), fun i x hx hC => ?_⟩
    · obtain ⟨rfl, rfl⟩ := get?_rooted.1 hx
      exact Scope.set_self _ _ _
    · obtain ⟨rfl, -⟩ := get?_rooted.1 hx
      rw [hname] at hC
      cases hC
  obtain ⟨test, htest⟩ : ∃ test, Expr.joined? .and found = some test := by
    cases hmatches with
    | instr => exact ⟨_, rfl⟩
    | other hi => exact absurd (hr.symm.trans hi) (by decide)
  refine ⟨hroot, test, htest, fun N _ G I => ?_⟩
  rw [passes_joined htest, Option.isSome_iff_exists]
  constructor
  · rintro ⟨ρ', hpass⟩
    obtain ⟨hgrows, ⟨φ, ψ, hag⟩, hrespects⟩ :=
      hmatches.sound htidy hpats hpass ⟨fun _ => I, fun _ => .eq, hagrees N G I _ _ rfl⟩
    have hI : (Generator.rooted o.table r).valueNames.get? r = some "I" := get?_rooted.2 ⟨rfl, rfl⟩
    refine ⟨φ, ψ, ?_, fun i hi hinstr => hrespects φ ψ hag i ((hmatches.isOperand_of_reachable hr hi).2 hinstr)⟩
    have hnode := hag.value r "I" ((hmatches.leaves htidy).keeps.value r "I" hI)
    rw [hgrows "I" (htidy.value_taken hI), rootScope, Scope.set_self] at hnode
    exact (Binding.node.inj (Option.some.inj hnode)).symm
  · rintro ⟨φ, ψ, hinst⟩
    refine hmatches.complete htidy hpats (hagrees N G I φ ψ hinst.root) fun i hi => ?_
    exact hinst.respects i (hreach i hi) (hmatches.isInstr i hi)

/-- The source `%s = add nsw %x, %x`, `%c = icmp p %s, C`, `%r = select %c, %s, %x`. -/
def clampSource : Optimization :=
  let byte (place : String) : Option PlacedTy := some ⟨place, .int (some 8)⟩
  { (default : Optimization) with
    table := ⟨#[⟨"%x", "%x", byte "%x", .input⟩, ⟨"%s", "%s", byte "%s", .arith .add 0 0 [.nsw]⟩,
      ⟨"C", "C", byte "C", .input⟩,
      ⟨"%c", "%c", some ⟨"%c", .int (some 1)⟩, .icmp (.any "p") ⟨"%s", .int (some 8)⟩ 1 2⟩,
      ⟨"%r", "%r", byte "%r", .select 3 1 0⟩], 0⟩
    sourceNames := [("%x", 0), ("%s", 1), ("C", 2), ("%c", 3), ("%r", 4)] }

theorem clampSource_isPattern (i : ValueId) : IsPattern (clampSource.table.get i) := by
  rcases i with _ | _ | _ | _ | _ | i
  · trivial
  · exact ⟨by decide, by decide +kernel⟩
  · trivial
  · show String.startsWith _ _ = false
    decide +kernel
  · show String.startsWith _ _ = false
    decide +kernel
  · trivial

theorem exists_clampSource : ∃ found g', Runs (matchSource clampSource) clampSource.table .start (4, found) g' := by
  have hok : (matchSource clampSource clampSource.table .start).1.toOption.map Prod.fst = some 4 := by decide +kernel
  rcases hrun : matchSource clampSource clampSource.table .start with ⟨result, g'⟩
  rw [hrun] at hok
  cases result with
  | error e => cases hok
  | ok found =>
    obtain ⟨r, found⟩ := found
    cases hok
    exact ⟨found, g', hrun⟩

/-- The theorem at a source in which `%x` occurs three times, `%s` twice, and the predicate is not known. -/
theorem clampSource_match : ∃ found g', Runs (matchSource clampSource) clampSource.table .start (4, found) g' ∧
    (∀ i, Reachable clampSource.table 4 i → IsPattern (clampSource.table.get i)) ∧
    root clampSource = .ok 4 ∧ ∃ test, Expr.joined? .and found = some test ∧
      ∀ (N : Type) [DecidableEq N] (G : Graph N) (I : N),
        (passes G test (rootScope I)).isSome = true ↔ ∃ φ ψ, IsInstance clampSource.table G φ ψ 4 I := by
  obtain ⟨found, g', hrun⟩ := exists_clampSource
  have hpat := fun i (_ : Reachable clampSource.table 4 i) => clampSource_isPattern i
  exact ⟨found, g', hrun, hpat, source_match_iff_isInstance hrun hpat⟩

end Peephole.Emit
