import Peephole.Proofs.Logic.Rename
import Peephole.Proofs.Verify.Refinement

/-!
# Refinement is a preorder

What the checks of a value decide can be composed: accepted optimizations of a value may be chained.

* `valueChecks_rename_pass` : a value refines itself, with other variables for its arbitrary choices.  The choice
  that the copy makes is also one of the original (`Env.Copies`).
* `valueChecks_pass_trans` : **refinements compose**.  The second one is asked first, and its choice is part of the
  environment in which the first one is asked; the answer is then a choice without it (`Env.AgreeOn.choices`).

Each side quantifies its own choices, so that none of them may occur on another side or in what is given.
-/

namespace Peephole.Verify

open Logic Encode
open Program (Dict)

/-- The encoding with other names for its variables. -/
def renamed (ρ : String → Nat → String) (a : Encoded) : Encoded where
  value := a.value.map (Term.rename ρ)
  conds := ⟨a.conds.defined.map (Formula.rename ρ), a.conds.poison.map (Formula.rename ρ),
    a.conds.free.map (Var.rename ρ)⟩

/-- The arbitrary choices are bit-vectors with different names. -/
structure Sorted (a : Encoded) : Prop where
  kind : ∀ v ∈ a.conds.free, ∃ w, v.kind = .bits w
  name : ∀ v ∈ a.conds.free, ∀ v' ∈ a.conds.free, v.name = v'.name → v = v'

theorem Sorted.kind_ne {a : Encoded} (h : Sorted a) : ∀ v ∈ a.conds.free, v.kind ≠ .truth := by
  intro v hv htruth
  obtain ⟨w, hw⟩ := h.kind v hv
  cases hw.symm.trans htruth

section Preorder

variable {p : Problem} {users : Dict (List Formula)} {k : String} {a b c : Encoded} {x y z : Term}

/-- The value of a variable under its new name. -/
def valueUnder (ρ : String → Nat → String) (env : Env) (v : Var) : Nat :=
  match v.kind with
  | .bits w => (BitVec.ofInt w (env.bits (ρ v.name w))).toNat
  | _ => 0

theorem valueUnder_lt {ρ : String → Nat → String} {env : Env} {v : Var} {w : Nat} (hw : v.kind = .bits w) :
    valueUnder ρ env v < 2 ^ w := by
  rw [valueUnder, hw]
  exact BitVec.isLt _

/-- The choices of the copy can be made in the original. -/
theorem Sorted.exists_copies (h : Sorted a) {ρ : String → Nat → String}
    (hρ : ∀ n w, ⟨n, .bits w⟩ ∉ a.conds.free → ρ n w = n) (env : Env) :
    ∃ e ∈ Env.choices a.conds.free env, Env.Copies ρ (a.conds.free.map (·.name)) env e := by
  obtain ⟨e, he, htruth, hbyte, hother, hset⟩ :=
    Env.exists_choice h.kind h.name (valueUnder ρ env) (fun _ _ _ => valueUnder_lt) env
  refine ⟨e, he, fun n w hn => ?_, fun n hn => (hother n hn).symm, htruth.symm, hbyte.symm⟩
  by_cases hmem : ⟨n, .bits w⟩ ∈ a.conds.free
  · have hvalue : e.bits n = ((BitVec.ofInt w (env.bits (ρ n w))).toNat : Int) := hset _ hmem
    rw [hvalue, BitVec.ofInt_natCast, BitVec.ofNat_toNat, BitVec.setWidth_eq]
  · rw [hρ n w hmem] at hn ⊢
    rw [hother n hn]

/-- **A value refines itself**, with other names for its choices. -/
theorem valueChecks_rename_pass (h : Sorted a) {ρ : String → Nat → String}
    (hρ : ∀ n w, ⟨n, .bits w⟩ ∉ a.conds.free → ρ n w = n) (hshare : Unshared p users k a (renamed ρ a)) :
    ∀ c ∈ valueChecks p users k a (renamed ρ a), c.Passes := by
  cases hx : a.value with
  | none => simp [valueChecks, hx]
  | some x =>
    have hy : (renamed ρ a).value = some (x.rename ρ) := by rw [renamed, hx]; rfl
    rw [valueChecks_pass_iff hshare h.kind_ne hx hy]
    intro env _
    obtain ⟨e, he, hcopies⟩ := h.exists_copies hρ env
    -- No old name is left in the copy, as it shares no choice with the original.
    have hgone : Gone (a.conds.free.map (·.name)) (encodedNames (renamed ρ a)) := by
      intro n hn hmem
      obtain ⟨v, hv, rfl⟩ := List.mem_map.1 hmem
      exact hshare.independent v hv hn
    rw [encodedNames, hy] at hgone
    have hholds : ∀ ps, Gone (a.conds.free.map (·.name)) (Formula.namesOf (ps.map (Formula.rename ρ))) →
        holds e ps = holds env (ps.map (Formula.rename ρ)) := by
      intro ps hps
      rw [← Formula.renameAll_eq] at hps ⊢
      simpa [holds] using congrArg (List.all · id) (Formula.map_eval_rename hcopies ps hps).symm
    refine ⟨e, he, fun hd hp => ⟨?_, ?_, ?_⟩⟩
    · rwa [hholds _ hgone.left.right] at hd
    · rwa [hholds _ hgone.right] at hp
    · have hval := x.val_rename hcopies hgone.left.left
      exact congrArg (fun v : Sized => v.2.setWidth x.width) hval ▸ (BitVec.setWidth_eq _).symm

/-- **Refinements compose.** -/
theorem valueChecks_pass_trans (hx : a.value = some x) (hy : b.value = some y) (hz : c.value = some z)
    (hwidth : x.width = y.width) (ha : Sorted a) (hb : Sorted b) (hab : Unshared p users k a b)
    (hbc : Unshared p users k b c) (hac : Unshared p users k a c) (hba : Independent b a)
    (h : ∀ c ∈ valueChecks p users k a b, c.Passes) (h' : ∀ d ∈ valueChecks p users k b c, d.Passes) :
    ∀ d ∈ valueChecks p users k a c, d.Passes := by
  rw [valueChecks_pass_iff hab ha.kind_ne hx hy] at h
  rw [valueChecks_pass_iff hbc hb.kind_ne hy hz] at h'
  rw [valueChecks_pass_iff hac ha.kind_ne hx hz]
  intro env hgiven
  obtain ⟨f, hf, hbc'⟩ := h' env hgiven
  obtain ⟨g, hg, hab'⟩ := h f ((hbc.given_eq hb.kind_ne hf).symm.trans hgiven)
  -- The source does not depend on the choice `f` of the middle, so it can be taken back.
  obtain ⟨e, he, hagree⟩ : ∃ e ∈ Env.choices a.conds.free env, Env.AgreeOn (encodedNames a) e g := by
    have hchoices := (Env.agreeOn_of_mem_choices hb.kind_ne hba hf).choices a.conds.free
    obtain ⟨i, hi, rfl⟩ := List.mem_iff_getElem.1 hg
    exact ⟨_, List.getElem_mem (hchoices.length_eq ▸ hi), (List.forall₂_iff_get.1 hchoices).2 i _ hi⟩
  rw [encodedNames, hx] at hagree
  refine ⟨e, he, fun hd hp => ?_⟩
  rw [holds_eq_of_agree hagree.left.right] at hd
  rw [holds_eq_of_agree hagree.right] at hp
  obtain ⟨hd, hp, hxy⟩ := hab' hd hp
  obtain ⟨hd, hp, hyz⟩ := hbc' hd hp
  refine ⟨hd, hp, ?_⟩
  rw [Term.eval_eq_of_agree x hagree.left.left, hxy, hyz, BitVec.setWidth_setWidth_of_le _ (Nat.le_of_eq hwidth)]

/-- **The refinement that the checks decide is a preorder.**  A value refines itself with other variables for its
arbitrary choices.  If the checks come out clean from `a` to `b` and from `b` to `c`, they come out clean from `a`
to `c`, where no side shares a choice with another one or with what is given, and `a` and `b` have the same width. -/
theorem valueChecks_preorder {solve : Decide.Solver} (hs : Answers solve) (p : Problem)
    (users : Dict (List Formula)) (k : String) :
    (∀ (a : Encoded) (ρ : String → Nat → String), Sorted a →
      (∀ n w, ⟨n, .bits w⟩ ∉ a.conds.free → ρ n w = n) → Unshared p users k a (renamed ρ a) →
        runChecks solve (valueChecks p users k a (renamed ρ a)) = .clean) ∧
    ∀ (a b c : Encoded) (x y z : Term), a.value = some x → b.value = some y → c.value = some z →
      x.width = y.width → Sorted a → Sorted b → Unshared p users k a b →
      Unshared p users k b c → Unshared p users k a c → Independent b a →
        runChecks solve (valueChecks p users k a b) = .clean → runChecks solve (valueChecks p users k b c) = .clean →
          runChecks solve (valueChecks p users k a c) = .clean := by
  simp only [runChecks_clean_iff hs]
  exact ⟨fun a ρ h hρ hshare => valueChecks_rename_pass h hρ hshare,
    fun a b c x y z hx hy hz hwidth ha hb hab hbc hac hba h h' =>
      valueChecks_pass_trans hx hy hz hwidth ha hb hab hbc hac hba h h'⟩

end Preorder

/-- Another name for one variable of one bit. -/
def anew (old new n : String) (w : Nat) : String := if n = old ∧ w = 1 then new else n

/-- The source of `xorUndef` with its own variable for the choice. -/
def xorCopy : Encoded := renamed (anew "undef0" "undef1") xorUndefSource

theorem sorted_of_single {a : Encoded} {n : String} (h : a.conds.free = [⟨n, .bits 1⟩]) : Sorted a := by
  constructor
  · simp [h]
  · simp [h]

theorem anew_of_single {a : Encoded} {old : String} (new : String) (h : a.conds.free = [⟨old, .bits 1⟩]) (n : String)
    (w : Nat) (hn : ⟨n, .bits w⟩ ∉ a.conds.free) : anew old new n w = n := by
  simp only [h, List.mem_singleton, Var.mk.injEq, Kind.bits.injEq] at hn
  exact if_neg hn

/-- The source of `xorUndef`, a copy of it and a copy of the copy: each refines the one before, and the last one
refines the first. -/
theorem xorUndef_preorder :
    runChecks ideal (valueChecks xorUndefProblem [] "%r" xorUndefSource xorCopy) = .clean ∧
      runChecks ideal (valueChecks xorUndefProblem [] "%r" xorCopy (renamed (anew "undef1" "undef2") xorCopy)) =
        .clean ∧
      runChecks ideal (valueChecks xorUndefProblem [] "%r" xorUndefSource
        (renamed (anew "undef1" "undef2") xorCopy)) = .clean := by
  have h := valueChecks_preorder ideal_answers xorUndefProblem [] "%r"
  have hsource : Sorted xorUndefSource := sorted_of_single rfl
  have hcopy : Sorted xorCopy := sorted_of_single rfl
  have hfirst := h.1 xorUndefSource _ hsource (anew_of_single "undef1" rfl) (by decide)
  have hsecond := h.1 xorCopy _ hcopy (anew_of_single "undef2" rfl) (by decide)
  exact ⟨hfirst, hsecond, h.2 _ xorCopy _ _ _ _ rfl rfl rfl rfl hsource hcopy (by decide) (by decide) (by decide)
    (by decide) hfirst hsecond⟩

end Peephole.Verify
