import Peephole.Emit.Expression
import Peephole.Proofs.Emit.Fresh

/-!
# Runs of the code generator

A computation of the generator reads the table of values, and changes the state also where it ends with an error.
`Runs` speaks of the computations that end well.

* `runs_bind`, `runs_pure` and the like : how a run is made of the runs of its parts.
* `Generator.Named` : all values have names of generated code.
-/

namespace Peephole.Emit

open Program Cpp

variable {α β : Type} {t : Table} {g g' : Generator} {i : ValueId} {c : Char}

/-- The computation ends well with the result `a` in the state `g'`. -/
def Runs (x : EmitM α) (t : Table) (g : Generator) (a : α) (g' : Generator) : Prop := x t g = (Except.ok a, g')

theorem bind_of_ok {x : EmitM α} {f : α → EmitM β} {a : α} {g₁ : Generator} (h : x t g = (Except.ok a, g₁)) :
    (x >>= f) t g = f a t g₁ := by
  simp [bind, ReaderT.bind, ExceptT.bind, ExceptT.mk, StateT.bind, ExceptT.bindCont, h]

theorem bind_of_error {x : EmitM α} {f : α → EmitM β} {e : Error} {g₁ : Generator}
    (h : x t g = (Except.error e, g₁)) : (x >>= f) t g = (Except.error e, g₁) := by
  simp [bind, ReaderT.bind, ExceptT.bind, ExceptT.mk, StateT.bind, ExceptT.bindCont, h]
  rfl

theorem runs_bind {x : EmitM α} {f : α → EmitM β} {b : β} :
    Runs (x >>= f) t g b g' ↔ ∃ a g₁, Runs x t g a g₁ ∧ Runs (f a) t g₁ b g' := by
  constructor
  · intro h
    rcases hx : x t g with ⟨r, g₁⟩
    cases r with
    | ok a => exact ⟨a, g₁, hx, (bind_of_ok hx).symm.trans h⟩
    | error e =>
      have heq : (Except.error e, g₁) = (Except.ok b, g') := (bind_of_error hx).symm.trans h
      cases heq
  · rintro ⟨a, g₁, hx, hf⟩
    exact (bind_of_ok hx).trans hf

theorem runs_pure {a b : α} : Runs (pure a : EmitM α) t g b g' ↔ b = a ∧ g' = g := by
  constructor
  · intro h
    cases h
    exact ⟨rfl, rfl⟩
  · rintro ⟨rfl, rfl⟩
    rfl

theorem runs_bind_pure {x : EmitM α} {f : α → β} {b : β} :
    Runs (x >>= fun a => pure (f a)) t g b g' ↔ ∃ a, Runs x t g a g' ∧ b = f a := by
  simp only [runs_bind, runs_pure]
  constructor
  · rintro ⟨a, g₁, hx, rfl, rfl⟩
    exact ⟨a, hx, rfl⟩
  · rintro ⟨a, hx, rfl⟩
    exact ⟨a, g', hx, rfl, rfl⟩

@[simp] theorem runs_fail {f : Fault} {a : α} : ¬ Runs (fail f : EmitM α) t g a g' := by
  intro h
  cases h

@[simp] theorem runs_unsupported {s : String} {a : α} : ¬ Runs (unsupported s : EmitM α) t g a g' := by
  intro h
  cases h

theorem runs_valueAt {v : Value} : Runs (valueAt i) t g v g' ↔ v = t.get i ∧ g' = g :=
  runs_pure (t := t)

theorem runs_ensure {p : Bool} {u : Unit} : Runs (ensure p) t g u g' ↔ p = true ∧ g' = g := by
  cases p with
  | true => simp [ensure, runs_pure]
  | false => simp [ensure]

theorem runs_modify {f : Generator → Generator} {u : PUnit} :
    Runs (modify f : EmitM PUnit) t g u g' ↔ g' = f g := by
  constructor
  · intro h
    cases h
    rfl
  · rintro rfl
    rfl

theorem runs_valueAt_bind {f : Value → EmitM β} {b : β} :
    Runs (valueAt i >>= f) t g b g' ↔ Runs (f (t.get i)) t g b g' := Iff.rfl

theorem runs_ensure_bind {p : Bool} {f : Unit → EmitM β} {b : β} :
    Runs (ensure p >>= f) t g b g' ↔ p = true ∧ Runs (f ()) t g b g' := by
  simp only [runs_bind, runs_ensure, and_assoc, exists_and_left, exists_eq_left]
  exact and_congr_right fun _ => ⟨fun ⟨_, h⟩ => h, fun h => ⟨(), h⟩⟩

theorem runs_get_bind {f : Generator → EmitM β} {b : β} :
    Runs (get >>= f) t g b g' ↔ Runs (f g) t g b g' := Iff.rfl

theorem runs_modify_bind {f : Generator → Generator} {k : PUnit → EmitM β} {b : β} :
    Runs (modify f >>= k) t g b g' ↔ Runs (k ⟨⟩) t (f g) b g' := Iff.rfl

theorem runs_outcome {r : Except Error α} {a : α} : Runs (outcome r) t g a g' ↔ r = .ok a ∧ g' = g := by
  cases r with
  | ok b =>
    constructor
    · intro h
      obtain ⟨rfl, rfl⟩ := runs_pure.1 h
      exact ⟨rfl, rfl⟩
    · rintro ⟨hb, rfl⟩
      cases hb
      rfl
  | error e =>
    constructor
    · intro h
      cases h
    · rintro ⟨hb, -⟩
      cases hb

/-! ### Expressions -/

mutual

def words : Expr → List String
  | .var name => [name]
  | .call _ args => allWords args
  | .field _ o _ => words o
  | .method _ o _ args => words o ++ allWords args
  | .unary _ a => words a
  | .binary _ a b => words a ++ words b
  | .assign a b => words a ++ words b
  | .raw _ => []

def allWords : List Expr → List String
  | [] => []
  | e :: es => words e ++ allWords es

end

theorem words_binaryExpr (op : BinaryConst) (e e' : Expr) : words (binaryExpr op e e') = words e ++ words e' := by
  cases op <;> simp [binaryExpr, onNumber, words, allWords]

/-! ### Slots and representatives -/

theorem Slots.get?_put (s : Slots α) (i j : ValueId) (a : α) :
    (s.put i a).get? j = if j == i then some a else s.get? j := by
  induction s with
  | nil => cases h : j == i <;> simp [put, get?, List.lookup_cons, h]
  | cons e s ih =>
    obtain ⟨k, b⟩ := e
    by_cases hk : k = i
    · cases h : j == i <;> simp [put, get?, List.lookup_cons, hk, h]
    · simp only [put, beq_iff_eq, hk, if_false, get?, List.lookup_cons] at ih ⊢
      cases h : j == k
      · exact ih
      · rw [eq_of_beq h, if_neg hk]

theorem Slots.get?_put_self (s : Slots α) (i : ValueId) (a : α) : (s.put i a).get? i = some a := by
  simp [get?_put]

theorem Slots.get?_put_of_ne (s : Slots α) {j : ValueId} (h : j ≠ i) (a : α) : (s.put i a).get? j = s.get? j := by
  simp [get?_put, h]

theorem Slots.get?_put_cases {s : Slots α} {j : ValueId} {a b : α} (h : (s.put i a).get? j = some b) :
    s.get? j = some b ∨ (j = i ∧ b = a) := by
  rw [get?_put] at h
  split at h
  · next hj => exact .inr ⟨eq_of_beq hj, (Option.some.inj h).symm⟩
  · exact .inl h

/-- A new entry changes no other one. -/
theorem Slots.get?_put_of_none {s : Slots α} {j : ValueId} {b : α} (hnone : s.get? i = none) (h : s.get? j = some b)
    (a : α) : (s.put i a).get? j = some b := by
  have hji : j ≠ i := by
    rintro rfl
    rw [hnone] at h
    cases h
  rwa [get?_put_of_ne _ hji]

/-- The state without what it knows about types. -/
def Generator.naming (g : Generator) : Generator :=
  { g with links := [], required := [], guaranteed := [], namedTypes := [] }

theorem representativeFrom_naming {fuel : Nat} {r : ValueId} (h : Runs (representativeFrom fuel i) t g r g') :
    g'.naming = g.naming := by
  induction fuel generalizing g i r g' with
  | zero =>
    obtain ⟨-, rfl⟩ := runs_pure.1 h
    rfl
  | succ fuel ih =>
    rw [representativeFrom, runs_get_bind] at h
    split at h
    · cases h
      rfl
    · obtain ⟨-, rfl⟩ := runs_pure.1 h
      rfl
    · simp only [↓runs_modify_bind, runs_bind, runs_pure] at h
      obtain ⟨k, g₁, hk, -, rfl⟩ := h
      exact (ih hk : g₁.naming = _)

theorem Generator.valueNames_of_naming (h : g'.naming = g.naming) : g'.valueNames = g.valueNames :=
  (congrArg Generator.valueNames h :)

theorem representative_naming {r : ValueId} (h : Runs (representative i) t g r g') : g'.naming = g.naming := by
  have h₁ := runs_get_bind.1 h
  exact representativeFrom_naming h₁

theorem runs_isBound {b : Bool} : Runs (isBound i) t g b g' ↔ b = g.isBound i ∧ g' = g := runs_pure (t := t)

theorem runs_isBound_bind {f : Bool → EmitM β} {b : β} :
    Runs (isBound i >>= f) t g b g' ↔ Runs (f (g.isBound i)) t g b g' := Iff.rfl

/-! ### Names -/

theorem isWordChar_of_mem_toString {n : Nat} (h : c ∈ (toString n).toList) : isWordChar c = true := by
  have hdigit : c.isDigit = true := by
    have hmem : c ∈ Nat.toDigits 10 n := by rwa [← Nat.toList_repr]
    exact Nat.isDigit_of_mem_toDigits (by omega) (by omega) hmem
  simp [isWordChar, Char.isAlphanum, hdigit]

/-- All values have names of generated code. -/
def Generator.Named (g : Generator) : Prop := ∀ i name, g.valueNames.get? i = some name → IsIdent name

theorem Generator.named_start : Generator.start.Named := fun _ _ h => by cases h

end Peephole.Emit
