import Peephole.Proofs.Encode.Definedness

/-!
# Addresses of elements

An address computation takes one step for each index (`Steps`): the first goes over values of what the type points to,
each further one over values of what the type before it is made of, if that is a pointer again.

* `offset` : how far steps lead.
* `gep_address` : **an address is the base with each index times the size in bytes of what it steps over**; none is
  computed with a type that has an array in it.
-/

namespace Peephole.Encode

open Logic Machine Program

variable {s : Setting} {w : Work} {i : ValueId} {place : String} {ty : Ty} {xs : List ValueId}

/-- How far steps lead: each index is taken times the size, rounded up to bytes. -/
def offset (env : Env) (steps : List (Nat × Term)) : Int :=
  (steps.map fun st => ((st.1 + 7) / 8 : Nat) * signed st.2.width (st.2.num env)).sum

theorem bytes_allocSize {m : Nat} (h : m + 7 < 2 ^ 53) : bytes (allocSize m) = ((m + 7) / 8 : Nat) := by
  have hsize : allocSize m = (m + 7) / 8 * 8 := congrArg (· * 8) (bytes_eq_of_lt (by omega) (by omega))
  rw [hsize, bytes_eq_of_lt (by omega) (by omega)]
  omega

theorem stepped_eq_offset {n k : Nat} {env : Env} {steps : List (Nat × Term)} (hk : k < 2 ^ n)
    (hsmall : ∀ st ∈ steps, st.1 + 7 < 2 ^ 53) :
    stepped n k (steps.map fun st => (bytes (allocSize st.1), st.2.width, st.2.num env)) =
      wrap n (k + offset env steps) := by
  induction steps generalizing k with
  | nil => simp [stepped, offset, wrap_of_lt hk]
  | cons st steps ih =>
    obtain ⟨hsize, hsmall⟩ := List.forall_mem_cons.1 hsmall
    rw [List.map_cons, stepped, ih (wrap_lt ..) hsmall, bytes_allocSize hsize, wrap_eq_wrap_iff, wrap_cast]
    simp only [offset, List.map_cons, List.sum_cons, ← add_assoc]
    exact (Int.mod_modEq _ _).add_right _

def hasArray : Ty → Bool
  | .array _ _ => true
  | .ptr t => hasArray t
  | _ => false

/-- With an index for each level of the type, some index would step into the array. -/
theorem not_steps_of_hasArray {d : Dict Encoded} {es : List Encoded} {steps : List (Nat × Term)}
    {c : Typing.Constraint} (harray : hasArray ty = true) (hdepth : Typing.depthIs place ty xs.length = .ok c)
    (hc : c.holds s.shape.values = true) : ¬Steps s d place ty xs es steps := by
  intro h
  induction ty generalizing place xs es steps with
  | ptr t ih =>
    cases h with
    | nil =>
      cases hdepth
      cases hc
    | @cons _ _ _ _ _ xs _ _ _ _ _ hp _ _ _ h =>
      cases hp
      refine ih harray ?_ h
      have hne : (xs.length : Int) + 1 ≠ 0 := by omega
      simpa [Typing.depthIs, hne] using hdepth
  | array n t =>
    cases h with
    | nil =>
      cases hdepth
      cases hc
    | cons hp => cases hp
  | _ => cases harray

/-- **An address is computed if and only if every index steps through a pointer**, and is then the base with each index
times the size in bytes of what it steps over.  With a type that has an array in it no address is computed, as there is
an index for each level of the type. -/
theorem gep_address {p : ValueId} {inbounds : Bool} {t : PlacedTy} (hop : (s.table.get i).op = .gep p xs inbounds)
    (htype : (s.table.get i).type = some t) :
    (∀ r, encode i s w = .ok r → ∃ b es steps, TermOf s w.state.vars p b ∧
      Steps s w.state.vars t.place t.ty xs es steps) ∧
    (∀ b es steps, TermOf s w.state.vars p b → Steps s w.state.vars t.place t.ty xs es steps →
      ∃ u w', encode i s w = .ok (some u, w') ∧ (0 < b.width → (∀ st ∈ steps, st.1 + 7 < 2 ^ 53) →
        u.width = b.width ∧ ∀ env, u.num env = wrap b.width (b.num env + offset env steps))) ∧
    ∀ c, Typing.depthIs t.place t.ty xs.length = .ok c → c.holds s.shape.values = true → hasArray t.ty = true →
      ∀ r, encode i s w ≠ .ok r := by
  have hrun : encode i s w = (operand p s w).bind fun b =>
      (gepTerm b.1 t.place t.ty xs s b.2).bind fun r => .ok (some r.1, r.2) := by
    rw [encode, encodeWith, valueAt_bind, hop]
    simp only [bind_run, typeOf, htype, pure_run, ok_bind]
  have hsteps : ∀ r, encode i s w = .ok r → ∃ b es steps, TermOf s w.state.vars p b ∧
      Steps s w.state.vars t.place t.ty xs es steps := by
    intro r h
    simp only [hrun, bind_ok] at h
    obtain ⟨⟨b, w₁⟩, hb, r, hr, -⟩ := h
    obtain ⟨e, he, heb, rfl⟩ := operand_ok hb
    obtain ⟨es, steps, h, -⟩ := gepTerm_iff.1 hr
    exact ⟨b, es, steps, ⟨e, he, heb⟩, h⟩
  refine ⟨hsteps, ?_, ?_⟩
  · rintro b es steps ⟨e, he, hb⟩ h
    have hu : gepTerm b t.place t.ty xs s (w.adopt e.conds) = _ := gepTerm_iff.2 ⟨es, steps, h, rfl, rfl⟩
    refine ⟨_, _, by rw [hrun, operand_run he hb, ok_bind, hu, ok_bind], fun hpos hsmall => ?_⟩
    obtain ⟨hwidth, hnum⟩ := num_steps hpos steps
    exact ⟨hwidth, fun env => (hnum env).trans (stepped_eq_offset (b.num_lt env) hsmall)⟩
  · intro c hdepth hc harray r h
    obtain ⟨b, es, steps, -, h⟩ := hsteps r h
    exact not_steps_of_hasArray harray hdepth hc h

/-- A pointer `%p`, an index `%i`, and two addresses: of a word behind the pointer, and of a byte in an array. -/
def elementSetting : Setting where
  table := ⟨#[⟨"%p", "%p", some ⟨"%p", .ptr (.int (some 32))⟩, .input⟩,
    ⟨"%i", "%i", some ⟨"%i", .int (some 16)⟩, .input⟩,
    ⟨"%q", "%q", some ⟨"%q", .ptr (.int (some 32))⟩, .gep 0 [1] false⟩,
    ⟨"%r", "%r", some ⟨"%r", .ptr (.array ⟨4, "2"⟩ (.int (some 8)))⟩, .gep 0 [1, 1] false⟩], 0⟩
  shape := ⟨fun _ => 2, 64⟩
  options := {}
  inSource := true

/-- A word is four times the index behind the pointer; no address of a byte in the array is computed. -/
theorem element_address : (∃ w u w', encode 2 elementSetting w = .ok (some u, w') ∧
      ∀ env, u.num env = wrap 64 (wrap 64 (env.bits "%p") + 4 * signed 16 (wrap 16 (env.bits "%i")))) ∧
    ∀ w r, encode 3 elementSetting w ≠ .ok r := by
  set w : Work := { (default : Work) with
    state.vars := [("%p", ⟨some (.var "%p" 64), .none⟩), ("%i", ⟨some (.var "%i" 16), .none⟩)] } with hw
  constructor
  · obtain ⟨u, w', hu, hmeans⟩ := (gep_address (i := 2) (s := elementSetting) (w := w) rfl rfl).2.1 (.var "%p" 64) _
      [(32, .var "%i" 16)] ⟨_, rfl, rfl⟩ (.cons rfl rfl rfl rfl .nil)
    refine ⟨w, u, w', hu, fun env => ?_⟩
    simpa [offset, Term.width] using (hmeans (by decide) (by decide)).2 env
  · intro w
    exact (gep_address (i := 3) rfl rfl).2.2 (.lit true) rfl rfl rfl

end Peephole.Encode
