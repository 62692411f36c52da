import Peephole.Proofs.Typing.Meaning

/-!
# Relations only settle choices

A relation between types gives back the types as they are afterwards.  All it can do to a type is to choose a kind of
an open one, so the types are the same once all choices are forgotten (`Ty.bare`).

There is one statement for each relation, down to `equate_bare` and `compareWidths_bare`.
-/

namespace Peephole.Program

def Choice.bare (c : Choice) : Choice := { c with chosen := none }

/-- The type with no kind chosen. -/
def Ty.bare : Ty → Ty
  | .int w => .int w
  | .ptr t => .ptr t.bare
  | .array n t => .array n t.bare
  | .unknown c => .unknown c.bare
  | .named name c here => .named name c.bare here.bare

end Peephole.Program

namespace Peephole.Typing

open Program

variable {countVar : ValueId → String} {p q : String} {s t s' t' : Ty} {c c' d d' : Choice} {e : Constraint}
  {k : TyKind} {r : Relation}

theorem bind_eq_ok {α β : Type} {x : Except Error α} {f : α → Except Error β} {b : β} (h : (x >>= f) = .ok b) :
    ∃ a, x = .ok a ∧ f a = .ok b := by
  cases x with
  | error err => cases h
  | ok a => exact ⟨a, rfl, h⟩

theorem setChoice_bare (hd : choice? t = some d) (h : d'.bare = d.bare) : (setChoice t d').bare = t.bare := by
  cases t with
  | unknown c | named name c here =>
    cases hd
    simp [setChoice, Ty.bare, h]
  | int _ | ptr _ | array _ _ => cases hd

/-! ### Equality -/

theorem equateAlternative_bare (h : equateAlternative countVar c k p q d = .ok (e, d')) : d'.bare = d.bare := by
  unfold equateAlternative at h
  split at h
  all_goals
    split at h
    · cases h
      rfl
    · cases h

/-- What becomes of an open type that is equated through its choice. -/
theorem bare_of_alternative (hd : choice? t = some d)
    (h : (do
      let (e, d) ← equateAlternative countVar c k p (ownPlace q t) d
      return (e, setChoice t d) : Except Error (Constraint × Ty)) = .ok (e, t')) : t'.bare = t.bare := by
  obtain ⟨⟨e₁, d₁⟩, ha, h⟩ := bind_eq_ok h
  cases h
  exact setChoice_bare hd (equateAlternative_bare ha)

theorem equateInt_bare (h : equateInt countVar p q t = .ok (e, t')) : t'.bare = t.bare := by
  cases t with
  | int _ | ptr _ | array _ _ =>
    cases h
    rfl
  | unknown d => exact bare_of_alternative rfl h
  | named name d here => exact bare_of_alternative rfl h

theorem equateKind_bare (h : equateKind countVar c k p q t = .ok (e, t')) : t'.bare = t.bare := by
  unfold equateKind at h
  split at h
  · exact equateInt_bare h
  · obtain ⟨⟨e₁, u₁⟩, hu, h⟩ := bind_eq_ok h
    cases h
    exact congrArg Ty.ptr (equateInt_bare hu)
  · obtain ⟨⟨e₁, u₁⟩, hu, h⟩ := bind_eq_ok h
    cases h
    exact congrArg (Ty.array _) (equateInt_bare hu)
  · split at h
    · next hd => exact bare_of_alternative hd h
    · cases h
      rfl

theorem equateOpen_bare (h : equateOpen countVar c p q t = .ok (e, c', t')) :
    c'.bare = c.bare ∧ t'.bare = t.bare := by
  unfold equateOpen at h
  split at h
  · split at h
    · obtain ⟨⟨e₁, t₁⟩, ht, h⟩ := bind_eq_ok h
      cases h
      exact ⟨rfl, equateKind_bare ht⟩
    · cases h
  · split at h
    · split at h
      · obtain ⟨⟨e₁, t₁⟩, ht, h⟩ := bind_eq_ok h
        cases h
        exact ⟨rfl, equateKind_bare ht⟩
      · cases h
    · cases h
      exact ⟨rfl, rfl⟩
    · cases h

/-- **Equating two types only settles choices.** -/
theorem equate_bare (h : equate countVar p q s t = .ok (e, s', t')) : s'.bare = s.bare ∧ t'.bare = t.bare := by
  fun_induction equate countVar p q s t generalizing e s' t' with
  | case1 | case2 | case3 | case4 | case5 =>
    -- An open type on one side is equated through its choice, whatever stands on the other side.
    obtain ⟨⟨e₁, c₁, t₁⟩, ho, h⟩ := bind_eq_ok h
    cases h
    simp [Ty.bare, equateOpen_bare ho]
  | case7 p q s t ih | case8 p q m s n t ih =>
    obtain ⟨⟨e₁, s₁, t₁⟩, hst, h⟩ := bind_eq_ok h
    cases h
    simp [Ty.bare, ih hst]
  | case6 | case9 =>
    cases h
    exact ⟨rfl, rfl⟩

/-! ### Order by width -/

theorem asInteger_bare {cs : List Constraint} (h : asInteger p c = some (cs, c')) : c'.bare = c.bare := by
  unfold asInteger at h
  split at h
  · split at h
    · cases h
      rfl
    · cases h
  · cases h
    rfl
  · cases h

theorem compareInt_bare (h : compareInt r p q t = .ok (e, t')) : t'.bare = t.bare := by
  cases t with
  | int w =>
    cases h
    rfl
  | ptr _ | array _ _ => cases h
  | unknown d | named _ d _ =>
    simp only [compareInt] at h
    split at h
    · next ha =>
      cases h
      exact setChoice_bare rfl (asInteger_bare ha)
    · cases h

theorem compareOpen_bare (h : compareOpen r p q c t = .ok (e, c', t')) : c'.bare = c.bare ∧ t'.bare = t.bare := by
  unfold compareOpen at h
  split at h
  · cases h
    exact ⟨rfl, rfl⟩
  · next ha =>
    split at h
    · obtain ⟨⟨e₁, t₁⟩, ht, h⟩ := bind_eq_ok h
      cases h
      exact ⟨asInteger_bare ha, compareInt_bare ht⟩
    · cases h

theorem compareFirst?_bare (h : compareFirst? r p q s t = some (.ok (e, s', t'))) :
    s'.bare = s.bare ∧ t'.bare = t.bare := by
  cases s with
  | int w =>
    obtain ⟨⟨e₁, t₁⟩, ht, h⟩ := bind_eq_ok (Option.some.inj h)
    cases h
    exact ⟨rfl, compareInt_bare ht⟩
  | unknown c | named name c here =>
    obtain ⟨⟨e₁, c₁, t₁⟩, ht, h⟩ := bind_eq_ok (Option.some.inj h)
    cases h
    simp [Ty.bare, compareOpen_bare ht]
  | ptr _ | array _ _ => cases h

theorem compareSecond?_bare (h : compareSecond? r p q s t = some (.ok (e, s', t'))) :
    s'.bare = s.bare ∧ t'.bare = t.bare := by
  unfold compareSecond? at h
  split at h
  · cases h
  · obtain ⟨y, hy, h⟩ := Option.map_eq_some_iff.1 h
    obtain ⟨⟨e₁, t₁, s₁⟩, rfl, h⟩ := bind_eq_ok h
    cases h
    exact (compareFirst?_bare hy).symm

/-- **Comparing widths only settles choices.**  Two types are compared by the relation of the first one or by the
flipped relation of the second one. -/
theorem compareWidths_bare (h : compareWidths r p q s t = .ok (e, s', t')) :
    s'.bare = s.bare ∧ t'.bare = t.bare := by
  have heither : ∀ {x y : Option (Except Error (Constraint × Ty × Ty))},
      (x <|> y).getD (.error (.fault .badOperands)) = .ok (e, s', t') →
      x = some (.ok (e, s', t')) ∨ y = some (.ok (e, s', t')) := by
    rintro (_ | x) y h
    · cases y with
      | none => cases h
      | some y => exact .inr (congrArg some h)
    · exact .inl (congrArg some h)
  unfold compareWidths at h
  dsimp only at h
  split at h
  · exact (heither h).elim compareSecond?_bare compareFirst?_bare
  · exact (heither h).elim compareFirst?_bare compareSecond?_bare

theorem compareWidth_bare {n : Int} (h : compareWidth r p n t = .ok (e, t')) : t'.bare = t.bare := by
  cases t with
  | int w =>
    cases h
    rfl
  | ptr _ | array _ _ => cases h
  | unknown c | named _ c _ =>
    simp only [compareWidth] at h
    split at h
    · cases h
      rfl
    · next ha =>
      split at h
      · cases h
        exact setChoice_bare rfl (asInteger_bare ha)
      · cases h

/-! ### Pointees -/

/-- A type is put together again from its pointee. -/
theorem pointee_bare {u u' : Ty} {rebuild : Ty → Ty} (h : pointee p t = .ok (q, u, rebuild)) (hu : u'.bare = u.bare) :
    (rebuild u').bare = t.bare := by
  have hopen : ∀ {name : String} {c : Choice} {close : Choice → Ty},
      (∀ c' : Choice, c'.bare = c.bare → (close c').bare = t.bare) →
      pointee.openPointee name c close = .ok (q, u, rebuild) → (rebuild u').bare = t.bare := by
    intro name c close hclose h
    unfold pointee.openPointee at h
    split at h
    · split at h
      · cases h
        exact hclose _ rfl
      · cases h
    · cases h
  cases t with
  | ptr v =>
    cases h
    simp [Ty.bare, hu]
  | int _ | array _ _ => cases h
  | unknown c => exact hopen (fun c' hc => by simp [Ty.bare, hc]) h
  | named name c here =>
    have hclose : ∀ c' : Choice, c'.bare = c.bare → (Ty.named name c' here).bare = (Ty.named name c here).bare := by
      intro c' hc
      simp [Ty.bare, hc]
    exact hopen hclose h

end Peephole.Typing
