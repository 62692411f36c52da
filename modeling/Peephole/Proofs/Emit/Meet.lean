import Mathlib.Data.Set.Basic
import Peephole.Emit.Types

/-!
# Combined requirements

A requirement stands for the concrete types that meet it.  For types without arrays, combining two requirements is
their meet: the result stands for the types that meet both, and there is an error if there are none.

* `meet_unsupported` : the only errors are those of types that exclude each other.
* `meaning_both` : **the meaning of a combination is the intersection of the meanings**, an error meaning no type.
* `meet_laws` : so the combination is idempotent, commutative and associative in meaning, and the outcome for several
  types does not depend on their order.
-/

namespace Peephole.Emit

open Program

variable {α β : Type} {a b t : Ty} {c d : Choice} {x y z : Except Error Ty}

/-! ### Errors -/

/-- All errors are about something that is not supported. -/
def Unsupported (r : Except Error α) : Prop := ∀ e, r = .error e → ∃ s, e = .unsupported s

@[simp] theorem unsupported_ok (a : α) : Unsupported (.ok a) := fun _ h => by cases h

@[simp] theorem unsupported_incomparable (a b : Ty) : Unsupported (incomparable a b : Except Error α) := by
  intro e h
  cases h
  exact ⟨_, rfl⟩

theorem Unsupported.bind {r : Except Error α} {f : α → Except Error β} (hr : Unsupported r)
    (hf : ∀ a, Unsupported (f a)) : Unsupported (r >>= f) := by
  cases r with
  | error e =>
    intro e' h
    cases h
    exact hr e rfl
  | ok a => exact hf a

theorem Unsupported.then_ok {r : Except Error α} {f : α → β} (hr : Unsupported r) :
    Unsupported (r >>= fun a => .ok (f a)) :=
  hr.bind fun a => unsupported_ok (f a)

theorem unsupported_meetWidths (v w : Option Nat) : Unsupported (meetWidths v w) := by
  unfold meetWidths
  repeat' split
  all_goals simp

theorem unsupported_meetInt (t : Ty) : Unsupported (meetInt t) := by
  unfold meetInt
  repeat' split
  all_goals simp

theorem unsupported_meetChoices (a b : Ty) (c d : Choice) : Unsupported (meetChoices a b c d) := by
  simp only [meetChoices, pure_bind]
  split
  · refine (unsupported_meetWidths _ _).bind fun u => ?_
    split <;> simp [pure, Except.pure]
  · split <;> simp [pure, Except.pure]

theorem unsupported_meetOpen (a : Ty) (c : Choice) (b : Ty) : Unsupported (meetOpen a c b) := by
  unfold meetOpen
  repeat' split
  all_goals first
    | exact (unsupported_meetWidths _ _).then_ok
    | exact (unsupported_meetInt _).then_ok
    | exact (unsupported_meetChoices _ _ _ _).then_ok
    | simp

theorem meet_unsupported (a b : Ty) : Unsupported (meet a b) := by
  fun_induction meet a b with
  | case1 | case2 => exact unsupported_meetOpen _ _ _
  | case3 | case4 => exact (unsupported_meetOpen _ _ _).then_ok
  | case5 => exact (unsupported_meetWidths _ _).then_ok
  | case6 a b ih => exact ih.then_ok
  | case7 | case8 => simp

/-! ### Meaning -/

/-- A type of which everything is known. -/
inductive Concrete where
  | int (width : Nat)
  | ptr (pointee : Concrete)

/-- The concrete type meets the requirement. -/
def Admits : Ty → Concrete → Prop
  | .int v, .int n => ∀ m ∈ v, m = n
  | .ptr t, .ptr d => Admits t d
  | .unknown c, .int n => ∃ v ∈ c.int, ∀ m ∈ v, m = n
  | .unknown c, .ptr (.int _) => c.ptr = true
  | _, _ => False

/-- A type without arrays, whose open parts offer integers of open width, pointers to these, or both. -/
def Arrayless : Ty → Prop
  | .int _ => True
  | .ptr t => Arrayless t
  | .unknown c => c.array = none ∧ (c.int = some none ∨ c.int = none ∧ c.ptr = true)
  | _ => False

/-- The concrete types that an outcome stands for; an error stands for none. -/
def meaning : Except Error Ty → Set Concrete
  | .ok t => {d | Admits t d}
  | .error _ => ∅

/-- An outcome of combining types without arrays. -/
def Proper (x : Except Error Ty) : Prop := Unsupported x ∧ ∀ t, x = .ok t → Arrayless t

/-- The combination of two outcomes. -/
def both (x y : Except Error Ty) : Except Error Ty := do return (← meet (← x) (← y)).1

/-- The combination of several types. -/
def meetAll (t : Ty) (ts : List Ty) : Except Error Ty := ts.foldl (fun x u => both x (.ok u)) (.ok t)

theorem exists_admits (h : Arrayless t) : ∃ d, Admits t d := by
  induction t with
  | int v =>
    cases v with
    | none => exact ⟨.int 0, by simp [Admits]⟩
    | some n => exact ⟨.int n, by simp [Admits]⟩
  | ptr t ih =>
    obtain ⟨d, hd⟩ := ih h
    exact ⟨.ptr d, hd⟩
  | unknown c =>
    obtain ⟨-, hint | ⟨-, hptr⟩⟩ := h
    · exact ⟨.int 0, none, hint, by simp⟩
    · exact ⟨.ptr (.int 0), hptr⟩
  | array | named => cases h

/-- There is an error exactly if nothing is meant. -/
theorem raises_iff (hx : Proper x) : (∃ s, x = .error (.unsupported s)) ↔ meaning x = ∅ := by
  cases x with
  | error e =>
    obtain ⟨s, rfl⟩ := hx.1 e rfl
    simp [meaning]
  | ok t =>
    obtain ⟨d, hd⟩ := exists_admits (hx.2 t rfl)
    have hne : meaning (.ok t) ≠ ∅ := Set.Nonempty.ne_empty ⟨d, hd⟩
    simp [hne]

/-- The outcome stands for the types that meet both requirements. -/
def Meets (a b : Ty) : Except Error Ty → Prop
  | .ok t => Arrayless t ∧ ∀ d, Admits t d ↔ Admits a d ∧ Admits b d
  | .error _ => ∀ d, ¬(Admits a d ∧ Admits b d)

theorem Meets.symm (h : Meets a b x) : Meets b a x := by
  cases x with
  | error => exact fun d hd => h d hd.symm
  | ok t => exact ⟨h.1, fun d => (h.2 d).trans and_comm⟩

theorem meets_widths (v w : Option Nat) : Meets (.int v) (.int w) (.int <$> meetWidths v w) := by
  cases v with
  | none => exact ⟨trivial, fun d => by cases d <;> simp [Admits]⟩
  | some m =>
    cases w with
    | none => exact ⟨trivial, fun d => by cases d <;> simp [Admits]⟩
    | some n =>
      by_cases h : m = n
      · subst h
        simp only [meetWidths, if_true]
        exact ⟨trivial, fun d => by cases d <;> simp [Admits]⟩
      · simp only [meetWidths, h, if_false]
        intro d
        cases d <;> simp [Admits]
        omega

/-- Integers of open width meet what an open type offers of them. -/
theorem meets_int (ht : Arrayless t) : Meets (.int none) t (meetInt t) := by
  cases t with
  | int w => exact ⟨trivial, fun d => by cases d <;> simp [Admits]⟩
  | ptr t =>
    intro d
    cases d <;> simp [Admits]
  | unknown c =>
    obtain ⟨-, hint | ⟨hint, -⟩⟩ := ht
    · simp only [meetInt, hint]
      exact ⟨trivial, fun d => by cases d <;> simp [Admits, hint]⟩
    · simp only [meetInt, hint]
      intro d
      cases d <;> simp [Admits, hint]
  | array | named => cases ht

theorem Meets.ptr (h : Meets a b x) : Meets (.ptr a) (.ptr b) (.ptr <$> x) := by
  cases x with
  | error =>
    intro d
    cases d with
    | int => simp [Admits]
    | ptr d => exact h d
  | ok t =>
    refine ⟨h.1, fun d => ?_⟩
    cases d with
    | int => simp [Admits]
    | ptr d => exact h.2 d

/-- Of the first type only what the second admits matters. -/
theorem Meets.congr {a' : Ty} (h : Meets a b x) (hsame : ∀ d, Admits b d → (Admits a d ↔ Admits a' d)) :
    Meets a' b x := by
  have hboth (d : Concrete) : Admits a' d ∧ Admits b d ↔ Admits a d ∧ Admits b d :=
    and_congr_left fun hd => (hsame d hd).symm
  cases x with
  | error => exact fun d hd => h d ((hboth d).1 hd)
  | ok t => exact ⟨h.1, fun d => (h.2 d).trans (hboth d).symm⟩

theorem Meets.with_origin {r : Except Error α} {f : α → Ty} {o : α → Origin} (h : Meets a b (f <$> r)) :
    Meets a b (Prod.fst <$> (r >>= fun s => pure (f s, o s))) := by
  cases r <;> exact h

theorem meets_choices (hc : Arrayless (.unknown c)) (hd : Arrayless (.unknown d)) :
    Meets (.unknown c) (.unknown d) (meetChoices a b c d) := by
  obtain ⟨cint, cptr, carray, cchosen⟩ := c
  obtain ⟨dint, dptr, darray, dchosen⟩ := d
  obtain ⟨rfl, hc⟩ := hc
  obtain ⟨rfl, hd⟩ := hd
  -- The kinds that both offer decide what remains: nothing, one type, or a choice.
  rcases hc with rfl | ⟨rfl, rfl⟩ <;> rcases hd with rfl | ⟨rfl, rfl⟩
  · cases cptr <;> cases dptr
    all_goals exact ⟨by simp [Arrayless], fun e => by rcases e with _ | (_ | _) <;> simp [Admits]⟩
  · cases cptr
    · exact fun e => by rcases e with _ | (_ | _) <;> simp [Admits]
    · exact ⟨trivial, fun e => by rcases e with _ | (_ | _) <;> simp [Admits]⟩
  · cases dptr
    · exact fun e => by rcases e with _ | (_ | _) <;> simp [Admits]
    · exact ⟨trivial, fun e => by rcases e with _ | (_ | _) <;> simp [Admits]⟩
  · exact ⟨trivial, fun e => by rcases e with _ | (_ | _) <;> simp [Admits]⟩

theorem meets_open (hc : Arrayless (.unknown c)) (hb : Arrayless b) :
    Meets (.unknown c) b (Prod.fst <$> meetOpen a c b) := by
  cases b with
  | int w =>
    obtain ⟨-, hint | ⟨hint, -⟩⟩ := hc
    · simp only [meetOpen, hint]
      refine ((meets_widths none w).congr fun d _ => ?_).with_origin
      cases d <;> simp_all [Admits]
    · simp only [meetOpen, hint]
      exact fun d => by cases d <;> simp [Admits, hint]
  | ptr t =>
    by_cases h : c.ptr = true
    · rw [meetOpen, if_pos h]
      refine ((meets_int (t := t) hb).ptr.congr fun d _ => ?_).with_origin
      rcases d with _ | (_ | _) <;> simp_all [Admits]
    · rw [meetOpen, if_neg h]
      exact fun d => by rcases d with _ | (_ | _) <;> simp [Admits, h]
  | unknown d =>
    have h := meets_choices (a := a) (b := .unknown d) hc hb
    rw [← id_map (meetChoices a (.unknown d) c d)] at h
    exact h.with_origin
  | array | named => cases hb

theorem meets (ha : Arrayless a) (hb : Arrayless b) : Meets a b (Prod.fst <$> meet a b) := by
  induction a generalizing b with
  | int v =>
    cases b with
    | int w => exact (meets_widths v w).with_origin
    | ptr t => exact fun d => by cases d <;> simp [Admits]
    | unknown d => exact (meets_open (b := .int v) hb ha).symm.with_origin
    | array | named => cases hb
  | ptr t ih =>
    cases b with
    | int w => exact fun d => by cases d <;> simp [Admits]
    | ptr u =>
      have h := (ih (b := u) ha hb).ptr
      rw [← comp_map] at h
      exact h.with_origin
    | unknown d => exact (meets_open (b := .ptr t) hb ha).symm.with_origin
    | array | named => cases hb
  | unknown c => exact meets_open ha hb
  | array | named => cases ha

/-! ### Combinations -/

/-- The meaning of a combination is the intersection of the meanings. -/
theorem meaning_both (hx : Proper x) (hy : Proper y) :
    Proper (both x y) ∧ meaning (both x y) = meaning x ∩ meaning y := by
  cases x with
  | error e => exact ⟨hx, (Set.empty_inter _).symm⟩
  | ok a =>
    cases y with
    | error e => exact ⟨hy, (Set.inter_empty _).symm⟩
    | ok b =>
      have hm := meets (hx.2 a rfl) (hy.2 b rfl)
      have hu := (meet_unsupported a b).then_ok (f := Prod.fst)
      change Proper (meet a b >>= fun r => .ok r.1) ∧ meaning (meet a b >>= fun r => .ok r.1) = _
      cases h : meet a b with
      | error e =>
        rw [h] at hm hu
        exact ⟨⟨hu, fun t ht => by cases ht⟩, (Set.eq_empty_of_forall_notMem hm).symm⟩
      | ok r =>
        rw [h] at hm hu
        refine ⟨⟨hu, fun t ht => ?_⟩, Set.ext hm.2⟩
        cases ht
        exact hm.1

theorem proper_ok (h : Arrayless t) : Proper (.ok t) :=
  ⟨unsupported_ok t, fun u hu => by cases hu; exact h⟩

/-- A combination of several types stands for what meets all of them. -/
theorem meaning_meetAll {t : Ty} {ts : List Ty} (h : ∀ u ∈ t :: ts, Arrayless u) :
    Proper (meetAll t ts) ∧ meaning (meetAll t ts) = {d | ∀ u ∈ t :: ts, Admits u d} := by
  -- The combination of a first part of the list is any outcome at all.
  have step (ts : List Ty) (hts : ∀ u ∈ ts, Arrayless u) (x : Except Error Ty) (hx : Proper x) :
      Proper (ts.foldl (fun x u => both x (.ok u)) x) ∧
      meaning (ts.foldl (fun x u => both x (.ok u)) x) = meaning x ∩ {d | ∀ u ∈ ts, Admits u d} := by
    induction ts generalizing x with
    | nil => exact ⟨hx, by simp⟩
    | cons u ts ih =>
      obtain ⟨hu, hts⟩ := List.forall_mem_cons.1 hts
      obtain ⟨hp, hm⟩ := meaning_both hx (proper_ok hu)
      obtain ⟨hp', hm'⟩ := ih hts _ hp
      refine ⟨hp', hm'.trans ?_⟩
      rw [hm, Set.inter_assoc]
      simp [meaning, Set.inter_def]
  obtain ⟨ht, hts⟩ := List.forall_mem_cons.1 h
  obtain ⟨hp, hm⟩ := step ts hts (.ok t) (proper_ok ht)
  exact ⟨hp, hm.trans (by simp [meaning, Set.inter_def])⟩

/-- The combination is the meet: an outcome stands for what both sides stand for, and is an error exactly if that is
nothing.  So repetition, order and grouping do not matter, and neither does the order of a list of types. -/
theorem meet_laws {t u : Ty} {ts us : List Ty} (hx : Proper x) (hy : Proper y) (hz : Proper z)
    (h : ∀ v ∈ t :: ts, Arrayless v) (hperm : (t :: ts).Perm (u :: us)) :
    meaning (both x y) = meaning x ∩ meaning y ∧
    ((∃ s, both x y = .error (.unsupported s)) ↔ meaning x ∩ meaning y = ∅) ∧
    meaning (both x x) = meaning x ∧
    meaning (both x y) = meaning (both y x) ∧
    meaning (both (both x y) z) = meaning (both x (both y z)) ∧
    meaning (meetAll t ts) = meaning (meetAll u us) ∧
    ((∃ s, meetAll t ts = .error (.unsupported s)) ↔ ∃ s, meetAll u us = .error (.unsupported s)) := by
  obtain ⟨hxy, hxy'⟩ := meaning_both hx hy
  obtain ⟨hyz, hyz'⟩ := meaning_both hy hz
  have hfold := meaning_meetAll h
  have hfold' := meaning_meetAll fun v hv => h v (hperm.mem_iff.2 hv)
  have hsame : meaning (meetAll t ts) = meaning (meetAll u us) := by
    rw [hfold.2, hfold'.2]
    exact Set.ext fun d => forall_congr' fun v => by rw [hperm.mem_iff]
  refine ⟨hxy', hxy' ▸ raises_iff hxy, ?_, ?_, ?_, hsame, ?_⟩
  · rw [(meaning_both hx hx).2, Set.inter_self]
  · rw [hxy', (meaning_both hy hx).2, Set.inter_comm]
  · rw [(meaning_both hxy hz).2, (meaning_both hx hyz).2, hxy', hyz', Set.inter_assoc]
  · rw [raises_iff hfold.1, raises_iff hfold'.1, hsame]

/-- Integers of any width, and pointers to them. -/
def intOrPtr : Ty := .unknown ⟨some none, true, none, none⟩

/-- Of integers or pointers, pointers to integers and pointers to bytes the last remain, in any order; no type is a
pointer to bytes and an integer. -/
theorem meet_laws_pointers :
    meetAll intOrPtr [.ptr (.int none), .ptr (.int (some 8))] = .ok (.ptr (.int (some 8))) ∧
    meaning (meetAll intOrPtr [.ptr (.int none), .ptr (.int (some 8))]) =
      meaning (meetAll (.ptr (.int (some 8))) [.ptr (.int none), intOrPtr]) ∧
    ∃ s, both (.ok (.ptr (.int (some 8)))) (.ok (.int none)) = .error (.unsupported s) := by
  have hbyte : Proper (.ok (.ptr (.int (some 8)))) := proper_ok trivial
  have hint : Proper (.ok (.int none)) := proper_ok trivial
  have hperm : [intOrPtr, .ptr (.int none), .ptr (.int (some 8))].Perm
      [.ptr (.int (some 8)), .ptr (.int none), intOrPtr] := by decide
  obtain ⟨-, hraise, -, -, -, hfold, -⟩ := meet_laws hbyte hint hint (by simp [Arrayless, intOrPtr]) hperm
  refine ⟨rfl, hfold, hraise.2 (Set.eq_empty_of_forall_notMem fun d hd => ?_)⟩
  cases d <;> simp [meaning, Admits] at hd

end Peephole.Emit
