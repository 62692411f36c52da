import Mathlib.Data.List.Chain
import Mathlib.Data.List.Nodup
import Mathlib.Data.List.Perm.Subperm
import Peephole.Emit.Names
import Peephole.Proofs.Cpp.Eval

/-!
# Fresh names

A name is made from a hint in several steps, and a number is put behind it until it is not taken.

* `Tries` : the search for a name that is not taken, however long it takes; `tries_choose` : **it ends, and the bounded
  search finds the same name.**
* `Legal` : a name that C++ leaves free; `legal_choose` : **every fresh name is legal, whatever the hint is.**
* `IsIdent` : a name of generated code, as its reader sees it.

A number is put behind names that do not end with an underscore, and no keyword ends with a digit: so neither a keyword
nor two underscores come back after they were removed.
-/

namespace Peephole.Emit

open Cpp

variable {taken : List String} {base x y hint : String} {fuel m n : Nat} {c : Char} {cs : List Char} {s : String}

/-! ### The search -/

/-- The search tries `x` and then `base` with the numbers from `n` on behind it, until a name is not taken.  It ends with
`y`, and `m` is the number it would try next. -/
inductive Tries (taken : List String) (base : String) : String → Nat → String → Nat → Prop
  | stop {x : String} {n : Nat} (h : x ∉ taken) : Tries taken base x n x n
  | next {x y : String} {n m : Nat} (h : x ∈ taken)
    (hrest : Tries taken base (base ++ "_" ++ toString n) (n + 1) y m) : Tries taken base x n y m

theorem Tries.fresh (h : Tries taken base x n y m) : y ∉ taken := by
  induction h with
  | stop h => exact h
  | next _ _ ih => exact ih

theorem Tries.induction {P : String → Prop} (h : Tries taken base x n y m) (hx : P x)
    (hnumber : ∀ k : Nat, P (base ++ "_" ++ toString k)) : P y := by
  induction h with
  | stop => exact hx
  | next _ _ ih => exact ih (hnumber _)

theorem numbered_injective (h : base ++ "_" ++ toString m = base ++ "_" ++ toString n) : m = n := by
  have hsame : m.repr = n.repr := (String.append_right_inj _).1 h
  exact Option.some.inj ((numeral?_repr m).symm.trans (hsame ▸ numeral?_repr n))

/-- There are more numbered names than names that are taken. -/
theorem exists_numbered (taken : List String) (base : String) (n : Nat) :
    ∃ k ≤ taken.length, base ++ "_" ++ toString (n + k) ∉ taken := by
  by_contra! hall
  let names := (List.range (taken.length + 1)).map fun k => base ++ "_" ++ toString (n + k)
  have hsub : names ⊆ taken := by
    intro x hx
    obtain ⟨k, hk, rfl⟩ := List.mem_map.1 hx
    exact hall k (Nat.le_of_lt_succ (List.mem_range.1 hk))
  have hnodup : names.Nodup := List.Nodup.map_on (fun k _ m _ hkm => by
    have := numbered_injective hkm
    omega) List.nodup_range
  have hlen : names.length ≤ taken.length := (hnodup.subperm hsub).length_le
  simp only [names, List.length_map, List.length_range] at hlen
  omega

theorem tries_numbered (h : ∃ k ≤ fuel, base ++ "_" ++ toString (n + k) ∉ taken) :
    Tries taken base (base ++ "_" ++ toString n) (n + 1) (Names.numbered taken base fuel n).1
      (Names.numbered taken base fuel n).2 := by
  induction fuel generalizing n with
  | zero =>
    obtain ⟨k, hk, hfree⟩ := h
    obtain rfl : k = 0 := by omega
    exact .stop hfree
  | succ fuel ih =>
    rw [Names.numbered]
    split
    · next htaken =>
      refine .next (List.contains_iff_mem.1 htaken) (ih ?_)
      obtain ⟨_ | k, hk, hfree⟩ := h
      · exact absurd (List.contains_iff_mem.1 htaken) hfree
      · exact ⟨k, by omega, by rwa [Nat.add_right_comm]⟩
    · next hfree => exact .stop (fun hmem => hfree (List.contains_iff_mem.2 hmem))

/-- A fresh name is found by trying the wanted name, and then the numbers that were not tried before. -/
theorem tries_choose (ns : Names) (hint : String) :
    Tries ns.taken (wantedName hint) (wantedName hint) ns.next (ns.choose hint).1 (ns.choose hint).2.next := by
  unfold Names.choose
  by_cases h : ns.taken.contains (wantedName hint) = true
  · simp only [h, if_true]
    exact .next (List.contains_iff_mem.1 h) (tries_numbered (exists_numbered _ _ _))
  · simp only [h]
    exact .stop fun hmem => h (List.contains_iff_mem.2 hmem)

theorem Names.choose_fresh (ns : Names) (hint : String) : (ns.choose hint).1 ∉ ns.taken := (tries_choose ns hint).fresh

theorem Names.mem_taken_choose {ns : Names} : x ∈ (ns.choose hint).2.taken ↔ x ∈ ns.taken ∨ x = (ns.choose hint).1 := by
  show x ∈ ns.taken ++ [(ns.choose hint).1] ↔ _
  rw [List.mem_append, List.mem_singleton]

/-! ### Legal names -/

/-- Two characters that can follow each other in a name: one of them is no underscore. -/
def Apart (a b : Char) : Prop := ¬(a = '_' ∧ b = '_')

/-- A name that C++ leaves free: letters, digits and underscores with no digit in front, no two underscores together,
and no keyword. -/
structure Legal (s : String) : Prop where
  nonempty : s.toList ≠ []
  chars : ∀ c ∈ s.toList, isIdentChar c = true
  head : ∀ c ∈ s.toList.head?, c.isDigit = false
  single : s.toList.IsChain Apart
  keyword : s ∉ keywords

theorem mem_collapse (h : c ∈ collapse cs) : c ∈ cs := by
  fun_induction collapse cs with
  | case1 cs ih => exact List.mem_cons_of_mem _ (ih h)
  | case2 d cs _ ih =>
    rcases List.mem_cons.1 h with rfl | h
    · exact List.mem_cons_self ..
    · exact List.mem_cons_of_mem _ (ih h)
  | case3 => exact h

theorem head?_collapse (cs : List Char) : (collapse cs).head? = cs.head? := by
  fun_induction collapse cs with
  | case1 cs ih => exact ih
  | case2 | case3 => rfl

theorem isChain_collapse (cs : List Char) : (collapse cs).IsChain Apart := by
  fun_induction collapse cs with
  | case1 cs ih => exact ih
  | case2 c cs hne ih =>
    refine List.isChain_cons.2 ⟨?_, ih⟩
    rintro d hd ⟨rfl, rfl⟩
    rw [head?_collapse] at hd
    exact hne _ rfl (List.eq_cons_of_mem_head? hd)
  | case3 => exact .nil

theorem dropUnderscore_spec (h : cs.IsChain Apart) :
    (dropUnderscore cs).IsChain Apart ∧ (dropUnderscore cs).head? ≠ some '_' ∧ dropUnderscore cs <:+ cs := by
  unfold dropUnderscore
  split
  · obtain ⟨hhead, htail⟩ := List.isChain_cons.1 h
    exact ⟨htail, fun hc => hhead '_' hc ⟨rfl, rfl⟩, List.suffix_cons _ _⟩
  · next hne => exact ⟨h, fun hc => hne _ (List.eq_cons_of_mem_head? hc), List.suffix_refl _⟩

theorem isChain_apart_reverse (h : cs.IsChain Apart) : cs.reverse.IsChain Apart :=
  List.isChain_reverse.2 (h.imp fun _ _ hab hba => hab hba.symm)

/-- What is left of a hint can stand in a name; it has no two underscores together and none at an end. -/
theorem cleanHint_spec (hint : String) : (∀ c ∈ cleanHint hint, isIdentChar c = true) ∧
    (cleanHint hint).IsChain Apart ∧ (cleanHint hint).head? ≠ some '_' ∧ (cleanHint hint).getLast? ≠ some '_' := by
  unfold cleanHint
  obtain ⟨hchain, hhead, hsuffix⟩ := dropUnderscore_spec (isChain_collapse (hint.toList.filter isIdentChar))
  obtain ⟨hchain', hhead', hsuffix'⟩ := dropUnderscore_spec (isChain_apart_reverse hchain)
  refine ⟨fun c hc => ?_, isChain_apart_reverse hchain', fun h => hhead ?_, by rwa [List.getLast?_reverse]⟩
  · have hc' := hsuffix'.subset (List.mem_reverse.1 hc)
    exact (List.mem_filter.1 (mem_collapse (hsuffix.subset (List.mem_reverse.1 hc')))).2
  · obtain ⟨cs, hcs⟩ := List.reverse_prefix.2 hsuffix'
    rw [List.reverse_reverse] at hcs
    rw [← hcs, List.head?_append, h]
    rfl

/-- No keyword begins with an underscore or ends with a digit. -/
theorem keywords_ends : keywords.all (fun k => k.toList.head? != some '_' &&
    k.toList.getLast?.all fun c => !c.isDigit) = true := by
  decide

theorem legal_wantedName (hint : String) :
    Legal (wantedName hint) ∧ (wantedName hint).toList.getLast? ≠ some '_' := by
  unfold wantedName
  split
  · exact ⟨⟨by decide, List.all_eq_true.1 (by decide), by simp, by simp, by decide⟩, by decide⟩
  · next c cs hclean =>
    obtain ⟨hall, hchain, hhead, hlast⟩ := hclean ▸ cleanHint_spec hint
    have htext : (String.ofList (c :: cs)).toList = c :: cs := String.toList_ofList
    dsimp only
    split
    · -- An underscore stands in front of a digit and in front of a keyword.
      have hline : ("_" ++ String.ofList (c :: cs)).toList = '_' :: c :: cs := by
        rw [String.toList_append, htext]
        rfl
      generalize "_" ++ String.ofList (c :: cs) = s at hline
      refine ⟨⟨by simp [hline], ?_, ?_, ?_, fun h => ?_⟩, ?_⟩
      · exact hline ▸ List.forall_mem_cons.2 ⟨by decide, hall⟩
      · rw [hline]
        exact fun d hd => Option.some.inj hd ▸ rfl
      · rw [hline]
        exact List.isChain_cons.2 ⟨fun d hd hdc => hhead (hdc.2 ▸ hd), hchain⟩
      · have := List.all_eq_true.1 keywords_ends _ h
        simp [hline] at this
      · rw [hline]
        simpa using hlast
    · next hplain =>
      simp only [Bool.or_eq_true, not_or, List.contains_iff_mem, Bool.not_eq_true] at hplain
      refine ⟨⟨by simp, by rwa [htext], ?_, by rwa [htext], hplain.2⟩, by rwa [htext]⟩
      rw [htext]
      exact fun d hd => Option.some.inj hd ▸ hplain.1

/-- A number may stand behind a name that does not end with an underscore. -/
theorem Legal.numbered (hs : Legal s) (hlast : s.toList.getLast? ≠ some '_') (n : Nat) :
    Legal (s ++ "_" ++ toString n) := by
  have htext : (s ++ "_" ++ toString n).toList = s.toList ++ '_' :: Nat.toDigits 10 n := by simp
  have hdigit : ∀ c ∈ Nat.toDigits 10 n, c.isDigit = true := fun c hc =>
    Nat.isDigit_of_mem_toDigits (by omega) (by omega) hc
  have hne : Nat.toDigits 10 n ≠ [] := Nat.toDigits_ne_nil
  generalize Nat.toDigits 10 n = ds, s ++ "_" ++ toString n = s' at htext hdigit hne
  refine ⟨by simp [htext], ?_, ?_, ?_, fun h => ?_⟩
  · rw [htext]
    refine List.forall_mem_append.2 ⟨hs.chars, List.forall_mem_cons.2 ⟨by decide, fun c hc => ?_⟩⟩
    simp [isIdentChar, Char.isAlphanum, hdigit c hc]
  · rw [htext, List.head?_append_of_ne_nil _ hs.nonempty]
    exact hs.head
  · have hapart : ∀ a, ∀ b ∈ ds, Apart a b := by
      rintro a b hb ⟨-, rfl⟩
      exact absurd (hdigit _ hb) (by decide)
    rw [htext]
    refine List.isChain_append.2 ⟨hs.single, ?_, fun a ha b _ hab => hlast (hab.1 ▸ ha)⟩
    exact (List.pairwise_cons.2 ⟨hapart _, List.pairwise_of_forall_mem_list fun a _ b => hapart a b⟩).isChain
  · have hend := List.all_eq_true.1 keywords_ends _ h
    rw [htext, List.getLast?_append_of_ne_nil _ (List.cons_ne_nil _ _), List.getLast?_cons_of_ne_nil hne,
      List.getLast?_eq_some_getLast hne] at hend
    simp [hdigit] at hend

/-- Every fresh name is legal. -/
theorem legal_choose (ns : Names) (hint : String) : Legal (ns.choose hint).1 := by
  obtain ⟨hlegal, hlast⟩ := legal_wantedName hint
  exact (tries_choose ns hint).induction hlegal (hlegal.numbered hlast)

theorem Names.no_colon_choose (ns : Names) (hint : String) : ':' ∉ (ns.choose hint).1.toList := fun h =>
  absurd ((legal_choose ns hint).chars _ h) (by decide)

/-! ### Identifiers -/

/-- A name of generated code: letters, digits and underscores, and no digit in front. -/
def IsIdent (s : String) : Prop := IsWord s ∧ ∀ c ∈ s.toList.head?, c.isDigit = false

/-- Every fresh name is an identifier. -/
theorem isIdent_choose (ns : Names) (hint : String) : IsIdent (ns.choose hint).1 := by
  have hlegal := legal_choose ns hint
  refine ⟨⟨hlegal.nonempty, fun c hc => ?_⟩, hlegal.head⟩
  rw [isWordChar, ← isIdentChar, hlegal.chars c hc, Bool.true_or]

end Peephole.Emit
