import Peephole.Elaborate.Optimization
import Peephole.Proofs.Reader.Part

/-!
# Where an error is shown

An error shows a line of the text and a mark under a column of it.

* `isLine_lineStart` : the line of a place runs from the line break in front of it to the next one.
* `lineNumber_cutPart` : lines that are counted in a part of the text are lines of the whole text.
* `mark_of_readNumbered` : **an error shows the line that its place is in and the number of this line in the text.  The
  mark for a phrase that is refused stands under the place; the mark for a text that cannot be read stands one column
  behind it**, or in the second column if the place is at a line break.
-/

namespace Peephole.Elaborate

open Peephole.Reader Peephole.Text

variable {t : Chars} {p : Nat} {e : ReadError}

/-- The line that a place is in runs from `start` to `stop`. -/
structure IsLine (t : Chars) (p start stop : Nat) : Prop where
  start_le : start ≤ p
  le_stop : p ≤ stop
  stop_le : stop ≤ t.size
  inside : ∀ j, start ≤ j → j < stop → t[j]? ≠ some '\n'
  opened : start = 0 ∨ t[start - 1]? = some '\n'
  closed : stop = t.size ∨ t[stop]? = some '\n'

/-- What the search for the start of the last line of a list finds. -/
theorem lastLine_spec (cs : List Char) :
    ∃ s, cs.foldl (fun (s : Nat × Nat) c => (s.1 + 1, if c = '\n' then s.1 + 1 else s.2)) (0, 0) = (cs.length, s) ∧
      s ≤ cs.length ∧ (∀ j, s ≤ j → cs[j]? ≠ some '\n') ∧ (s = 0 ∨ cs[s - 1]? = some '\n') := by
  induction cs using List.reverseRecOn with
  | nil => exact ⟨0, rfl, Nat.le_refl 0, by simp, .inl rfl⟩
  | append_singleton cs c ih =>
    obtain ⟨s, hs, hle, hinside, hopened⟩ := ih
    rw [List.foldl_append, hs]
    by_cases hc : c = '\n'
    · refine ⟨cs.length + 1, by simp [hc], by simp, fun j hj => ?_, .inr (by simp [hc])⟩
      rw [List.getElem?_eq_none (by simpa using hj)]
      simp
    · refine ⟨s, by simp [hc], by simp; omega, fun j hj => ?_, hopened.imp_right fun h => ?_⟩
      · have := hinside j hj
        grind
      · grind

/-- What the search for the end of the first line of a list finds. -/
theorem firstLine_spec (cs : List Char) : (cs.takeWhile (· ≠ '\n')).length ≤ cs.length ∧
    (∀ j < (cs.takeWhile (· ≠ '\n')).length, cs[j]? ≠ some '\n') ∧
    ((cs.takeWhile (· ≠ '\n')).length = cs.length ∨ cs[(cs.takeWhile (· ≠ '\n')).length]? = some '\n') := by
  induction cs with
  | nil => simp
  | cons c cs ih =>
    obtain ⟨hle, hinside, hclosed⟩ := ih
    by_cases hc : c = '\n'
    · simp [hc]
    · rw [List.takeWhile_cons_of_pos (by simpa using hc)]
      refine ⟨Nat.succ_le_succ hle, fun j hj => ?_, by simpa using hclosed⟩
      cases j with
      | zero => simpa using hc
      | succ j => exact hinside j (Nat.lt_of_succ_lt_succ hj)

theorem isLine_lineStart (h : p ≤ t.size) : IsLine t p (lineStart t p) (lineStop t p) := by
  obtain ⟨s, hs, hle, hinside, hopened⟩ := lastLine_spec (t.extract 0 p).toList
  obtain ⟨hle', hinside', hclosed⟩ := firstLine_spec (t.extract p t.size).toList
  have hstart : lineStart t p = s := congrArg Prod.snd hs
  simp only [Array.length_toList, Array.size_extract, Array.getElem?_toList, Array.getElem?_extract] at *
  refine ⟨by omega, Nat.le_add_right _ _, by unfold lineStop; omega, fun j hj hlt => ?_, ?_, ?_⟩
  · rw [hstart] at hj
    by_cases hjp : j < p
    · have := hinside j hj
      grind
    · have := hinside' (j - p) (by unfold lineStop at hlt; omega)
      grind
  · rw [hstart]
    grind
  · unfold lineStop
    grind

theorem extract_min (t : Chars) (a p : Nat) : t.extract a (min p t.size) = t.extract a p := by
  apply Array.ext_getElem?
  intro i
  simp only [Array.getElem?_extract]
  grind

theorem lineStart_min (t : Chars) (p : Nat) : lineStart t (min p t.size) = lineStart t p := by
  rw [lineStart, extract_min, lineStart]

/-- Behind the end of the text a place is in the last line. -/
theorem lineAt_eq (t : Chars) (p : Nat) :
    lineAt t p = slice t (lineStart t (min p t.size)) (lineStop t (min p t.size)) := by
  rw [lineAt, lineStart_min]
  by_cases h : p ≤ t.size
  · rw [Nat.min_eq_left h]
  · have hnone (q : Nat) (hq : t.size ≤ q) : lineStop t q = q := by simp [lineStop, hq]
    rw [hnone p (by omega), hnone (min p t.size) (by omega), slice, slice, extract_min]

/-! ### Parts -/

/-- The part of the text from `a` to `b`, with the lines in front of it. -/
def cutPart (t : Chars) (a b : Nat) : Part := ⟨t.extract a b, lineNumber t a - 1⟩

theorem lineNumber_cutPart (t : Chars) (a b p : Nat) :
    (cutPart t a b).linesBefore + lineNumber (cutPart t a b).text p =
      lineNumber t (a + min p (cutPart t a b).text.size) := by
  have hcut : (t.extract 0 (a + min p (t.extract a b).size)).toList =
      (t.extract 0 a).toList ++ ((t.extract a b).extract 0 p).toList := by
    apply List.ext_getElem?
    intro i
    simp only [List.getElem?_append, Array.getElem?_toList, Array.getElem?_extract, Array.length_toList]
    grind
  simp only [cutPart, lineNumber, hcut, List.countP_append]
  omega

def ReadError.part : ReadError → Part
  | unreadable _ part _ _ | refused part _ _ => part

def ReadError.place : ReadError → Nat
  | unreadable _ _ p _ | refused _ p _ => p

theorem partOf_slice (t : Chars) (a b : Nat) : partOf t ⟨a, slice t a b⟩ = cutPart t a b := by
  simp only [partOf, cutPart, chars, slice, String.toList_ofList, Array.toArray_toList]

/-- All parts of an optimization are cut from the text. -/
theorem cutPart_of_reads {o : Parts} {q : Nat} (h : Reads t p o q) {x : Excerpt}
    (hx : x = o.source ∨ x = o.target ∨ x = o.pre.getD ⟨0, ""⟩) : ∃ a b, partOf t x = cutPart t a b := by
  cases h with
  | intro hcomments hname hcomments' hpre =>
    rcases hx with rfl | rfl | rfl
    · exact ⟨_, _, partOf_slice t _ _⟩
    · exact ⟨_, _, partOf_slice t _ _⟩
    · cases hpre with
      | present => exact ⟨_, _, partOf_slice t _ _⟩
      | absent =>
        have hnone : slice t 0 0 = "" := by simp [slice]
        exact ⟨0, 0, hnone ▸ partOf_slice t 0 0⟩

theorem part_of_readPart {α : Type} {part : Part} {r : Reply Step α} {s : Session} (h : readPart part r s = .error e) :
    e.part = part := by
  unfold readPart at h
  repeat' split at h
  all_goals
    cases h
    try rfl

theorem error_of_bind {α β : Type} {x : Except ReadError α} {f : α → Except ReadError β} (h : x >>= f = .error e) :
    x = .error e ∨ ∃ a, f a = .error e := by
  cases x with
  | error =>
    cases h
    exact .inl rfl
  | ok a => exact .inr ⟨a, h⟩

theorem part_of_readOptimization {number q q' : Nat} {o : Parts} (hread : Reads t q o q')
    (h : readOptimization t number p o = .error e) : ∃ a b, e.part = cutPart t a b := by
  unfold readOptimization at h
  rcases error_of_bind h with h | ⟨_, h⟩
  · exact part_of_readPart h ▸ cutPart_of_reads hread (.inl rfl)
  rcases error_of_bind h with h | ⟨_, h⟩
  · exact part_of_readPart h ▸ cutPart_of_reads hread (.inr (.inl rfl))
  rcases error_of_bind h with h | ⟨_, h⟩
  · exact part_of_readPart h ▸ cutPart_of_reads hread (.inr (.inr rfl))
  cases h

theorem part_of_readAll {number : Nat} {os : List Parts} (hos : ∀ o ∈ os, ∃ p q, Reads t p o q)
    (h : readAll t number p os = .error e) : ∃ a b, e.part = cutPart t a b := by
  induction os generalizing number p with
  | nil => cases h
  | cons o os ih =>
    obtain ⟨⟨_, _, hread⟩, hos⟩ := List.forall_mem_cons.1 hos
    rw [readAll] at h
    rcases error_of_bind h with h | ⟨_, h⟩
    · exact part_of_readOptimization hread h
    rcases error_of_bind h with h | ⟨_, h⟩
    · exact ih hos h
    cases h

theorem exists_reads {o : Parts} (h : o ∈ (readFile t).steps) : ∃ p q, Reads t p o q := by
  by_cases hfirst : ∃ o q, Reads t 0 o q
  · obtain ⟨o₀, q, hread⟩ := hfirst
    obtain ⟨os, e, hall, hsteps, -⟩ := readFile_of_reads hread
    rw [hsteps] at h
    replace hall : ReadsAll t 0 (o₀ :: os) e := .cons hread hall
    clear hsteps hread
    generalize o₀ :: os = os, 0 = p at h hall
    induction hall with
    | nil => cases h
    | @cons p q _ o' os hread _ ih =>
      rcases List.mem_cons.1 h with rfl | h
      · exact ⟨p, q, hread⟩
      · exact ih h
  · obtain ⟨hsteps, hout⟩ := @optimization_of_not_reads t true false 0 fun o q hread => hfirst ⟨o, q, hread⟩
    have hnone : (readFile t).steps = [] := by
      rw [readFile_eq]
      simp only [Rule.first, Rule.many1, start_false, Reply.andThen]
      cases h : (optimization.read t true false 0).outcome with
      | matched u q => exact absurd h (hout u q)
      | failed | overrun => simp [Reply.closed, hsteps]
    rw [hnone] at h
    cases h

/-- What an error shows. -/
theorem mark_of_readNumbered {first : Nat} {text : String} (h : readNumbered first text = .error e) :
    ∃ a b start stop,
      e.part.text = (expandTabs (chars text)).extract a b ∧
      IsLine e.part.text (min e.place e.part.text.size) start stop ∧
      (∀ inside part p message, e = .unreadable inside part p message →
        e.excerpt = Text.excerpt message (slice part.text start stop)
          (lineNumber (expandTabs (chars text)) (a + min p part.text.size))
          (if part.text[p]? = some '\n' then 1 else p + 1 - start)) ∧
      (∀ part p message, e = .refused part p (.rejected message none) →
        e.excerpt = Text.excerpt message (slice part.text start stop)
          (lineNumber (expandTabs (chars text)) (a + min p part.text.size)) (p - start)) := by
  have hpart : ∃ a b, e.part = cutPart (expandTabs (chars text)) a b := by
    unfold readNumbered at h
    dsimp only at h
    rcases error_of_bind h with h | ⟨_, h⟩
    · exact part_of_readAll (fun _ => exists_reads) h
    · have hwhole (t : Chars) : (⟨t, 0⟩ : Part) = cutPart t 0 t.size := by simp [cutPart, lineNumber]
      split at h
      · cases h
      all_goals
        cases h
        exact ⟨_, _, hwhole _⟩
  obtain ⟨a, b, hpart⟩ := hpart
  refine ⟨a, b, _, _, congrArg Part.text hpart, isLine_lineStart (Nat.min_le_right _ _), ?_, ?_⟩
  · rintro inside part p message rfl
    obtain rfl : part = _ := hpart
    rw [ReadError.excerpt, lineAt_eq, lineNumber_cutPart]
    simp only [column, ReadError.place, ReadError.part, lineStart_min]
  · rintro part p message rfl
    obtain rfl : part = _ := hpart
    rw [ReadError.excerpt, lineAt_eq, lineNumber_cutPart]
    simp only [ReadError.place, ReadError.part, lineStart_min]
    rfl

/-- A target with a comma that cannot be read, at the place 7 of its only line. -/
def extraComma : String := "%r = add %x, 1\n=>\n%r = %x, 3\n"

/-- The error of a run, if it ends with one. -/
def failure? {α : Type} : Except ReadError α → Option ReadError
  | .ok _ => none
  | .error e => some e

/-- The comma is at the place 7, and the mark is behind 8 blanks. -/
theorem mark_of_extraComma : ∃ e start stop, readNumbered 1 extraComma = .error e ∧ e.place = 7 ∧
    IsLine e.part.text 7 start stop ∧
    e.excerpt = "ERROR: Expected end of text (line: 3)\n%r = %x, 3\n        ^" := by
  have hrun : (failure? (readNumbered 1 extraComma)).map (fun e => (e.place, e.part.text.size, e.excerpt)) =
      some (7, 10, "ERROR: Expected end of text (line: 3)\n%r = %x, 3\n        ^") := by decide +kernel
  cases h : readNumbered 1 extraComma with
  | ok =>
    rw [h] at hrun
    cases hrun
  | error e =>
    rw [h] at hrun
    simp only [failure?, Option.map_some, Option.some.injEq, Prod.mk.injEq] at hrun
    obtain ⟨hplace, hsize, hexcerpt⟩ := hrun
    obtain ⟨a, b, start, stop, -, hline, -⟩ := mark_of_readNumbered h
    rw [hplace, hsize] at hline
    exact ⟨e, start, stop, rfl, hplace, hline, hexcerpt⟩

end Peephole.Elaborate
