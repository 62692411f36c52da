import Mathlib.Data.List.TakeWhile
import Peephole.Cpp.Syntax

/-!
# Tokens of C++ expressions

A text is read from the left, and each token is as long as possible: `--x` begins with the mark `--` and not with two
signs.  A template argument directly behind a name belongs to it, as in `isa<IntegerType>`.

* `tokens` : the tokens of a text.
* `Spells` : a text is made of the given tokens, each of which ends where the reader ends it.
* `tokens_of_spells` : **a text that spells tokens is read as these tokens.**
-/

namespace Peephole.Cpp

/-- A token: a name or a number, or a mark. -/
inductive Token where
  | word (s : String)
  | mark (s : String)
  deriving Inhabited, Repr, DecidableEq

/-- Letters, digits and underscores, and the colons of qualified names. -/
def isWordChar (c : Char) : Bool := c.isAlphanum || c == '_' || c == ':'

/-- Blanks and line breaks. -/
def isGap (c : Char) : Bool := c == ' ' || c == '\n'

/-- The marks, a longer one before those that it begins with. -/
def marks : List String :=
  ["<<=", ">>=", "->*", "...", "->", "--", "++", "<<", ">>", "<=", ">=", "==", "!=", "&&", "||", "+=", "-=", "*=", "/=",
    "%=", "&=", "|=", "^=", "(", ")", "[", "]", ",", ".", ";", "?", "+", "-", "*", "/", "%", "~", "!", "&", "|", "^",
    "<", ">", "="]

/-- The longest mark that a text begins with. -/
def munch? (cs : List Char) : Option String := marks.find? fun m => m.toList.isPrefixOf cs

/-- The template argument that a text begins with. -/
def templateOf : List Char → List Char
  | '<' :: cs =>
    let arg := cs.takeWhile isWordChar
    if arg ≠ [] ∧ (cs.dropWhile isWordChar).head? = some '>' then '<' :: (arg ++ ['>']) else []
  | _ => []

/-- The tokens of a text, if it is made of tokens. -/
def tokens : List Char → Option (List Token)
  | [] => some []
  | c :: cs =>
    if isGap c then tokens cs
    else if isWordChar c then
      let rest := cs.dropWhile isWordChar
      let arg := templateOf rest
      (tokens (rest.drop arg.length)).map (.word (String.ofList (c :: (cs.takeWhile isWordChar ++ arg))) :: ·)
    else
      match munch? (c :: cs) with
      | some m => (tokens (cs.drop (m.length - 1))).map (.mark m :: ·)
      | none => none
termination_by cs => cs.length
decreasing_by
  · simp
  · exact Nat.lt_succ_of_le ((List.drop_sublist _ _).trans (List.dropWhile_sublist _)).length_le
  · simp only [List.length_drop, List.length_cons]
    omega

def IsWord (s : String) : Prop := s.toList ≠ [] ∧ ∀ c ∈ s.toList, isWordChar c = true

theorem isWord_of_all {s : String} (hne : s.toList ≠ []) (hall : s.toList.all isWordChar = true) : IsWord s :=
  ⟨hne, List.all_eq_true.1 hall⟩

/-- A word, or a word with a template argument. -/
def IsName (s : String) : Prop := IsWord s ∨ ∃ w a, IsWord w ∧ IsWord a ∧ s = w ++ "<" ++ a ++ ">"

/-- A name ends before the text. -/
def EndsWord (cs : List Char) : Prop := ∀ c ∈ cs.head?, isWordChar c = false ∧ c ≠ '<'

inductive Spells : List Token → List Char → Prop
  | nil : Spells [] []
  | gap {ts : List Token} {c : Char} {cs : List Char} (hc : isGap c = true) (h : Spells ts cs) : Spells ts (c :: cs)
  | word {ts : List Token} {s : String} {cs : List Char} (hs : IsName s) (hend : EndsWord cs) (h : Spells ts cs) :
    Spells (.word s :: ts) (s.toList ++ cs)
  | mark {ts : List Token} {m : String} {cs : List Char} (hm : munch? (m.toList ++ cs) = some m) (h : Spells ts cs) :
    Spells (.mark m :: ts) (m.toList ++ cs)

theorem isGap_eq_false_of_isWordChar {c : Char} (h : isWordChar c = true) : isGap c = false := by
  by_contra hgap
  simp only [isGap, Bool.not_eq_false, Bool.or_eq_true, beq_iff_eq] at hgap
  rcases hgap with rfl | rfl <;> exact absurd h (by decide)

/-- A mark begins neither with a blank nor with a part of a word. -/
theorem head_of_mem_marks {m : String} (hm : m ∈ marks) :
    ∃ c cs, m.toList = c :: cs ∧ isGap c = false ∧ isWordChar c = false := by
  have hall : ∀ m ∈ marks, (m.toList.head?.any fun c => !isGap c && !isWordChar c) = true := by decide
  have hfirst := hall m hm
  cases hcs : m.toList with
  | nil => simp [hcs] at hfirst
  | cons c cs => exact ⟨c, cs, rfl, by simpa [hcs] using hfirst⟩

theorem word_taken {w cs : List Char} (hw : ∀ c ∈ w, isWordChar c = true) (hcs : ∀ c ∈ cs.head?, isWordChar c = false) :
    (w ++ cs).takeWhile isWordChar = w ∧ (w ++ cs).dropWhile isWordChar = cs := by
  rw [List.takeWhile_append_of_pos hw, List.dropWhile_append_of_pos hw]
  cases cs with
  | nil => simp
  | cons d ds => simp [hcs d rfl]

/-- A name is a word and the template argument that the text behind it begins with. -/
theorem IsName.split {s : String} (h : IsName s) : ∃ c w t, s.toList = c :: (w ++ t) ∧ isWordChar c = true ∧
    (∀ d ∈ w, isWordChar d = true) ∧
    ∀ cs, EndsWord cs → (∀ d ∈ (t ++ cs).head?, isWordChar d = false) ∧ templateOf (t ++ cs) = t := by
  rcases h with ⟨hne, hall⟩ | ⟨v, a, ⟨hne, hall⟩, ⟨hne', hall'⟩, rfl⟩
  all_goals
    obtain ⟨c, w, hw⟩ := List.exists_cons_of_ne_nil hne
    rw [hw] at hall
    obtain ⟨hc, hrest⟩ := List.forall_mem_cons.1 hall
  · refine ⟨c, w, [], by simp [hw], hc, hrest, fun cs hcs => ⟨fun d hd => (hcs d hd).1, ?_⟩⟩
    rw [List.nil_append]
    unfold templateOf
    split
    · exact absurd rfl (hcs '<' rfl).2
    · rfl
  · refine ⟨c, w, '<' :: (a.toList ++ ['>']), by simp [hw], hc, hrest, fun cs _ => ⟨by simp; decide, ?_⟩⟩
    have hclose : ∀ d ∈ ('>' :: cs).head?, isWordChar d = false := by simp; decide
    obtain ⟨htake, hdrop⟩ := word_taken hall' hclose
    simp [templateOf, htake, hdrop, hne']

theorem tokens_of_spells {ts : List Token} {cs : List Char} (h : Spells ts cs) : tokens cs = some ts := by
  induction h with
  | nil => rw [tokens]
  | gap hc _ ih => rw [tokens, if_pos hc, ih]
  | @word ts s cs hs hend _ ih =>
    obtain ⟨c, w, t, hw, hc, hrest, hbehind⟩ := hs.split
    -- The reader takes the whole name, since nothing of what follows can stand in one.
    obtain ⟨hstop, harg⟩ := hbehind cs hend
    obtain ⟨htake, hdrop⟩ := word_taken hrest hstop
    rw [hw, List.cons_append, List.append_assoc, tokens, if_neg (by simp [isGap_eq_false_of_isWordChar hc]), if_pos hc]
    simp only [htake, hdrop, harg, List.drop_left, ih, ← hw, String.ofList_toList, Option.map_some]
  | @mark ts m cs hm _ ih =>
    obtain ⟨c, w, hw, hgap, hword⟩ := head_of_mem_marks (List.mem_of_find?_eq_some hm)
    have hlen : m.length - 1 = w.length := by rw [← String.length_toList, hw, List.length_cons, Nat.add_sub_cancel]
    rw [hw, List.cons_append] at hm ⊢
    rw [tokens, if_neg (by simp [hgap]), if_neg (by simp [hword]), hm]
    simp only [hlen, List.drop_left, ih, Option.map_some]

end Peephole.Cpp
