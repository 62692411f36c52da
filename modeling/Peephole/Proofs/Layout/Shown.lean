import Mathlib.Data.List.Forall2
import Peephole.Layout.Render

/-!
# What a rendering shows

Rendering a document decides where lines end, and nothing else.  Groups whose ends are out of sight are given up and
written out, but what they hold keeps its order.

* `Balanced` : each group that begins in a list of marks ends in it.
* `visible_closeGroupsWithin` : putting the ends of groups at their begins moves no text and no line.
* `render_shows` : **the rendering shows the pieces of text in order**, with a blank or a line break and its
  indentation for each line.
* `render_faithful` : so renderings at different widths differ in their line breaks only.
-/

namespace Peephole.Layout

/-! ### Pieces -/

/-- What a mark shows, if it shows anything: a piece of text, or a line with its indentation. -/
inductive Piece where
  | text (s : String)
  | line (indent : Int)
  deriving DecidableEq

def Mark.piece? : Mark → Option Piece
  | .text _ s => some (.text s)
  | .line _ i => some (.line i)
  | .groupBegin _ | .groupEnd _ => none

def visible (ms : List Mark) : List Piece := ms.filterMap Mark.piece?

@[simp] theorem visible_nil : visible [] = [] := rfl

@[simp] theorem visible_append (ms ms' : List Mark) : visible (ms ++ ms') = visible ms ++ visible ms' :=
  List.filterMap_append

@[simp] theorem visible_groupBegin (stop : Option Nat) (ms : List Mark) :
    visible (.groupBegin stop :: ms) = visible ms := rfl

@[simp] theorem visible_groupEnd (p : Nat) (ms : List Mark) : visible (.groupEnd p :: ms) = visible ms := rfl

theorem visible_cons (m : Mark) (ms : List Mark) : visible (m :: ms) = visible [m] ++ visible ms :=
  visible_append [m] ms

def Piece.Shows : Piece → String → Prop
  | text s, out => out = s
  | line i, out => out = " " ∨ out = "\n" ++ blanks i

theorem printFrom_shows (width : Int) (flat : Nat) (limit : Int) (ms : List Mark) :
    List.Forall₂ Piece.Shows (visible ms) (printFrom width flat limit ms) := by
  fun_induction printFrom width flat limit ms with
  | case1 => exact .nil
  | case2 flat limit _ s ms ih => exact .cons rfl ih
  | case3 _ p i ms ih => exact .cons (.inr rfl) ih
  | case4 limit _ _ ms flat ih => exact .cons (.inl rfl) ih
  | case5 limit stop ms flat ih => exact ih
  | case6 limit _ ms flat ih => exact ih
  | case7 flat limit _ ms ih => exact ih

/-! ### Groups -/

/-- The marks end all groups that they begin, and `n` more. -/
def Balanced : Nat → List Mark → Prop
  | n, [] => n = 0
  | n, .groupBegin _ :: ms => Balanced (n + 1) ms
  | 0, .groupEnd _ :: _ => False
  | n + 1, .groupEnd _ :: ms => Balanced n ms
  | n, .text _ _ :: ms | n, .line _ _ :: ms => Balanced n ms

/-- The pieces that open groups hold, the outermost first. -/
def held (groups : List Waiting) : List Piece := groups.flatMap fun g => visible g.held

@[simp] theorem held_nil : held [] = [] := rfl

@[simp] theorem held_cons (g : Waiting) (gs : List Waiting) : held (g :: gs) = visible g.held ++ held gs := rfl

@[simp] theorem held_append (gs gs' : List Waiting) : held (gs ++ gs') = held gs ++ held gs' := List.flatMap_append

/-- Groups that are given up show what they held, and the others wait on. -/
theorem giveUp_shows (width limit : Int) (pos : Nat) (groups : List Waiting) :
    visible (giveUp width limit pos groups).1 ++ held (giveUp width limit pos groups).2.2 = held groups ∧
      (giveUp width limit pos groups).2.2.length ≤ groups.length := by
  induction groups generalizing limit pos with
  | nil => simp [giveUp]
  | cons g gs ih =>
    by_cases hfull : limit < pos ∨ width < (gs.length + 1 : Nat)
    · cases gs with
      | nil =>
        rw [giveUp, if_pos hfull]
        simp
      | cons next tail =>
        -- The next group is given up as well, or waits on: the hypothesis covers both.
        rw [giveUp, if_pos hfull]
        simp only [visible_append, visible_groupBegin, List.cons_append, List.append_assoc, held_cons g,
          List.length_cons]
        exact ⟨congrArg _ (ih _ _).1, Nat.le_succ_of_le (ih _ _).2⟩
    · rw [giveUp, if_neg hfull]
      simp

/-- The innermost group holds more. -/
theorem held_hold (ms : List Mark) {groups : List Waiting} (h : groups ≠ []) :
    held (hold ms groups) = held groups ++ visible ms ∧ (hold ms groups).length = groups.length := by
  obtain ⟨gs, g, rfl⟩ : ∃ gs g, groups = gs ++ [g] := ⟨_, _, (List.dropLast_append_getLast h).symm⟩
  simp [hold]

section Step

variable {width limit : Int} {n : Nat} {g : Waiting} {gs : List Waiting} {ms : List Mark}

/-- The end of a group goes to its begin, and the group that it stands in holds both. -/
theorem visible_groupEnd_within {p : Nat} (hlen : (g :: gs).length ≤ n + 1)
    (ih : ∀ (limit : Int) (groups : List Waiting), groups.length ≤ n →
      visible (closeGroupsWithinFrom width limit groups ms) = held groups ++ visible ms) :
    visible (closeGroupsWithinFrom width limit (g :: gs) (.groupEnd p :: ms)) =
      held (g :: gs) ++ visible (.groupEnd p :: ms) := by
  obtain ⟨outer, inner, heq⟩ : ∃ outer inner, g :: gs = outer ++ [inner] :=
    ⟨_, _, (List.dropLast_append_getLast (List.cons_ne_nil g gs)).symm⟩
  have hsize : outer.length ≤ n := by
    rw [heq, List.length_append, List.length_singleton] at hlen
    omega
  rw [closeGroupsWithinFrom, heq, List.dropLast_concat, List.getLast?_concat]
  cases outer with
  | nil => simp [ih limit [] (Nat.zero_le n)]
  | cons o os =>
    obtain ⟨hheld, hkept⟩ := held_hold (.groupBegin (some p) :: (inner.held ++ [.groupEnd p])) (List.cons_ne_nil o os)
    show visible (closeGroupsWithinFrom width limit (hold _ (o :: os)) ms) = _
    rw [Option.elim_some, ih limit _ (by omega), hheld]
    simp

end Step

/-- The groups of balanced marks that are still waiting get their ends, and nothing is lost or moved. -/
theorem visible_closeGroupsWithinFrom {width : Int} {n : Nat} {ms : List Mark} (hms : Balanced n ms) (limit : Int)
    (groups : List Waiting) (hlen : groups.length ≤ n) :
    visible (closeGroupsWithinFrom width limit groups ms) = held groups ++ visible ms := by
  -- Only outer groups are given up, so the groups that wait are the innermost of the `n` that are open.
  induction ms generalizing n limit groups with
  | nil =>
    obtain rfl : n = 0 := hms
    obtain rfl : groups = [] := List.length_eq_zero_iff.1 (Nat.le_zero.1 hlen)
    simp [closeGroupsWithinFrom]
  | cons m ms ih =>
    cases groups with
    | nil =>
      cases m with
      | groupBegin stop =>
        simp only [closeGroupsWithinFrom]
        rw [ih (n := n + 1) hms _ _ (by simp)]
        simp
      | groupEnd p =>
        cases n with
        | zero => exact hms.elim
        | succ n => simpa [closeGroupsWithinFrom] using ih (n := n) hms limit [] (by simp)
      | text p s | line p i =>
        simp only [closeGroupsWithinFrom]
        rw [visible_cons, ih (n := n) hms _ _ (by simp), visible_cons _ ms]
        rfl
    | cons g gs =>
      cases m with
      | groupBegin stop =>
        have hup := giveUp_shows width limit (Mark.groupBegin stop).pos
          (g :: gs ++ [⟨(Mark.groupBegin stop).pos + width, []⟩])
        simp only [closeGroupsWithinFrom, visible_append]
        rw [ih (n := n + 1) hms _ _ (Nat.le_trans hup.2 (by simpa using hlen)), ← List.append_assoc, hup.1]
        simp
      | groupEnd p =>
        cases n with
        | zero => exact hms.elim
        | succ n => exact visible_groupEnd_within hlen fun limit groups => ih (n := n) hms limit groups
      | text p s | line p i =>
        -- The innermost group holds it.
        simp only [closeGroupsWithinFrom, visible_append]
        have hheld := fun m => held_hold [m] (List.cons_ne_nil g gs)
        rw [ih (n := n) hms _ _ (Nat.le_trans (giveUp_shows _ _ _ _).2 ((hheld _).2 ▸ hlen)), ← List.append_assoc,
          (giveUp_shows _ _ _ _).1, (hheld _).1, List.append_assoc, ← visible_cons]

theorem visible_closeGroupsWithin {ms : List Mark} (hms : Balanced 0 ms) (width : Int) :
    visible (closeGroupsWithin width ms) = visible ms :=
  visible_closeGroupsWithinFrom hms 0 [] (Nat.le_refl 0)

/-! ### Documents -/

def Event.piece? : Event → Option Piece
  | .text s => some (.text s)
  | .line i => some (.line i)
  | .groupBegin | .groupEnd => none

theorem visible_positions (pos : Nat) (es : List Event) :
    visible (positions pos es) = es.filterMap Event.piece? := by
  induction es generalizing pos with
  | nil => rfl
  | cons e es ih =>
    cases e with
    | text s => exact congrArg (Piece.text s :: ·) (ih _)
    | line i => exact congrArg (Piece.line i :: ·) (ih _)
    | groupBegin | groupEnd => exact ih _

mutual

/-- A document ends the groups that it begins. -/
theorem Doc.balanced_events {n : Nat} (indent : Int) (d : Doc) {es : List Event}
    (h : ∀ pos, Balanced n (positions pos es)) (pos : Nat) : Balanced n (positions pos (d.events indent ++ es)) := by
  cases d with
  | text s => exact h _
  | line => exact h _
  | seq ds => exact Doc.balanced_allEvents indent ds h pos
  | group d =>
    have hend : ∀ pos, Balanced (n + 1) (positions pos (.groupEnd :: es)) := h
    rw [Doc.events, List.cons_append, List.append_assoc]
    exact Doc.balanced_events indent d hend pos
  | nest k d => exact Doc.balanced_events (indent + k) d h pos

theorem Doc.balanced_allEvents {n : Nat} (indent : Int) (ds : List Doc) {es : List Event}
    (h : ∀ pos, Balanced n (positions pos es)) (pos : Nat) :
    Balanced n (positions pos (Doc.allEvents indent ds ++ es)) := by
  cases ds with
  | nil => exact h pos
  | cons d ds =>
    rw [Doc.allEvents, List.append_assoc]
    exact Doc.balanced_events indent d (Doc.balanced_allEvents indent ds h) pos

end

/-- The pieces of a document that stands behind the indentation `indent`. -/
def Doc.pieces (indent : Int) (d : Doc) : List Piece := (d.events indent).filterMap Event.piece?

/-- The rendering of a document shows its pieces in order. -/
theorem render_shows (d : Doc) (width indent : Int) :
    ∃ outs, List.Forall₂ Piece.Shows (d.pieces indent) outs ∧ d.render width indent = String.join outs := by
  have hbalanced : Balanced 0 (positions 0 (d.events indent)) := by
    have hnone : ∀ pos, Balanced 0 (positions pos []) := fun _ => rfl
    simpa using Doc.balanced_events indent d hnone 0
  refine ⟨_, ?_, rfl⟩
  rw [Doc.pieces, ← visible_positions 0, ← visible_closeGroupsWithin hbalanced width]
  exact printFrom_shows width 0 width _

/-! ### Line breaks -/

mutual

/-- The texts and the lines of a document in order, each line with the indentation that the nests around it add up to. -/
def Doc.leaves (indent : Int) : Doc → List Piece
  | .text s => [.text s]
  | .line => [.line indent]
  | .seq ds => Doc.allLeaves indent ds
  | .group d => d.leaves indent
  | .nest n d => d.leaves (indent + n)

/-- The texts and the lines of documents one after another. -/
def Doc.allLeaves (indent : Int) : List Doc → List Piece
  | [] => []
  | d :: ds => d.leaves indent ++ Doc.allLeaves indent ds

end

mutual

theorem Doc.pieces_eq_leaves (indent : Int) (d : Doc) : d.pieces indent = d.leaves indent := by
  cases d with
  | text s => rfl
  | line => rfl
  | seq ds => exact Doc.allPieces_eq_leaves indent ds
  | group d =>
    rw [Doc.leaves, ← Doc.pieces_eq_leaves indent d]
    rw [Doc.pieces, Doc.events, List.filterMap_cons_none rfl, List.filterMap_append, Doc.pieces]
    exact List.append_nil _
  | nest n d => exact Doc.pieces_eq_leaves (indent + n) d

theorem Doc.allPieces_eq_leaves (indent : Int) (ds : List Doc) :
    (Doc.allEvents indent ds).filterMap Event.piece? = Doc.allLeaves indent ds := by
  cases ds with
  | nil => rfl
  | cons d ds =>
    rw [Doc.allEvents, List.filterMap_append, Doc.allPieces_eq_leaves indent ds, Doc.allLeaves,
      ← Doc.pieces_eq_leaves indent d, Doc.pieces]

end

/-- A text that shows the pieces, with a blank in place of each line break and its indentation.  All other characters are
those of the text. -/
def unbroken : List Piece → List Char → List Char
  | [], cs => cs
  | .text s :: ps, cs => cs.take s.length ++ unbroken ps (cs.drop s.length)
  | .line i :: ps, '\n' :: cs => ' ' :: unbroken ps (cs.drop i.toNat)
  | .line _ :: ps, cs => cs.take 1 ++ unbroken ps (cs.drop 1)

def Piece.flat : Piece → String
  | text s => s
  | line _ => " "

/-- Without its line breaks, a text that shows the pieces has all of them on one line. -/
theorem unbroken_of_shows {ps : List Piece} {shown : List String} (h : List.Forall₂ Piece.Shows ps shown) :
    unbroken ps (String.join shown).toList = (String.join (ps.map Piece.flat)).toList := by
  induction h with
  | nil => rfl
  | @cons p out ps shown hp _ ih =>
    rw [List.map_cons, String.join_cons, String.join_cons, String.toList_append, String.toList_append]
    cases p with
    | text s =>
      obtain rfl : out = s := hp
      rw [unbroken, ← String.length_toList, List.take_left, List.drop_left, ih, Piece.flat]
    | line i =>
      rcases hp with rfl | rfl
      · show unbroken (.line i :: ps) (' ' :: (String.join shown).toList) = _
        rw [unbroken, List.take_one, List.drop_one, List.tail_cons, ih]
        · simp [Piece.flat]
        · simp
      · have hblanks : (blanks i).toList.length = i.toNat := by simp [blanks]
        rw [String.toList_append, List.append_assoc]
        show unbroken (.line i :: ps) ('\n' :: ((blanks i).toList ++ (String.join shown).toList)) = _
        rw [unbroken, ← hblanks, List.drop_left, ih]
        simp [Piece.flat]

/-- **Rendering loses and reorders nothing.**  The text is made of the texts of the document in order, each once, with a
blank or a line break and its indentation for each line between them; so with blanks for the line breaks it is the same
at all widths. -/
theorem render_faithful (d : Doc) (indent : Int) :
    (∀ width, ∃ shown, List.Forall₂ Piece.Shows (d.leaves indent) shown ∧ d.render width indent = String.join shown) ∧
    ∀ width width', unbroken (d.leaves indent) (d.render width indent).toList =
      unbroken (d.leaves indent) (d.render width' indent).toList := by
  have hshows : ∀ width, ∃ shown, List.Forall₂ Piece.Shows (d.leaves indent) shown ∧
      d.render width indent = String.join shown := by
    intro width
    rw [← Doc.pieces_eq_leaves]
    exact render_shows d width indent
  refine ⟨hshows, fun width width' => ?_⟩
  obtain ⟨shown, hshown, hrender⟩ := hshows width
  obtain ⟨shown', hshown', hrender'⟩ := hshows width'
  rw [hrender, hrender', unbroken_of_shows hshown, unbroken_of_shows hshown']

end Peephole.Layout
