import Mathlib.Data.List.Chain
import Peephole.Layout.Render

/-!
# Looking ahead as far as the width is enough

`closeGroups` waits for the end of each group; `closeGroupsWithin` gives a group up as soon as it cannot fit, either
because the text has gone past the last position that the group may reach or because too many groups are open.

* `Doc.flatWidth` : the width of a document on one line.
* `Doc.parts`, `Doc.innerGroups` : the documents in a document, and the groups directly inside it.
* `Doc.marks` : the marks of a document with **the true end of each group**; `closeGroups_eq_marks` says that
  `closeGroups` finds them.
* `Forgets` : marks that differ only in ends that are left out, each of a group that reaches more than the width behind
  its begin.  Such groups are broken anyway (`Forgets.printFrom_eq`).
* `render_eq_unlimited` : **a rendering is the same as with all ends known**, if indentations are not negative and every
  group is wider than the groups directly inside it.

The last condition is what giving up for the number of open groups rests on: `n` groups inside one another, each of
them narrower than the one around it, make the outermost at least `n` wide.
-/

namespace Peephole.Layout

/-! ### Documents and their parts -/

namespace Doc

mutual

/-- The width of the document on one line. -/
def flatWidth : Doc → Nat
  | text s => s.length
  | line => 1
  | seq ds => flatWidths ds
  | group d | nest _ d => flatWidth d

/-- The width of the documents on one line. -/
def flatWidths : List Doc → Nat
  | [] => 0
  | d :: ds => flatWidth d + flatWidths ds

end

mutual

/-- The document and all documents in it. -/
def parts : Doc → List Doc
  | text s => [text s]
  | line => [line]
  | seq ds => seq ds :: allParts ds
  | group d => group d :: parts d
  | nest n d => nest n d :: parts d

/-- The documents and all documents in them. -/
def allParts : List Doc → List Doc
  | [] => []
  | d :: ds => parts d ++ allParts ds

end

mutual

/-- What the groups hold that are in the document and in no other group of it. -/
def innerGroups : Doc → List Doc
  | text _ | line => []
  | seq ds => allInnerGroups ds
  | group d => [d]
  | nest _ d => innerGroups d

/-- What the groups hold that are in the documents and in no other group of them. -/
def allInnerGroups : List Doc → List Doc
  | [] => []
  | d :: ds => innerGroups d ++ allInnerGroups ds

end

/-- What is asked of a document: no `nest` moves to the left, no group is empty, and every group is wider than the
groups directly inside it. -/
structure Tapers (d : Doc) : Prop where
  nest : ∀ n e, .nest n e ∈ d.parts → 0 ≤ n
  nonempty : ∀ e, .group e ∈ d.parts → e.nonempty = true
  narrower : ∀ e, .group e ∈ d.parts → ∀ g ∈ e.innerGroups, g.flatWidth < e.flatWidth

theorem Tapers.of_parts {d e : Doc} (h : d.Tapers) (hparts : ∀ p ∈ e.parts, p ∈ d.parts) : e.Tapers :=
  ⟨fun n p hp => h.nest n p (hparts _ hp), fun p hp => h.nonempty p (hparts _ hp),
    fun p hp => h.narrower p (hparts _ hp)⟩

theorem Tapers.of_group {d : Doc} (h : (group d).Tapers) : d.Tapers :=
  h.of_parts fun _ hp => List.mem_cons_of_mem _ hp

theorem Tapers.of_nest {n : Int} {d : Doc} (h : (Doc.nest n d).Tapers) : d.Tapers :=
  h.of_parts fun _ hp => List.mem_cons_of_mem _ hp

theorem Tapers.head {d : Doc} {ds : List Doc} (h : (seq (d :: ds)).Tapers) : d.Tapers :=
  h.of_parts fun _ hp => List.mem_cons_of_mem _ (List.mem_append_left _ hp)

theorem Tapers.tail {d : Doc} {ds : List Doc} (h : (seq (d :: ds)).Tapers) : (seq ds).Tapers := by
  have hmem : ∀ {e : Doc}, e ≠ seq ds → e ∈ (seq ds).parts → e ∈ (seq (d :: ds)).parts := fun hne he =>
    List.mem_cons_of_mem _ (List.mem_append_right _ ((List.mem_cons.1 he).resolve_left hne))
  exact ⟨fun n e he => h.nest n e (hmem nofun he), fun e he => h.nonempty e (hmem nofun he),
    fun e he => h.narrower e (hmem nofun he)⟩

mutual

/-- A document that shows something has a width. -/
theorem flatWidth_pos (d : Doc) (h : d.Tapers) (hd : d.nonempty = true) : 0 < d.flatWidth := by
  cases d with
  | text s =>
    have hs : s ≠ "" := by simpa [nonempty] using hd
    exact Nat.pos_of_ne_zero fun hlen => hs (String.length_eq_zero_iff.1 hlen)
  | line => exact Nat.one_pos
  | seq ds => exact flatWidths_pos ds h hd
  | group d => exact flatWidth_pos d h.of_group (h.nonempty d List.mem_cons_self)
  | nest n d => exact flatWidth_pos d h.of_nest hd

theorem flatWidths_pos (ds : List Doc) (h : (seq ds).Tapers) (hd : anyNonempty ds = true) : 0 < flatWidths ds := by
  cases ds with
  | nil => cases hd
  | cons d ds =>
    rw [anyNonempty, Bool.or_eq_true] at hd
    rw [flatWidths]
    rcases hd with hd | hd
    · exact Nat.add_pos_left (flatWidth_pos d h.head hd) _
    · exact Nat.add_pos_right _ (flatWidths_pos ds h.tail hd)

end

/-! ### Marks with true ends -/

mutual

/-- The marks of a document at a position, with the true end of each group. -/
def marks (indent : Int) (pos : Nat) : Doc → List Mark
  | text s => [.text (pos + s.length) s]
  | line => [.line (pos + 1) indent]
  | seq ds => allMarks indent pos ds
  | group d =>
    .groupBegin (some (pos + d.flatWidth)) :: (marks indent pos d ++ [.groupEnd (pos + d.flatWidth)])
  | nest n d => marks (indent + n) pos d

/-- The marks of the documents, one after another. -/
def allMarks (indent : Int) (pos : Nat) : List Doc → List Mark
  | [] => []
  | d :: ds => marks indent pos d ++ allMarks indent (pos + d.flatWidth) ds

end

mutual

/-- Behind a document the position has moved by its width. -/
theorem positions_events (indent : Int) (pos : Nat) (d : Doc) (es : List Event) :
    positions pos (d.events indent ++ es) = positions pos (d.events indent) ++ positions (pos + d.flatWidth) es := by
  cases d with
  | text s => rfl
  | line => rfl
  | seq ds => exact positions_allEvents indent pos ds es
  | group d =>
    simp only [events, List.cons_append, List.append_assoc, positions, flatWidth, positions_events indent pos d]
    rfl
  | nest n d => exact positions_events (indent + n) pos d es

theorem positions_allEvents (indent : Int) (pos : Nat) (ds : List Doc) (es : List Event) :
    positions pos (allEvents indent ds ++ es) =
      positions pos (allEvents indent ds) ++ positions (pos + flatWidths ds) es := by
  cases ds with
  | nil => rfl
  | cons d ds =>
    simp only [allEvents, List.append_assoc, flatWidths, positions_events indent pos d,
      positions_allEvents indent _ ds, Nat.add_assoc]

end

theorem positions_group (indent : Int) (pos : Nat) (d : Doc) :
    positions pos ((group d).events indent) =
      .groupBegin (some pos) :: (positions pos (d.events indent) ++ [.groupEnd (pos + d.flatWidth)]) := by
  rw [events, positions, positions_events]
  rfl

theorem positions_cons (indent : Int) (pos : Nat) (d : Doc) (ds : List Doc) :
    positions pos (allEvents indent (d :: ds)) =
      positions pos (d.events indent) ++ positions (pos + d.flatWidth) (allEvents indent ds) := by
  rw [allEvents, positions_events]

end Doc

/-- What waits for its end with the groups that are open, and what is written out if none is. -/
def written (waiting : List (List Mark)) (ms : List Mark) (rest : List Mark) : List Mark :=
  match waiting with
  | [] => ms ++ closeGroupsFrom [] rest
  | inner :: outer => closeGroupsFrom ((inner ++ ms) :: outer) rest

theorem written_append (waiting : List (List Mark)) (ms ms' rest rest' : List Mark)
    (h : ∀ waiting, closeGroupsFrom waiting rest = written waiting ms' rest') :
    written waiting ms rest = written waiting (ms ++ ms') rest' := by
  cases waiting with
  | nil => simp [written, h]
  | cons inner outer => simp [written, h]

mutual

/-- Waiting for the ends of groups finds the true ones. -/
theorem closeGroupsFrom_events (indent : Int) (pos : Nat) (d : Doc) (waiting : List (List Mark)) (rest : List Mark) :
    closeGroupsFrom waiting (positions pos (d.events indent) ++ rest) = written waiting (d.marks indent pos) rest := by
  cases d with
  | text s => cases waiting <;> rfl
  | line => cases waiting <;> rfl
  | seq ds => exact closeGroupsFrom_allEvents indent pos ds waiting rest
  | group d =>
    rw [Doc.positions_group, List.cons_append, List.append_assoc, closeGroupsFrom, closeGroupsFrom_events indent pos d]
    cases waiting with
    | nil => simp [written, closeGroupsFrom, Doc.marks]
    | cons inner outer => simp [written, closeGroupsFrom, Doc.marks]
  | nest n d => exact closeGroupsFrom_events (indent + n) pos d waiting rest

theorem closeGroupsFrom_allEvents (indent : Int) (pos : Nat) (ds : List Doc) (waiting : List (List Mark))
    (rest : List Mark) :
    closeGroupsFrom waiting (positions pos (Doc.allEvents indent ds) ++ rest) =
      written waiting (Doc.allMarks indent pos ds) rest := by
  cases ds with
  | nil => cases waiting <;> simp [Doc.allEvents, Doc.allMarks, positions, written]
  | cons d ds =>
    rw [Doc.positions_cons, List.append_assoc, closeGroupsFrom_events indent pos d, Doc.allMarks]
    exact written_append _ _ _ _ _ fun waiting => closeGroupsFrom_allEvents indent _ ds waiting rest

end

/-- `closeGroups` finds the true end of each group. -/
theorem closeGroups_eq_marks (indent : Int) (pos : Nat) (d : Doc) :
    closeGroups (positions pos (d.events indent)) = d.marks indent pos := by
  have h := closeGroupsFrom_events indent pos d [] []
  simpa [closeGroups, written, closeGroupsFrom] using h

/-! ### Ends that are left out -/

/-- `Forgets width p ms ns q`: `ms` leads from the position `p` to `q`, and `ns` is the same but for ends of groups that
reach more than `width` behind their begins. -/
inductive Forgets (width : Int) : Nat → List Mark → List Mark → Nat → Prop
  | nil (p : Nat) : Forgets width p [] [] p
  | text {p q : Nat} {ms ns : List Mark} (s : String) (h : Forgets width (p + s.length) ms ns q) :
    Forgets width p (.text (p + s.length) s :: ms) (.text (p + s.length) s :: ns) q
  | line {p q : Nat} {ms ns : List Mark} {i : Int} (hi : 0 ≤ i) (h : Forgets width (p + 1) ms ns q) :
    Forgets width p (.line (p + 1) i :: ms) (.line (p + 1) i :: ns) q
  | keep {p q : Nat} {ms ns : List Mark} (stop : Option Nat) (h : Forgets width p ms ns q) :
    Forgets width p (.groupBegin stop :: ms) (.groupBegin stop :: ns) q
  | forget {p q stop : Nat} {ms ns : List Mark} (hstop : p + width < stop) (h : Forgets width p ms ns q) :
    Forgets width p (.groupBegin (some stop) :: ms) (.groupBegin none :: ns) q
  | groupEnd {p q : Nat} {ms ns : List Mark} (h : Forgets width p ms ns q) :
    Forgets width p (.groupEnd p :: ms) (.groupEnd p :: ns) q

namespace Forgets

variable {width : Int} {p q r : Nat} {ms ns ms' ns' : List Mark}

theorem append (h : Forgets width p ms ns q) (h' : Forgets width q ms' ns' r) :
    Forgets width p (ms ++ ms') (ns ++ ns') r := by
  induction h with
  | nil => exact h'
  | text s _ ih => exact .text s (ih h')
  | line hi _ ih => exact .line hi (ih h')
  | keep stop _ ih => exact .keep stop (ih h')
  | forget hstop _ ih => exact .forget hstop (ih h')
  | groupEnd _ ih => exact .groupEnd (ih h')

/-- A group whose end is left out is broken: it would not fit on a line that ends at most `width` behind its begin. -/
theorem printFrom_eq (h : Forgets width p ms ns q) (flat : Nat) (limit : Int) (hlimit : limit ≤ p + width) :
    printFrom width flat limit ns = printFrom width flat limit ms := by
  induction h generalizing flat limit with
  | nil => rfl
  | text s _ ih =>
    rw [printFrom, printFrom, ih flat limit (by omega)]
  | line hi _ ih =>
    cases flat with
    | zero => rw [printFrom, printFrom, ih 0 _ (by omega)]
    | succ flat => rw [printFrom, printFrom, ih (flat + 1) limit (by omega)]
  | keep stop _ ih => cases flat <;> exact ih _ limit hlimit
  | @forget p _ stop _ _ hstop _ ih =>
    cases flat with
    | zero =>
      have hlong : ¬(stop : Int) ≤ limit := by omega
      simp only [printFrom, if_neg hlong]
      exact ih 0 limit hlimit
    | succ flat =>
      rw [printFrom, printFrom]
      exact ih _ limit hlimit
  | groupEnd _ ih => cases flat <;> exact ih _ limit hlimit

end Forgets

/-! ### Open groups -/

/-- A group that is open: where it begins, where it will end, and the marks that it holds so far. -/
structure OpenGroup where
  start : Nat
  stop : Nat
  held : List Mark

namespace OpenGroup

/-- The group as one whose end is not known. -/
def waiting (width : Int) (g : OpenGroup) : Waiting := ⟨g.start + width, g.held⟩

def marks (g : OpenGroup) : List Mark := .groupBegin (some g.stop) :: g.held

/-- The begin and the end of the group. -/
def span (g : OpenGroup) : Nat × Nat := (g.start, g.stop)

def size (g : OpenGroup) : Nat := g.stop - g.start

end OpenGroup

/-- The marks of open groups, the outermost first. -/
def pending (gs : List OpenGroup) : List Mark := gs.flatMap OpenGroup.marks

/-- The position where the first of the open groups begins, which is `pos` if there is none. -/
def firstStart (gs : List OpenGroup) (pos : Nat) : Nat :=
  match gs with
  | [] => pos
  | g :: _ => g.start

/-- The innermost of the open groups holds more. -/
def holdMore (ms : List Mark) : List OpenGroup → List OpenGroup
  | [] => []
  | [g] => [{ g with held := g.held ++ ms }]
  | g :: h :: gs => g :: holdMore ms (h :: gs)

/-- What the open groups hold leads from the begin of each to the begin of the next, and at last to `pos`. -/
def Standing (width : Int) : List OpenGroup → Nat → Prop
  | [], _ => True
  | g :: gs, pos => Forgets width g.start g.held g.held (firstStart gs pos) ∧ Standing width gs pos

/-- What holds of the open groups at a position: each is wider than the next one and none is empty, none of them ends
before the position, and what they hold stands in front of it. -/
structure Nested (gs : List OpenGroup) (pos : Nat) : Prop where
  tapers : gs.IsChain fun g h => h.size < g.size
  wide : ∀ g ∈ gs, 0 < g.size
  reach : ∀ g ∈ gs, pos ≤ g.stop
  held : ∀ g ∈ gs, ∀ m ∈ g.held, m.pos ≤ pos

variable {width : Int} {pos pos' : Nat} {g : OpenGroup} {gs gs' front : List OpenGroup} {ms : List Mark}

theorem pending_append (gs gs' : List OpenGroup) : pending (gs ++ gs') = pending gs ++ pending gs' :=
  List.flatMap_append

theorem holdMore_concat (ms : List Mark) (front : List OpenGroup) (g : OpenGroup) :
    holdMore ms (front ++ [g]) = front ++ [{ g with held := g.held ++ ms }] := by
  induction front with
  | nil => rfl
  | cons f front ih =>
    cases front with
    | nil => rfl
    | cons f' front => exact congrArg (f :: ·) ih

theorem hold_waiting (ms : List Mark) (gs : List OpenGroup) :
    hold ms (gs.map (·.waiting width)) = (holdMore ms gs).map (·.waiting width) := by
  rcases List.eq_nil_or_concat gs with rfl | ⟨front, g, rfl⟩
  · rfl
  · rw [List.concat_eq_append, holdMore_concat]
    simp [hold, OpenGroup.waiting]

theorem span_holdMore (ms : List Mark) (gs : List OpenGroup) :
    (holdMore ms gs).map OpenGroup.span = gs.map OpenGroup.span := by
  rcases List.eq_nil_or_concat gs with rfl | ⟨front, g, rfl⟩
  · rfl
  · rw [List.concat_eq_append, holdMore_concat]
    simp [OpenGroup.span]

theorem pending_holdMore (ms : List Mark) (hgs : gs ≠ []) : pending (holdMore ms gs) = pending gs ++ ms := by
  rcases List.eq_nil_or_concat gs with rfl | ⟨front, g, rfl⟩
  · exact absurd rfl hgs
  · rw [List.concat_eq_append, holdMore_concat]
    simp [pending, OpenGroup.marks]

theorem firstStart_holdMore (ms : List Mark) (hgs : gs ≠ []) (pos pos' : Nat) :
    firstStart (holdMore ms gs) pos = firstStart gs pos' := by
  rcases gs with _ | ⟨g, _ | ⟨f, gs⟩⟩
  · exact absurd rfl hgs
  · rfl
  · rfl

theorem firstStart_concat (front : List OpenGroup) (g : OpenGroup) (pos : Nat) :
    firstStart (front ++ [g]) pos = firstStart front g.start := by
  cases front <;> rfl

theorem standing_concat :
    Standing width (front ++ [g]) pos ↔ Standing width front g.start ∧ Forgets width g.start g.held g.held pos := by
  induction front with
  | nil => simp [Standing, firstStart]
  | cons f front ih =>
    rw [List.cons_append, Standing, Standing, ih, firstStart_concat, and_assoc]

/-- The innermost group holds further marks. -/
theorem Standing.holdMore (h : Standing width gs pos) (hms : Forgets width pos ms ms pos') :
    Standing width (holdMore ms gs) pos' := by
  rcases List.eq_nil_or_concat gs with rfl | ⟨front, g, rfl⟩
  · trivial
  · rw [List.concat_eq_append] at h ⊢
    obtain ⟨hfront, hg⟩ := standing_concat.1 h
    rw [holdMore_concat]
    exact standing_concat.2 ⟨hfront, hg.append hms⟩

theorem Standing.suffix (h : Standing width (front ++ gs) pos) : Standing width gs pos := by
  induction front with
  | nil => exact h
  | cons f front ih => exact ih h.2

namespace Nested

theorem nil (pos : Nat) : Nested [] pos := ⟨.nil, nofun, nofun, nofun⟩

theorem append (h : Nested gs pos) (h' : Nested gs' pos)
    (hlast : ∀ g ∈ gs.getLast?, ∀ f ∈ gs'.head?, f.size < g.size) : Nested (gs ++ gs') pos :=
  ⟨List.isChain_append.2 ⟨h.tapers, h'.tapers, hlast⟩, List.forall_mem_append.2 ⟨h.wide, h'.wide⟩,
    List.forall_mem_append.2 ⟨h.reach, h'.reach⟩, List.forall_mem_append.2 ⟨h.held, h'.held⟩⟩

theorem of_append (h : Nested (gs ++ gs') pos) :
    Nested gs pos ∧ Nested gs' pos ∧ ∀ g ∈ gs.getLast?, ∀ f ∈ gs'.head?, f.size < g.size := by
  obtain ⟨htapers, htapers', hlast⟩ := List.isChain_append.1 h.tapers
  obtain ⟨hwide, hwide'⟩ := List.forall_mem_append.1 h.wide
  obtain ⟨hreach, hreach'⟩ := List.forall_mem_append.1 h.reach
  obtain ⟨hheld, hheld'⟩ := List.forall_mem_append.1 h.held
  exact ⟨⟨htapers, hwide, hreach, hheld⟩, ⟨htapers', hwide', hreach', hheld'⟩, hlast⟩

theorem tail (h : Nested (g :: gs) pos) : Nested gs pos ∧ ∀ f ∈ gs.head?, f.size < g.size := by
  rw [← List.singleton_append] at h
  exact ⟨h.of_append.2.1, h.of_append.2.2 g rfl⟩

theorem singleton (hwide : 0 < g.size) (hreach : pos ≤ g.stop) (hheld : ∀ m ∈ g.held, m.pos ≤ pos) :
    Nested [g] pos :=
  ⟨.singleton g, List.forall_mem_singleton.2 hwide, List.forall_mem_singleton.2 hreach,
    List.forall_mem_singleton.2 hheld⟩

theorem moved (h : Nested gs pos) (hpos : pos ≤ pos') (hreach : ∀ g ∈ gs, pos' ≤ g.stop) : Nested gs pos' :=
  ⟨h.tapers, h.wide, hreach, fun g hg m hm => Nat.le_trans (h.held g hg m hm) hpos⟩

/-- A group is at least as wide as there are open groups from it on. -/
theorem length_le (h : Nested (g :: gs) pos) : gs.length + 1 ≤ g.size := by
  induction gs generalizing g with
  | nil => exact h.wide g List.mem_cons_self
  | cons f gs ih =>
    have hf := ih h.tail.1
    have hlt : f.size < g.size := h.tail.2 f rfl
    rw [List.length_cons]
    omega

theorem holdMore (h : Nested gs pos) (hheld : ∀ m ∈ ms, m.pos ≤ pos) : Nested (holdMore ms gs) pos := by
  rcases List.eq_nil_or_concat gs with rfl | ⟨front, g, rfl⟩
  · exact .nil pos
  · rw [List.concat_eq_append] at h ⊢
    obtain ⟨hfront, hg, hlast⟩ := h.of_append
    have hmem : g ∈ [g] := List.mem_singleton_self g
    rw [holdMore_concat]
    refine hfront.append (.singleton (hg.wide g hmem) (hg.reach g hmem) ?_) fun f hf e he => ?_
    · exact List.forall_mem_append.2 ⟨hg.held g hmem, hheld⟩
    · obtain rfl := Option.some.inj he
      exact hlast f hf g rfl

end Nested

/-- The limit of the outermost of the open groups. -/
def Limits (width limit : Int) (gs : List OpenGroup) : Prop := ∀ g ∈ gs.head?, limit = g.start + width

theorem Limits.holdMore {limit : Int} (ms : List Mark) (h : Limits width limit gs) :
    Limits width limit (holdMore ms gs) := by
  rcases gs with _ | ⟨g, _ | ⟨f, gs⟩⟩
  · exact h
  · rintro e ⟨rfl⟩
    exact h g rfl
  · rintro e ⟨rfl⟩
    exact h g rfl

theorem giveUp_last {limit : Int} {pos₀ : Nat} {g : Waiting} (h : limit < pos₀ ∨ width < (0 + 1 : Nat)) :
    giveUp width limit pos₀ [g] = (.groupBegin none :: g.held, limit, []) := by
  rw [giveUp, List.length_nil, if_pos h]

/-- Behind a group that is given up, the position is that of the last mark that it held. -/
theorem giveUp_next {limit : Int} {pos₀ : Nat} (g next : Waiting) (gs : List Waiting)
    (h : limit < pos₀ ∨ width < (gs.length + 1 + 1 : Nat)) (hpos : pos₀ ≤ pos) (hheld : ∀ m ∈ g.held, m.pos ≤ pos) :
    ∃ pos₁, pos₁ ≤ pos ∧ giveUp width limit pos₀ (g :: next :: gs) =
      (.groupBegin none :: g.held ++ (giveUp width next.limit pos₁ (next :: gs)).1,
        (giveUp width next.limit pos₁ (next :: gs)).2) := by
  cases hlast : g.held.getLast? with
  | none =>
    refine ⟨pos₀, hpos, ?_⟩
    rw [giveUp, List.length_cons, if_pos h]
    simp only [hlast]
  | some m =>
    refine ⟨m.pos, hheld m (List.mem_of_getLast? hlast), ?_⟩
    rw [giveUp, List.length_cons, if_pos h]
    simp only [hlast]

/-- Groups are given up only if they reach more than the width behind their begins. -/
theorem giveUp_forgets {limit : Int} {pos₀ : Nat} (hgs : Nested gs pos) (hstanding : Standing width gs pos)
    (hpos : pos₀ ≤ pos) (hlimit : Limits width limit gs) :
    ∃ front rest out limit', gs = front ++ rest ∧ Limits width limit' rest ∧
      giveUp width limit pos₀ (gs.map (·.waiting width)) = (out, limit', rest.map (·.waiting width)) ∧
      Forgets width (firstStart gs pos) (pending front) out (firstStart rest pos) := by
  induction gs generalizing limit pos₀ with
  | nil => exact ⟨[], [], [], limit, rfl, hlimit, rfl, .nil pos⟩
  | cons g gs ih =>
    by_cases hfull : limit < pos₀ ∨ width < (gs.length + 1 : Nat)
    · have hlong : g.start + width < g.stop := by
        have hreach := hgs.reach g List.mem_cons_self
        have hsize := hgs.length_le
        have hstart : limit = g.start + width := hlimit g rfl
        unfold OpenGroup.size at hsize
        omega
      have hg : Forgets width g.start g.marks (.groupBegin none :: g.held) (firstStart gs pos) :=
        .forget hlong hstanding.1
      cases gs with
      | nil =>
        refine ⟨[g], [], .groupBegin none :: g.held, limit, rfl, nofun, giveUp_last hfull, ?_⟩
        simpa [pending, firstStart] using hg
      | cons f gs =>
        obtain ⟨pos₁, hpos₁, hnext⟩ := giveUp_next (g.waiting width) (f.waiting width)
          (gs.map (·.waiting width)) (by rwa [List.length_map]) hpos (hgs.held g List.mem_cons_self)
        obtain ⟨front, rest, out, limit', hsplit, hlimit', hup, hforgets⟩ :=
          @ih (f.waiting width).limit pos₁ hgs.tail.1 hstanding.2 hpos₁ (by rintro e ⟨rfl⟩; rfl)
        refine ⟨g :: front, rest, .groupBegin none :: g.held ++ out, limit', by rw [hsplit, List.cons_append],
          hlimit', hnext.trans ?_, hg.append hforgets⟩
        rw [List.map_cons] at hup
        rw [hup]
        rfl
    · refine ⟨[], g :: gs, [], limit, rfl, hlimit, ?_, .nil _⟩
      rw [List.map_cons, giveUp, List.length_map, if_neg hfull]

theorem closeGroupsWithinFrom_groupEnd (limit : Int) (f g : Waiting) (front : List Waiting) (p : Nat)
    (rest : List Mark) :
    closeGroupsWithinFrom width limit (f :: front ++ [g]) (.groupEnd p :: rest) =
      closeGroupsWithinFrom width limit (hold (.groupBegin (some p) :: (g.held ++ [.groupEnd p])) (f :: front))
        rest := by
  rw [List.cons_append, closeGroupsWithinFrom, ← List.cons_append, List.dropLast_concat, List.getLast?_concat]
  rfl

/-! ### Reading on -/

/-- Where reading stands: the limit of the outermost group that is open, the open groups, and the position. -/
structure Scene where
  limit : Int
  groups : List OpenGroup
  pos : Nat

namespace Scene

/-- The position where what is not written out yet begins. -/
def start (s : Scene) : Nat := firstStart s.groups s.pos

/-- The begins and the ends of the open groups. -/
def spans (s : Scene) : List (Nat × Nat) := s.groups.map OpenGroup.span

/-- What `closeGroupsWithin` makes of the marks that follow. -/
def run (width : Int) (s : Scene) (ms : List Mark) : List Mark :=
  closeGroupsWithinFrom width s.limit (s.groups.map (·.waiting width)) ms

/-- The open groups are in order and the limit is that of the outermost one. -/
structure Sound (width : Int) (s : Scene) : Prop where
  nested : Nested s.groups s.pos
  standing : Standing width s.groups s.pos
  limits : Limits width s.limit s.groups

theorem sound_nil (width limit : Int) (pos : Nat) : Sound width ⟨limit, [], pos⟩ := ⟨.nil pos, trivial, nofun⟩

/-- Reading `ms` leads from one scene to another.  What is written out on the way differs from what stands there in the
marks with true ends, `full`, only by ends that are left out. -/
structure Reads (width : Int) (s : Scene) (ms full : List Mark) (s' : Scene) : Prop where
  sound : s'.Sound width
  writes : ∃ out done, pending s.groups ++ full = done ++ pending s'.groups ∧
    Forgets width s.start done out s'.start ∧ ∀ rest, s.run width (ms ++ rest) = out ++ s'.run width rest

variable {s s' s'' : Scene} {ms' full full' : List Mark} {limit : Int}

theorem Reads.refl (h : s.Sound width) : s.Reads width [] [] s :=
  ⟨h, [], [], by simp, .nil _, fun rest => rfl⟩

theorem Reads.trans (h : s.Reads width ms full s') (h' : s'.Reads width ms' full' s'') :
    s.Reads width (ms ++ ms') (full ++ full') s'' := by
  obtain ⟨out, done, hdone, hout, hrun⟩ := h.writes
  obtain ⟨out', done', hdone', hout', hrun'⟩ := h'.writes
  refine ⟨h'.sound, out ++ out', done ++ done', ?_, hout.append hout', fun rest => ?_⟩
  · rw [← List.append_assoc, hdone, List.append_assoc, hdone', List.append_assoc]
  · rw [List.append_assoc, hrun, hrun', List.append_assoc]

/-- Reading a mark puts it into an open group, and then groups are given up. -/
theorem Reads.of_giveUp {m : Mark} (m' : Mark) {groups : List OpenGroup} (hgroups : Sound width ⟨s.limit, groups, pos⟩)
    (hm : m.pos = pos) (hstart : s.start = firstStart groups pos)
    (hfull : pending s.groups ++ [m'] = pending groups)
    (hrun : ∀ rest, s.run width (m :: rest) =
      (giveUp width s.limit m.pos (groups.map (·.waiting width))).1 ++
        closeGroupsWithinFrom width (giveUp width s.limit m.pos (groups.map (·.waiting width))).2.1
          (giveUp width s.limit m.pos (groups.map (·.waiting width))).2.2 rest) :
    ∃ s', s'.pos = pos ∧ s'.spans <:+ groups.map OpenGroup.span ∧ s.Reads width [m] [m'] s' := by
  obtain ⟨front, left, out, limit', rfl, hlimit', hup, hforgets⟩ :=
    giveUp_forgets hgroups.nested hgroups.standing (Nat.le_of_eq hm) hgroups.limits
  refine ⟨⟨limit', left, pos⟩, rfl, ?_, ⟨hgroups.nested.of_append.2.1, hgroups.standing.suffix, hlimit'⟩, out,
    pending front, ?_, ?_, fun rest => ?_⟩
  · rw [spans, List.map_append]
    exact List.suffix_append _ _
  · rw [hfull, pending_append]
  · rw [hstart]
    exact hforgets
  · rw [List.singleton_append, hrun, hup]
    rfl

/-- A piece of text or a line is held by the innermost group, or written out if no group is open. -/
theorem reads_visible {m : Mark} (hs : s.Sound width) (hm : Forgets width s.pos [m] [m] pos) (hpos : m.pos = pos)
    (hle : s.pos ≤ pos) (hreach : ∀ g ∈ s.groups, pos ≤ g.stop)
    (hrun : ∀ limit g gs rest, closeGroupsWithinFrom width limit (g :: gs) (m :: rest) =
      (giveUp width limit m.pos (hold [m] (g :: gs))).1 ++
        closeGroupsWithinFrom width (giveUp width limit m.pos (hold [m] (g :: gs))).2.1
          (giveUp width limit m.pos (hold [m] (g :: gs))).2.2 rest)
    (hfree : ∀ limit rest, closeGroupsWithinFrom width limit [] (m :: rest) =
      m :: closeGroupsWithinFrom width limit [] rest) :
    ∃ s', s'.pos = pos ∧ s'.spans <:+ s.spans ∧ s.Reads width [m] [m] s' := by
  obtain ⟨limit, gs, p⟩ := s
  cases gs with
  | nil =>
    refine ⟨⟨limit, [], pos⟩, rfl, List.suffix_rfl, sound_nil width limit pos, [m], [m], by simp [pending], hm, ?_⟩
    exact fun rest => hfree limit rest
  | cons g gs =>
    have hheld : ∀ m' ∈ [m], m'.pos ≤ pos := List.forall_mem_singleton.2 (Nat.le_of_eq hpos)
    rw [spans, ← span_holdMore [m]]
    refine Reads.of_giveUp (s := ⟨limit, g :: gs, p⟩) m ⟨(hs.nested.moved hle hreach).holdMore hheld,
      hs.standing.holdMore hm, hs.limits.holdMore [m]⟩ hpos ?_ (pending_holdMore [m] (List.cons_ne_nil g gs)).symm
      fun rest => ?_
    · exact (firstStart_holdMore [m] (List.cons_ne_nil g gs) _ _).symm
    · rw [← hold_waiting]
      exact hrun limit _ _ rest

theorem reads_groupBegin (stop : Nat) (hs : s.Sound width) (hstop : s.pos < stop)
    (hlast : ∀ g ∈ s.groups.getLast?, stop - s.pos < g.size) :
    ∃ s', s'.pos = s.pos ∧ s'.spans <:+ s.spans ++ [(s.pos, stop)] ∧
      s.Reads width [.groupBegin (some s.pos)] [.groupBegin (some stop)] s' := by
  obtain ⟨limit, gs, p⟩ := s
  have hnew : Nested (gs ++ [⟨p, stop, []⟩]) p := by
    refine hs.nested.append (.singleton (Nat.sub_pos_of_lt hstop) (Nat.le_of_lt hstop) nofun) fun g hg f hf => ?_
    obtain rfl := Option.some.inj hf
    exact hlast g hg
  have hstanding : Standing width (gs ++ [⟨p, stop, []⟩]) p := standing_concat.2 ⟨hs.standing, .nil p⟩
  cases gs with
  | nil =>
    refine ⟨⟨p + width, [⟨p, stop, []⟩], p⟩, rfl, List.suffix_rfl, ⟨hnew, hstanding, ?_⟩, [], [], rfl, .nil p,
      fun rest => rfl⟩
    rintro g ⟨rfl⟩
    rfl
  | cons g gs =>
    obtain ⟨s', hpos, hspans, hreads⟩ := Reads.of_giveUp (s := ⟨limit, g :: gs, p⟩) (m := .groupBegin (some p))
      (.groupBegin (some stop)) ⟨hnew, hstanding, hs.limits⟩ rfl rfl (by simp [pending, OpenGroup.marks]) fun rest => by
        simp [run, closeGroupsWithinFrom, OpenGroup.waiting, Mark.pos]
    exact ⟨s', hpos, by simpa [spans, OpenGroup.span] using hspans, hreads⟩

/-- The end of a group closes the innermost group, unless that was given up. -/
theorem reads_groupEnd (outer : List (Nat × Nat)) (begin : Nat) (hs : s.Sound width)
    (hspans : s.spans <:+ outer ++ [(begin, s.pos)]) :
    ∃ s', s'.pos = s.pos ∧ s'.spans <:+ outer ∧ s.Reads width [.groupEnd s.pos] [.groupEnd s.pos] s' := by
  obtain ⟨limit, gs, p⟩ := s
  rcases List.eq_nil_or_concat gs with rfl | ⟨front, g, rfl⟩
  · exact ⟨⟨limit, [], p⟩, rfl, List.nil_suffix, sound_nil width limit p, [.groupEnd p], [.groupEnd p],
      by simp [pending], .groupEnd (.nil p), fun rest => rfl⟩
  rw [List.concat_eq_append] at hs hspans ⊢
  obtain ⟨hstop, hfront⟩ : g.stop = p ∧ front.map OpenGroup.span <:+ outer := by
    rcases List.suffix_concat_iff.1 hspans with hnil | ⟨t, ht, houter⟩
    · simp [spans] at hnil
    · obtain ⟨rfl, hg⟩ : front.map OpenGroup.span = t ∧ g.span = (begin, p) := by simpa [spans] using ht
      exact ⟨congrArg Prod.snd hg, houter⟩
  obtain ⟨hstanding, hheld⟩ := standing_concat.1 hs.standing
  have hclosed : Forgets width g.start (g.marks ++ [.groupEnd p]) (g.marks ++ [.groupEnd p]) p :=
    .append (.keep _ hheld) (.groupEnd (.nil p))
  have hmarks : g.marks ++ [.groupEnd p] = .groupBegin (some p) :: (g.held ++ [.groupEnd p]) := by
    rw [OpenGroup.marks, hstop, List.cons_append]
  cases front with
  | nil =>
    refine ⟨⟨limit, [], p⟩, rfl, List.nil_suffix, sound_nil width limit p, _, _, ?_, hclosed, fun rest => ?_⟩
    · simp [pending]
    · rw [hmarks]
      simp [run, closeGroupsWithinFrom, OpenGroup.waiting]
  | cons f front =>
    obtain ⟨hnested, hg, -⟩ := hs.nested.of_append
    have hheld' : ∀ m ∈ g.marks ++ [.groupEnd p], m.pos ≤ p := by
      rw [hmarks, List.forall_mem_cons, List.forall_mem_append, List.forall_mem_singleton]
      exact ⟨Nat.le_refl p, hg.held g (List.mem_singleton_self g), Nat.le_refl p⟩
    refine ⟨⟨limit, holdMore (g.marks ++ [.groupEnd p]) (f :: front), p⟩, rfl, ?_,
      ⟨hnested.holdMore hheld', hstanding.holdMore hclosed, Limits.holdMore _ hs.limits⟩, [], [], ?_, ?_,
      fun rest => ?_⟩
    · rwa [spans, span_holdMore]
    · rw [pending_holdMore _ (List.cons_ne_nil f front)]
      simp [pending]
    · rw [start, start, firstStart_holdMore _ (List.cons_ne_nil f front) p p]
      exact .nil _
    · rw [hmarks, run, run, ← hold_waiting, List.map_append, List.map_cons]
      exact closeGroupsWithinFrom_groupEnd _ _ _ _ _ _

end Scene

/-! ### Documents -/

/-- The open groups leave room: they do not end before `stop`, and the innermost one is wider than the groups
`inner`. -/
structure Room (spans : List (Nat × Nat)) (stop : Nat) (inner : List Doc) : Prop where
  reach : ∀ s ∈ spans, stop ≤ s.2
  narrower : ∀ s ∈ spans.getLast?, ∀ d ∈ inner, d.flatWidth < s.2 - s.1

namespace Room

variable {spans spans' : List (Nat × Nat)} {stop stop' : Nat} {inner inner' : List Doc}

theorem mono (h : Room spans stop inner) (hspans : spans' <:+ spans) (hstop : stop' ≤ stop)
    (hinner : ∀ d ∈ inner', d ∈ inner) : Room spans' stop' inner' := by
  refine ⟨fun s hs => Nat.le_trans hstop (h.reach s (hspans.subset hs)), fun s hs d hd => ?_⟩
  obtain ⟨front, rfl⟩ := hspans
  refine h.narrower s ?_ d (hinner d hd)
  rw [Option.mem_def] at hs ⊢
  rw [List.getLast?_append, hs, Option.some_or]

theorem concat (h : Room spans stop inner) {start : Nat} (hinner : ∀ d ∈ inner', d.flatWidth < stop - start) :
    Room (spans ++ [(start, stop)]) stop inner' := by
  refine ⟨List.forall_mem_append.2 ⟨h.reach, List.forall_mem_singleton.2 (Nat.le_refl stop)⟩, fun s hs => ?_⟩
  rw [List.getLast?_concat] at hs
  obtain rfl := Option.some.inj hs
  exact hinner

end Room

namespace Scene

mutual

/-- A document is read to its end. -/
theorem reads_events (d : Doc) (indent : Int) (s : Scene) (hd : d.Tapers) (hindent : 0 ≤ indent) (hs : s.Sound width)
    (hroom : Room s.spans (s.pos + d.flatWidth) d.innerGroups) :
    ∃ s', s'.pos = s.pos + d.flatWidth ∧ s'.spans <:+ s.spans ∧
      s.Reads width (positions s.pos (d.events indent)) (d.marks indent s.pos) s' := by
  have hreach : ∀ g ∈ s.groups, s.pos + d.flatWidth ≤ g.stop := fun g hg => hroom.reach g.span (List.mem_map_of_mem hg)
  cases d with
  | text x =>
    have hx : Forgets width s.pos [.text (s.pos + x.length) x] [.text (s.pos + x.length) x] (s.pos + x.length) :=
      .text x (.nil _)
    exact reads_visible hs hx rfl (Nat.le_add_right _ _) hreach (fun _ _ _ _ => rfl) fun _ _ => rfl
  | line =>
    have hline : Forgets width s.pos [.line (s.pos + 1) indent] [.line (s.pos + 1) indent] (s.pos + 1) :=
      .line hindent (.nil _)
    exact reads_visible hs hline rfl (Nat.le_add_right _ _) hreach (fun _ _ _ _ => rfl) fun _ _ => rfl
  | seq ds => exact reads_allEvents ds indent s hd hindent hs hroom
  | nest n d =>
    exact reads_events d (indent + n) s hd.of_nest (Int.add_nonneg hindent (hd.nest n d List.mem_cons_self)) hs hroom
  | group d =>
    have hmem : Doc.group d ∈ (Doc.group d).parts := List.mem_cons_self
    have hwidth := Doc.flatWidth_pos d hd.of_group (hd.nonempty d hmem)
    rw [Doc.flatWidth] at hroom
    obtain ⟨s₁, hpos₁, hspans₁, hbegin⟩ := reads_groupBegin (s.pos + d.flatWidth) hs
      (Nat.lt_add_of_pos_right hwidth) fun g hg => by
        have hlast : g.span ∈ s.spans.getLast? := by
          rw [spans, List.getLast?_map]
          exact Option.mem_map_of_mem OpenGroup.span hg
        rw [Nat.add_sub_cancel_left]
        exact hroom.narrower g.span hlast d List.mem_cons_self
    have hinside : Room (s.spans ++ [(s.pos, s.pos + d.flatWidth)]) (s.pos + d.flatWidth) d.innerGroups :=
      hroom.concat fun e he => by simpa using hd.narrower d hmem e he
    obtain ⟨s₂, hpos₂, hspans₂, hbody⟩ := reads_events d indent s₁ hd.of_group hindent hbegin.sound
      (hinside.mono hspans₁ (Nat.le_of_eq (by rw [hpos₁])) fun _ he => he)
    rw [hpos₁] at hpos₂ hbody
    obtain ⟨s₃, hpos₃, hspans₃, hend⟩ := reads_groupEnd s.spans s.pos hbody.sound
      (hpos₂ ▸ hspans₂.trans hspans₁)
    rw [hpos₂] at hpos₃ hend
    refine ⟨s₃, hpos₃, hspans₃, ?_⟩
    rw [Doc.positions_group, Doc.marks]
    exact (hbegin.trans hbody).trans hend

/-- Documents are read to their ends. -/
theorem reads_allEvents (ds : List Doc) (indent : Int) (s : Scene) (hd : (Doc.seq ds).Tapers) (hindent : 0 ≤ indent)
    (hs : s.Sound width) (hroom : Room s.spans (s.pos + Doc.flatWidths ds) (Doc.allInnerGroups ds)) :
    ∃ s', s'.pos = s.pos + Doc.flatWidths ds ∧ s'.spans <:+ s.spans ∧
      s.Reads width (positions s.pos (Doc.allEvents indent ds)) (Doc.allMarks indent s.pos ds) s' := by
  cases ds with
  | nil => exact ⟨s, rfl, List.suffix_rfl, .refl hs⟩
  | cons d ds =>
    rw [Doc.flatWidths, Doc.allInnerGroups] at hroom
    obtain ⟨s₁, hpos₁, hspans₁, hfirst⟩ := reads_events d indent s hd.head hindent hs
      (hroom.mono List.suffix_rfl (by omega) fun _ he => List.mem_append_left _ he)
    obtain ⟨s₂, hpos₂, hspans₂, hrest⟩ := reads_allEvents ds indent s₁ hd.tail hindent hfirst.sound
      (hroom.mono hspans₁ (by omega) fun _ he => List.mem_append_right _ he)
    rw [hpos₁] at hpos₂ hrest
    refine ⟨s₂, by rw [hpos₂, Doc.flatWidths, Nat.add_assoc], hspans₂.trans hspans₁, ?_⟩
    rw [Doc.positions_cons, Doc.allMarks]
    exact hfirst.trans hrest

end

end Scene

/-- What `closeGroupsWithin` makes of a document differs from its marks with true ends only by ends that are left
out. -/
theorem forgets_closeGroupsWithin (width : Int) {d : Doc} {indent : Int} (hd : d.Tapers) (hindent : 0 ≤ indent) :
    ∃ q, Forgets width 0 (d.marks indent 0) (closeGroupsWithin width (positions 0 (d.events indent))) q := by
  obtain ⟨s', -, hspans, hreads⟩ := Scene.reads_events d indent ⟨0, [], 0⟩ hd hindent
    (Scene.sound_nil width 0 0) ⟨nofun, nofun⟩
  obtain ⟨out, done, hdone, hforgets, hrun⟩ := hreads.writes
  have hclosed : s'.groups = [] := List.map_eq_nil_iff.1 (List.eq_nil_of_suffix_nil hspans)
  have hwritten : closeGroupsWithin width (positions 0 (d.events indent)) = out := by
    simpa [Scene.run, closeGroupsWithin, closeGroupsWithinFrom, hclosed] using hrun []
  have hmarks : d.marks indent 0 = done := by simpa [pending, hclosed] using hdone
  rw [hwritten, hmarks]
  exact ⟨_, hforgets⟩

/-- **A rendering is the same as with the ends of all groups known.**  No indentation is negative, no group is empty, as
groups are made, and every group is wider than each of the groups directly inside it. -/
theorem render_eq_unlimited (d : Doc) (width indent : Int) (hindent : 0 ≤ indent) (hd : d.Tapers) :
    d.render width indent = print width (closeGroups (positions 0 (d.events indent))) := by
  obtain ⟨q, hforgets⟩ := forgets_closeGroupsWithin width hd hindent
  rw [closeGroups_eq_marks, Doc.render, print, print, hforgets.printFrom_eq 0 width (by omega)]

/-- A call with a call in it, on lines of nine: the outer group is given up before its end, the inner one fits. -/
def nestedCall : Doc :=
  .group (.nest 2 (.seq [.text "f(", .group (.seq [.text "g(x,", .line, .text "y)"]), .text ",", .line, .text "z)"]))

theorem nestedCall_tapers : nestedCall.Tapers := by
  refine ⟨fun n e he => ?_, fun e he => ?_, fun e he => ?_⟩ <;>
    simp [nestedCall, Doc.parts, Doc.allParts] at he
  · omega
  · rcases he with rfl | rfl <;> decide
  · rcases he with rfl | rfl <;> decide

theorem nestedCall_unlimited : 0 ≤ (0 : Int) ∧ nestedCall.Tapers ∧
    nestedCall.render 9 0 = print 9 (closeGroups (positions 0 (nestedCall.events 0))) :=
  ⟨by decide, nestedCall_tapers, render_eq_unlimited nestedCall 9 0 (by decide) nestedCall_tapers⟩

end Peephole.Layout
