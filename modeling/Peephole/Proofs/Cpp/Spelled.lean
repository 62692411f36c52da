import Peephole.Proofs.Cpp.Printed
import Peephole.Proofs.Layout.Shown

/-!
# The text of printed expressions

* `ShownAs` : a text that shows pieces, with at least one blank or line break for each line.
* `shownAs_render` : every rendering of a document shows its pieces.
* `Expr.Lexable` : names are those of tokens, and no two minus signs stand next to each other.
* `reads_render` : **the text of an expression is read as `Expr.read` says**, on lines of every width.
-/

namespace Peephole.Layout

open Cpp (isGap)

inductive ShownAs : List Piece → List Char → Prop
  | nil : ShownAs [] []
  | text {s : String} {ps : List Piece} {cs : List Char} (h : ShownAs ps cs) : ShownAs (.text s :: ps) (s.toList ++ cs)
  | line {i : Int} {gap : List Char} {ps : List Piece} {cs : List Char} (hne : gap ≠ [])
    (hgap : ∀ c ∈ gap, isGap c = true) (h : ShownAs ps cs) : ShownAs (.line i :: ps) (gap ++ cs)

theorem ShownAs.of_shows {ps : List Piece} {outs : List String} (h : List.Forall₂ Piece.Shows ps outs) :
    ShownAs ps (outs.flatMap String.toList) := by
  induction h with
  | nil => exact .nil
  | @cons p out ps outs hp _ ih =>
    rw [List.flatMap_cons]
    cases p with
    | text s =>
      obtain rfl : out = s := hp
      exact .text ih
    | line i =>
      refine .line ?_ ?_ ih
      · rcases hp with rfl | rfl <;> simp [blanks]
      · rcases hp with rfl | rfl <;> simp [blanks, isGap]

theorem shownAs_render (d : Doc) (width indent : Int) : ShownAs (d.pieces indent) (d.render width indent).toList := by
  obtain ⟨outs, hshows, heq⟩ := render_shows d width indent
  rw [heq, String.toList_join]
  exact .of_shows hshows

theorem shownAs_append {ps qs : List Piece} {cs : List Char} :
    ShownAs (ps ++ qs) cs ↔ ∃ as bs, cs = as ++ bs ∧ ShownAs ps as ∧ ShownAs qs bs := by
  constructor
  · intro h
    induction ps generalizing cs with
    | nil => exact ⟨[], cs, rfl, .nil, h⟩
    | cons p ps ih =>
      cases h with
      | text h =>
        obtain ⟨as, bs, rfl, ha, hb⟩ := ih h
        exact ⟨_, bs, (List.append_assoc ..).symm, .text ha, hb⟩
      | line hne hgap h =>
        obtain ⟨as, bs, rfl, ha, hb⟩ := ih h
        exact ⟨_, bs, (List.append_assoc ..).symm, .line hne hgap ha, hb⟩
  · rintro ⟨as, bs, rfl, ha, hb⟩
    induction ha with
    | nil => exact hb
    | text _ ih =>
      rw [List.append_assoc]
      exact .text ih
    | line hne hgap _ ih =>
      rw [List.append_assoc]
      exact .line hne hgap ih

theorem shownAs_text {s : String} {cs : List Char} : ShownAs [.text s] cs ↔ cs = s.toList := by
  constructor
  · intro h
    cases h with
    | text h =>
      cases h
      rw [List.append_nil]
  · rintro rfl
    simpa using ShownAs.text (s := s) .nil

/-! ### Pieces of built documents -/

namespace Doc

variable {indent : Int}

@[simp] theorem pieces_text (s : String) : (text s).pieces indent = [.text s] := rfl

@[simp] theorem pieces_line : line.pieces indent = [.line indent] := rfl

@[simp] theorem pieces_nest (n : Int) (d : Doc) : (nest n d).pieces indent = d.pieces (indent + n) := rfl

@[simp] theorem pieces_group (d : Doc) : (group d).pieces indent = d.pieces indent := by
  have hend : [Event.groupEnd].filterMap Event.piece? = [] := rfl
  rw [pieces, events, List.filterMap_cons_none rfl, List.filterMap_append, hend, List.append_nil]
  rfl

theorem pieces_seq (ds : List Doc) : (seq ds).pieces indent = ds.flatMap (pieces indent) := by
  induction ds with
  | nil => rfl
  | cons d ds ih =>
    have hrest : (allEvents indent ds).filterMap Event.piece? = ds.flatMap (pieces indent) := ih
    simp [pieces, events, allEvents, hrest]

theorem flatMap_items (d : Doc) : d.items.flatMap (pieces indent) = d.pieces indent := by
  cases d with
  | seq ds => exact (pieces_seq ds).symm
  | _ => simp [items]

@[simp] theorem pieces_cat (ds : List Doc) : (cat ds).pieces indent = ds.flatMap (pieces indent) := by
  have hitems : (ds.flatMap items).flatMap (pieces indent) = ds.flatMap (pieces indent) := by
    simp only [List.flatMap_assoc, flatMap_items]
  rw [← hitems, cat]
  split
  · next d hd => simp [hd]
  · exact pieces_seq _

@[simp] theorem pieces_append (a b : Doc) : (a ++ b).pieces indent = a.pieces indent ++ b.pieces indent := by
  show (cat [a, b]).pieces indent = _
  simp

@[simp] theorem pieces_grouped (d : Doc) : d.grouped.pieces indent = d.pieces indent := by
  unfold grouped
  split
  · rfl
  · split <;> simp

end Doc

end Peephole.Layout

namespace Peephole.Cpp

open Layout

/-! ### Tokens of the text -/

/-- The sign that the text of an operand begins with. -/
def Expr.hasMinus : Expr → Bool
  | .unary op _ => op == "-"
  | e => e.isNegative

mutual

/-- Names are those of tokens, and no minus sign stands directly in front of another. -/
def Expr.Lexable : Expr → Prop
  | .var name => IsName name ∨ ∃ w, IsName w ∧ name.toList = '-' :: w.toList
  | .raw _ | .assign _ _ => False
  | .call fn args => IsName fn ∧ Expr.AllLexable args
  | .field _ object name => IsName name ∧ object.Lexable
  | .method _ object name args => IsName name ∧ object.Lexable ∧ Expr.AllLexable args
  | .unary op arg => (op = "~" ∨ op = "-" ∧ arg.hasMinus = false) ∧ arg.Lexable
  | .binary _ left right => left.Lexable ∧ right.Lexable

def Expr.AllLexable : List Expr → Prop
  | [] => True
  | e :: es => e.Lexable ∧ Expr.AllLexable es

end

/-- A mark that no longer mark begins with. -/
theorem munch?_single {s : String} (hs : s = "(" ∨ s = ")" ∨ s = "," ∨ s = "~") (cs : List Char) :
    munch? (s.toList ++ cs) = some s := by
  rcases hs with rfl | rfl | rfl | rfl <;> rfl

/-- An infix operator and a blank. -/
theorem munch?_symbol (op : BinaryOp) (cs : List Char) : munch? (op.symbol.toList ++ ' ' :: cs) = some op.symbol := by
  cases op <;> rfl

/-- A minus sign in front of something that does not make it longer. -/
theorem munch?_minus {c : Char} (hc : c ≠ '-' ∧ c ≠ '>' ∧ c ≠ '=') (cs : List Char) :
    munch? ("-".toList ++ c :: cs) = some "-" := by
  obtain ⟨hminus, harrow, heq⟩ := hc
  have h₁ : ('-' == c) = false := beq_eq_false_iff_ne.2 (Ne.symm hminus)
  have h₂ : ('>' == c) = false := beq_eq_false_iff_ne.2 (Ne.symm harrow)
  have h₃ : ('=' == c) = false := beq_eq_false_iff_ne.2 (Ne.symm heq)
  simp [munch?, marks, List.find?, List.isPrefixOf, h₁, h₂, h₃]

/-- The mark in front of a field. -/
theorem munch?_access (arrow : Bool) {c : Char} (hc : isWordChar c = true) (cs : List Char) :
    munch? ((access arrow).toList ++ c :: cs) = some (access arrow) := by
  have hstar : ('*' == c) = false := beq_eq_false_iff_ne.2 (by rintro rfl; exact absurd hc (by decide))
  have hpoint : ('.' == c) = false := beq_eq_false_iff_ne.2 (by rintro rfl; exact absurd hc (by decide))
  cases arrow <;> simp [access, munch?, marks, List.find?, List.isPrefixOf, hstar, hpoint]

theorem spells_gap {gap : List Char} (hgap : ∀ c ∈ gap, isGap c = true) {ts : List Token} {cs : List Char}
    (h : Spells ts cs) : Spells ts (gap ++ cs) := by
  induction gap with
  | nil => exact h
  | cons c gap ih =>
    exact .gap (hgap c (List.mem_cons_self ..)) (ih fun d hd => hgap d (List.mem_cons_of_mem _ hd))

/-- Every text that shows the expression is made of its tokens. -/
def Spelled (e : Expr) : Prop :=
  ∀ {prec : Nat} {indent : Int} {cs rest : List Char} {ts : List Token}, ShownAs ((e.doc prec).pieces indent) cs →
    EndsWord rest → Spells ts rest → Spells (e.toks prec ++ ts) (cs ++ rest)

/-- Every text that shows the arguments, up to the closing parenthesis, is made of their tokens. -/
def ArgsSpelled (es : List Expr) : Prop :=
  ∀ {indent : Int} {cs rest : List Char} {ts : List Token}, ShownAs ((commaList (Expr.docs es)).pieces indent) cs →
    Spells ts rest → Spells (Expr.argToks es ++ .mark ")" :: ts) (cs ++ ')' :: rest)

section Constructors

variable {e left right : Expr} {rest : List Char} {ts : List Token}

attribute [local simp] Expr.doc

theorem endsWord_cons {c : Char} (hc : isWordChar c = false ∧ c ≠ '<') (cs : List Char) : EndsWord (c :: cs) := by
  intro d hd
  obtain rfl : c = d := by simpa using hd
  exact hc

theorem spells_single {s : String} (hs : s = "(" ∨ s = ")" ∨ s = "," ∨ s = "~") (h : Spells ts rest) :
    Spells (.mark s :: ts) (s.toList ++ rest) := .mark (munch?_single hs rest) h

theorem head_ne_minus {name : String} (h : IsName name) : name.toList.head? ≠ some '-' := by
  obtain ⟨c, w, t, hw, hc, -⟩ := h.split
  rw [hw]
  rintro ⟨⟩
  exact absurd hc (by decide)

theorem spelled_var {name : String} (h : (Expr.var name).Lexable) : Spelled (.var name) := by
  intro prec indent cs rest ts hcs hend hrest
  obtain rfl : cs = name.toList := shownAs_text.1 hcs
  rcases h with hword | ⟨w, hword, hname⟩
  · rw [Expr.toks, (word_plain (head_ne_minus hword)).1]
    exact .word hword hend hrest
  · obtain ⟨c, w', t, hw, hc, -⟩ := hword.split
    have hminus : c ≠ '-' ∧ c ≠ '>' ∧ c ≠ '=' := by
      refine ⟨?_, ?_, ?_⟩ <;> (rintro rfl; exact absurd hc (by decide))
    have htoks := (word_minus hname).1
    rw [String.ofList_toList] at htoks
    rw [Expr.toks, htoks, hname]
    have hmunch : munch? ("-".toList ++ (w.toList ++ rest)) = some "-" := by
      rw [hw]
      exact munch?_minus hminus _
    exact .mark hmunch (.word hword hend hrest)

theorem spelled_call {fn : String} {args : List Expr} (hfn : IsName fn) (hargs : ArgsSpelled args) :
    Spelled (.call fn args) := by
  intro prec indent cs rest ts hcs _ hrest
  have hopen : ∀ {ts : List Token} {cs : List Char}, Spells ts cs →
      Spells (.word fn :: .mark "(" :: ts) (fn.toList ++ '(' :: cs) := fun h =>
    .word hfn (endsWord_cons (by decide) _) (spells_single (.inl rfl) h)
  have htoks : (Expr.call fn args).toks prec ++ ts =
      .word fn :: .mark "(" :: (Expr.argToks args ++ .mark ")" :: ts) := by simp [Expr.toks]
  rw [htoks]
  cases args with
  | nil =>
    obtain rfl : cs = (fn ++ "()").toList := shownAs_text.1 hcs
    rw [String.toList_append, List.append_assoc]
    exact hopen (spells_single (.inr (.inl rfl)) hrest)
  | cons e es =>
    simp only [Expr.doc, Doc.pieces_nest, Doc.pieces_grouped, Doc.pieces_append, Doc.pieces_text, shownAs_append,
      shownAs_text] at hcs
    obtain ⟨_, _, rfl, ⟨_, ms, rfl, rfl, hms⟩, rfl⟩ := hcs
    simp only [String.toList_append, List.append_assoc]
    exact hopen (hargs hms hrest)

/-- A field access behind an object. -/
theorem spells_access (arrow : Bool) {name : String} (hname : IsName name) (hend : EndsWord rest)
    (hrest : Spells ts rest) :
    EndsWord ((access arrow).toList ++ (name.toList ++ rest)) ∧
      Spells (.mark (access arrow) :: .word name :: ts) ((access arrow).toList ++ (name.toList ++ rest)) := by
  obtain ⟨c, w, t, hw, hc, -⟩ := hname.split
  refine ⟨by cases arrow <;> exact endsWord_cons (by decide) _, .mark ?_ (.word hname hend hrest)⟩
  rw [hw]
  exact munch?_access arrow hc _

theorem spelled_field {arrow : Bool} {name : String} (hname : IsName name) (he : Spelled e) :
    Spelled (.field arrow e name) := by
  intro prec indent cs rest ts hcs hend hrest
  simp only [Expr.doc, Doc.pieces_append, Doc.pieces_text, shownAs_append, shownAs_text] at hcs
  obtain ⟨_, _, rfl, ⟨os, _, rfl, hos, rfl⟩, rfl⟩ := hcs
  obtain ⟨hstop, haccess⟩ := spells_access arrow hname hend hrest
  simp only [Expr.toks, List.append_assoc]
  exact he hos hstop haccess

theorem spelled_method {arrow : Bool} {name : String} {args : List Expr} (hname : IsName name) (he : Spelled e)
    (hargs : ArgsSpelled args) : Spelled (.method arrow e name args) := by
  intro prec indent cs rest ts hcs _ hrest
  simp only [Expr.doc, Doc.pieces_append, Doc.pieces_text, Doc.pieces_grouped, Doc.pieces_nest, shownAs_append,
    shownAs_text] at hcs
  obtain ⟨_, _, rfl, ⟨_, _, rfl, ⟨os, _, rfl, hos, rfl⟩, rfl⟩, _, _, rfl, ⟨_, xs, rfl, rfl, hxs⟩, rfl⟩ := hcs
  have hcall := spells_single (.inl rfl) (hargs hxs hrest)
  obtain ⟨hstop, haccess⟩ := spells_access arrow hname (endsWord_cons (by decide) _) hcall
  simp only [Expr.toks, List.append_assoc, List.cons_append, List.nil_append]
  exact he hos hstop haccess

/-- The text of tokens begins with a blank or with the first of them. -/
theorem head_of_spells {t : Token} {cs : List Char} (h : Spells (t :: ts) cs) : ∃ c cs', cs = c :: cs' ∧
    (isGap c = true ∨ isWordChar c = true ∨ ∃ s w, t = .mark s ∧ s.toList = c :: w) := by
  cases h with
  | gap hc => exact ⟨_, _, rfl, .inl hc⟩
  | word hs =>
    obtain ⟨c, w, t, hw, hc, -⟩ := hs.split
    exact ⟨c, _, by rw [hw]; rfl, .inr (.inl hc)⟩
  | mark hm =>
    obtain ⟨c, w, hw, -⟩ := head_of_mem_marks (List.mem_of_find?_eq_some hm)
    exact ⟨c, _, by rw [hw]; rfl, .inr (.inr ⟨_, w, rfl, hw⟩)⟩

theorem sign?_of_lexable {s : String} (hl : e.Lexable) (hminus : e.hasMinus = false) (hsign : e.sign? = some s) :
    s = "~" := by
  cases e with
  | unary op arg =>
    cases hsign
    exact hl.1.resolve_right fun h => by simp [Expr.hasMinus, h.1] at hminus
  | var name => simp_all [Expr.sign?, Expr.hasMinus]
  | _ => cases hsign

theorem spelled_unary {op : String} (hp : (Expr.unary op e).Printable) (hl : (Expr.unary op e).Lexable)
    (he : Spelled e) : Spelled (.unary op e) := by
  intro prec indent cs rest ts hcs hend hrest
  simp only [Expr.doc, Doc.pieces_nest, Doc.pieces_append, Doc.pieces_text, shownAs_append, shownAs_text] at hcs
  obtain ⟨_, as, rfl, rfl, has⟩ := hcs
  have harg := he has hend hrest
  rw [Expr.toks, List.cons_append, List.append_assoc]
  rcases hl.1 with rfl | ⟨rfl, hminus⟩
  · exact spells_single (.inr (.inr (.inr rfl))) harg
  · -- The operand begins with none of the characters that would make the sign a longer mark.
    refine .mark ?_ harg
    obtain ⟨t, ts', htoks, ht⟩ := head_toks 3 hp.2
    rw [htoks] at harg
    obtain ⟨c, cs, heq, hc⟩ := head_of_spells harg
    rw [heq]
    refine munch?_minus ?_ cs
    rcases hc with hc | hc | ⟨s, w, rfl, hs⟩
    · refine ⟨?_, ?_, ?_⟩ <;> (rintro rfl; exact absurd hc (by decide))
    · refine ⟨?_, ?_, ?_⟩ <;> (rintro rfl; exact absurd hc (by decide))
    · have hs' : s = "(" ∨ s = "~" := by
        rcases ht with ⟨w, hw⟩ | hopen | ⟨s', -, hmark, hsign⟩
        · cases hw
        · exact .inl (Token.mark.inj hopen)
        · cases hmark
          exact .inr (sign?_of_lexable hl.2 hminus (hsign (level_eq_zero (by omega) e)))
      rcases hs' with rfl | rfl <;> (cases hs; decide)

/-- An operator with its operands, without parentheses. -/
theorem spells_body {op : BinaryOp} {indent : Int} {cs : List Char} (hl : Spelled left) (hr : Spelled right)
    (hcs : ShownAs ((left.doc op.precedence ++ .line ++ .text op.symbol ++ .text " " ++
      right.doc op.rightPlace).pieces indent) cs) (hend : EndsWord rest) (hrest : Spells ts rest) :
    Spells (bodyToks op left right ++ ts) (cs ++ rest) := by
  simp only [Doc.pieces_append, Doc.pieces_text, Doc.pieces_line, shownAs_append, shownAs_text] at hcs
  obtain ⟨_, rs, rfl, ⟨_, _, rfl, ⟨_, _, rfl, ⟨ls, gs, rfl, hls, hgs⟩, rfl⟩, rfl⟩, hrs⟩ := hcs
  cases hgs with
  | @line _ gap _ tail hne hgap htail =>
    cases htail
    obtain ⟨g, gap', rfl⟩ := List.exists_cons_of_ne_nil hne
    have hg : isWordChar g = false ∧ g ≠ '<' := by
      have hblank := hgap g (List.mem_cons_self ..)
      simp only [isGap, Bool.or_eq_true, beq_iff_eq] at hblank
      rcases hblank with rfl | rfl <;> decide
    have hright : Spells (.mark op.symbol :: (right.toks op.rightPlace ++ ts)) (op.symbol.toList ++ ' ' :: (rs ++ rest)) :=
      .mark (munch?_symbol op _) (.gap (by decide) (hr hrs hend hrest))
    have hboth := hl hls (endsWord_cons hg _) (spells_gap hgap hright)
    simpa [bodyToks, List.append_assoc] using hboth

theorem spelled_binary {op : BinaryOp} (hl : Spelled left) (hr : Spelled right) :
    Spelled (.binary op left right) := by
  intro prec indent cs rest ts hcs hend hrest
  rw [toks_binary]
  by_cases hparens : needsParens prec op.precedence = true
  · simp only [Expr.doc, hparens, if_true, Doc.pieces_grouped, Doc.pieces_nest] at hcs
    rw [Doc.pieces_append, Doc.pieces_append, Doc.pieces_text, Doc.pieces_text] at hcs
    obtain ⟨xs, ys, rfl, hxs, hys⟩ := shownAs_append.1 hcs
    obtain ⟨os, ms, rfl, hos, hms⟩ := shownAs_append.1 hxs
    obtain rfl := shownAs_text.1 hos
    obtain rfl := shownAs_text.1 hys
    rw [if_pos hparens, List.cons_append, List.append_assoc, List.append_assoc, List.append_assoc]
    exact spells_single (.inl rfl)
      (spells_body hl hr hms (endsWord_cons (by decide) _) (spells_single (.inr (.inl rfl)) hrest))
  · rw [if_neg hparens]
    by_cases hlt : op.precedence < prec
    · simp only [Expr.doc, if_neg hparens, if_pos hlt, Doc.pieces_nest, Doc.pieces_grouped] at hcs
      exact spells_body hl hr hcs hend hrest
    · simp only [Expr.doc, if_neg hparens, if_neg hlt] at hcs
      exact spells_body hl hr hcs hend hrest

theorem pieces_commaList_cons (indent : Int) (d d' : Doc) (ds : List Doc) :
    (commaList (d :: d' :: ds)).pieces indent =
      d.pieces indent ++ (.text "," :: .line indent :: (commaList (d' :: ds)).pieces indent) := by
  simp [commaList, Doc.join, separator]

theorem argsSpelled_cons {es : List Expr} (he : Spelled e) (hes : ArgsSpelled es) : ArgsSpelled (e :: es) := by
  intro indent cs rest ts hcs hrest
  cases es with
  | nil =>
    have hone : (commaList (Expr.docs [e])).pieces indent = (e.doc 18).pieces indent := by
      simp [commaList, Doc.join, Expr.docs]
    rw [hone] at hcs
    exact he hcs (endsWord_cons (by decide) _) (spells_single (.inr (.inl rfl)) hrest)
  | cons e' es =>
    simp only [Expr.docs] at hcs
    rw [pieces_commaList_cons] at hcs
    obtain ⟨as, bs, rfl, has, hbs⟩ := shownAs_append.1 hcs
    cases hbs with
    | text hbs =>
      cases hbs with
      | line hne hgap hbs =>
        have hargs := spells_single (.inr (.inr (.inl rfl))) (spells_gap hgap (hes hbs hrest))
        have hfirst := he has (endsWord_cons (by decide) _) hargs
        simp only [Expr.argToks, List.append_assoc, List.cons_append] at hfirst ⊢
        exact hfirst

end Constructors

mutual

theorem spelled_of_lexable (e : Expr) (hp : e.Printable) (hl : e.Lexable) : Spelled e := by
  cases e with
  | var name => exact spelled_var hl
  | raw s => exact hp.elim
  | assign target value => exact hp.elim
  | call fn args => exact spelled_call hl.1 (argsSpelled_of_lexable args hp hl.2)
  | field arrow object name => exact spelled_field hl.1 (spelled_of_lexable object hp.2 hl.2)
  | method arrow object name args =>
    exact spelled_method hl.1 (spelled_of_lexable object hp.2.1 hl.2.1) (argsSpelled_of_lexable args hp.2.2 hl.2.2)
  | unary op arg => exact spelled_unary hp hl (spelled_of_lexable arg hp.2 hl.2)
  | binary op left right =>
    exact spelled_binary (spelled_of_lexable left hp.2.1 hl.1) (spelled_of_lexable right hp.2.2 hl.2)

theorem argsSpelled_of_lexable (es : List Expr) (hp : Expr.AllPrintable es) (hl : Expr.AllLexable es) :
    ArgsSpelled es := by
  cases es with
  | nil =>
    intro indent cs rest ts hcs hrest
    have hnone : (commaList (Expr.docs [])).pieces indent = [] := rfl
    rw [hnone] at hcs
    cases hcs
    exact spells_single (.inr (.inl rfl)) hrest
  | cons e es =>
    exact argsSpelled_cons (spelled_of_lexable e hp.1 hl.1) (argsSpelled_of_lexable es hp.2 hl.2)

end

/-- The text of an expression, on lines of every width and behind every indentation, is read as `Expr.read` says. -/
theorem reads_render {e : Expr} (hp : e.Printable) (hl : e.Lexable) (prec : Nat) (width indent : Int) :
    Reads ((e.doc prec).render width indent).toList e.read := by
  have hend : EndsWord [] := fun c hc => absurd hc (by simp)
  have hspells := spelled_of_lexable e hp hl (shownAs_render (e.doc prec) width indent) hend .nil
  rw [List.append_nil, List.append_nil] at hspells
  exact ⟨_, tokens_of_spells hspells, reaches_toks hp prec⟩

end Peephole.Cpp
