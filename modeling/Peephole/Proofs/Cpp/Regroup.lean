import Mathlib.Data.List.Forall2
import Peephole.Proofs.Cpp.Spelled

/-!
# Grouping of printed operators

* `Expr.IsTree` : operators of generated code over names, calls and field accesses.
* `Regroups` : the same operands in the same order, with chains grouped to the left.
* `reads_regrouped` : **a printed tree is read back up to the grouping of its chains.**
-/

namespace Peephole.Cpp

/-- The infix operators of generated code. -/
def BinaryOp.isEmitted : BinaryOp → Bool
  | .div | .mod | .shiftRight | .assign | .comma => false
  | _ => true

/-- The same operands in the same order, with chains grouped to the left: chains of one associative operator, and sums
that go on with `+` or `-`. -/
inductive Regroups : Expr → Expr → Prop
  | refl (e : Expr) : Regroups e e
  | trans {e e' e'' : Expr} (h : Regroups e e') (h' : Regroups e' e'') : Regroups e e''
  | chain {op : BinaryOp} (hop : op ∈ [.mul, .add, .bitAnd, .bitXor, .bitOr, .and, .or]) (a b c : Expr) :
    Regroups (.binary op a (.binary op b c)) (.binary op (.binary op a b) c)
  | sum (a b c : Expr) : Regroups (.binary .add a (.binary .sub b c)) (.binary .sub (.binary .add a b) c)
  | binary (op : BinaryOp) {a a' b b' : Expr} (ha : Regroups a a') (hb : Regroups b b') :
    Regroups (.binary op a b) (.binary op a' b')
  | call (fn : String) {args args' : List Expr} (h : List.Forall₂ Regroups args args') :
    Regroups (.call fn args) (.call fn args')
  | field (arrow : Bool) (name : String) {e e' : Expr} (h : Regroups e e') :
    Regroups (.field arrow e name) (.field arrow e' name)
  | method (arrow : Bool) (name : String) {e e' : Expr} {args args' : List Expr} (h : Regroups e e')
    (hargs : List.Forall₂ Regroups args args') : Regroups (.method arrow e name args) (.method arrow e' name args')

mutual

/-- The operators are those of generated code, and their operands are made of names, calls and field accesses. -/
def Expr.IsTree : Expr → Prop
  | .var name => IsName name
  | .call fn args => IsName fn ∧ Expr.AllTrees args
  | .field _ object name => object.IsTree ∧ IsName name
  | .method _ object name args => object.IsTree ∧ IsName name ∧ Expr.AllTrees args
  | .binary op left right => op.isEmitted = true ∧ left.IsTree ∧ right.IsTree
  | .unary _ _ | .assign _ _ | .raw _ => False

def Expr.AllTrees : List Expr → Prop
  | [] => True
  | e :: es => e.IsTree ∧ Expr.AllTrees es

end

theorem isObject_of_isTree {e : Expr} (h : e.IsTree) : e.isObject = true := by
  cases e with
  | var name => simpa [Expr.isObject, Expr.isNegative] using head_ne_minus h
  | unary | assign | raw => exact h.elim
  | _ => rfl

mutual

theorem printable_of_isTree (e : Expr) (h : e.IsTree) : e.Printable ∧ e.Lexable := by
  cases e with
  | var name => exact ⟨trivial, .inl h⟩
  | call fn args => exact ⟨(allPrintable_of_allTrees args h.2).1, h.1, (allPrintable_of_allTrees args h.2).2⟩
  | field arrow object name =>
    obtain ⟨hp, hl⟩ := printable_of_isTree object h.1
    exact ⟨⟨isObject_of_isTree h.1, hp⟩, h.2, hl⟩
  | method arrow object name args =>
    obtain ⟨hp, hl⟩ := printable_of_isTree object h.1
    obtain ⟨hps, hls⟩ := allPrintable_of_allTrees args h.2.2
    exact ⟨⟨isObject_of_isTree h.1, hp, hps⟩, h.2.1, hl, hls⟩
  | binary op left right =>
    have hop : op.precedence ≤ 14 := by
      have hemitted := h.1
      revert hemitted
      cases op <;> decide
    obtain ⟨hp, hl⟩ := printable_of_isTree left h.2.1
    obtain ⟨hp', hl'⟩ := printable_of_isTree right h.2.2
    exact ⟨⟨hop, hp, hp'⟩, hl, hl'⟩
  | unary | assign | raw => exact h.elim

theorem allPrintable_of_allTrees (es : List Expr) (h : Expr.AllTrees es) :
    Expr.AllPrintable es ∧ Expr.AllLexable es := by
  cases es with
  | nil => exact ⟨trivial, trivial⟩
  | cons e es =>
    obtain ⟨hp, hl⟩ := printable_of_isTree e h.1
    obtain ⟨hps, hls⟩ := allPrintable_of_allTrees es h.2
    exact ⟨⟨hp, hps⟩, hl, hls⟩

end

theorem regroups_rotate {op op' : BinaryOp} (a b c : Expr) (hop : op.isEmitted = true) (hop' : op'.isEmitted = true)
    (hleft : op.leftOnly = false) (hsame : op'.precedence = op.precedence) :
    Regroups (.binary op a (.binary op' b c)) (.binary op' (.binary op a b) c) := by
  have hcases : op' = op ∧ op ∈ [.mul, .add, .bitAnd, .bitXor, .bitOr, .and, .or] ∨ op = .add ∧ op' = .sub := by
    revert hop hop' hleft hsame
    cases op <;> cases op' <;> decide
  rcases hcases with ⟨rfl, hmem⟩ | ⟨rfl, rfl⟩
  · exact .chain hmem a b c
  · exact .sum a b c

/-- A chain goes on with an operand that stands without parentheses. -/
def Continues (e : Expr) : Prop :=
  ∀ before op, op.isEmitted = true → op.leftOnly = false → Regroups (.binary op before e) (Expr.attach before op e)

theorem continues_operand {e : Expr} (hne : ∀ op a b, e ≠ .binary op a b) (he : Regroups e e.read) : Continues e := by
  intro before op _ _
  have hattach : Expr.attach before op e = .binary op before e.read := by
    cases e with
    | binary op' a b => exact absurd rfl (hne op' a b)
    | _ => simp only [Expr.attach, Expr.read]
  rw [hattach]
  exact .binary op (.refl before) he

theorem regroups_binary {op : BinaryOp} {left right : Expr} (hop : op.isEmitted = true)
    (hl : Regroups left left.read ∧ Continues left) (hr : Regroups right right.read ∧ Continues right) :
    Regroups (.binary op left right) (Expr.binary op left right).read ∧ Continues (.binary op left right) := by
  have hchain : ∀ {a a'}, Regroups a a' → Regroups (.binary op a right)
      (if op.leftOnly then .binary op a' right.read else Expr.attach a' op right) := by
    intro a a' ha
    split
    · exact .binary op ha hr.1
    · next hleft => exact .trans (.binary op ha (.refl right)) (hr.2 a' op hop (by simpa using hleft))
  have hread : Regroups (.binary op left right) (Expr.binary op left right).read := hchain hl.1
  refine ⟨hread, fun before op' hop' hleft' => ?_⟩
  -- An operator of the same precedence needs no parentheses here, so that the operand is read as part of the chain.
  by_cases hsame : op.precedence = op'.precedence
  · rw [Expr.attach, if_pos hsame]
    exact .trans (regroups_rotate before left right hop' hop hleft' hsame) (hchain (hl.2 before op' hop' hleft'))
  · rw [attach_binary_of_ne hsame]
    exact .binary op' (.refl before) hread

mutual

theorem regroups_read (e : Expr) (he : e.IsTree) : Regroups e e.read ∧ Continues e := by
  cases e with
  | binary op left right => exact regroups_binary he.1 (regroups_read left he.2.1) (regroups_read right he.2.2)
  | var name =>
    have hread : Regroups (.var name) (Expr.var name).read := by
      rw [Expr.read, (word_plain (head_ne_minus he)).2]
      exact .refl _
    exact ⟨hread, continues_operand nofun hread⟩
  | call fn args =>
    have hread := Regroups.call fn (regroups_readAll args he.2)
    exact ⟨hread, continues_operand nofun hread⟩
  | field arrow object name =>
    have hread := Regroups.field arrow name (regroups_read object he.1).1
    exact ⟨hread, continues_operand nofun hread⟩
  | method arrow object name args =>
    have hread := Regroups.method arrow name (regroups_read object he.1).1 (regroups_readAll args he.2.2)
    exact ⟨hread, continues_operand nofun hread⟩
  | unary | assign | raw => exact he.elim

theorem regroups_readAll (es : List Expr) (hes : Expr.AllTrees es) : List.Forall₂ Regroups es (Expr.readAll es) := by
  cases es with
  | nil => exact .nil
  | cons e es => exact .cons (regroups_read e hes.1).1 (regroups_readAll es hes.2)

end

/-- **Printed trees are read back up to the grouping of chains**, in a place for any precedence and on lines of any
width. -/
theorem reads_regrouped {e : Expr} (he : e.IsTree) (prec : Nat) (width indent : Int) :
    ∃ e', Regroups e e' ∧ ∀ r, Reads ((e.doc prec).render width indent).toList r ↔ r = e' := by
  obtain ⟨hp, hl⟩ := printable_of_isTree e he
  have hreads := reads_render hp hl prec width indent
  refine ⟨e.read, (regroups_read e he).1, fun r => ⟨fun hr => hr.unique hreads, ?_⟩⟩
  rintro rfl
  exact hreads

/-- The tree `(a + (b - c)) | isa<T>(x->n, a < b)`, whose first operand needs parentheses and is printed as a chain. -/
def maskedSum : Expr :=
  .binary .bitOr (.binary .add (.var "a") (.binary .sub (.var "b") (.var "c")))
    (.call "isa<T>" [.field true (.var "x") "n", .binary .lt (.var "a") (.var "b")])

theorem maskedSum_isTree : maskedSum.IsTree := by
  have hall : ∀ s ∈ ["a", "b", "c", "n", "x"], s.toList ≠ [] ∧ s.toList.all isWordChar = true := by decide
  have hname : ∀ s ∈ ["a", "b", "c", "n", "x"], IsName s := fun s hs => .inl (isWord_of_all (hall s hs).1 (hall s hs).2)
  have hisa : IsName "isa<T>" :=
    .inr ⟨"isa", "T", isWord_of_all (by decide) (by decide), isWord_of_all (by decide) (by decide), rfl⟩
  simp only [List.forall_mem_cons] at hname
  simp [maskedSum, Expr.IsTree, Expr.AllTrees, BinaryOp.isEmitted, hname, hisa]

theorem maskedSum_regrouped : maskedSum.IsTree ∧
    ∃ e', Regroups maskedSum e' ∧ ∀ r, Reads ((maskedSum.doc 13).render 10 2).toList r ↔ r = e' :=
  ⟨maskedSum_isTree, reads_regrouped maskedSum_isTree 13 10 2⟩

end Peephole.Cpp
