import Mathlib
import Peephole.Proofs.Cpp.Spelled
import Peephole.Proofs.Emit.Naming
import Peephole.Proofs.Encode.Constant

/-!
# Constant expressions in generated code

A constant expression becomes a C++ expression over the names of its constant symbols.  Some operators become infix
operators, others calls of methods, and literals are plain integers where the code accepts one.  No parentheses are put
around a sign with its operand, so not every expression is read as it was meant.

* `Emitted` : the expressions that the generator makes of a constant expression; `emitted_of_runs` : it makes no others.
* `legible` : no minus sign stands directly in front of another, and no sign in front of a call of a method.
* `Fits` : the literals keep their values on the way through plain integers.
* `constant_reads` : **a legible constant expression computes what was verified.**
-/

namespace Peephole.Emit

open Program Cpp Encode Machine

variable {t : Table} {g g' g₁ : Generator} {e : Expr} {use : Use} {c : Const}

/-! ### Names of values -/

/-- The names that values have stay theirs, and all of them are names of generated code. -/
structure Generator.Extends (g g' : Generator) : Prop where
  kept : ∀ i name, g.valueNames.get? i = some name → g'.valueNames.get? i = some name
  named : g.Named → g'.Named

theorem Generator.Extends.of_eq (h : g'.valueNames = g.valueNames) : g.Extends g' :=
  ⟨fun i name hi => by rwa [h], fun hg i name hi => hg i name (by rwa [← h])⟩

theorem Generator.Extends.trans (h : g.Extends g₁) (h' : g₁.Extends g') : g.Extends g' :=
  ⟨fun i name hi => h'.kept i name (h.kept i name hi), fun hg => h'.named (h.named hg)⟩

theorem nameOf_names {i : ValueId} {name : String} (h : Runs (nameOf i) t g name g') :
    g.Extends g' ∧ g'.valueNames.get? i = some name := by
  have h₁ := runs_valueAt_bind.1 h
  obtain ⟨-, h₂⟩ := runs_ensure_bind.1 h₁
  have h₃ := runs_get_bind.1 h₂
  cases hname : g.valueNames.get? i with
  | some old =>
    rw [hname] at h₃
    obtain ⟨rfl, rfl⟩ := runs_pure.1 h₃
    exact ⟨.of_eq rfl, hname⟩
  | none =>
    rw [hname] at h₃
    cases h₃
    refine ⟨⟨fun j other hj => Slots.get?_put_of_none hname hj _, fun hg j other hj => ?_⟩, Slots.get?_put_self _ _ _⟩
    rcases Slots.get?_put_cases hj with hj | ⟨-, rfl⟩
    · exact hg j other hj
    · exact isIdent_choose _ _

/-- The number of bits of the value with the name. -/
def widthOf (name : String) : Expr :=
  .method true (.method true (.var name) "getType" []) "getScalarSizeInBits" []

theorem widthExpr_names {i : ValueId} (h : Runs (widthExpr i) t g e g') :
    ∃ r name, e = widthOf name ∧ g.Extends g' ∧ g'.valueNames.get? r = some name := by
  obtain ⟨type, htype, rfl⟩ := runs_bind_pure.1 h
  obtain ⟨r, name, hr, hname, -, rfl⟩ := runs_typeExpr htype
  exact ⟨r, name, rfl, .of_eq (Generator.valueNames_of_naming (representative_naming hr)), hname⟩

/-! ### Emitted expressions -/

/-- What the generator makes of a constant expression for a use, where `names` gives the names of values. -/
inductive Emitted (t : Table) (names : ValueId → String → Prop) : Use → Const → Expr → Prop
  | symbol {use : Use} {i : ValueId} {name : String} (hname : names i name)
    (hsymbol : (t.get i).op = .input ∧ (t.get i).name.startsWith "C" = true) :
    Emitted t names use (.symbol (t.get i).name) (.method true (.var name) "getValue" [])
  | wide {r : ValueId} {name : String} {n : Int} (hname : names r name) :
    Emitted t names .wide (.literal n) (.call "APInt" [widthOf name, .var (toString n)])
  | plain {n : Int} : Emitted t names .number (.literal n) (.var (toString n))
  | unary {use : Use} {op : UnaryConst} {a : Const} {e : Expr} (ha : Emitted t names use a e) :
    Emitted t names use (.unary op a) (.unary op.text e)
  | binary {use : Use} {op : BinaryConst} {a b : Const} {e e' : Expr} (ha : Emitted t names .wide a e)
    (hb : Emitted t names (if plainSecond op then .number else .wide) b e') :
    Emitted t names use (.binary op a b) (binaryExpr op e e')

theorem Emitted.mono {names names' : ValueId → String → Prop}
    (hsub : ∀ i name, names i name → names' i name) (h : Emitted t names use c e) : Emitted t names' use c e := by
  induction h with
  | symbol hname hsymbol => exact .symbol (hsub _ _ hname) hsymbol
  | wide hname => exact .wide (hsub _ _ hname)
  | plain => exact .plain
  | unary _ ih => exact .unary ih
  | binary _ _ iha ihb => exact .binary iha ihb

def Generator.NameIs (g : Generator) (i : ValueId) (name : String) : Prop := g.valueNames.get? i = some name

/-- The generator makes nothing else of a constant expression. -/
theorem emitted_of_runs {P : Value → Prop} {i : ValueId} (hc : IsConst t P i c)
    (huse : use ≠ .operand) (h : Runs (exprFor use i) t g e g') :
    g.Extends g' ∧ Emitted t g'.NameIs use c e := by
  induction hc generalizing use g e g' with
  | @symbol i hop hname hleaf =>
    rw [exprFor] at h
    unfold exprWith at h
    have h₁ := runs_valueAt_bind.1 h
    cases use with
    | operand => exact absurd rfl huse
    | wide | number =>
      simp only [hop, hname, if_true] at h₁
      obtain ⟨o, ho, rfl⟩ := runs_bind_pure.1 h₁
      obtain ⟨name, hn, rfl⟩ := runs_bind_pure.1 ho
      obtain ⟨hext, hget⟩ := nameOf_names hn
      exact ⟨hext, .symbol hget ⟨hop, hname⟩⟩
  | @literal i n hop hleaf =>
    rw [exprFor] at h
    unfold exprWith at h
    have h₁ := runs_valueAt_bind.1 h
    cases use with
    | operand => exact absurd rfl huse
    | number =>
      simp only [hop, plainIn] at h₁
      obtain ⟨rfl, rfl⟩ := runs_pure.1 h₁
      exact ⟨.of_eq rfl, .plain⟩
    | wide =>
      simp only [hop, plainIn, wideOf] at h₁
      obtain ⟨width, g₂, hwidth, h₂⟩ := runs_bind.1 h₁
      obtain ⟨k, g₃, hk, h₃⟩ := runs_bind.1 h₂
      obtain ⟨rfl, rfl⟩ := runs_pure.1 hk
      obtain ⟨rfl, rfl⟩ := runs_pure.1 h₃
      obtain ⟨r, name, rfl, hext, hget⟩ := widthExpr_names hwidth
      exact ⟨hext, .wide hget⟩
  | @unary i x op a hop hx _ ih =>
    rw [exprFor] at h
    unfold exprWith at h
    have h₁ := runs_valueAt_bind.1 h
    cases use with
    | operand => exact absurd rfl huse
    | wide | number =>
      simp only [hop, plainIn, dif_pos hx] at h₁
      obtain ⟨o, ho, rfl⟩ := runs_bind_pure.1 h₁
      obtain ⟨hext, hemitted⟩ := ih (by decide) ho
      exact ⟨hext, .unary hemitted⟩
  | @binary i x y op a b hop hx hy _ _ iha ihb =>
    rw [exprFor] at h
    unfold exprWith at h
    have h₁ := runs_valueAt_bind.1 h
    have hsecond : (if plainSecond op then Use.number else Use.wide) ≠ .operand := by split <;> decide
    cases use with
    | operand => exact absurd rfl huse
    | wide | number =>
      simp only [hop, dif_pos hx, dif_pos hy] at h₁
      obtain ⟨o, g₂, ho, h₂⟩ := runs_bind.1 h₁
      obtain ⟨o', ho', rfl⟩ := runs_bind_pure.1 h₂
      obtain ⟨hext, hemitted⟩ := iha (by decide) ho
      obtain ⟨hext', hemitted'⟩ := ihb hsecond ho'
      exact ⟨hext.trans hext', .binary (hemitted.mono hext'.kept) hemitted'⟩

/-! ### Legible expressions -/

/-- Whether the text for a use begins with a minus sign. -/
def startsMinus : Use → Const → Bool
  | _, .unary .neg _ => true
  | .number, .literal n => n < 0
  | _, _ => false

/-- Whether the operator becomes a call of a method of its first operand. -/
def isMethod : BinaryConst → Bool
  | .sdiv | .udiv | .srem | .urem | .ashr | .lshr => true
  | _ => false

/-- Whether the expression is a sign with its operand. -/
def isSigned : Const → Bool
  | .unary _ _ => true
  | _ => false

/-- The use of the second operand of an operator. -/
def secondUse (op : BinaryConst) : Use := if plainSecond op then .number else .wide

/-- No minus sign stands directly in front of another, and no sign in front of a call of a method. -/
def legible : Use → Const → Bool
  | _, .symbol _ | _, .literal _ => true
  | use, .unary op a => legible use a && !(op == .neg && startsMinus use a)
  | _, .binary op a b => legible .wide a && legible (secondUse op) b && !(isMethod op && isSigned a)

theorem isName_repr (n : Nat) : IsName n.repr :=
  .inl ⟨by rw [Nat.toList_repr]; exact Nat.toDigits_ne_nil, fun c hc => isWordChar_of_mem_toString (n := n) hc⟩

/-- A number is written as a word, with a minus sign in front if it is negative. -/
theorem toString_int (n : Int) :
    0 ≤ n ∧ toString n = n.natAbs.repr ∨ n < 0 ∧ (toString n).toList = '-' :: n.natAbs.repr.toList := by
  cases n with
  | ofNat m => exact .inl ⟨Int.natCast_nonneg m, rfl⟩
  | negSucc m =>
    refine .inr ⟨Int.negSucc_lt_zero m, ?_⟩
    show ("-" ++ (m + 1).repr).toList = _
    rw [String.toList_append]
    rfl

theorem lexable_number (n : Int) : (Expr.var (toString n)).Lexable := by
  rcases toString_int n with ⟨-, h⟩ | ⟨-, h⟩
  · rw [h]
    exact .inl (isName_repr _)
  · exact .inr ⟨_, isName_repr _, h⟩

theorem isNegative_number (n : Int) : (Expr.var (toString n)).isNegative = decide (n < 0) := by
  rcases toString_int n with ⟨hn, h⟩ | ⟨hn, h⟩
  · have hhead := head_ne_minus (isName_repr n.natAbs)
    simp only [Expr.isNegative, h]
    rw [beq_eq_false_iff_ne.2 hhead, decide_eq_false (by omega)]
  · simp only [Expr.isNegative]
    rw [h, decide_eq_true hn]
    rfl

/-- How an emitted expression can be printed. -/
structure Prints (use : Use) (c : Const) (e : Expr) : Prop where
  printable : e.Printable
  lexable : e.Lexable
  minus : e.hasMinus = startsMinus use c
  object : use = .wide → isSigned c = false → e.isObject = true

theorem prints_binary {op : BinaryConst} {a b : Const} {e' : Expr} (ha : Prints .wide a e)
    (hb : Prints (secondUse op) b e') (hsign : (isMethod op && isSigned a) = false) :
    Prints use (.binary op a b) (binaryExpr op e e') := by
  have hobject : isMethod op = true → e.isObject = true := fun hop =>
    ha.object rfl (by rw [hop, Bool.true_and] at hsign; exact hsign)
  have hinfix : ∀ f : BinaryOp, f.precedence ≤ 14 → Prints use (.binary op a b) (.binary f e e') := fun f hf =>
    ⟨⟨hf, ha.printable, hb.printable⟩, ⟨ha.lexable, hb.lexable⟩, by cases use <;> rfl, fun _ _ => rfl⟩
  have hmethod : ∀ name, IsName name → isMethod op = true →
      Prints use (.binary op a b) (.method false e name [e']) := fun name hname hop =>
    ⟨⟨hobject hop, ha.printable, hb.printable, trivial⟩, ⟨hname, ha.lexable, hb.lexable, trivial⟩,
      by cases use <;> rfl, fun _ _ => rfl⟩
  cases op with
  | and | or | xor | add | sub | mul | shl => exact hinfix _ (by decide)
  | sdiv | udiv | srem | urem | ashr | lshr => exact hmethod _ (.inl (isWord_of_all (by decide) (by decide))) rfl

/-- A legible constant expression is printed so that it can be read back. -/
theorem Emitted.prints {names : ValueId → String → Prop}
    (hnames : ∀ i name, names i name → IsIdent name) (h : Emitted t names use c e) (hl : legible use c = true) :
    Prints use c e := by
  have hplain : ∀ {name : String}, IsIdent name → (Expr.var name).isNegative = false := by
    intro name hname
    simpa [Expr.isNegative] using head_ne_minus (.inl hname.1)
  induction h with
  | @symbol use i name hname _ =>
    have hident := hnames i name hname
    refine ⟨⟨?_, trivial, trivial⟩,
      ⟨.inl (isWord_of_all (by decide) (by decide)), .inl (.inl hident.1), trivial⟩, ?_, fun _ _ => rfl⟩
    · simp [Expr.isObject, hplain hident]
    · cases use <;> rfl
  | @wide r name n hname =>
    have hident := hnames r name hname
    have hobject : (Expr.var name).isObject = true := by simp [Expr.isObject, hplain hident]
    refine ⟨⟨⟨rfl, ⟨hobject, trivial, trivial⟩, trivial⟩, trivial, trivial⟩,
      ⟨.inl (isWord_of_all (by decide) (by decide)), ⟨.inl (isWord_of_all (by decide) (by decide)),
        ⟨.inl (isWord_of_all (by decide) (by decide)), .inl (.inl hident.1), trivial⟩, trivial⟩,
        lexable_number n, trivial⟩,
      rfl, fun _ _ => rfl⟩
  | @plain n => exact ⟨trivial, lexable_number n, isNegative_number n, fun h => by cases h⟩
  | @unary use op a e _ ih =>
    simp only [legible, Bool.and_eq_true] at hl
    obtain ⟨hprint, hlex, hminus, -⟩ := ih hl.1
    cases op with
    | not => exact ⟨⟨by decide, hprint⟩, ⟨.inl rfl, hlex⟩, by cases use <;> rfl, fun _ h => by cases h⟩
    | neg =>
      have hclear : e.hasMinus = false := by
        rw [hminus]
        simpa using hl.2
      exact ⟨⟨by decide, hprint⟩, ⟨.inr ⟨rfl, hclear⟩, hlex⟩, by cases use <;> rfl, fun _ h => by cases h⟩
  | @binary use op a b e e' _ _ iha ihb =>
    simp only [legible, Bool.and_eq_true, Bool.not_eq_true'] at hl
    exact prints_binary (iha hl.1.1) (ihb hl.1.2) hl.2

/-! ### Values of emitted expressions -/

/-- The integer that an expression of literals and signs stands for. -/
def plain? : Const → Option Int
  | .literal n => some n
  | .unary .neg a => (plain? a).map fun z => -z
  | .unary .not a => (plain? a).map fun z => -z - 1
  | _ => none

/-- The integer keeps its value modulo `2 ^ w` when it goes through 64 bits. -/
def Fits64 (w : Nat) (z : Int) : Prop := w ≤ 64 ∨ 0 ≤ z ∧ z < 2 ^ 64

/-- No sign stands in front of an integer that has no negative. -/
def Negates : Const → Prop
  | .unary .neg a => Negates a ∧ ∀ z, plain? a = some z → ¬ Least z
  | .unary .not a => Negates a
  | _ => True

/-- A plain integer as the second operand of an operator. -/
def SecondFits (w : Nat) (op : BinaryConst) (z : Int) : Prop :=
  match op with
  | .shl | .ashr | .lshr => 0 ≤ z ∧ z < 2 ^ 32 ∧ z < 2 ^ w
  | _ => Fits64 w z

/-- The literals of the expression can be written as integers of the width. -/
def Fits (w : Nat) : Use → Const → Prop
  | _, .symbol _ => True
  | .wide, .literal n => Fits64 w n
  | _, .literal _ => True
  | use, .unary _ a => Fits w use a
  | _, .binary op a b =>
    Fits w .wide a ∧ Fits w (secondUse op) b ∧
      (plainSecond op = true → ∀ z, plain? b = some z → Negates b ∧ SecondFits w op z)

/-- No divisor is zero, and no shift is by the width or more. -/
def Defined (w : Nat) (bits : String → Int) : Const → Prop
  | .symbol _ | .literal _ => True
  | .unary _ a => Defined w bits a
  | .binary op a b => Defined w bits a ∧ Defined w bits b ∧ ¬ Stopped w (constArith op) (b.value w bits)

/-- The name of a value stands for a value of `w` bits; that of a constant symbol for a constant. -/
def Means (t : Table) (w : Nat) (bits : String → Int) (σ : String → Option Val) (i : ValueId) (name : String) : Prop :=
  ((t.get i).op = .input ∧ (t.get i).name.startsWith "C" = true →
    σ name = some (.constant w (wrap w (bits (t.get i).name)))) ∧
  (σ name = some (.node w) ∨ ∃ n, σ name = some (.constant w n))

theorem value_of_plain {w : Nat} {bits : String → Int} {z : Int} (h : plain? c = some z) :
    c.value w bits = wrap w z := by
  induction c generalizing z with
  | symbol name => cases h
  | literal n =>
    obtain rfl := Option.some.inj h
    rfl
  | binary op a b => cases h
  | unary op a ih =>
    cases op with
    | neg =>
      obtain ⟨y, hy, rfl⟩ := Option.map_eq_some_iff.1 h
      rw [Const.value, ih hy, wrap_eq_wrap_iff]
      exact (wrap_modEq w y).neg
    | not =>
      obtain ⟨y, hy, rfl⟩ := Option.map_eq_some_iff.1 h
      rw [Const.value, ih hy, wrap_eq_wrap_iff]
      exact ((wrap_modEq w y).neg).sub_right 1

theorem wrap_of_fits64 {w : Nat} {z : Int} (h : Fits64 w z) : wrap w (wrap 64 z) = wrap w z := by
  rcases h with hw | ⟨hpos, hlt⟩
  · rw [wrap_eq_wrap_iff]
    exact (wrap_modEq 64 z).of_dvd (pow_dvd_pow 2 hw)
  · rw [wrap_cast, Int.emod_eq_of_lt hpos hlt]

section Values

variable {w : Nat} {bits : String → Int} {σ : String → Option Val}

/-- A name of generated code is neither a number nor signed. -/
theorem evalWord_ident {name : String} (h : IsIdent name) : evalWord σ name = σ name := by
  obtain ⟨⟨hne, hall⟩, hhead⟩ := h
  obtain ⟨c, cs, hcs⟩ := List.exists_cons_of_ne_nil hne
  have hdigit : c.isDigit = false := hhead c (by rw [hcs]; rfl)
  have hnone : numeral? name = none := by
    rw [numeral?, if_neg]
    rintro ⟨-, hdigits⟩
    rw [hcs, List.all_cons, hdigit] at hdigits
    cases hdigits
  unfold evalWord
  split
  · next cs' hcs' => exact absurd (hall '-' (by rw [hcs']; exact List.mem_cons_self ..)) (by decide)
  · rw [hnone]

theorem eval_widthOf {name : String} (hname : IsIdent name)
    (h : σ name = some (.node w) ∨ ∃ n, σ name = some (.constant w n)) :
    (widthOf name).eval σ = some (.plain w) := by
  have htype : (Expr.method true (.var name) "getType" []).eval σ = some (.type w) := by
    rcases h with h | ⟨n, h⟩
    · simp [Expr.eval, Expr.evalAll, evalWord_ident hname, h, applyMethod, applyGetter]
    · simp [Expr.eval, Expr.evalAll, evalWord_ident hname, h, applyMethod, applyGetter]
  rw [widthOf, Expr.eval, htype]
  simp [Expr.evalAll, applyMethod, applyGetter]

/-- The operator of two expressions computes the instruction on their values. -/
theorem eval_binaryExpr {op : BinaryConst} {e' : Expr} {n m : Nat} {v : Val} (he : e.eval σ = some (.number w n))
    (he' : e'.eval σ = some v) (hsecond : second w (constArith op) v = some m)
    (hgo : ¬ Stopped w (constArith op) m) :
    (binaryExpr op e e').eval σ = some (.number w (result w (constArith op) n m)) := by
  have harith := applyArith_number (n := n) hsecond hgo
  have hmethod : ∀ name, methodArith? name = some (constArith op) →
      (Expr.method false e name [e']).eval σ = some (.number w (result w (constArith op) n m)) := by
    intro name hname
    simp only [Expr.eval, Expr.evalAll, he, he', Option.bind_some, Option.map_some, applyMethod, hname, harith]
  cases op with
  | and | or | xor | add | sub | mul | shl => exact eval_binary rfl he he' harith
  | sdiv | udiv | srem | urem | ashr | lshr => exact hmethod _ (by decide)

/-- A plain integer is brought to the value of its expression. -/
theorem second_plain {op : BinaryConst} {z : Int} (hop : plainSecond op = true) (hz : SecondFits w op z) :
    second w (constArith op) (.plain z) = some (wrap w z) := by
  have hshift : 0 ≤ z ∧ z < 2 ^ 32 ∧ z < 2 ^ w → wrap 32 z = wrap w z := by
    rintro ⟨hpos, h32, hw⟩
    rw [wrap, wrap, Int.emod_eq_of_lt hpos h32, Int.emod_eq_of_lt hpos hw]
  cases op with
  | add | sub => exact congrArg some (wrap_of_fits64 hz)
  | shl | ashr | lshr => exact congrArg some (hshift hz)
  | and | or | xor | mul | sdiv | udiv | srem | urem => cases hop

/-- The value of an emitted expression: a number of the width, or a plain integer where that will do. -/
theorem Emitted.eval {names : ValueId → String → Prop}
    (hnames : ∀ i name, names i name → IsIdent name) (h : Emitted t names use c e)
    (hσ : ∀ i name, names i name → name ∈ words e → Means t w bits σ i name) (hfits : Fits w use c)
    (hdef : Defined w bits c) :
    (use = .wide ∨ plain? c = none → e.eval σ = some (.number w (c.value w bits))) ∧
      (use = .number → ∀ z, plain? c = some z → Negates c → e.eval σ = some (.plain z)) := by
  induction h with
  | @symbol use i name hname hsymbol =>
    have hmeans := (hσ i name hname (by simp [words, allWords])).1 hsymbol
    refine ⟨fun _ => ?_, fun _ z hz => by cases hz⟩
    simp [Expr.eval, Expr.evalAll, evalWord_ident (hnames i name hname), hmeans, applyMethod, applyGetter, Const.value]
  | @wide r name n hname =>
    have hwidth := eval_widthOf (hnames r name hname) (hσ r name hname (by simp [words, allWords, widthOf])).2
    refine ⟨fun _ => ?_, fun huse => by cases huse⟩
    simp only [Expr.eval, Expr.evalAll, hwidth, evalWord_toString, Option.bind_some, Option.map_some, applyCall,
      if_true, Int.toNat_natCast, wrap_of_fits64 hfits, Const.value]
  | @plain n =>
    refine ⟨fun h => (by rcases h with h | h <;> cases h), fun _ z hz _ => ?_⟩
    obtain rfl := Option.some.inj hz
    rw [Expr.eval, evalWord_toString]
  | @unary use op a e _ ih =>
    obtain ⟨hnumber, hplain⟩ := ih hσ hfits hdef
    constructor
    · intro huse
      have ha := hnumber (huse.imp_right fun hnone => by cases op <;> simpa [plain?] using hnone)
      rw [Expr.eval, ha, Option.bind_some]
      cases op <;> rfl
    · intro huse z hz hneg
      cases op with
      | neg =>
        obtain ⟨y, hy, rfl⟩ := Option.map_eq_some_iff.1 hz
        rw [Expr.eval, hplain huse y hy hneg.1, Option.bind_some]
        simp [applySign, UnaryConst.text, hneg.2 y hy]
      | not =>
        obtain ⟨y, hy, rfl⟩ := Option.map_eq_some_iff.1 hz
        rw [Expr.eval, hplain huse y hy hneg, Option.bind_some]
        rfl
  | @binary use op a b e e' _ _ iha ihb =>
    obtain ⟨hfa, hfb, hfit⟩ := hfits
    obtain ⟨hda, hdb, hgo⟩ := hdef
    rw [words_binaryExpr] at hσ
    have ha := (iha (fun i name hn hw => hσ i name hn (List.mem_append_left _ hw)) hfa hda).1 (.inl rfl)
    obtain ⟨hnumber, hplain⟩ := ihb (fun i name hn hw => hσ i name hn (List.mem_append_right _ hw)) hfb hdb
    refine ⟨fun _ => ?_, fun _ z hz => by cases hz⟩
    -- The second operand is a plain integer only where the operator takes one.
    by_cases hint : plainSecond op = true ∧ ∃ z, plain? b = some z
    · obtain ⟨hop, z, hz⟩ := hint
      have hvalue : b.value w bits = wrap w z := value_of_plain hz
      rw [hvalue] at hgo
      have he' := hplain (by rw [if_pos hop]) z hz (hfit hop z hz).1
      rw [eval_binaryExpr ha he' (second_plain hop (hfit hop z hz).2) hgo, Const.value, hvalue]
    · have he' : e'.eval σ = some (.number w (b.value w bits)) := by
        refine hnumber ?_
        by_cases hop : plainSecond op = true
        · refine .inr (Option.eq_none_iff_forall_ne_some.2 fun z hz => hint ⟨hop, z, hz⟩)
        · exact .inl (by rw [if_neg hop])
      exact eval_binaryExpr ha he' (if_pos rfl) hgo

end Values

/-! ### What is read -/

/-- **A legible constant expression computes what was verified.**  Its text, on lines of every width, is read as an
expression with the value of its term. -/
theorem constant_reads {s : Setting} {n : Nat} {i : ValueId} {c : Const} {g g' : Generator} {e : Expr}
    {σ : String → Option Val} {env : Logic.Env} (hc : IsConst s.table (s.HasSize · n) i c)
    (hrun : Runs (exprFor .wide i) s.table g e g') (hg : g.Named) (hlegible : legible .wide c = true)
    (hfits : Fits n .wide c) (hdef : Defined n env.bits c)
    (hσ : ∀ j name, g'.NameIs j name → name ∈ words e → Means s.table n env.bits σ j name) (w : Work) :
    ∃ tm w', encode i s w = .ok (some tm, w') ∧ tm.width = n ∧ ∀ (prec : Nat) (width indent : Int),
      ∃ e', Reads ((e.doc prec).render width indent).toList e' ∧ e'.eval σ = some (.number n (tm.num env)) := by
  obtain ⟨hext, hemitted⟩ := emitted_of_runs hc (by decide) hrun
  have hident : ∀ j name, g'.NameIs j name → IsIdent name := fun j name hj => hext.named hg j name hj
  have hprints := hemitted.prints hident hlegible
  have hvalue := (hemitted.eval hident hσ hfits hdef).1 (.inl rfl)
  obtain ⟨tm, w', hencode, hwidth, hnum⟩ := encode_constant hc w
  refine ⟨tm, w', hencode, hwidth, fun prec width indent => ⟨e.read, ?_, ?_⟩⟩
  · exact reads_render hprints.printable hprints.lexable prec width indent
  · rw [hnum]
    exact eval_read hvalue

/-- The constant expression `(~C1 + 3) /u C1` on bytes. -/
def quotientTable : Table :=
  ⟨#[⟨"C1", "C1", some ⟨"C1", .int (some 8)⟩, .input⟩,
    ⟨"~C1", "~C1_0", some ⟨"~C1_0", .int (some 8)⟩, .unary .not 0⟩,
    ⟨"3", "3_1", some ⟨"3_1", .int (some 8)⟩, .literal 3⟩,
    ⟨"~C1 + 3", "~C1 + 3_2", some ⟨"~C1 + 3_2", .int (some 8)⟩, .binary .add 1 2⟩,
    ⟨"(~C1 + 3) /u C1", "(~C1 + 3) /u C1_3", some ⟨"(~C1 + 3) /u C1_3", .int (some 8)⟩, .binary .udiv 3 0⟩], 4⟩

/-- The setting of a constant expression on bytes. -/
def quotientSetting : Setting := ⟨quotientTable, ⟨fun _ => 1, 32⟩, {}, true⟩

/-- The expression as a tree. -/
def quotient : Const := .binary .udiv (.binary .add (.unary .not (.symbol "C1")) (.literal 3)) (.symbol "C1")

theorem quotient_isConst : IsConst quotientSetting.table (quotientSetting.HasSize · 8) 4 quotient := by
  have hsymbol : IsConst quotientTable (quotientSetting.HasSize · 8) 0 (.symbol "C1") :=
    .symbol rfl (by cbv) ⟨⟨"C1", .int (some 8)⟩, rfl, rfl⟩
  have hliteral : IsConst quotientTable (quotientSetting.HasSize · 8) 2 (.literal 3) :=
    .literal rfl ⟨⟨"3_1", .int (some 8)⟩, rfl, rfl⟩
  exact .binary rfl (by decide) (by decide)
    (.binary rfl (by decide) (by decide) (.unary rfl (by decide) hsymbol) hliteral) hsymbol

/-- The number that the constant symbol stands for. -/
def symbolGetter : Expr := .method true (.var "C1") "getValue" []

/-- The theorem at `(~C1 + 3) /u C1`, whose text is `(~C1->getValue() + 3).udiv(C1->getValue())`, where the constant
is five: the expression is read back with the value fifty. -/
theorem quotient_reads : ∃ e g', Runs (exprFor .wide 4) quotientTable .start e g' ∧
    (e.doc 18).render 80 0 = "(~C1->getValue() + 3).udiv(C1->getValue())" ∧
    ∀ env : Logic.Env, env.bits "C1" = 5 → ∃ e', Reads ((e.doc 18).render 80 0).toList e' ∧
      e'.eval (fun name => if name = "C1" then some (.constant 8 5) else none) = some (.number 8 50) := by
  have hrun : Runs (exprFor .wide 4) quotientTable .start
      (.method false (.binary .add (.unary "~" symbolGetter) (.var "3")) "udiv" [symbolGetter])
      { Generator.start with names := ⟨["C1"], 0⟩, valueNames := [(0, "C1")] } := by
    unfold Runs
    cbv
  refine ⟨_, _, hrun, by cbv, fun env henv => ?_⟩
  have hvalue : quotient.value 8 env.bits = 50 := by
    simp only [quotient, Const.value, henv]
    decide
  have hfits : Fits 8 .wide quotient := by
    refine ⟨⟨trivial, trivial, fun _ z hz => ?_⟩, trivial, fun h => by cases h⟩
    exact ⟨trivial, .inl (by decide)⟩
  have hdef : Defined 8 env.bits quotient := by
    refine ⟨⟨trivial, trivial, id⟩, trivial, ?_⟩
    simp only [Const.value, henv]
    decide
  have hσ : ∀ j name, Generator.NameIs { Generator.start with names := ⟨["C1"], 0⟩, valueNames := [(0, "C1")] } j name →
      name ∈ words (.method false (.binary .add (.unary "~" symbolGetter) (.var "3")) "udiv" [symbolGetter]) →
      Means quotientSetting.table 8 env.bits (fun name => if name = "C1" then some (.constant 8 5) else none) j name := by
    intro j name hj _
    obtain ⟨rfl, rfl⟩ : j = 0 ∧ name = "C1" := by
      by_cases hj0 : j = 0
      · subst hj0
        exact ⟨rfl, (Option.some.inj hj).symm⟩
      · have hne : (j == 0) = false := beq_eq_false_iff_ne.2 hj0
        simp [Generator.NameIs, Slots.get?, List.lookup_cons, hne] at hj
    refine ⟨fun _ => ?_, .inr ⟨5, rfl⟩⟩
    show some (Val.constant 8 5) = some (.constant 8 (wrap 8 (env.bits "C1")))
    rw [henv]
    rfl
  obtain ⟨tm, w', hencode, -, hreads⟩ := constant_reads (s := quotientSetting) quotient_isConst hrun
    Generator.named_start rfl hfits hdef hσ ⟨.start, .none, 0⟩
  obtain ⟨tm', w'', hencode', -, hnum⟩ := encode_constant quotient_isConst ⟨.start, .none, 0⟩
  obtain rfl : tm = tm' := by
    rw [hencode, Except.ok.injEq, Prod.mk.injEq, Option.some.injEq] at hencode'
    exact hencode'.1
  obtain ⟨e', hread, heval⟩ := hreads 18 80 0
  exact ⟨e', hread, by rw [heval, hnum, hvalue]⟩

end Peephole.Emit
