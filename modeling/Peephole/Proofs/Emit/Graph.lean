import Mathlib.Data.List.Forall2
import Peephole.Emit.Match
import Peephole.Proofs.Cpp.Eval

/-!
# Matching in a graph of instructions

The code that generated tests run on is a graph: each node is an instruction with its operands, an integer constant,
or something else.  A test matches a node against a pattern, and binds variables to nodes and to predicates.

A pattern is made before the match begins.  So a pattern that asks for a specific value asks for the value that the
variable had then, also where the match itself has changed it.

* `Node`, `Graph` : instruction graphs.
* `Matcher`, `matcher?` : what the functions of patterns ask of a node.
* `accept`, `passes` : matching a node against a pattern, and a test; both end with the variables that are bound.
* `IsInstance` : a part of the graph is an instance of the values that a root depends on.
-/

namespace Peephole.Emit

open Program Cpp
open Logic (Comparison)

/-- An instruction with its operands, a constant, or something else. -/
inductive Node (N : Type) where
  | arith (op : ArithOp) (flags : List Flag) (a b : N)
  | convert (op : ConvertOp) (a : N)
  | icmp (c : Comparison) (a b : N)
  | select (c a b : N)
  | constant (n : Int)
  | other

def Node.operands {N : Type} : Node N → List N
  | arith _ _ a b | icmp _ a b => [a, b]
  | convert _ a => [a]
  | select c a b => [c, a, b]
  | constant _ | other => []

abbrev Graph (N : Type) := N → Node N

/-- What a variable of generated code is bound to. -/
inductive Binding (N : Type) where
  | node (n : N)
  | predicate (c : Comparison)
  deriving DecidableEq

/-- The variables that are bound. -/
abbrev Scope (N : Type) := String → Option (Binding N)

/-- Bind a variable. -/
def Scope.set {N : Type} (ρ : Scope N) (x : String) (b : Binding N) : Scope N := fun y => if y = x then some b else ρ y

@[simp] theorem Scope.set_self {N : Type} (ρ : Scope N) (x : String) (b : Binding N) : ρ.set x b x = some b := by
  simp [Scope.set]

theorem Scope.set_of_ne {N : Type} (ρ : Scope N) {x y : String} (h : y ≠ x) (b : Binding N) : ρ.set x b y = ρ y := by
  simp [Scope.set, h]

/-! ### Matchers -/

/-- What a function of patterns asks of a node. -/
inductive Matcher where
  /-- Anything; with an argument, the node is bound to it. -/
  | value
  | constantInt
  /-- The node that a variable has. -/
  | specific
  /-- The constant with a value. -/
  | specificInt
  | both
  | arith (op : ArithOp) (flags : List Flag)
  | exact
  | convert (op : ConvertOp)
  | icmp
  | select
  deriving DecidableEq

/-- The functions of patterns. -/
def matchers : List (String × Matcher) :=
  [("m_Value", .value), ("m_ConstantInt", .constantInt), ("m_Specific", .specific), ("m_SpecificInt", .specificInt),
    ("m_CombineAnd", .both), ("m_Exact", .exact), ("m_ICmp", .icmp), ("m_Select", .select), ("m_Trunc", .convert .trunc),
    ("m_ZExt", .convert .zext), ("m_SExt", .convert .sext), ("m_PtrToInt", .convert .ptrToInt),
    ("m_BitCast", .convert .bitcast)] ++
  ArithOp.all.flatMap fun op =>
    [("m_" ++ arithName op, .arith op []), ("m_NSW" ++ arithName op, .arith op [.nsw]),
      ("m_NUW" ++ arithName op, .arith op [.nuw])]

/-- The function of patterns with a name. -/
def matcher? (fn : String) : Option Matcher := matchers.lookup fn

theorem matcher?_arith (op : ArithOp) : matcher? ("m_" ++ arithName op) = some (.arith op []) := by
  cases op <;> rfl

theorem matcher?_nsw (op : ArithOp) : matcher? ("m_NSW" ++ arithName op) = some (.arith op [.nsw]) := by
  cases op <;> rfl

theorem matcher?_nuw (op : ArithOp) : matcher? ("m_NUW" ++ arithName op) = some (.arith op [.nuw]) := by
  cases op <;> rfl

section Matching

variable {N : Type} [DecidableEq N] (G : Graph N)

/-- Match a node against a pattern; `ρ₀` binds the variables of the pattern's specific values. -/
def accept (ρ₀ : Scope N) : Expr → N → Scope N → Option (Scope N)
  | .call fn args, n, ρ =>
    match matcher? fn, args with
    | some .value, [] => some ρ
    | some .value, [.var x] => some (ρ.set x (.node n))
    | some .constantInt, [.var x] =>
      match G n with
      | .constant _ => some (ρ.set x (.node n))
      | _ => none
    | some .specific, [.var x] => if ρ₀ x = some (.node n) then some ρ else none
    | some .specificInt, [.var s] =>
      match G n with
      | .constant k => if evalWord (fun _ => none) s = some (.plain k) then some ρ else none
      | _ => none
    | some .both, [p, q] => (accept ρ₀ p n ρ).bind (accept ρ₀ q n)
    | some .exact, [p] =>
      match G n with
      | .arith _ flags _ _ => if .exact ∈ flags then accept ρ₀ p n ρ else none
      | _ => none
    | some (.arith op flags), [p, q] =>
      match G n with
      | .arith op' flags' a b =>
        if op' = op ∧ flags ⊆ flags' then (accept ρ₀ p a ρ).bind (accept ρ₀ q b) else none
      | _ => none
    | some (.convert op), [p] =>
      match G n with
      | .convert op' a => if op' = op then accept ρ₀ p a ρ else none
      | _ => none
    | some .icmp, [.var x, p, q] =>
      match G n with
      -- The predicate is bound after the operands have matched.
      | .icmp c a b => ((accept ρ₀ p a ρ).bind (accept ρ₀ q b)).map fun ρ => ρ.set x (.predicate c)
      | _ => none
    | some .select, [c, p, q] =>
      match G n with
      | .select d a b => ((accept ρ₀ c d ρ).bind (accept ρ₀ p a)).bind (accept ρ₀ q b)
      | _ => none
    | _, _ => none
  | _, _, _ => none

def predicate? (x : String) : Option Comparison := comparisons.find? fun c => predicateName c == x

/-- What a side of an equality stands for. -/
def side (ρ : Scope N) : Expr → Option (Binding N)
  | .var x =>
    match predicate? x with
    | some c => some (.predicate c)
    | none => ρ x
  | _ => none

/-- Run a test. -/
def passes : Expr → Scope N → Option (Scope N)
  | .binary .and a b, ρ => (passes a ρ).bind (passes b)
  | .binary .eq a b, ρ => if (side ρ a).isSome ∧ side ρ a = side ρ b then some ρ else none
  | .call "match" [.var x, p], ρ =>
    match ρ x with
    | some (.node n) => accept G ρ p n ρ
    | _ => none
  | _, _ => none

/-! ### Patterns -/

variable {G} {ρ₀ ρ ρ' : Scope N} {n : N} {x : String} {p q : Expr}

/-- Match nodes against patterns, one after the other. -/
def acceptAll (G : Graph N) (ρ₀ : Scope N) : List (Expr × N) → Scope N → Option (Scope N)
  | [], ρ => some ρ
  | (p, n) :: ps, ρ => (accept G ρ₀ p n ρ).bind (acceptAll G ρ₀ ps)

-- The equations are made here, once, and not by each of the lemmas below.
attribute [local simp] accept

theorem accept_any : accept G ρ₀ (.call "m_Value" []) n ρ = some ρ := by
  have hm : matcher? "m_Value" = some .value := rfl
  simp only [accept, hm]

theorem accept_value (x : String) : accept G ρ₀ (.call "m_Value" [.var x]) n ρ = some (ρ.set x (.node n)) := by
  have hm : matcher? "m_Value" = some .value := rfl
  simp only [accept, hm]

theorem accept_constantInt (x : String) :
    accept G ρ₀ (.call "m_ConstantInt" [.var x]) n ρ = some ρ' ↔
      (∃ k, G n = .constant k) ∧ ρ' = ρ.set x (.node n) := by
  have hm : matcher? "m_ConstantInt" = some .constantInt := rfl
  simp only [accept, hm]
  cases G n <;> simp [eq_comm]

theorem accept_specific (x : String) :
    accept G ρ₀ (.call "m_Specific" [.var x]) n ρ = some ρ' ↔ ρ₀ x = some (.node n) ∧ ρ' = ρ := by
  have hm : matcher? "m_Specific" = some .specific := rfl
  simp only [accept, hm]
  by_cases h : ρ₀ x = some (.node n) <;> simp [h, eq_comm]

theorem accept_specificInt (k : Int) :
    accept G ρ₀ (.call "m_SpecificInt" [.var (toString k)]) n ρ = some ρ' ↔ G n = .constant k ∧ ρ' = ρ := by
  have hm : matcher? "m_SpecificInt" = some .specificInt := rfl
  simp only [accept, hm, evalWord_toString]
  cases hn : G n with
  | constant m => by_cases h : k = m <;> simp [h, eq_comm]
  | _ => simp

theorem accept_flagged {fn : String} {op : ArithOp} {flags : List Flag} (hm : matcher? fn = some (.arith op flags)) :
    accept G ρ₀ (.call fn [p, q]) n ρ = some ρ' ↔
      ∃ flags' a b, G n = .arith op flags' a b ∧ flags ⊆ flags' ∧
        acceptAll G ρ₀ [(p, a), (q, b)] ρ = some ρ' := by
  rw [accept.eq_def]
  simp only [hm]
  cases hn : G n with
  | arith op' flags' a b =>
    by_cases h : op' = op ∧ flags ⊆ flags'
    · obtain ⟨rfl, hflags⟩ := h
      simp [hflags, acceptAll, Option.bind_fun_some]
    · simp only [if_neg h, Node.arith.injEq, reduceCtorEq, false_iff, not_exists, not_and]
      rintro flags'' a' b' ⟨rfl, rfl, -, -⟩ hflags
      exact absurd ⟨rfl, hflags⟩ h
  | _ => simp

theorem subset_flags_iff {flags flags' : List Flag} :
    flags ⊆ flags' ↔
      (.nsw ∈ flags → .nsw ∈ flags') ∧ (.nuw ∈ flags → .nuw ∈ flags') ∧ (.exact ∈ flags → .exact ∈ flags') := by
  constructor
  · intro h
    exact ⟨fun hf => h hf, fun hf => h hf, fun hf => h hf⟩
  · rintro ⟨hnsw, hnuw, hexact⟩ f hf
    cases f with
    | nsw => exact hnsw hf
    | nuw => exact hnuw hf
    | exact => exact hexact hf

/-- No operation can be exact and also promise that it does not overflow. -/
theorem not_exact_of_overflow {op : ArithOp} (h : .nsw ∈ op.flags ∨ .nuw ∈ op.flags) : .exact ∉ op.flags := by
  cases op <;> simp_all [ArithOp.flags]

/-- The pattern of an arithmetic instruction asks for its operation and for its flags. -/
theorem accept_arithPattern {op : ArithOp} {flags : List Flag} (hflags : flags ⊆ op.flags) :
    accept G ρ₀ (arithPattern op flags p q) n ρ = some ρ' ↔
      ∃ flags' a b, G n = .arith op flags' a b ∧ flags ⊆ flags' ∧
        acceptAll G ρ₀ [(p, a), (q, b)] ρ = some ρ' := by
  have hexact : .exact ∈ flags → .nsw ∉ flags ∧ .nuw ∉ flags := fun h =>
    ⟨fun h' => not_exact_of_overflow (.inl (hflags h')) (hflags h),
      fun h' => not_exact_of_overflow (.inr (hflags h')) (hflags h)⟩
  simp only [arithPattern, List.contains_iff_mem, Bool.and_eq_true, @subset_flags_iff flags]
  split
  · next h =>
    -- The second pattern only looks at the flags: its operands accept everything and bind nothing.
    have hboth : matcher? "m_CombineAnd" = some .both := rfl
    have hno : .exact ∉ flags := fun he => (hexact he).1 h.1
    have hsecond : ∀ ρ₁ : Scope N, accept G ρ₀ (.call ("m_NUW" ++ arithName op)
        [.call "m_Value" [], .call "m_Value" []]) n ρ₁ = some ρ' ↔
          ∃ flags' a b, G n = .arith op flags' a b ∧ .nuw ∈ flags' ∧ ρ₁ = ρ' := fun ρ₁ => by
      simp [accept_flagged (matcher?_nuw op), acceptAll, accept_any]
    simp only [accept, hboth, Option.bind_eq_some_iff, accept_flagged (matcher?_nsw op), hsecond]
    constructor
    · rintro ⟨ρ₁, ⟨flags', a, b, hn, hnsw, hall⟩, flags'', a', b', hn', hnuw, rfl⟩
      rw [hn] at hn'
      cases hn'
      exact ⟨flags', a, b, hn, ⟨fun _ => hnsw (List.mem_singleton_self _), fun _ => hnuw, fun he => absurd he hno⟩, hall⟩
    · rintro ⟨flags', a, b, hn, ⟨hnsw, hnuw, -⟩, hall⟩
      exact ⟨ρ', ⟨flags', a, b, hn, by simpa using hnsw h.1, hall⟩, flags', a, b, hn, hnuw h.2, rfl⟩
  · next hboth =>
    split
    · next h =>
      have hno : .nuw ∉ flags := fun h' => hboth ⟨h, h'⟩
      have hno' : .exact ∉ flags := fun he => (hexact he).1 h
      simp [accept_flagged (matcher?_nsw op), h, hno, hno']
    · next hnsw =>
      split
      · next h =>
        have hno : .exact ∉ flags := fun he => (hexact he).2 h
        simp [accept_flagged (matcher?_nuw op), h, hnsw, hno]
      · next hnuw =>
        split
        · next h =>
          have hm : matcher? "m_Exact" = some .exact := rfl
          simp only [accept, hm]
          cases hn : G n with
          | arith op' flags' a b =>
            by_cases he : .exact ∈ flags' <;> simp [he, h, hn, hnsw, hnuw, accept_flagged (matcher?_arith op)]
          | _ => simp
        · next hex => simp [accept_flagged (matcher?_arith op), hnsw, hnuw, hex]

/-- The pattern of a conversion asks for it. -/
theorem accept_convertPattern {op : ConvertOp} {pattern : Expr} (hop : op ≠ .zextOrTrunc)
    (hpattern : convertPattern? op p = some pattern) :
    accept G ρ₀ pattern n ρ = some ρ' ↔ ∃ a, G n = .convert op a ∧ acceptAll G ρ₀ [(p, a)] ρ = some ρ' := by
  have key : ∀ fn, matcher? fn = some (.convert op) → (accept G ρ₀ (.call fn [p]) n ρ = some ρ' ↔
      ∃ a, G n = .convert op a ∧ acceptAll G ρ₀ [(p, a)] ρ = some ρ') := fun fn hm => by
    rw [accept.eq_def]
    simp only [hm]
    cases hn : G n with
    | convert op' a => by_cases h : op' = op <;> simp [h, acceptAll, Option.bind_fun_some]
    | _ => simp
  cases op with
  | zextOrTrunc => exact absurd rfl hop
  | intToPtr => cases hpattern
  | _ =>
    cases hpattern
    exact key _ rfl

theorem accept_icmp : accept G ρ₀ (.call "m_ICmp" [.var x, p, q]) n ρ = some ρ' ↔
      ∃ c a b ρ₁, G n = .icmp c a b ∧ acceptAll G ρ₀ [(p, a), (q, b)] ρ = some ρ₁ ∧ ρ' = ρ₁.set x (.predicate c) := by
  have hm : matcher? "m_ICmp" = some .icmp := rfl
  simp only [accept, hm]
  cases hn : G n with
  | icmp c a b =>
    simp only [Option.map_eq_some_iff, Node.icmp.injEq, acceptAll, Option.bind_fun_some]
    constructor
    · rintro ⟨ρ₁, h, rfl⟩
      exact ⟨c, a, b, ρ₁, ⟨rfl, rfl, rfl⟩, h, rfl⟩
    · rintro ⟨_, _, _, ρ₁, ⟨rfl, rfl, rfl⟩, h, rfl⟩
      exact ⟨ρ₁, h, rfl⟩
  | _ => simp

theorem accept_select {s : Expr} : accept G ρ₀ (.call "m_Select" [p, q, s]) n ρ = some ρ' ↔
      ∃ c a b, G n = .select c a b ∧ acceptAll G ρ₀ [(p, c), (q, a), (s, b)] ρ = some ρ' := by
  have hm : matcher? "m_Select" = some .select := rfl
  simp only [accept, hm]
  cases hn : G n with
  | select c a b => simp [acceptAll, Option.bind_fun_some, Option.bind_assoc]
  | _ => simp

/-! ### Tests -/

theorem passes_match :
    passes G (.call "match" [.var x, p]) ρ = some ρ' ↔ ∃ n, ρ x = some (.node n) ∧ accept G ρ p n ρ = some ρ' := by
  rw [passes]
  split
  · next n h => simp [h]
  · next h =>
    simp only [reduceCtorEq, false_iff, not_exists, not_and]
    intro n hn
    exact absurd hn (h n)

theorem predicate?_predicateName (c : Comparison) : predicate? (predicateName c) = some c := by
  cases c <;> rfl

/-- The name of a predicate has a colon in it, and so it is no name that the generator makes. -/
theorem predicate?_of_no_colon (h : ':' ∉ x.toList) : predicate? x = none := by
  refine List.find?_eq_none.2 fun c _ hc => h ?_
  obtain rfl := beq_iff_eq.1 hc
  cases c <;> decide +kernel

omit [DecidableEq N] in
theorem side_name (h : ':' ∉ x.toList) : side ρ (.var x) = ρ x := by
  rw [side, predicate?_of_no_colon h]

omit [DecidableEq N] in
theorem side_predicateName (c : Comparison) : side ρ (.var (predicateName c)) = some (.predicate c) := by
  rw [side, predicate?_predicateName]

theorem passes_eq {y : String} (hx : ':' ∉ x.toList) (hy : ':' ∉ y.toList) :
    passes G (.binary .eq (.var x) (.var y)) ρ = some ρ' ↔ (∃ b, ρ x = some b ∧ ρ y = some b) ∧ ρ' = ρ := by
  rw [passes, side_name hx, side_name hy]
  by_cases h : (ρ x).isSome ∧ ρ x = ρ y
  · obtain ⟨b, hb⟩ := Option.isSome_iff_exists.1 h.1
    have hyb : ρ y = some b := h.2.symm.trans hb
    simp [hb, hyb, eq_comm]
  · rw [if_neg h]
    simp only [reduceCtorEq, false_iff, not_and]
    rintro ⟨b, hxb, hyb⟩
    exact absurd ⟨Option.isSome_iff_exists.2 ⟨b, hxb⟩, hxb.trans hyb.symm⟩ h

theorem passes_predicate {c : Comparison} (hx : ':' ∉ x.toList) :
    passes G (.binary .eq (.var x) (.var (predicateName c))) ρ = some ρ' ↔ ρ x = some (.predicate c) ∧ ρ' = ρ := by
  rw [passes, side_name hx, side_predicateName]
  by_cases h : ρ x = some (.predicate c)
  · simp [h, eq_comm]
  · simp [h]

/-- Run tests, one after the other. -/
def passesAll (G : Graph N) : List Expr → Scope N → Option (Scope N)
  | [], ρ => some ρ
  | e :: es, ρ => (passes G e ρ).bind (passesAll G es)

theorem passes_foldl (e : Expr) (es : List Expr) (ρ : Scope N) :
    passes G (es.foldl (.binary .and) e) ρ = (passes G e ρ).bind (passesAll G es) := by
  induction es generalizing e with
  | nil => simp [passesAll, Option.bind_fun_some]
  | cons e' es ih =>
    rw [List.foldl_cons, ih, passes, Option.bind_assoc]
    rfl

/-- Tests that are joined run one after the other. -/
theorem passes_joined {es : List Expr} {e : Expr} (h : Expr.joined? .and es = some e) (ρ : Scope N) :
    passes G e ρ = passesAll G es ρ := by
  cases es with
  | nil => cases h
  | cons e' es =>
    cases h
    exact passes_foldl e' es ρ

end Matching

/-! ### Instances -/

/-- The values that the root depends on. -/
inductive Reachable (t : Table) (r : ValueId) : ValueId → Prop
  | root : Reachable t r r
  | operand {i j : ValueId} (h : Reachable t r i) (hj : j ∈ (t.get i).op.operands) : Reachable t r j

section Instances

variable {N : Type} (t : Table) (G : Graph N) (φ : ValueId → N) (ψ : String → Comparison)

/-- The node stands for the value where it is an operand.  A literal stands for every constant with its value; every
other value for one node, and a constant symbol, whose name starts with `C`, for a constant. -/
def Stands (i : ValueId) (n : N) : Prop :=
  match (t.get i).op with
  | .literal k => G n = .constant k
  | _ => n = φ i ∧ ((t.get i).name.startsWith "C" = true → ∃ k, G n = .constant k)

/-- The node is the same instruction.  It may have more flags.  `ψ` gives the predicates that are not known; a predicate
without a name goes by the name of its register. -/
inductive Likewise (register : String) : Op → Node N → Prop
  | arith {op : ArithOp} {x y : ValueId} {flags flags' : List Flag} {a b : N} (h : flags ⊆ flags') :
    Likewise register (.arith op x y flags) (.arith op flags' a b)
  | convert {op : ConvertOp} {source : PlacedTy} {x : ValueId} {a : N} :
    Likewise register (.convert op source x) (.convert op a)
  | known {c : Comparison} {operand : PlacedTy} {x y : ValueId} {a b : N} :
    Likewise register (.icmp (.known c) operand x y) (.icmp c a b)
  | any {name : String} {operand : PlacedTy} {x y : ValueId} {a b : N} :
    Likewise register (.icmp (.any name) operand x y) (.icmp (ψ (predicateKey name register)) a b)
  | select {c x y : ValueId} {d a b : N} : Likewise register (.select c x y) (.select d a b)

/-- The node of an instruction is the same instruction, and its operands stand for the operands in the same places. -/
structure Respects (i : ValueId) : Prop where
  likewise : Likewise ψ (t.get i).name (t.get i).op (G (φ i))
  operands : List.Forall₂ (Stands t G φ) (t.get i).op.operands (G (φ i)).operands

/-- The node `I` with what it depends on is an instance of the root `r` with what it depends on. -/
structure IsInstance (r : ValueId) (I : N) : Prop where
  root : φ r = I
  respects : ∀ i, Reachable t r i → (t.get i).op.isInstr = true → Respects t G φ ψ i

/-- The value can be a part of a pattern: an input or a constant symbol, a literal, or an instruction that has a
pattern, whose register is no constant symbol. -/
def IsPattern (v : Value) : Prop :=
  match v.op with
  | .input | .literal _ => True
  | .arith op _ _ flags => flags ⊆ op.flags ∧ v.name.startsWith "C" = false
  | .convert op _ _ => op ∈ [.trunc, .zext, .sext, .ptrToInt, .bitcast] ∧ v.name.startsWith "C" = false
  | .icmp _ _ _ _ | .select _ _ _ => v.name.startsWith "C" = false
  | _ => False

variable {t G φ ψ}

theorem Likewise.length_eq {register : String} {op : Op} {node : Node N} (h : Likewise ψ register op node) :
    node.operands.length = op.operands.length := by
  cases h <;> rfl

theorem stands_literal {i : ValueId} {n : N} {k : Int} (h : (t.get i).op = .literal k) :
    Stands t G φ i n ↔ G n = .constant k := by
  simp only [Stands, h]

theorem stands_of_not_literal {i : ValueId} {n : N} (h : ∀ k, (t.get i).op ≠ .literal k) :
    Stands t G φ i n ↔ n = φ i ∧ ((t.get i).name.startsWith "C" = true → ∃ k, G n = .constant k) := by
  unfold Stands
  split
  · next k hk => exact absurd hk (h k)
  · exact Iff.rfl

end Instances

end Peephole.Emit
