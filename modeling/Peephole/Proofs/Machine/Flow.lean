import Peephole.Proofs.Encode.Definedness

/-!
# Running programs with branches

A machine runs the instructions of a basic block one after another.  A register holds a word if it has been computed
without undefined behaviour, and is empty otherwise; what is computed from an empty register is empty as well.  An
access to memory that is not allowed spoils the rest of its block.  A branch goes on at one of its targets if its
condition is there and is not poison.

* `Config.step`, `Config.run` : one instruction, and a list of them.
* `Reaches` : the basic blocks that control comes to, and what is known then.
* `control` : where control is waiting, block by block along the program.
* `reaches_iff_control` : without back edges, both are the same.

What has been allocated is known by the place in the program (`Site`): an allocation counts for all instructions that
are listed behind it.
-/

namespace Peephole.Machine

open Program Logic
open Encode (Block Setting allocSize instructions isAccess labelOf reads)

/-! ### Places in the program -/

/-- What is known where an instruction stands: the blocks of memory, and the number for what stands in the next block
that is allocated. -/
structure Site where
  blocks : List Block
  fresh : Nat

/-- The place behind an instruction. -/
def Site.pass (s : Setting) (site : Site) (i : ValueId) : Site :=
  match (s.allocation i).filter fun b => b.size ≠ 0 with
  | some b => ⟨site.blocks ++ [b], site.fresh + 1⟩
  | none => site

/-- The place behind instructions. -/
def Site.passAll (s : Setting) (site : Site) (is : List ValueId) : Site := is.foldl (Site.pass s) site

@[simp] theorem Site.passAll_nil (s : Setting) (site : Site) : site.passAll s [] = site := rfl

@[simp] theorem Site.passAll_cons (s : Setting) (site : Site) (i : ValueId) (is : List ValueId) :
    site.passAll s (i :: is) = (site.pass s i).passAll s is := rfl

theorem Site.passAll_append (s : Setting) (site : Site) (is js : List ValueId) :
    site.passAll s (is ++ js) = (site.passAll s is).passAll s js := List.foldl_append

/-! ### Instructions -/

/-- What a register holds: a word, and whether the word is not poison. -/
structure Cell where
  word : Nat
  clean : Bool

/-- What is known while a basic block is run. -/
structure Config where
  registers : String → Option Cell
  memory : Bytes
  /-- All accesses to memory so far in the block were allowed. -/
  sound : Bool
  /-- The block to go on with. -/
  next : Option String

section Instructions

variable (s : Setting) (width : String → Nat) (env : Env)

/-- The word that an instruction computes, from the words under the keys of its operands and the memory. -/
def computed (R : String → Nat) (mem : Bytes) (i : ValueId) : Nat :=
  let v := s.table.get i
  let key := keyOf s.table
  match v.op with
  | .ret x => R (key x)
  | .alloca _ _ _ => wrap (width (key i)) (env.bits v.name)
  | .gep p xs _ =>
    let strides := v.type.elim [] fun t => strides s t.place t.ty xs.length
    stepped (width (key i)) (R (key p)) (List.zipWith (fun n x => (n, width (key x), R (key x))) strides xs)
  | .load _ x _ => loaded (width (key x)) mem (R (key x)) (width (key i))
  | _ => word s width env R i

/-- Whether an instruction has no undefined behaviour of its own. -/
def behaves (blocks : List Block) (R : String → Nat) (i : ValueId) : Bool :=
  let key := keyOf s.table
  match (s.table.get i).op with
  | .alloca _ _ _ => (s.allocation i).all (placed env)
  | .load _ x align => permitted env blocks (allocSize (width (key i))) align (R (key x))
  | .store _ x y align => permitted env blocks (allocSize (width (key x))) align (R (key y))
  | .unreachable => false
  | _ => !misbehaves s width R i

/-- The memory behind an instruction.  A store that is not `allowed` writes nothing. -/
def remembered (fresh : Nat) (R : String → Nat) (mem : Bytes) (allowed : Bool) (i : ValueId) : Bytes :=
  let key := keyOf s.table
  match (s.table.get i).op with
  | .alloca _ _ _ => (s.allocation i).elim mem fun b => filled env b fresh mem
  | .store _ x y _ => if allowed then stored (width (key y)) mem (R (key y)) (width (key x)) (R (key x)) else mem
  | _ => mem

/-- The widths of an instruction and of its operands fit together, and pointers have their width.  Inputs and constants
are no instructions. -/
def InstrTyped (i : ValueId) : Prop :=
  let v := s.table.get i
  let bits (x : ValueId) : Nat := width (keyOf s.table x)
  match v.op with
  | .copy _ | .arith _ _ _ _ | .convert _ _ _ | .icmp _ _ _ _ | .select _ _ _ => WellTyped s width i
  | .ret x => bits x = bits i
  | .alloca _ _ _ => s.HasSize v (bits i)
  | .gep p _ _ => 0 < bits i ∧ bits p = bits i
  | .load _ x _ => s.HasSize v (bits i) ∧ bits x = s.shape.ptrWidth
  | .store ty x y _ => s.sizeOf ty = .ok (bits x) ∧ bits y = s.shape.ptrWidth
  | .skip | .unreachable | .br _ _ _ => True
  | _ => False

namespace Config

def words (c : Config) (k : String) : Nat := (c.registers k).elim 0 Cell.word

/-- The label that a branch goes to, if its condition is there and is not poison. -/
def goes (c : Config) (x : ValueId) (l₁ l₂ : String) : Option String :=
  match c.registers (keyOf s.table x) with
  | some ⟨n, true⟩ => some (labelOf (if n ≠ 0 then l₁ else l₂))
  | _ => none

/-- Whether an instruction is done without undefined behaviour: its operands are there, and all accesses to memory so
far and its own behaviour are allowed. -/
def allows (c : Config) (site : Site) (i : ValueId) : Bool :=
  c.sound && (reads (s.table.get i).op).all (fun x => (c.registers (keyOf s.table x)).isSome) &&
    behaves s width env site.blocks c.words i

/-- Whether the result of an instruction is not poison. -/
def keeps (c : Config) (i : ValueId) : Bool :=
  (reads (s.table.get i).op).all (fun x => (c.registers (keyOf s.table x)).any Cell.clean) &&
    !overpromises s width env c.words i

/-- Run one instruction.  Where there is no result, a zero is put under the key, and nobody reads it. -/
def step (site : Site) (c : Config) (i : ValueId) : Config where
  registers := Function.update c.registers (keyOf s.table i) <|
    if c.allows s width env site i then some ⟨computed s width env c.words c.memory i, c.keeps s width env i⟩
    else none
  memory := remembered s width env site.fresh c.words c.memory (c.allows s width env site i) i
  sound := if isAccess (s.table.get i).op then c.allows s width env site i else c.sound
  next :=
    match (s.table.get i).op with
    | .br x l₁ l₂ => c.goes s x l₁ l₂
    | _ => c.next

/-- Run instructions one after another. -/
def run : Site → Config → List ValueId → Config
  | _, c, [] => c
  | site, c, i :: is => run (site.pass s i) (c.step s width env site i) is

/-- Start a basic block. -/
def enter (c : Config) : Config := { c with sound := true, next := none }

end Config

/-! ### Blocks -/

/-- The instructions of a basic block. -/
abbrev body (b : String × Dict ValueId) : List ValueId := b.2.map Prod.snd

/-- **The basic blocks that control comes to**, and what is known then: the first block, and from a block that it has
come to the one that its branch goes to. -/
inductive Reaches (p : Code) (site : Site) (first : String) (c₀ : Config) : String → Config → Prop
  | start : Reaches p site first c₀ first c₀
  | branch {b : String × Dict ValueId} {q r : Code} {c : Config} {l : String}
    (h : Reaches p site first c₀ b.1 c) (hp : p = q ++ b :: r)
    (hnext : (c.run s width env (site.passAll s (instructions q)) (body b)).next = some l) :
    Reaches p site first c₀ l (c.run s width env (site.passAll s (instructions q)) (body b)).enter

/-- Where control is waiting behind a basic block, from where it is waiting in front of it. -/
def awaits (site : Site) (b : String × Dict ValueId) : Option (String × Config) → Option (String × Config)
  | some (l, c) =>
    if l = b.1 then
      let c' := c.run s width env site (body b)
      c'.next.map fun l' => (l', c'.enter)
    else some (l, c)
  | none => none

/-- Where control is waiting behind the basic blocks, if it is waiting at `at₀` in front of them. -/
def control (site : Site) (at₀ : Option (String × Config)) : Code → Option (String × Config)
  | [] => at₀
  | b :: q => control (site.passAll s (body b)) (awaits s width env site b at₀) q

end Instructions

variable {s : Setting} {width : String → Nat} {env : Env} {site : Site} {at₀ : Option (String × Config)}
  {p q r : Code} {b : String × Dict ValueId} {first l : String} {c c₀ : Config}

@[simp] theorem instructions_nil : instructions [] = [] := rfl

@[simp] theorem instructions_cons (b : String × Dict ValueId) (q : Code) :
    instructions (b :: q) = body b ++ instructions q := rfl

@[simp] theorem instructions_append (q r : Code) : instructions (q ++ r) = instructions q ++ instructions r :=
  List.flatMap_append

theorem control_append : control s width env site at₀ (q ++ r) =
    control s width env (site.passAll s (instructions q)) (control s width env site at₀ q) r := by
  induction q generalizing site at₀ with
  | nil => rfl
  | cons b q ih =>
    rw [List.cons_append, control, control, ih, instructions_cons, Site.passAll_append]

theorem control_concat : control s width env site at₀ (q ++ [b]) =
    awaits s width env (site.passAll s (instructions q)) b (control s width env site at₀ q) := control_append

/-- Any other block is passed by. -/
theorem control_concat_of_not_waiting (hc : ∀ c, control s width env site at₀ q ≠ some (b.1, c)) :
    control s width env site at₀ (q ++ [b]) = control s width env site at₀ q := by
  rw [control_concat]
  rcases hat : control s width env site at₀ q with _ | ⟨l, c⟩
  · rfl
  · have hne : l ≠ b.1 := by
      rintro rfl
      exact hc c hat
    rw [awaits, if_neg hne]

/-- Control that is waiting for a block passes all others by. -/
theorem control_of_not_mem (h : l ∉ q.map Prod.fst) :
    control s width env site (some (l, c)) q = some (l, c) := by
  induction q generalizing site with
  | nil => rfl
  | cons b q ih =>
    rw [List.map_cons, List.mem_cons, not_or] at h
    rw [control, awaits, if_neg h.1, ih h.2]

/-! ### Edges -/

/-- The labels that an instruction may go to. -/
def labelsOf (t : Table) (i : ValueId) : List String :=
  match (t.get i).op with
  | .br _ l₁ l₂ => [labelOf l₁, labelOf l₂]
  | _ => []

/-- The labels that a basic block may go to. -/
def targets (t : Table) (b : String × Dict ValueId) : List String := (body b).flatMap (labelsOf t)

/-- The basic blocks are listed behind all blocks that may go to them. -/
def NoBackEdge (t : Table) : Code → Prop
  | [] => True
  | b :: q => (∀ c ∈ b :: q, b.1 ∉ targets t c) ∧ NoBackEdge t q

instance (t : Table) : (p : Code) → Decidable (NoBackEdge t p)
  | [] => inferInstanceAs (Decidable True)
  | _ :: q =>
    have := instDecidableNoBackEdge t q
    inferInstanceAs (Decidable (_ ∧ _))

theorem NoBackEdge.of_append (h : NoBackEdge s.table (q ++ r)) : NoBackEdge s.table r := by
  induction q with
  | nil => exact h
  | cons b q ih => exact ih h.2

theorem Config.step_next (c : Config) (i : ValueId) (h : (c.step s width env site i).next = some l) :
    c.next = some l ∨ l ∈ labelsOf s.table i := by
  simp only [Config.step] at h
  unfold labelsOf
  split at h
  · next x l₁ l₂ hop =>
    unfold Config.goes at h
    split at h
    · next n _ =>
      cases h
      by_cases hn : n ≠ 0
      · simp [hn]
      · simp [hn]
    · cases h
  · exact .inl h

/-- A basic block goes to one of its targets. -/
theorem Config.run_next {is : List ValueId} (h : (c.run s width env site is).next = some l) :
    c.next = some l ∨ l ∈ is.flatMap (labelsOf s.table) := by
  induction is generalizing c site with
  | nil => exact .inl h
  | cons i is ih =>
    rw [List.flatMap_cons, List.mem_append]
    rcases ih h with h | h
    · exact (Config.step_next c i h).imp_right .inl
    · exact .inr (.inr h)

/-- There is one way to split a program at a label. -/
theorem split_unique {q' r' : Code} {b' : String × Dict ValueId} (hnodup : ((q ++ b :: r).map Prod.fst).Nodup)
    (h : q ++ b :: r = q' ++ b' :: r') (hlabel : b.1 = b'.1) : q = q' ∧ b = b' ∧ r = r' := by
  induction q generalizing q' with
  | nil =>
    cases q' with
    | nil =>
      cases h
      exact ⟨rfl, rfl, rfl⟩
    | cons d q' =>
      cases h
      refine absurd hlabel fun heq => (List.nodup_cons.1 hnodup).1 ?_
      exact heq ▸ by simp
  | cons d q ih =>
    cases q' with
    | nil =>
      cases h
      refine absurd hlabel fun heq => (List.nodup_cons.1 hnodup).1 ?_
      exact heq ▸ by simp
    | cons d' q' =>
      rw [List.cons_append, List.cons_append, List.cons.injEq] at h
      obtain ⟨rfl, h⟩ := h
      obtain ⟨rfl, hrest⟩ := ih (List.nodup_cons.1 hnodup).2 h
      exact ⟨rfl, hrest⟩

/-- Where control is waiting behind some blocks, it comes to. -/
theorem reaches_of_control (hp : p = q ++ r) (h : control s width env site (some (first, c₀)) q = some (l, c)) :
    Reaches s width env p site first c₀ l c := by
  induction q using List.reverseRecOn generalizing l c r with
  | nil =>
    cases h
    exact .start
  | append_singleton q b ih =>
    rw [List.append_assoc] at hp
    rw [control_concat] at h
    rcases hq : control s width env site (some (first, c₀)) q with _ | ⟨l', c'⟩
    · rw [hq] at h
      cases h
    · rw [hq, awaits] at h
      have hbefore := ih hp hq
      split at h
      · next heq =>
        subst heq
        obtain ⟨l'', hnext, hl⟩ := Option.map_eq_some_iff.1 h
        cases hl
        exact .branch hbefore hp hnext
      · cases h
        exact hbefore

/-- Where control comes to a listed block, it is waiting in front of it. -/
theorem control_of_reaches (hnodup : (p.map Prod.fst).Nodup) (hback : NoBackEdge s.table p)
    (hfirst : p.head?.map Prod.fst = some first) (hnext : c₀.next = none)
    (h : Reaches s width env p site first c₀ l c) :
    c.next = none ∧ ∀ {q b r}, p = q ++ b :: r → b.1 = l →
      control s width env site (some (first, c₀)) q = some (l, c) := by
  induction h with
  | start =>
    refine ⟨hnext, fun {q b r} hp hb => ?_⟩
    cases q with
    | nil => rfl
    | cons d q =>
      subst hp
      have hd : d.1 = first := by simpa using hfirst
      refine absurd (hd.trans hb.symm) fun heq => (List.nodup_cons.1 hnodup).1 ?_
      exact heq ▸ by simp
  | @branch d q₀ r₀ c l hc hp hgoes ih =>
    refine ⟨rfl, fun {q b r} hq hb => ?_⟩
    obtain ⟨hnone, hcontrol⟩ := ih
    -- The target is listed behind the block, so the blocks in front of it are split by the block.
    have htarget : b.1 ∈ targets s.table d := by
      rcases Config.run_next hgoes with h | h
      · rw [hnone] at h
        cases h
      · exact hb ▸ h
    have hmem : d ∈ q := by
      have hall : d ∈ q ++ b :: r := by
        rw [← hq, hp]
        simp
      refine (List.mem_append.1 hall).resolve_right fun hd => ?_
      rw [hq] at hback
      exact hback.of_append.1 d hd htarget
    obtain ⟨q₁, r₁, rfl⟩ := List.append_of_mem hmem
    have hsplit : q₀ ++ d :: r₀ = q₁ ++ d :: (r₁ ++ b :: r) := by rw [← hp, hq]; simp
    obtain ⟨rfl, -, -⟩ := split_unique (hp ▸ hnodup) hsplit rfl
    have hnot : l ∉ r₁.map Prod.fst := by
      have hl : (r₁.map Prod.fst ++ b.1 :: r.map Prod.fst).Nodup := by
        rw [hq] at hnodup
        simp only [List.map_append, List.map_cons, List.append_assoc, List.cons_append] at hnodup
        exact (List.nodup_cons.1 (List.nodup_append.1 hnodup).2.1).2
      rw [← hb]
      exact fun h => (List.nodup_append.1 hl).2.2 _ h _ List.mem_cons_self rfl
    rw [List.append_cons, control_append, control_concat, hcontrol hp rfl, awaits, if_pos rfl]
    dsimp only
    rw [hgoes]
    exact control_of_not_mem hnot

/-- **Without back edges, control comes to a listed block if and only if it is waiting in front of it.** -/
theorem reaches_iff_control (hnodup : (p.map Prod.fst).Nodup) (hback : NoBackEdge s.table p)
    (hfirst : p.head?.map Prod.fst = some first) (hnext : c₀.next = none) (hp : p = q ++ b :: r) :
    Reaches s width env p site first c₀ b.1 c ↔ control s width env site (some (first, c₀)) q = some (b.1, c) :=
  ⟨fun h => (control_of_reaches hnodup hback hfirst hnext h).2 hp rfl, reaches_of_control hp⟩

end Peephole.Machine
