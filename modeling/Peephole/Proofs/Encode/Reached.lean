import Peephole.Proofs.Encode.Flow

/-!
# When a basic block is reached

* `ComesTo` : control comes to a basic block, if the program is run from its first block.
* `reached_iff_comesTo` : **the disjunction of the conditions that are recorded for a basic block holds if and only if
  control comes to it, and then the block starts with the memory at the end of the block that control came from**.

Undefined behaviour keeps control from a block only if a branch on the way depends on it: see `behindDivision`.
-/

namespace Peephole.Encode

open Logic Program Machine

variable {s : Setting} {width : String → Nat} {env : Env} {w w₀ : Work}

/-- What the machine knows in front of the first block: the values of inputs and constants, and the initial memory. -/
def startConfig (env : Env) (o : Options) (st : State) : Config where
  registers k := ((st.vars.get? k).bind (·.value)).map fun t => ⟨t.num env, true⟩
  memory := (State.initialMemory o).num env
  sound := true
  next := none

/-- Control comes to the basic block, with this being known then, if the program is run from its first block.  The
inputs and constants have been encoded as `w₀`. -/
def ComesTo (s : Setting) (width : String → Nat) (env : Env) (w₀ : Work) (p : Code) (l : String) (c : Config) :
    Prop :=
  ∃ first, p.head?.map Prod.fst = some first ∧
    Reaches s width env p ⟨w₀.state.blocks, w₀.fresh⟩ first (startConfig env s.options w₀.state) l c

/-! ### In front of the first block -/

theorem leaves_scope {names : Dict ValueId} {n : Nat}
    (h : encodeProgram names [] s ⟨.start, .none, n⟩ = .ok ((), w₀)) (k : String) (e : Encoded)
    (he : w₀.state.vars.get? k = some e) : k ∈ (leavesOf s.table names).map (keyOf s.table) := by
  by_contra hk
  have hkeys : (tasks s.table names []).flatMap (Task.keys s.table) = (leavesOf s.table names).map (keyOf s.table) := by
    simp [tasks, leafTasks, List.flatMap_map, Task.keys, ← List.map_eq_flatMap]
  have hsame := (chain_keeps (encodeProgram_ok.1 h)).1 k (by rwa [hkeys])
  rw [hsame] at he
  cases he

theorem matches_start (h : LeavesOnly s w₀) :
    Matches env w₀.state.vars (startConfig env s.options w₀.state).registers := by
  refine ⟨fun {k e u} he hu => ?_, fun {k e u cell} he hu hcell => ?_, fun {k} hk => ?_⟩
  · rw [(h.recorded k e he).1]
    simp [startConfig, he, hu, holds]
  · simp only [startConfig, he, Option.bind_some, hu, Option.map_some, Option.some.injEq] at hcell
    subst hcell
    exact ⟨rfl, by rw [(h.recorded k e he).2]; rfl⟩
  · simp [startConfig, hk]

/-- Blocks without instructions change nothing but what was known in the last basic block. -/
theorem chain_empty {lead : Code} (hlead : ∀ b ∈ lead, b.2 = [])
    (h : Chain s (encodeBlock s.options) lead w₀ w) :
    ∃ ds m, w = { w₀ with state := { w₀.state with defined := ds, memory := m } } := by
  induction lead generalizing w₀ with
  | nil =>
    obtain rfl := h
    exact ⟨_, _, rfl⟩
  | cons b lead ih =>
    obtain ⟨w₁, h₁, h⟩ := h
    obtain ⟨ds, m, rfl⟩ := ih (fun d hd => hlead d (List.mem_cons_of_mem _ hd)) h
    have hbody := encodeBlock_body h₁
    rw [body, hlead b List.mem_cons_self] at hbody
    obtain rfl := hbody
    obtain ⟨ds', m', henter⟩ := State.enter_eq s.options b.1 w₀.state
    dsimp only
    rw [henter]
    exact ⟨ds, m, rfl⟩

theorem tracks_start (env : Env) (first : String) {names : Dict ValueId} {n : Nat}
    (h : encodeProgram names [] s ⟨.start, .none, n⟩ = .ok ((), w₀)) (hwidths : Widths width w₀.state.vars)
    {lead : Code} (hlead : ∀ b ∈ lead, b.2 = []) (hchain : Chain s (encodeBlock s.options) lead w₀ w) :
    Tracks s width env ⟨w₀.state.blocks, w₀.fresh⟩ first (startConfig env s.options w₀.state)
      ((leavesOf s.table names).map (keyOf s.table)) [] w := by
  have hleaves := leavesOnly h
  obtain ⟨ds, m, rfl⟩ := chain_empty hlead hchain
  refine ⟨⟨hwidths, rfl, rfl, hleaves.bare.pointers⟩, fun k e he => ?_, ?_, ?_, by simp, ?_, by simp,
    fun _ => hleaves.entries⟩
  · exact List.mem_append_left _ (leaves_scope h k e he)
  · rw [hleaves.entries]
    exact ⟨by simp [Dict.keys], by simp⟩
  · rintro l c ⟨⟩
    have hmatches : Matches env w₀.state.vars (startConfig env s.options w₀.state).registers := matches_start hleaves
    exact ⟨hmatches, rfl, rfl⟩
  · intro l _ e he
    dsimp only at he
    rw [hleaves.entries] at he
    cases he

/-! ### The theorem -/

/-- **When a basic block is reached.**  Let the blocks of a program be listed behind all blocks that may go to them,
and each but the first be the target of one; let branches outside the first block be on values that their own blocks
compute, and let the memory not be changed behind a branch.  Then for every typing and every environment:  the
disjunction of the conditions that are recorded for a block holds if and only if control comes to the block; and where
it does, the block starts with the memory at the end of the block that control came from.

A branch is taken if its condition has been computed without undefined behaviour and is not poison.  Blocks without
instructions in front of the first block do not count. -/
theorem reached_iff_comesTo {names : Dict ValueId} {n : Nat} {lead p q r : Code}
    {b : String × Dict ValueId} (hleaves : encodeProgram names [] s ⟨.start, .none, n⟩ = .ok ((), w₀))
    (hwidths : Widths width w₀.state.vars) (hlead : ∀ b ∈ lead, b.2 = [])
    (hp : WellFormed s width ((leavesOf s.table names).map (keyOf s.table)) p)
    (h : encodeProgram names (lead ++ p) s ⟨.start, .none, n⟩ = .ok ((), w)) (hsplit : p = q ++ b :: r) (env : Env) :
    (q ≠ [] → ∃ es, w.state.entries.get? b.1 = some es ∧
        ((Formula.anyOf (es.map (·.1))).eval env = true ↔ ∃ c, ComesTo s width env w₀ p b.1 c)) ∧
      ∃ w₁, encodeProgram names (lead ++ q) s ⟨.start, .none, n⟩ = .ok ((), w₁) ∧
        ∀ c, ComesTo s width env w₀ p b.1 c → ∃ m, (w₁.state.enter s.options b.1).memory = some m ∧
          ∀ a, (m.byteAt env a).toNat = c.memory a := by
  obtain ⟨first, hfirst⟩ : ∃ first, p.head?.map Prod.fst = some first := by
    cases p with
    | nil => simp at hsplit
    | cons d p => exact ⟨d.1, rfl⟩
  have hcomes : ∀ c, ComesTo s width env w₀ p b.1 c ↔ control s width env ⟨w₀.state.blocks, w₀.fresh⟩
      (some (first, startConfig env s.options w₀.state)) q = some (b.1, c) := by
    intro c
    rw [← reaches_iff_control hp.labels hp.noBackEdge hfirst rfl hsplit]
    constructor
    · rintro ⟨first', hfirst', hreaches⟩
      rw [hfirst] at hfirst'
      cases hfirst'
      exact hreaches
    · exact fun hreaches => ⟨first, hfirst, hreaches⟩
  -- The work in front of the blocks, in front of `b` and behind all blocks.
  obtain ⟨wₗ, hl, hchain⟩ := encodeProgram_append.1 h
  obtain ⟨w₀', h₀, hchainₗ⟩ := (encodeProgram_append (q := []) (r := lead)).1 hl
  rw [hleaves] at h₀
  cases h₀
  rw [hsplit] at hchain
  obtain ⟨w₁, hq, hrest⟩ := Chain.append.1 hchain
  have htracks := (tracks_start env first hleaves hwidths hlead hchainₗ).chain hp hfirst rfl
    hsplit hq
  have hflowing := hp.flowing hfirst hsplit
  refine ⟨fun hne => ?_, w₁, encodeProgram_append.2 ⟨wₗ, hl, hq⟩, fun c hc => ?_⟩
  · -- The blocks from `b` on do not go to `b`, so its edges are those that are known in front of it.
    obtain ⟨es, hes, -⟩ := htracks.get?_entries hflowing hne
    have hedges : edgesTo w₁.state.entries b.1 = es := by simp [edgesTo, hes]
    have hback := hp.noBackEdge
    rw [hsplit] at hback
    refine ⟨es, (chain_get?_entries hback.of_append.1 hrest).trans hes, ?_⟩
    rw [Formula.eval_anyOf, List.any_map, List.any_eq_true]
    constructor
    · rintro ⟨e, he, heval⟩
      obtain ⟨c, hc, -⟩ := htracks.taken b.1 hflowing.label e (hedges ▸ he) heval
      exact ⟨c, (hcomes c).2 hc⟩
    · rintro ⟨c, hc⟩
      obtain ⟨e, he, heval⟩ := htracks.edge hne b.1 c ((hcomes c).1 hc)
      exact ⟨e, hedges ▸ he, heval⟩
  · obtain ⟨m, hm, hnum⟩ := (htracks.running hflowing rfl ((hcomes c).1 hc)).memory
    exact ⟨m, hm, fun a => congrFun hnum a⟩

/-- The widths can be checked entry by entry. -/
theorem widths_of_all {width : String → Nat} {d : Dict Encoded}
    (h : (d.all fun p => p.2.value.all fun u => u.width == width p.1) = true) : Widths width d := by
  intro k e u he hu
  simpa [hu] using List.all_eq_true.1 h _ (mem_of_get? he)

/-- `%k = icmp eq %a, 0` and a branch on it to `x` or `z`.  Block `x` stores the byte `%a` at `%p` and goes on to `z`,
which loads it. -/
def storedOnce : Setting where
  table := ⟨#[byteValue "%a" .input,
    ⟨"%p", "%p", some ⟨"%p", .ptr (.int (some 8))⟩, .input⟩,
    byteValue "0" (.literal 0),
    ⟨"%k", "%k", some ⟨"%k", .int (some 1)⟩, .icmp (.known .eq) ⟨"%k_type", .int (some 8)⟩ 0 2⟩,
    ⟨"br_", "br_", none, .br 3 "%x" "%z"⟩,
    ⟨"store", "store", some ⟨"store", .ptr (.int (some 8))⟩, .store ⟨"store_stype", .int (some 8)⟩ 0 1 0⟩,
    ⟨"%j", "%j", some ⟨"%j", .int (some 1)⟩, .icmp (.known .eq) ⟨"%j_type", .int (some 8)⟩ 0 0⟩,
    ⟨"br_x", "br_x", none, .br 6 "%z" "%z"⟩,
    byteValue "%u" (.load ⟨"%u_stype", .ptr (.int (some 8))⟩ 1 0)], 1⟩
  shape := ⟨fun _ => 0, 32⟩
  options := { }
  inSource := true

def storedOnceNames : Dict ValueId := [("%a", 0), ("%p", 1), ("0", 2), ("%k", 3), ("br_", 4), ("store", 5), ("%j", 6),
  ("br_x", 7), ("%u", 8)]

def storedOnceBlocks : Code :=
  [("", [("%k", 3), ("br_", 4)]), ("x", [("store", 5), ("%j", 6), ("br_x", 7)]), ("z", [("%u", 8)])]

def storedOnceWidth (k : String) : Nat := if k = "%p" then 32 else if k = "%k" ∨ k = "%j" then 1 else 8

theorem storedOnce_wellFormed : WellFormed storedOnce storedOnceWidth
    ((leavesOf storedOnce.table storedOnceNames).map (keyOf storedOnce.table)) storedOnceBlocks where
  labels := by decide
  noBackEdge := by with_unfolding_all decide
  entered := by with_unfolding_all decide
  typed := by
    have hbody : instructions storedOnceBlocks = [3, 4, 5, 6, 7, 8] := by decide
    rw [hbody]
    simp only [List.forall_mem_cons, List.not_mem_nil, false_imp_iff, implies_true, and_true]
    exact ⟨⟨by decide, ⟨_, rfl, rfl⟩, rfl, rfl⟩, trivial, ⟨rfl, rfl⟩, ⟨by decide, ⟨_, rfl, rfl⟩, rfl, rfl⟩, trivial,
      ⟨_, rfl, rfl⟩, rfl⟩
  settled := by
    simp only [storedOnceBlocks, List.forall_mem_cons, List.not_mem_nil, false_imp_iff, implies_true, and_true]
    exact ⟨⟨by decide, by decide, trivial⟩, ⟨by decide, by decide, by decide, trivial⟩, by decide, trivial⟩
  keys := by with_unfolding_all decide
  newKeys := by with_unfolding_all decide
  ownCondition := by
    intro b hb i hi x l₁ l₂ hop
    simp only [storedOnceBlocks, List.tail_cons, List.mem_cons, List.not_mem_nil, or_false] at hb
    rcases hb with rfl | rfl
    · simp only [body, List.map_cons, List.map_nil, List.mem_cons, List.not_mem_nil, or_false] at hi
      rcases hi with rfl | rfl | rfl
      · cases hop
      · cases hop
      · cases hop
        decide
    · obtain rfl := List.mem_singleton.1 hi
      cases hop

/-- The environment in which `%a` is zero, `%p` is the address 100 and all bytes of the memory are sevens. -/
def storedOnceEnv : Env where
  bits k := if k = "%p" then 100 else if k = "mem0" then 7 else 0
  truth _ := false
  byte _ _ := 0

/-- The theorem at block `z` of `storedOnce`, which control comes to from block `x`: it starts with the memory behind
the store, which has changed the byte at 100 only. -/
theorem storedOnce_reached :
    ∃ w₀ w es w₁ m c, encodeProgram storedOnceNames [] storedOnce ⟨.start, .none, 0⟩ = .ok ((), w₀) ∧
      encodeProgram storedOnceNames storedOnceBlocks storedOnce ⟨.start, .none, 0⟩ = .ok ((), w) ∧
      encodeProgram storedOnceNames (storedOnceBlocks.take 2) storedOnce ⟨.start, .none, 0⟩ = .ok ((), w₁) ∧
      w.state.entries.get? "z" = some es ∧ (Formula.anyOf (es.map (·.1))).eval storedOnceEnv = true ∧
      ComesTo storedOnce storedOnceWidth storedOnceEnv w₀ storedOnceBlocks "z" c ∧
      (w₁.state.enter {} "z").memory = some m ∧ (∀ a, (m.byteAt storedOnceEnv a).toNat = c.memory a) ∧
      c.memory 100 = 0 ∧ c.memory 101 = 7 := by
  obtain ⟨⟨_, w₀⟩, hleaves, hall⟩ := exists_ok
    (x := encodeProgram storedOnceNames [] storedOnce ⟨.start, .none, 0⟩)
    (fun r => r.2.state.vars.all fun p => p.2.value.all fun u => u.width == storedOnceWidth p.1) (by cbv)
  obtain ⟨⟨_, w⟩, h, htrue⟩ := exists_ok
    (x := encodeProgram storedOnceNames storedOnceBlocks storedOnce ⟨.start, .none, 0⟩)
    (fun r => (r.2.state.entries.get? "z").any fun es => (Formula.anyOf (es.map (·.1))).eval storedOnceEnv) (by cbv)
  obtain ⟨hreached, w₁, h₁, hmemory⟩ := reached_iff_comesTo hleaves (widths_of_all hall) (List.forall_mem_nil _)
    storedOnce_wellFormed h (q := storedOnceBlocks.take 2) (b := ("z", [("%u", 8)])) rfl storedOnceEnv
  obtain ⟨es, hes, hiff⟩ := hreached (by decide)
  have heval : (Formula.anyOf (es.map (·.1))).eval storedOnceEnv = true := by
    obtain ⟨es', hes', heval⟩ := (Option.any_eq_true _ _).1 htrue
    cases hes'.symm.trans hes
    exact heval
  obtain ⟨c, hc⟩ := hiff.1 heval
  obtain ⟨m, hm, hbytes⟩ := hmemory c hc
  have hstored : (m.byteAt storedOnceEnv 100).toNat = 0 ∧ (m.byteAt storedOnceEnv 101).toNat = 7 := by
    obtain ⟨⟨_, w₁'⟩, h₁', hstored⟩ := exists_ok
      (x := encodeProgram storedOnceNames (storedOnceBlocks.take 2) storedOnce ⟨.start, .none, 0⟩)
      (fun r => (r.2.state.enter {} "z").memory.any fun m =>
        (m.byteAt storedOnceEnv 100).toNat == 0 && (m.byteAt storedOnceEnv 101).toNat == 7) (by cbv)
    cases h₁'.symm.trans h₁
    obtain ⟨m', hm', hbytes'⟩ := (Option.any_eq_true _ _).1 hstored
    cases hm'.symm.trans hm
    simpa using hbytes'
  exact ⟨w₀, w, es, w₁, m, c, hleaves, h, h₁, hes, heval, hc, hm, hbytes, hbytes 100 ▸ hstored.1,
    hbytes 101 ▸ hstored.2⟩

/-! ### Undefined behaviour beside the way -/

/-- `%z = udiv %a, %b` and a branch on the bit `%e` to `t`, which returns the quotient, or to `f`. -/
def behindDivision : Setting where
  table := ⟨#[byteValue "%a" .input, byteValue "%b" .input, ⟨"%e", "%e", some ⟨"%e", .int (some 1)⟩, .input⟩,
    byteValue "%z" (.arith .udiv 0 1 []), ⟨"br_", "br_", none, .br 2 "%t" "%f"⟩, byteValue "ret_t" (.ret 3),
    byteValue "ret_f" (.ret 0)], 0⟩
  shape := default
  options := { }
  inSource := true

def behindDivisionNames : Dict ValueId :=
  [("%a", 0), ("%b", 1), ("%e", 2), ("%z", 3), ("br_", 4), ("ret_t", 5), ("ret_f", 6)]

def behindDivisionBlocks : Code := [("", [("%z", 3), ("br_", 4)]), ("t", [("ret_t", 5)]), ("f", [("ret_f", 6)])]

def behindDivisionWidth (k : String) : Nat := if k = "%e" then 1 else 8

/-- The environment in which `%e` is set and all other numbers are zero. -/
def setBitEnv : Env where
  bits k := if k = "%e" then 1 else 0
  truth _ := false
  byte _ _ := 0

/-- The branch does not depend on the division.  So the condition of `t` holds although the first instruction of the
program, which stands in front of the branch, is undefined. -/
theorem behindDivision_reached :
    NoBackEdge behindDivision.table behindDivisionBlocks ∧
      ∃ w₀ w es, encodeProgram behindDivisionNames [] behindDivision ⟨.start, .none, 0⟩ = .ok ((), w₀) ∧
        encodeProgram behindDivisionNames behindDivisionBlocks behindDivision ⟨.start, .none, 0⟩ = .ok ((), w) ∧
        w.state.entries.get? "t" = some es ∧ (Formula.anyOf (es.map (·.1))).eval setBitEnv = true ∧
        (startConfig setBitEnv {} w₀.state).allows behindDivision behindDivisionWidth setBitEnv
          ⟨w₀.state.blocks, w₀.fresh⟩ 3 = false := by
  obtain ⟨⟨_, w₀⟩, hleaves, hundefined⟩ := exists_ok
    (x := encodeProgram behindDivisionNames [] behindDivision ⟨.start, .none, 0⟩)
    (fun r => !(startConfig setBitEnv {} r.2.state).allows behindDivision behindDivisionWidth setBitEnv
      ⟨r.2.state.blocks, r.2.fresh⟩ 3) (by cbv)
  obtain ⟨⟨_, w⟩, h, htrue⟩ := exists_ok
    (x := encodeProgram behindDivisionNames behindDivisionBlocks behindDivision ⟨.start, .none, 0⟩)
    (fun r => (r.2.state.entries.get? "t").any fun es => (Formula.anyOf (es.map (·.1))).eval setBitEnv) (by cbv)
  obtain ⟨es, hes, heval⟩ := (Option.any_eq_true _ _).1 htrue
  exact ⟨by with_unfolding_all decide, w₀, w, es, hleaves, h, hes, heval, by simpa using hundefined⟩

end Peephole.Encode
