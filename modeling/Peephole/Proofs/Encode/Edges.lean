import Peephole.Proofs.Encode.Run

/-!
# Incoming edges

Branches record the edges that come into a basic block.

* `Entries.encodeProgram` : each label has one list of incoming edges, which is not empty.
-/

namespace Peephole.Encode

open Logic Program

variable {s : Setting} {w w' : Work} {i : ValueId}

/-- Each label is listed once, with at least one incoming edge. -/
structure Entries (d : Dict (List (Formula × Memory))) : Prop where
  nodup : d.keys.Nodup
  edges : ∀ e ∈ d, e.2 ≠ []

theorem Entries.addEntry {d : Dict (List (Formula × Memory))} (h : Entries d) (l : String) (p : Formula)
    (m : Memory) : Entries (addEntry d l p m) := by
  refine ⟨nodup_put h.nodup, fun e he => ?_⟩
  rcases mem_put he with rfl | he
  · simp
  · exact h.edges e he

theorem Entries.perform (o : Options) (task : Task) : Keeps s (fun w => Entries w.state.entries) (task.perform o) := by
  intro w r w' hw h
  cases task with
  | leaf i =>
    obtain ⟨t, w₁, henc, -, -, rfl⟩ := addLeaf_ok h
    have hsame := (encode_grows henc).entries
    exact hsame ▸ hw
  | enter label =>
    cases h
    obtain ⟨ds, m, henter⟩ := State.enter_eq o label w.state
    dsimp only
    rw [henter]
    exact hw
  | value i =>
    obtain ⟨t, w₁, henc, hbranch⟩ := addValue_eq h
    have hsame := (encode_grows henc).entries
    unfold Branches at hbranch
    split at hbranch
    · obtain ⟨e, u, m, -, -, -, rfl⟩ := hbranch
      have hbefore : Entries w₁.state.entries := hsame ▸ hw
      exact (hbefore.addEntry _ _ _).addEntry _ _ _
    · rw [hbranch]
      exact hsame ▸ hw

theorem Entries.start : Entries State.start.entries := ⟨by simp [State.start, Dict.keys], by simp [State.start]⟩

theorem Entries.encodeProgram {names : Dict ValueId} {p : Code} {n : Nat}
    (h : encodeProgram names p s ⟨.start, .none, n⟩ = .ok ((), w')) : Entries w'.state.entries :=
  (encodeProgram_ok.1 h).invariant (fun task _ => Entries.perform s.options task) Entries.start

end Peephole.Encode
