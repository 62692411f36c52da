import Peephole.Program.Ordered

/-!
# Tables in order of insertion

Look-ups and entries after an entry has been put in.
-/

namespace Peephole.Program

variable {α : Type}
variable {k : String}

theorem get?_put (d : Dict α) (k k' : String) (a : α) :
    (d.put k a).get? k' = if k = k' then some a else d.get? k' := by
  induction d with
  | nil => by_cases h : k = k' <;> simp [Dict.put, Dict.get?, h]
  | cons e d ih =>
    unfold Dict.put
    split
    · next hk =>
      rw [beq_iff_eq] at hk
      by_cases h : k = k' <;> simp [Dict.get?, hk, h]
    · next hk =>
      rw [beq_iff_eq] at hk
      by_cases h : e.1 = k'
      · have hne : k ≠ k' := fun h' => hk (h.trans h'.symm)
        simp [Dict.get?, h, hne]
      · simpa [Dict.get?, h] using ih

theorem mem_of_get? {d : Dict α} {a : α} (h : d.get? k = some a) : (k, a) ∈ d := by
  obtain ⟨e, he, rfl⟩ := Option.map_eq_some_iff.1 h
  have hkey : e.1 = k := by simpa using List.find?_some he
  exact hkey ▸ List.mem_of_find?_eq_some he

theorem mem_put {d : Dict α} {a : α} {e : String × α} (h : e ∈ d.put k a) : e = (k, a) ∨ e ∈ d := by
  induction d with
  | nil => exact .inl (by simpa [Dict.put] using h)
  | cons f d ih =>
    unfold Dict.put at h
    split at h
    · rcases List.mem_cons.1 h with rfl | h
      · exact .inl rfl
      · exact .inr (List.mem_cons_of_mem f h)
    · rcases List.mem_cons.1 h with rfl | h
      · exact .inr List.mem_cons_self
      · exact (ih h).imp_right (List.mem_cons_of_mem f)

theorem mem_put_iff {d : Dict α} {a : α} {x : String} : x ∈ (d.put k a).keys ↔ x = k ∨ x ∈ d.keys := by
  induction d with
  | nil => simp [Dict.put, Dict.keys]
  | cons e d ih =>
    unfold Dict.put
    split
    · next hk =>
      rw [beq_iff_eq] at hk
      simp [Dict.keys, hk]
    · simp only [Dict.keys, List.map_cons, List.mem_cons] at ih ⊢
      rw [ih]
      exact or_left_comm

theorem nodup_put {d : Dict α} {a : α} (h : d.keys.Nodup) : (d.put k a).keys.Nodup := by
  induction d with
  | nil => simp [Dict.put, Dict.keys]
  | cons e d ih =>
    obtain ⟨hnot, hd⟩ := List.nodup_cons.1 h
    unfold Dict.put
    split
    · next hk =>
      rw [beq_iff_eq] at hk
      exact List.nodup_cons.2 ⟨hk ▸ hnot, hd⟩
    · next hk =>
      rw [beq_iff_eq] at hk
      refine List.nodup_cons.2 ⟨fun hmem => ?_, ih hd⟩
      exact (mem_put_iff.1 hmem).elim hk hnot

theorem get?_of_mem {d : Dict α} (h : d.keys.Nodup) {a : α} (hmem : (k, a) ∈ d) : d.get? k = some a := by
  induction d with
  | nil => cases hmem
  | cons e d ih =>
    obtain ⟨hnot, hd⟩ := List.nodup_cons.1 h
    rcases List.mem_cons.1 hmem with rfl | hmem
    · simp [Dict.get?]
    · have hne : e.1 ≠ k := by
        rintro rfl
        exact hnot (List.mem_map.2 ⟨_, hmem, rfl⟩)
      have hrest := ih hd hmem
      simpa [Dict.get?, hne] using hrest

end Peephole.Program
