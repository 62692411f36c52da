import Peephole.Proofs.Encode.Access

/-!
# A load behind a store

A store spreads a word over bytes, and a load puts bytes together again.  If the width of the word is no multiple of
eight, its low bits share the first byte with what stood there.

* `written_at`, `written_of_ne` : the bytes that are written, and those that are not.
* `loaded_stored`, `stored_of_ne`, `stored_high` : **a stored word is read back**, other bytes are kept, and so are the
  bits of the first byte that are not the word's.
* `load_of_store` : so it is for the terms of a store and of a load behind it, whatever the memory was.

Addresses wrap around, so a word must not have more bytes than there are addresses.
-/

namespace Peephole.Machine

variable {w v a n k : Nat} {mem : Bytes}

/-! ### Bytes -/

/-- Different offsets below the number of addresses lead to different addresses. -/
theorem offset_inj {i j : Nat} (hi : i < 2 ^ w) (hj : j < 2 ^ w) (h : (a + i) % 2 ^ w = (a + j) % 2 ^ w) : i = j :=
  (Nat.ModEq.add_left_cancel' a h).eq_of_lt_of_lt hi hj

theorem written_of_ne {x : Nat} (h : ∀ i < k, x ≠ (a + i) % 2 ^ w) : written w v a mem k x = mem x := by
  induction k with
  | zero => rfl
  | succ k ih =>
    rw [written, Function.update_of_ne (h k (Nat.lt_succ_self k))]
    exact ih fun i hi => h i (Nat.lt_succ_of_lt hi)

theorem written_at {i : Nat} (hk : k ≤ 2 ^ w) (hi : i < k) :
    written w v a mem k ((a + i) % 2 ^ w) = v / 2 ^ (8 * i) % 2 ^ 8 := by
  induction k with
  | zero => exact absurd hi (Nat.not_lt_zero i)
  | succ k ih =>
    rw [written]
    by_cases h : i = k
    · rw [h, Function.update_self]
    · rw [Function.update_of_ne fun heq => h (offset_inj (by omega) (by omega) heq)]
      exact ih (by omega) (by omega)

/-- The bytes that were written are the low ones of the number. -/
theorem bytesAt_written (hk : k ≤ 2 ^ w) {j : Nat} (hj : j ≤ k) :
    bytesAt w (written w v a mem k) a j = v % 2 ^ (8 * j) := by
  induction j with
  | zero => simp [bytesAt, Nat.mod_one]
  | succ j ih =>
    rw [bytesAt, ih (by omega), written_at hk hj, Nat.mul_succ, pow_add, Nat.mod_mul, Nat.mul_comm (2 ^ (8 * j))]

/-! ### Words -/

/-- The first byte is not one of those behind it. -/
theorem ne_behind (ha : a < 2 ^ w) (hk : k < 2 ^ w) : ∀ i < k, a ≠ ((a + 1) % 2 ^ w + i) % 2 ^ w := by
  intro i hi h
  rw [Nat.mod_add_mod, Nat.add_assoc] at h
  have := offset_inj (a := a) (i := 0) (Nat.two_pow_pos w) (by omega) ((Nat.mod_eq_of_lt ha).trans h)
  omega

/-- What a store leaves in the first byte of a word that does not fill it. -/
theorem stored_first (hfit : (n + 7) / 8 ≤ 2 ^ w) (ha : a < 2 ^ w) (hrem : n % 8 ≠ 0) : stored w mem a n v a =
    mem a / 2 ^ (n % 8) % 2 ^ (8 - n % 8) * 2 ^ (n % 8) + v % 2 ^ (n % 8) := by
  rw [stored, if_neg hrem, written_of_ne (ne_behind ha (by omega)), Function.update_self]

/-- **A stored word is read back.** -/
theorem loaded_stored (hfit : (n + 7) / 8 ≤ 2 ^ w) (ha : a < 2 ^ w) (hv : v < 2 ^ n) :
    loaded w (stored w mem a n v) a n = v := by
  have hdiv := Nat.div_add_mod n 8
  by_cases hrem : n % 8 = 0
  · rw [loaded, if_pos hrem, stored, if_pos hrem, bytesAt_written (by omega) le_rfl,
      show 8 * (n / 8) = n by omega, Nat.mod_eq_of_lt hv]
  · have hhigh : v / 2 ^ (n % 8) < 2 ^ (8 * (n / 8)) := by
      rw [Nat.div_lt_iff_lt_mul (Nat.two_pow_pos _), ← pow_add, hdiv]
      exact hv
    rw [loaded, if_neg hrem, stored_first hfit ha hrem, Nat.mul_add_mod_self_right, Nat.mod_mod, stored, if_neg hrem,
      bytesAt_written (by omega) le_rfl, Nat.mod_eq_of_lt hhigh, Nat.div_add_mod']

theorem stored_of_ne {x : Nat} (ha : a < 2 ^ w) (h : ∀ i < (n + 7) / 8, x ≠ (a + i) % 2 ^ w) :
    stored w mem a n v x = mem x := by
  rw [stored]
  split
  · exact written_of_ne fun i hi => h i (by omega)
  · have hfirst : x ≠ a := by
      have := h 0 (by omega)
      rwa [Nat.add_zero, Nat.mod_eq_of_lt ha] at this
    dsimp only
    rw [written_of_ne fun i hi => ?_, Function.update_of_ne hfirst]
    rw [Nat.mod_add_mod, Nat.add_assoc, Nat.add_comm 1 i]
    exact h (i + 1) (by omega)

/-- The bits of the first byte that are not the word's are kept. -/
theorem stored_high (hfit : (n + 7) / 8 ≤ 2 ^ w) (ha : a < 2 ^ w) (hrem : n % 8 ≠ 0) (hbyte : mem a < 2 ^ 8) :
    stored w mem a n v a / 2 ^ (n % 8) = mem a / 2 ^ (n % 8) := by
  have hlow : v % 2 ^ (n % 8) / 2 ^ (n % 8) = 0 := Nat.div_eq_of_lt (Nat.mod_lt _ (Nat.two_pow_pos _))
  have hhigh : mem a / 2 ^ (n % 8) < 2 ^ (8 - n % 8) := by
    rw [Nat.div_lt_iff_lt_mul (Nat.two_pow_pos _), ← pow_add, Nat.sub_add_cancel (by omega)]
    exact hbyte
  rw [stored_first hfit ha hrem, Nat.mul_comm, Nat.mul_add_div (Nat.two_pow_pos _), hlow, Nat.add_zero,
    Nat.mod_eq_of_lt hhigh]

end Peephole.Machine

namespace Peephole.Encode

open Logic Program Machine

variable {s : Setting} {w : Work} {m : Memory}

/-! ### Terms -/

/-- A store whose operands have been encoded is encoded. -/
theorem storeBytes_run {ty : PlacedTy} {x y : ValueId} {n : Nat} {e e' : Encoded} {a b : Term} (align : Nat)
    (hx : w.state.vars.get? (keyOf s.table x) = some e) (ha : e.value = some a)
    (hy : w.state.vars.get? (keyOf s.table y) = some e') (hb : e'.value = some b) (hn : s.sizeOf ty = .ok n) :
    ∃ w', storeBytes ty x y align s w = .ok ((), w') := by
  simp only [storeBytes, bind_run, get_run, modifyState_run, access_run, sizeOf_run, ok_bind, operand_run hx ha,
    operand_run (w := w.adopt e.conds) hy hb, hn]
  exact ⟨_, rfl⟩

/-- A load whose pointer has been encoded is encoded, if it reads anything. -/
theorem loadTerm_run {v : Value} {x : ValueId} {n : Nat} {e : Encoded} {a : Term} (align : Nat)
    (hx : w.state.vars.get? (keyOf s.table x) = some e) (ha : e.value = some a) (hn : s.HasSize v n) (hpos : 0 < n)
    (hm : w.state.memory = some m) : ∃ t w', loadTerm v x align s w = .ok (t, w') := by
  rw [loadTerm_eq align hx ha hn hm]
  cases hparts : loadParts m a n with
  | nil =>
    simp only [loadParts, List.append_eq_nil_iff, List.reverse_eq_nil_iff, List.map_eq_nil_iff, List.range_eq_nil,
      ite_eq_left_iff, List.cons_ne_nil, imp_false, not_not] at hparts
    omega
  | cons t ts => exact ⟨_, _, rfl⟩

/-- **A load behind a store reads the stored word, and the store touches nothing else**, if what was recorded up to the
store is defined; if not, the memory is unchanged.  The word `a` has `n` bits, the pointer `b` any width, and the memory
is any. -/
theorem load_of_store {ty : PlacedTy} {x y : ValueId} {n : Nat} {e e' : Encoded} {a b : Term} (align : Nat)
    (hx : w.state.vars.get? (keyOf s.table x) = some e) (ha : e.value = some a) (hwidth : a.width = n)
    (hy : w.state.vars.get? (keyOf s.table y) = some e') (hb : e'.value = some b) (hn : s.sizeOf ty = .ok n)
    (hpos : 0 < n) (hfit : (n + 7) / 8 ≤ 2 ^ b.width) (hm : w.state.memory = some m) :
    ∃ w' m', storeBytes ty x y align s w = .ok ((), w') ∧ w'.state.memory = some m' ∧
      (∀ w₁ v z align' e₁, w₁.state.memory = some m' → w₁.state.vars.get? (keyOf s.table z) = some e₁ →
        e₁.value = some b → s.HasSize v n → ∃ t w₂, loadTerm v z align' s w₁ = .ok (t, w₂) ∧ t.width = n ∧
          ∀ env, holds env w'.state.defined = true → t.num env = a.num env) ∧
      ∀ env, if holds env w'.state.defined then
        (∀ k, (∀ i < (n + 7) / 8, k ≠ (b.num env + i) % 2 ^ b.width) → m'.num env k = m.num env k) ∧
          (n % 8 ≠ 0 → m'.num env (b.num env) / 2 ^ (n % 8) = m.num env (b.num env) / 2 ^ (n % 8))
        else m'.num env = m.num env := by
  obtain ⟨w', hstore⟩ := storeBytes_run align hx ha hy hb hn
  obtain ⟨m', hm', hnum⟩ := storeBytes_means hx ha hy hb hn hm hstore
  refine ⟨w', m', hstore, hm', ?_, fun env => ?_⟩
  · intro w₁ v z align' e₁ hm₁ hz hb₁ hv
    obtain ⟨t, w₂, hload⟩ := loadTerm_run align' hz hb₁ hv hpos hm₁
    obtain ⟨hw, ht⟩ := loadTerm_means hz hb₁ hv hm₁ hload
    refine ⟨t, w₂, hload, hw, fun env hd => ?_⟩
    rw [ht, hnum, if_pos hd, loaded_stored hfit (b.num_lt env) (hwidth ▸ a.num_lt env)]
  · rw [hnum]
    split
    · exact ⟨fun k hk => stored_of_ne (b.num_lt env) hk, fun hrem => stored_high hfit (b.num_lt env) hrem
        (BitVec.isLt _)⟩
    · rfl

/-- A word of twelve bits and a pointer. -/
def twelveBits : Setting :=
  ⟨⟨#[⟨"%x", "%x", some ⟨"%x", .int (some 12)⟩, .input⟩, ⟨"%p", "%p", some ⟨"%p", .ptr (.int (some 12))⟩, .input⟩], 0⟩,
    ⟨fun _ => 1, 32⟩, {}, true⟩

/-- Both have been encoded, and the memory holds the same byte everywhere. -/
def twelveBitsWork : Work :=
  ⟨{ State.start with
      vars := [("%x", ⟨some (.var "%x" 12), .none⟩), ("%p", ⟨some (.var "%p" 32), .none⟩)]
      memory := some (.byte (.var "mem0" 8)) }, .none, 0⟩

theorem twelveBits_forwarded : ∃ w' m' t w₂,
    storeBytes ⟨"%p", .int (some 12)⟩ 0 1 0 twelveBits twelveBitsWork = .ok ((), w') ∧ w'.state.memory = some m' ∧
      loadTerm (twelveBits.table.get 0) 1 0 twelveBits (twelveBitsWork.setMemory m') = .ok (t, w₂) ∧
      ∀ env, holds env w'.state.defined = true → t.num env = wrap 12 (env.bits "%x") := by
  have hsize : twelveBits.sizeOf ⟨"%p", .int (some 12)⟩ = .ok 12 := rfl
  obtain ⟨w', m', hstore, hm', hload, -⟩ := load_of_store (w := twelveBitsWork) (x := 0) (y := 1) (n := 12)
    (a := .var "%x" 12) (b := .var "%p" 32) 0 rfl rfl rfl rfl rfl hsize (by decide) (by decide) rfl
  obtain ⟨t, w₂, hrun, -, hword⟩ := hload (twelveBitsWork.setMemory m') (twelveBits.table.get 0) 1 0 _ rfl rfl rfl
    ⟨_, rfl, rfl⟩
  exact ⟨w', m', t, w₂, hstore, hm', hrun, fun env hd => (hword env hd).trans (Term.num_var ..)⟩

end Peephole.Encode
