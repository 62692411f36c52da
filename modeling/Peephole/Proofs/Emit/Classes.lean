import Mathlib.Algebra.Order.Group.Multiset
import Mathlib.Data.Setoid.Basic
import Peephole.Proofs.Emit.Naming

/-!
# Classes of types

Values whose types must be equal are linked to each other, and the types that are known of them stand at the
representatives of their classes.  When two classes are joined, a representative that is bound is preferred.

* `Leads` : the links from a value to its representative; `exists_representative` : **the search for the representative
  ends there, and shortening the links changes no representative.**
* `Combines` : a type is the combination of others.
* `Knows` : the representatives, and the types at them, are those for the types that were given.
* `History` : the calls that led to a state; `classes_exact` : **after any calls, the classes are those of the values that
  were passed to one call, and each representative has the combination of all types given for its class.**
-/

namespace Peephole.Emit

open Program Cpp

variable {t : Table} {g g' : Generator} {links : Slots (Option ValueId)} {next : ValueId → Option ValueId}
  {rep : ValueId → ValueId} {i j k q r s : ValueId} {is : List ValueId} {m n : Nat} {u : Unit}

/-! ### Representatives -/

def linkOf (links : Slots (Option ValueId)) (i : ValueId) : Option ValueId := (links.get? i).join

theorem linkOf_put (l : Option ValueId) : linkOf (links.put i l) = Function.update (linkOf links) i l := by
  funext j
  by_cases hj : j = i
  · rw [linkOf, hj, Slots.get?_put_self, Function.update_self]
    rfl
  · rw [linkOf, Slots.get?_put_of_ne _ hj, Function.update_of_ne hj, linkOf]

/-- From the value `i`, `n` links lead to `r`, which has none. -/
inductive Leads (next : ValueId → Option ValueId) : ValueId → Nat → ValueId → Prop
  | root {i : ValueId} (h : next i = none) : Leads next i 0 i
  | link {i j r : ValueId} {n : Nat} (h : next i = some j) (hj : Leads next j n r) : Leads next i (n + 1) r

theorem Leads.isRoot (h : Leads next i n r) : next r = none := by
  induction h with
  | root h => exact h
  | link _ _ ih => exact ih

theorem Leads.unique (h : Leads next i n r) (h' : Leads next i m s) : n = m ∧ r = s := by
  induction h generalizing m with
  | root hi =>
    cases h' with
    | root => exact ⟨rfl, rfl⟩
    | link hi' => cases hi.symm.trans hi'
  | link hi _ ih =>
    cases h' with
    | root hi' => cases hi.symm.trans hi'
    | link hi' hj =>
      obtain rfl := Option.some.inj (hi.symm.trans hi')
      obtain ⟨rfl, rfl⟩ := ih hj
      exact ⟨rfl, rfl⟩

theorem mem_keys_of_linkOf (h : linkOf links i = some j) : i ∈ links.map Prod.fst := by
  obtain ⟨es₁, es₂, rfl, -⟩ := List.lookup_eq_some_iff.1 (Option.join_eq_some_iff.1 h)
  simp

/-- A way is not longer than the table of links, as it comes to no value twice. -/
theorem Leads.le_length (h : Leads (linkOf links) i n r) : n ≤ links.length := by
  have hway : ∃ is : List ValueId, is.length = n ∧ is.Nodup ∧ is ⊆ links.map Prod.fst ∧
      ∀ j ∈ is, ∃ m ≤ n, Leads (linkOf links) j m r := by
    -- The way from `i` is longer than all ways from the values behind it.
    induction h with
    | root => exact ⟨[], rfl, .nil, nofun, nofun⟩
    | @link i j r n h hj ih =>
      obtain ⟨is, hlen, hnodup, hsub, hall⟩ := ih
      refine ⟨i :: is, by rw [List.length_cons, hlen], List.nodup_cons.2 ⟨fun hi => ?_, hnodup⟩,
        List.cons_subset.2 ⟨mem_keys_of_linkOf h, hsub⟩, ?_⟩
      · obtain ⟨m, hm, hi'⟩ := hall i hi
        have := (hi'.unique (.link h hj)).1
        omega
      · refine List.forall_mem_cons.2 ⟨⟨_, le_refl _, .link h hj⟩, fun k hk => ?_⟩
        obtain ⟨m, hm, hk⟩ := hall k hk
        exact ⟨m, Nat.le_succ_of_le hm, hk⟩
  obtain ⟨is, rfl, hnodup, hsub, -⟩ := hway
  simpa using (hnodup.subperm hsub).length_le

/-- All values lead to their representatives. -/
def Reps (next : ValueId → Option ValueId) (rep : ValueId → ValueId) : Prop := ∀ i, ∃ n, Leads next i n (rep i)

theorem Reps.eq (h : Reps next rep) (hi : Leads next i n r) : rep i = r := by
  obtain ⟨m, hm⟩ := h i
  exact (hm.unique hi).2

theorem Reps.isRoot (h : Reps next rep) (i : ValueId) : next (rep i) = none := by
  obtain ⟨n, hn⟩ := h i
  exact hn.isRoot

theorem Reps.idem (h : Reps next rep) (i : ValueId) : rep (rep i) = rep i := h.eq (.root (h.isRoot i))

/-- The representatives after the class of `s` has joined that of `r`. -/
def relink (rep : ValueId → ValueId) (s r : ValueId) (i : ValueId) : ValueId := if rep i = s then r else rep i

/-- A link from `k` to a representative `r`: the class of `k` is then that of `r`. -/
theorem Reps.link (h : Reps next rep) (hr : rep r = r) (hne : r ≠ k) (hk : rep k = k ∨ rep k = r) :
    Reps (Function.update next k (some r)) (relink rep k r) := fun i => by
  have hroot : Leads (Function.update next k (some r)) r 0 r :=
    .root (by rw [Function.update_of_ne hne, ← hr, h.isRoot])
  -- The new link is the only way from `k`; other ways go on as before, and perhaps by this link.
  have hself : ∀ {n s}, Leads next k n s → ∃ m, Leads (Function.update next k (some r)) k m (if s = k then r else s) := by
    intro n s hs
    obtain rfl := h.eq hs
    have hto : (if rep k = k then r else rep k) = r := by rcases hk with hk | hk <;> simp [hk]
    rw [hto]
    exact ⟨1, .link (Function.update_self ..) hroot⟩
  obtain ⟨n, hn⟩ := h i
  unfold relink
  generalize rep i = s at hn
  induction hn with
  | @root i hi =>
    by_cases hik : i = k
    · exact hik ▸ hself (.root (hik ▸ hi))
    · rw [if_neg hik]
      exact ⟨0, .root (by rwa [Function.update_of_ne hik])⟩
  | @link i j s n hi hj ih =>
    by_cases hik : i = k
    · exact hik ▸ hself (.link (hik ▸ hi) hj)
    · obtain ⟨m, hm⟩ := ih
      exact ⟨m + 1, .link (by rwa [Function.update_of_ne hik]) hm⟩

/-- A link from a value to its representative changes nothing. -/
theorem Reps.compress (h : Reps next rep) (hk : rep k ≠ k) : Reps (Function.update next k (some (rep k))) rep := by
  have hsame : relink rep k (rep k) = rep := funext fun i => if_neg fun hi => hk (by rw [← hi, h.idem])
  have hlink := h.link (h.idem k) hk (.inr rfl)
  rwa [hsame] at hlink

/-- The search ends at the representative, and changes no representative. -/
theorem exists_representativeFrom {fuel : Nat} (t : Table) (hrep : Reps (linkOf g.links) rep)
    (h : Leads (linkOf g.links) i n (rep i)) (hn : n < fuel) :
    ∃ links, Runs (representativeFrom fuel i) t g (rep i) { g with links := links } ∧ Reps (linkOf links) rep := by
  induction fuel generalizing i n with
  | zero => omega
  | succ fuel ih =>
    rw [representativeFrom]
    simp only [runs_get_bind]
    cases hlink : g.links.get? i with
    | none =>
      have hroot : linkOf g.links i = none := by rw [linkOf, hlink, Option.join_none]
      refine ⟨g.links.put i none, runs_modify_bind.2 (runs_pure.2 ⟨hrep.eq (.root hroot), rfl⟩), ?_⟩
      rwa [linkOf_put, Function.update_eq_self_iff.2 hroot.symm]
    | some l =>
      have hl : linkOf g.links i = l := by rw [linkOf, hlink, Option.join_some]
      cases l with
      | none => exact ⟨g.links, runs_pure.2 ⟨hrep.eq (.root hl), rfl⟩, hrep⟩
      | some j =>
        -- The way from `j` is shorter by one link, as the fuel is.
        obtain ⟨m, hj⟩ := hrep j
        obtain ⟨rfl, hij⟩ := h.unique (.link hl hj)
        obtain ⟨links, hrun, hreps⟩ := ih hj (by omega)
        refine ⟨links.put i (some (rep i)), ?_, ?_⟩
        · rw [hij]
          exact runs_bind.2 ⟨_, _, hrun, runs_modify_bind.2 (runs_pure.2 ⟨rfl, rfl⟩)⟩
        · rw [linkOf_put]
          refine hreps.compress fun hi => ?_
          cases hl.symm.trans (hi ▸ h.isRoot)

theorem exists_representative (t : Table) (hrep : Reps (linkOf g.links) rep) (i : ValueId) :
    ∃ links, Runs (representative i) t g (rep i) { g with links := links } ∧ Reps (linkOf links) rep := by
  obtain ⟨n, hn⟩ := hrep i
  exact exists_representativeFrom t hrep hn (Nat.lt_succ_of_le hn.le_length)

/-! ### Entries -/

/-- The type is the combination of the types, each taken once, in some order; there is none if there are none. -/
inductive Combines : Multiset Ty → Option Ty → Prop
  | none : Combines 0 none
  | single (a : Ty) : Combines {a} (some a)
  | both {as bs : Multiset Ty} {a b c : Ty} {o : Origin} (ha : Combines as (some a)) (hb : Combines bs (some b))
    (h : meet a b = .ok (c, o)) : Combines (as + bs) (some c)

/-- The types given for the values of the class of `r`. -/
def classTypes (rep : ValueId → ValueId) (given : Multiset (ValueId × Ty)) (r : ValueId) : Multiset Ty :=
  (given.filter fun e => rep e.1 = r).map Prod.snd

/-- The entries of a table are the combinations of what is given for the classes. -/
def Sums (rep : ValueId → ValueId) (given : Multiset (ValueId × Ty)) (entries : Slots Ty) : Prop :=
  ∀ r, Combines (classTypes rep given r) (entries.get? r)

variable {entries entries' : Slots Ty} {given : Multiset (ValueId × Ty)} {a b c x : Ty} {ts us : Multiset Ty}

theorem runs_combined : Runs (combined a b) t g c g' ↔ (∃ o, meet a b = .ok (c, o)) ∧ g' = g := by
  simp only [combined, runs_bind, runs_outcome, runs_pure, Prod.exists]
  constructor
  · rintro ⟨_, o, _, ⟨hmeet, rfl⟩, rfl, rfl⟩
    exact ⟨⟨o, hmeet⟩, rfl⟩
  · rintro ⟨⟨o, hmeet⟩, rfl⟩
    exact ⟨c, o, _, ⟨hmeet, rfl⟩, rfl, rfl⟩

theorem Combines.withEntry {o : Option Ty} (hts : Combines ts o) (hus : Combines us (some a))
    (h : Runs (withEntry a o) t g x g') : Combines (us + ts) (some x) ∧ g' = g := by
  cases o with
  | none =>
    obtain ⟨rfl, rfl⟩ := runs_pure.1 h
    cases hts
    exact ⟨by rwa [add_zero], rfl⟩
  | some b =>
    obtain ⟨⟨o, hmeet⟩, rfl⟩ := runs_combined.1 h
    exact ⟨.both hus hts hmeet, rfl⟩

theorem Sums.put (h : Sums rep given entries) (hx : Combines (us + classTypes rep given (rep i)) (some x)) :
    Sums rep (us.map (i, ·) + given) (entries.put (rep i) x) := by
  intro r
  have hadd : classTypes rep (us.map (i, ·) + given) r = (if rep i = r then us else 0) + classTypes rep given r := by
    simp only [classTypes, Multiset.filter_add, Multiset.map_add, Multiset.filter_map]
    split_ifs with hr <;> simp [hr]
  rw [hadd]
  by_cases hr : rep i = r
  · subst hr
    rwa [if_pos rfl, Slots.get?_put_self]
  · rw [if_neg hr, zero_add, Slots.get?_put_of_ne _ (Ne.symm hr)]
    exact h r

theorem Slots.get?_erase {α : Type} (es : Slots α) (i j : ValueId) :
    (es.erase i).get? j = if j = i then none else es.get? j := by
  induction es with
  | nil => simp [erase, get?]
  | cons e es ih =>
    obtain ⟨k, b⟩ := e
    unfold erase get? at ih ⊢
    rw [List.filter_cons, List.lookup_cons]
    by_cases hk : k = i
    · cases hj : j == k with
      | true => simpa [hk, eq_of_beq hj] using ih
      | false => simpa [hk] using ih
    · cases hj : j == k with
      | true => simp [hk, eq_of_beq hj]
      | false => simpa [hk, List.lookup_cons, hj] using ih

theorem classTypes_relink (hne : r ≠ s) (k : ValueId) : classTypes (relink rep s r) given k =
    if k = s then 0 else if k = r then classTypes rep given r + classTypes rep given s else classTypes rep given k := by
  have hiff : ∀ i, relink rep s r i = k ↔ k ≠ s ∧ (rep i = k ∨ rep i = s ∧ k = r) := by
    intro i
    unfold relink
    split_ifs <;> grind
  simp only [classTypes, hiff]
  split_ifs with hs hr
  · simp [hs]
  · have hboth : given.filter (fun e => rep e.1 = r ∧ rep e.1 = s) = 0 :=
      Multiset.filter_eq_nil.2 fun e _ he => hne (he.1.symm.trans he.2)
    rw [← Multiset.map_add, Multiset.filter_add_filter, hboth, add_zero]
    simp [hr, hne]
  · simp [hs, hr]

theorem Sums.join (h : Sums rep given entries) (hne : r ≠ s) (hrun : Runs (joinEntries entries r s) t g entries' g') :
    Sums (relink rep s r) given entries' ∧ g' = g := by
  have hr := h r
  have hs := h s
  unfold joinEntries at hrun
  split at hrun
  · next hnone =>
    obtain ⟨rfl, rfl⟩ := runs_pure.1 hrun
    refine ⟨fun k => ?_, rfl⟩
    rw [hnone] at hs
    rw [classTypes_relink hne]
    generalize classTypes rep given s = ts at hs
    cases hs
    split_ifs with hks hkr
    · rw [hks, hnone]
      exact .none
    · rwa [add_zero, hkr]
    · exact h k
  · next b hb =>
    split at hrun
    · exact absurd hrun runs_fail
    · next a ha =>
      simp only [runs_bind, runs_combined, runs_pure] at hrun
      obtain ⟨c, _, ⟨⟨o, hmeet⟩, rfl⟩, rfl, rfl⟩ := hrun
      rw [ha] at hr
      rw [hb] at hs
      refine ⟨fun k => ?_, rfl⟩
      rw [classTypes_relink hne, Slots.get?_erase]
      split_ifs with hks hkr
      · exact .none
      · rw [hkr, Slots.get?_put_self]
        exact .both hr hs hmeet
      · rw [Slots.get?_put_of_ne _ hkr]
        exact h k

/-! ### Calls -/

/-- What a generator knows about types: the representatives, the combinations of what is required and guaranteed of
each class, and which values are bound. -/
structure Knows (rep : ValueId → ValueId) (R G : Multiset (ValueId × Ty)) (B : ValueId → Bool) (g : Generator) :
    Prop where
  reps : Reps (linkOf g.links) rep
  required : Sums rep R g.required
  guaranteed : Sums rep G g.guaranteed
  bound : g.isBound = B

variable {R G : Multiset (ValueId × Ty)} {B : ValueId → Bool}

theorem Knows.representative (h : Knows rep R G B g) (hrun : Runs (representative i) t g r g') :
    r = rep i ∧ Knows rep R G B g' := by
  obtain ⟨links, hrun', hreps⟩ := exists_representative t h.reps i
  cases hrun.symm.trans hrun'
  exact ⟨rfl, hreps, h.required, h.guaranteed, h.bound⟩

theorem Knows.testTypes (h : Knows rep R G B g) (hrun : Runs (testTypes r s) t g u g') : Knows rep R G B g' := by
  rw [Emit.testTypes, runs_get_bind] at hrun
  split at hrun
  · simp only [runs_bind, runs_modify] at hrun
    obtain ⟨a, g₁, ha, b, g₂, hb, rfl⟩ := hrun
    obtain ⟨_, _, hr, -⟩ := runs_typeExpr ha
    obtain ⟨_, _, hs, -⟩ := runs_typeExpr hb
    obtain ⟨-, h⟩ := (h.representative hr).2.representative hs
    exact ⟨h.reps, h.required, h.guaranteed, h.bound⟩
  · obtain ⟨-, rfl⟩ := runs_pure.1 hrun
    exact h

theorem Knows.linkClasses (h : Knows rep R G B g) (hr : rep r = r) (hs : rep s = s) (hne : r ≠ s)
    (hrun : Runs (linkClasses r s) t g q g') : q = r ∧ Knows (relink rep s r) R G B g' := by
  rw [Emit.linkClasses, runs_modify_bind] at hrun
  simp only [↓runs_modify_bind, ↓runs_get_bind, runs_bind, runs_pure] at hrun
  obtain ⟨required, g₁, hrequired, guaranteed, g₂, hguaranteed, rfl, rfl⟩ := hrun
  obtain ⟨hsums, rfl⟩ := h.required.join hne hrequired
  obtain ⟨hsums', rfl⟩ := h.guaranteed.join hne hguaranteed
  exact ⟨rfl, linkOf_put _ ▸ h.reps.link hr hne (.inl hs), hsums, hsums', h.bound⟩

/-- Linking the class of `j` to that of `i` joins the two and no others. -/
theorem ker_relink_le (hne : rep i ≠ rep j) {S : Setoid ValueId} :
    Setoid.ker (relink rep (rep j) (rep i)) ≤ S ↔ Setoid.ker rep ≤ S ∧ S i j := by
  simp only [Setoid.le_def, Setoid.ker_def, relink]
  constructor
  · exact fun h => ⟨fun hxy => h (by rw [hxy]), h (by rw [if_neg hne, if_pos rfl])⟩
  · rintro ⟨h, hij⟩ x y hxy
    split_ifs at hxy with hx hy hy
    · exact h (hx.trans hy.symm)
    · exact S.trans (h hx) (S.trans (S.symm hij) (h hxy))
    · exact S.trans (h hxy) (S.trans hij (h hy.symm))
    · exact h hxy

/-- The classes of `i` and `j` are joined, and a class with a bound representative still has one. -/
theorem Knows.joinClass (h : Knows rep R G B g) (hrun : Runs (joinClass (rep i) j) t g q g') :
    ∃ rep', q = rep' i ∧ Knows rep' R G B g' ∧
      (∀ S : Setoid ValueId, Setoid.ker rep' ≤ S ↔ Setoid.ker rep ≤ S ∧ S i j) ∧ ∀ k, B (rep k) → B (rep' k) := by
  obtain ⟨s, g₁, hs, hrun⟩ := runs_bind.1 hrun
  obtain ⟨rfl, h⟩ := h.representative hs
  have hi := h.reps.idem i
  have hj := h.reps.idem j
  split at hrun
  · next heq =>
    obtain ⟨rfl, rfl⟩ := runs_pure.1 hrun
    exact ⟨rep, rfl, h, fun S => (and_iff_left_of_imp fun hS => hS heq).symm, fun _ hk => hk⟩
  · next hne =>
    obtain ⟨_, g₂, htest, hrun⟩ := runs_bind.1 hrun
    have h := h.testTypes htest
    rw [runs_get_bind, h.bound] at hrun
    split at hrun
    · -- Only the second representative is bound, and it stays.
      next hbound =>
      rw [Bool.and_eq_true] at hbound
      obtain ⟨rfl, h'⟩ := h.linkClasses hj hi (Ne.symm hne) hrun
      refine ⟨relink rep (rep i) (rep j), (if_pos rfl).symm, h', fun S => ?_, fun k hk => ?_⟩
      · rw [ker_relink_le (Ne.symm hne), S.comm']
      · unfold relink
        split_ifs
        · exact hbound.1
        · exact hk
    · next hbound =>
      obtain ⟨rfl, h'⟩ := h.linkClasses hi hj hne hrun
      refine ⟨relink rep (rep j) (rep i), (if_neg hne).symm, h', fun S => ker_relink_le hne, fun k hk => ?_⟩
      unfold relink
      split_ifs with hkj
      · simpa [hkj ▸ hk] using hbound
      · exact hk

theorem Knows.joinClasses (h : Knows rep R G B g) (hrun : Runs (is.foldlM Emit.joinClass (rep i)) t g q g') :
    ∃ rep', Knows rep' R G B g' ∧ (∀ S : Setoid ValueId, Setoid.ker rep' ≤ S ↔ Setoid.ker rep ≤ S ∧ ∀ j ∈ is, S i j) ∧
      ∀ k, B (rep k) → B (rep' k) := by
  induction is generalizing rep g with
  | nil =>
    obtain ⟨-, rfl⟩ := runs_pure.1 hrun
    exact ⟨rep, h, fun S => by simp, fun _ hk => hk⟩
  | cons j is ih =>
    rw [List.foldlM_cons] at hrun
    obtain ⟨_, g₁, hj, hrun⟩ := runs_bind.1 hrun
    obtain ⟨rep₁, rfl, h₁, hjoins, hbound⟩ := h.joinClass hj
    obtain ⟨rep', h', hjoins', hbound'⟩ := ih h₁ hrun
    refine ⟨rep', h', fun S => ?_, fun k hk => hbound' k (hbound k hk)⟩
    rw [hjoins', hjoins, List.forall_mem_cons, and_assoc]

theorem runs_noteType {ty : Ty} (h : Runs (noteType r ty) t g u g') : ∃ named, g' = { g with namedTypes := named } := by
  unfold noteType at h
  split at h
  · exact ⟨_, runs_modify.1 h⟩
  · exact ⟨_, (runs_pure.1 h).2⟩

theorem Knows.registerType {actual minimal : Ty} (h : Knows rep R G B g)
    (hrun : Runs (registerType i actual minimal) t g u g') :
    Knows rep ({(i, unnamed actual), (i, unnamed minimal)} + R) (if g.inSource then {(i, unnamed minimal)} + G else G)
      B g' := by
  simp only [Emit.registerType, ↓runs_modify_bind, ↓runs_get_bind, runs_bind, runs_combined] at hrun
  obtain ⟨r, g₁, hr, _, g₂, hnote, a, _, ⟨⟨o, hmeet⟩, rfl⟩, x, g₃, hx, hrun⟩ := hrun
  have hsource : g₁.inSource = g.inSource := (congrArg Generator.inSource (representative_naming hr) :)
  obtain ⟨rfl, h⟩ := h.representative hr
  obtain ⟨named, rfl⟩ := runs_noteType hnote
  obtain ⟨hcombines, rfl⟩ := (h.required (rep i)).withEntry (.both (.single _) (.single _) hmeet) hx
  have hrequired := h.required.put hcombines
  rw [← hsource]
  split at hrun
  · next hs =>
    simp only [↓runs_get_bind, runs_bind, runs_modify] at hrun
    obtain ⟨y, g₄, hy, rfl⟩ := hrun
    obtain ⟨hcombines', rfl⟩ := (h.guaranteed (rep i)).withEntry (.single _) hy
    rw [if_pos hs]
    exact ⟨h.reps, by simpa using hrequired, h.guaranteed.put hcombines', h.bound⟩
  · next hs =>
    obtain ⟨-, rfl⟩ := runs_pure.1 hrun
    rw [if_neg hs]
    exact ⟨h.reps, by simpa using hrequired, h.guaranteed, h.bound⟩

/-! ### Histories -/

/-- A call that is about types; at least one value is passed to a call that joins classes. -/
inductive Call where
  | find (i : ValueId)
  | register (i : ValueId) (actual minimal : Ty)
  | unify (i : ValueId) (is : List ValueId)

def Call.run : Call → EmitM Unit
  | .find i => do let _ ← representative i
  | .register i actual minimal => registerType i actual minimal
  | .unify i is => Emit.unify (i :: is)

/-- The calls that have led to a state, the last one first, each with the state in which it was made.  Between them,
anything may happen that leaves the tables of types as they are and that unbinds no value. -/
inductive History (t : Table) : List (Call × Generator) → Generator → Prop
  | start : History t [] .start
  | call {cs : List (Call × Generator)} {g g' : Generator} {c : Call} (h : History t cs g)
    (hrun : Runs c.run t g () g') : History t ((c, g) :: cs) g'
  | other {cs : List (Call × Generator)} {g g' : Generator} (h : History t cs g) (hlinks : g'.links = g.links)
    (hrequired : g'.required = g.required) (hguaranteed : g'.guaranteed = g.guaranteed)
    (hbound : ∀ i, g.isBound i → g'.isBound i) : History t cs g'

/-- The two values have been passed to one call. -/
def Passed : List (Call × Generator) → ValueId → ValueId → Prop
  | [], _, _ => False
  | (.unify k is, _) :: cs, i, j => i ∈ k :: is ∧ j ∈ k :: is ∨ Passed cs i j
  | _ :: cs, i, j => Passed cs i j

/-- The types required of values. -/
def requiredTypes : List (Call × Generator) → Multiset (ValueId × Ty)
  | [] => 0
  | (.register i actual minimal, _) :: cs => {(i, unnamed actual), (i, unnamed minimal)} + requiredTypes cs
  | _ :: cs => requiredTypes cs

/-- The types that the source guarantees of values. -/
def guaranteedTypes : List (Call × Generator) → Multiset (ValueId × Ty)
  | [] => 0
  | (.register i _ minimal, g) :: cs =>
    if g.inSource then {(i, unnamed minimal)} + guaranteedTypes cs else guaranteedTypes cs
  | _ :: cs => guaranteedTypes cs

/-- The value was bound whenever it was passed to a call that joins classes. -/
def BoundEarly (i : ValueId) : List (Call × Generator) → Prop
  | [] => True
  | (.unify k is, g) :: cs => (i ∈ k :: is → g.isBound i) ∧ BoundEarly i cs
  | _ :: cs => BoundEarly i cs

variable {cs : List (Call × Generator)} {c : Call}

/-- What a history has led to. -/
structure Invariant (B : ValueId → Bool) (rep : ValueId → ValueId) (cs : List (Call × Generator)) (g : Generator) :
    Prop where
  knows : Knows rep (requiredTypes cs) (guaranteedTypes cs) B g
  same : ∀ S : Setoid ValueId, Setoid.ker rep ≤ S ↔ ∀ x y, Passed cs x y → S x y
  /-- A value that may still be bound has not been passed to a call that joins classes. -/
  bound : ∀ i, BoundEarly i cs → B (rep i) ∨ ∀ j, rep j = rep i → j = i

theorem Invariant.unify (h : Invariant g.isBound rep cs g) (hrun : Runs (Emit.unify (i :: is)) t g u g') :
    ∃ rep', Invariant g.isBound rep' ((.unify i is, g) :: cs) g' := by
  simp only [Emit.unify, runs_bind, runs_pure] at hrun
  obtain ⟨r, g₁, hr, q, g₂, hq, -, rfl⟩ := hrun
  obtain ⟨rfl, hknows⟩ := h.knows.representative hr
  obtain ⟨rep', h', hjoins, hbound⟩ := hknows.joinClasses hq
  refine ⟨rep', h', fun S => ?_, fun k hk => ?_⟩
  · rw [hjoins, h.same]
    constructor
    · rintro ⟨hold, hnew⟩ x y (⟨hx, hy⟩ | hxy)
      · have hall : ∀ z ∈ i :: is, S i z := List.forall_mem_cons.2 ⟨S.refl i, hnew⟩
        exact S.trans (S.symm (hall x hx)) (hall y hy)
      · exact hold x y hxy
    · intro hall
      exact ⟨fun x y hxy => hall x y (.inr hxy),
        fun j hj => hall i j (.inl ⟨List.mem_cons_self, List.mem_cons_of_mem i hj⟩)⟩
  · rcases h.bound k hk.2 with hb | halone
    · exact .inl (hbound k hb)
    by_cases hmem : k ∈ i :: is
    · -- A value that was alone represented itself, and it is bound when it is passed.
      refine .inl (hbound k ?_)
      rw [halone (rep k) (hknows.reps.idem k)]
      exact hk.1 hmem
    · -- The value stays alone: being another value than `k` respects what is joined.
      have hle : Setoid.ker rep' ≤ Setoid.ker (· = k) := by
        refine (hjoins _).2 ⟨fun {x y} hxy => propext ⟨?_, ?_⟩, fun j hj => propext ⟨?_, ?_⟩⟩
        · rintro rfl
          exact halone y hxy.symm
        · rintro rfl
          exact halone x hxy
        · rintro rfl
          exact absurd List.mem_cons_self hmem
        · rintro rfl
          exact absurd (List.mem_cons_of_mem i hj) hmem
      exact .inr fun j hj => (hle hj : (j = k) = (k = k)).mpr rfl

theorem Invariant.call (h : Invariant g.isBound rep cs g) (hrun : Runs c.run t g () g') :
    ∃ rep', Invariant g.isBound rep' ((c, g) :: cs) g' := by
  cases c with
  | find i =>
    obtain ⟨r, hr, -⟩ := runs_bind_pure.1 hrun
    exact ⟨rep, (h.knows.representative hr).2, h.same, h.bound⟩
  | register i actual minimal => exact ⟨rep, h.knows.registerType hrun, h.same, h.bound⟩
  | unify i is => exact h.unify hrun

theorem History.invariant (h : History t cs g) : ∃ rep, Invariant g.isBound rep cs g := by
  induction h with
  | start =>
    refine ⟨id, ⟨fun i => ⟨0, .root rfl⟩, fun _ => .none, fun _ => .none, rfl⟩, fun S => ⟨fun _ => nofun, ?_⟩,
      fun i _ => .inr fun j hj => hj⟩
    rintro - x _ rfl
    exact S.refl x
  | call _ hrun ih =>
    obtain ⟨rep, h⟩ := ih
    obtain ⟨rep', h'⟩ := h.call hrun
    exact ⟨rep', h'.knows.bound ▸ h'⟩
  | other _ hlinks hrequired hguaranteed hbound ih =>
    obtain ⟨rep, h⟩ := ih
    exact ⟨rep, ⟨hlinks ▸ h.knows.reps, hrequired ▸ h.knows.required, hguaranteed ▸ h.knows.guaranteed, rfl⟩,
      h.same, fun i hi => (h.bound i hi).imp_left (hbound _)⟩

/-- Only representatives have entries. -/
theorem Sums.isRep (h : Sums rep given entries) (hidem : ∀ i, rep (rep i) = rep i) (hr : entries.get? r ≠ none) :
    rep r = r := by
  have hne : classTypes rep given r ≠ 0 := by
    have hcombines := h r
    generalize entries.get? r = o, classTypes rep given r = ts at hr hcombines
    induction hcombines with
    | none => exact absurd rfl hr
    | single a => exact Multiset.singleton_ne_zero a
    | both _ _ _ ih => exact fun hzero => ih nofun (Multiset.le_zero.1 (hzero ▸ Multiset.le_add_right _ _))
  obtain ⟨b, hb⟩ := Multiset.exists_mem_of_ne_zero hne
  obtain ⟨e, he, -⟩ := Multiset.mem_map.1 hb
  rw [← (Multiset.mem_filter.1 he).2, hidem]

/-- **The classes of types.**  After any calls, each value leads to the representative of its class, where the search
for it ends; a search changes no representative.  The classes are those of the values that were passed to one call.
Only representatives have entries, and these are the combinations of all types given for values of the class.  A bound
value that was bound whenever it was passed to a call that joins classes has a bound representative. -/
theorem classes_exact (h : History t cs g) : ∃ rep : ValueId → ValueId,
    (∀ i, ∃ n links, Leads (linkOf g.links) i n (rep i) ∧
      Runs (representative i) t g (rep i) { g with links := links } ∧ ∀ j, ∃ m, Leads (linkOf links) j m (rep j)) ∧
    (∀ i j, rep i = rep j ↔ Relation.EqvGen (Passed cs) i j) ∧
    (∀ r, g.required.get? r ≠ none ∨ g.guaranteed.get? r ≠ none → rep r = r) ∧
    (∀ r, Combines (classTypes rep (requiredTypes cs) r) (g.required.get? r) ∧
      Combines (classTypes rep (guaranteedTypes cs) r) (g.guaranteed.get? r)) ∧
    ∀ i, g.isBound i → BoundEarly i cs → g.isBound (rep i) := by
  obtain ⟨rep, hinv⟩ := h.invariant
  obtain ⟨hreps, hrequired, hguaranteed, -⟩ := hinv.knows
  refine ⟨rep, fun i => ?_, fun i j => ⟨fun hij => ?_, fun hij => ?_⟩, fun r hr => ?_,
    fun r => ⟨hrequired r, hguaranteed r⟩, fun i hi hearly => ?_⟩
  · obtain ⟨n, hn⟩ := hreps i
    obtain ⟨links, hrun, hlinks⟩ := exists_representative t hreps i
    exact ⟨n, links, hn, hrun, hlinks⟩
  · exact (hinv.same (Relation.EqvGen.setoid _)).2 (fun x y => .rel x y) hij
  · exact Setoid.eqvGen_le (s := Setoid.ker rep) ((hinv.same _).1 le_rfl) hij
  · exact hr.elim (hrequired.isRep hreps.idem) (hguaranteed.isRep hreps.idem)
  · rcases hinv.bound i hearly with hbound | halone
    · exact hbound
    · rwa [halone (rep i) (hreps.idem i)]

/-- Two values, of which the second one is bound. -/
def secondBound : Generator := { Generator.start with valueNames := [(1, "x")], bound := [("x", pointerTo "Value")] }

/-- Of two values whose types are made equal, that which is bound represents both. -/
theorem classes_exact_pair : ∃ cs g, History default cs g ∧ g.required.get? 1 = some (.int (some 8)) ∧
    ∃ rep : ValueId → ValueId, rep 0 = 1 ∧ rep 1 = 1 ∧ g.isBound (rep 0) := by
  have hstart : History default [] secondBound := History.start.other rfl rfl rfl nofun
  have hfirst := hstart.call (c := .register 0 (.int none) (.int none)) rfl
  have hsecond := hfirst.call (c := .register 1 (.int (some 8)) (.int none)) rfl
  have hpair := hsecond.call (c := .unify 0 [1]) rfl
  obtain ⟨rep, -, hsame, hroot, -, hbound⟩ := classes_exact hpair
  have hzero : rep 0 = rep 1 := (hsame 0 1).2 (.rel _ _ (.inl ⟨by decide, by decide⟩))
  have hone : rep 1 = 1 := hroot 1 (.inl nofun)
  exact ⟨_, _, hpair, rfl, rep, hzero.trans hone, hone, hzero ▸ hbound 1 rfl ⟨fun _ => rfl, trivial⟩⟩

end Peephole.Emit
