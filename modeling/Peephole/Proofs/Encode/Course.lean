import Peephole.Proofs.Encode.Memory

/-!
# The course of encoding a value

All that a proof has to know about how a value is encoded.  An instruction looks its operands up and takes over their
conditions; a constant expression encodes its operands in their places.

* `Course` : what was done, by the kind of the value.
* `encode_course` : **encoding a value takes this course.**
-/

namespace Peephole.Encode

open Logic Program

variable {s : Setting} {w w' : Work} {i : ValueId} {is : List ValueId}

/-- The operands whose conditions an instruction takes over. -/
def reads : Op → List ValueId
  | .copy x | .convert _ _ x | .load _ x _ | .ret x => [x]
  | .arith _ x y _ | .icmp _ _ x y | .store _ x y _ => [x, y]
  | .select c x y => [c, x, y]
  | .gep p xs _ => p :: xs
  | _ => []

/-- The operands of a constant expression, which are encoded in their places. -/
def inPlace : Op → List ValueId
  | .unary _ x => [x]
  | .binary _ x y => [x, y]
  | .call _ args => args
  | _ => []

/-- Whether the value has a term. -/
def hasTerm : Op → Bool
  | .store _ _ _ _ | .skip | .unreachable | .br _ _ _ => false
  | _ => true

/-- Whether the value does nothing but take over the conditions of its operands. -/
def isQuiet : Op → Bool
  | .literal _ | .copy _ | .convert _ _ _ | .icmp _ _ _ _ | .select _ _ _ | .gep _ _ _ | .ret _ | .skip
  | .br _ _ _ => true
  | _ => false

theorem subTerm_ok {sub : ValueId → EncodeM (Option Term)} {t : Term} (h : subTerm sub i s w = .ok (t, w')) :
    sub i s w = .ok (some t, w') := by
  simp only [subTerm, bind_run, bind_ok] at h
  obtain ⟨⟨_ | u, w₁⟩, hu, h⟩ := h
  · simp at h
  · cases h
    exact hu

/-- The operands of a value are looked up among the smaller ones. -/
theorem mapM_smaller {ts : List Term}
    (h : is.mapM (subTerm fun j => if _h : j < i then encode j else stop .noSuchEntry) s w = .ok (ts, w')) :
    (∀ j ∈ is, j < i) ∧ is.mapM (subTerm encode) s w = .ok (ts, w') := by
  induction is generalizing w ts w' with
  | nil => exact ⟨by simp, h⟩
  | cons j is ih =>
    simp only [List.mapM_cons, bind_run, bind_ok, pure_run] at h ⊢
    obtain ⟨⟨t, w₁⟩, ht, ⟨us, w₂⟩, hus, h⟩ := h
    have hsub := subTerm_ok ht
    obtain ⟨his, hus'⟩ := ih hus
    split at hsub
    · next hj =>
      refine ⟨List.forall_mem_cons.2 ⟨hj, his⟩, (t, w₁), ?_, (us, w₂), hus', h⟩
      simp [subTerm, hsub]
    · simp at hsub

/-- **What was done to encode a value**, and which term it has. -/
inductive Course (s : Setting) (i : ValueId) (w : Work) : Option Term → Work → Prop
  | input {n : Nat} {w' : Work} (hop : (s.table.get i).op = .input) (hn : s.HasSize (s.table.get i) n)
    (h : pointsToBlock (s.table.get i) (s.table.get i).name n [] s w = .ok ((), w')) :
    Course s i w (some (.var (s.table.get i).name n)) w'
  | undefined {n : Nat} {w' : Work} (hop : (s.table.get i).op = .undefined) (hn : s.HasSize (s.table.get i) n)
    (h : pointsToBlock (s.table.get i) (undefVar (s.table.get i)) n [⟨undefVar (s.table.get i), .bits n⟩] s
      { w with conds.free := w.conds.free ++ [⟨undefVar (s.table.get i), .bits n⟩] } = .ok ((), w')) :
    Course s i w (some (.var (undefVar (s.table.get i)) n)) w'
  | unary {op : UnaryConst} {x : ValueId} {us : List Term} {t : Term} {w' : Work}
    (hop : (s.table.get i).op = .unary op x) (hlt : ∀ j ∈ [x], j < i)
    (h : [x].mapM (subTerm encode) s w = .ok (us, w')) : Course s i w (some t) w'
  | binary {op : BinaryConst} {x y : ValueId} {us : List Term} {t : Term} {w' : Work}
    (hop : (s.table.get i).op = .binary op x y) (hlt : ∀ j ∈ [x, y], j < i)
    (h : [x, y].mapM (subTerm encode) s w = .ok (us, w')) : Course s i w (some t) w'
  | call {fn : ConstFn} {args : List ValueId} {us : List Term} {w₁ w' : Work} {t : Term}
    (hop : (s.table.get i).op = .call fn args) (hlt : ∀ j ∈ args, j < i)
    (h : args.mapM (subTerm encode) s w = .ok (us, w₁))
    (hcall : callTerm (s.table.get i) fn us s w₁ = .ok (t, w')) : Course s i w (some t) w'
  | quiet {es : List Encoded} {t : Option Term} (hop : isQuiet (s.table.get i).op = true)
    (hes : Found s w.state.vars (reads (s.table.get i).op) es) (hvalues : ∀ e ∈ es, e.value.isSome = true)
    (ht : t.isSome = hasTerm (s.table.get i).op) : Course s i w t (w.adoptAll es)
  | arith {op : ArithOp} {x y : ValueId} {flags : List Flag} {t : Term} {w' : Work}
    (hop : (s.table.get i).op = .arith op x y flags)
    (h : arithTerm (s.table.get i) op x y flags s w = .ok (t, w')) : Course s i w (some t) w'
  | alloca {ty : PlacedTy} {c : ValueId} {align : Nat} {t : Term} {w' : Work}
    (hop : (s.table.get i).op = .alloca ty c align)
    (h : allocaTerm (s.table.get i) c align s w = .ok (t, w')) : Course s i w (some t) w'
  | load {ty : PlacedTy} {x : ValueId} {align : Nat} {t : Term} {w' : Work}
    (hop : (s.table.get i).op = .load ty x align)
    (h : loadTerm (s.table.get i) x align s w = .ok (t, w')) : Course s i w (some t) w'
  | store {ty : PlacedTy} {x y : ValueId} {align : Nat} {w' : Work} (hop : (s.table.get i).op = .store ty x y align)
    (h : storeBytes ty x y align s w = .ok ((), w')) : Course s i w none w'
  | unreachable (hop : (s.table.get i).op = .unreachable) :
    Course s i w none { w with conds.defined := w.conds.defined ++ [.lit false] }

theorem encode_course {t : Option Term} (h : encode i s w = .ok (t, w')) : Course s i w t w' := by
  have hquiet : ∀ {op : Op} {t : Option Term} (es : List Encoded), (s.table.get i).op = op → isQuiet op = true →
      Found s w.state.vars (reads op) es → (∀ e ∈ es, e.value.isSome = true) → t.isSome = hasTerm op →
      Course s i w t (w.adoptAll es) := by
    rintro _ t es rfl hop hes hvalues ht
    exact .quiet hop hes hvalues ht
  rw [encode, encodeWith, valueAt_bind] at h
  cases hop : (s.table.get i).op <;>
    simp only [hop, bind_run, bind_ok, ok_bind, pure_run, addFree_run, addDefined_run, sizeOf_run] at h
  case input =>
    obtain ⟨⟨n, w₁⟩, hn, _, hp, h⟩ := h
    cases h
    obtain ⟨hsize, rfl⟩ := valueSize_ok hn
    exact .input hop hsize hp
  case literal n =>
    obtain ⟨⟨n, w₁⟩, hn, h⟩ := h
    cases h
    obtain ⟨-, rfl⟩ := valueSize_ok hn
    exact hquiet [] hop rfl .nil (by simp) rfl
  case undefined =>
    obtain ⟨⟨n, w₁⟩, hn, _, hp, h⟩ := h
    cases h
    obtain ⟨hsize, rfl⟩ := valueSize_ok hn
    exact .undefined hop hsize hp
  case unary op x =>
    obtain ⟨⟨a, w₁⟩, ha, h⟩ := h
    cases h
    have hargs : [x].mapM (subTerm fun j => if _h : j < i then encode j else stop .noSuchEntry) s w =
        .ok ([a], w₁) := by
      simp only [List.mapM_cons, List.mapM_nil, bind_run, ha, ok_bind, pure_run]
    obtain ⟨hlt, hus⟩ := mapM_smaller hargs
    exact .unary hop hlt hus
  case binary op x y =>
    obtain ⟨⟨a, w₁⟩, ha, ⟨b, w₂⟩, hb, h⟩ := h
    cases h
    have hargs : [x, y].mapM (subTerm fun j => if _h : j < i then encode j else stop .noSuchEntry) s w =
        .ok ([a, b], w₂) := by
      simp only [List.mapM_cons, List.mapM_nil, bind_run, ha, hb, ok_bind, pure_run]
    obtain ⟨hlt, hus⟩ := mapM_smaller hargs
    exact .binary hop hlt hus
  case call fn args =>
    obtain ⟨⟨us, w₁⟩, hus, _, hcall, h⟩ := h
    cases h
    obtain ⟨hlt, hus⟩ := mapM_smaller hus
    exact .call hop hlt hus hcall
  case count _ _ _ _ => simp at h
  case copy x | ret x =>
    obtain ⟨⟨a, w₁⟩, ha, h⟩ := h
    cases h
    obtain ⟨e, he, hv, rfl⟩ := operand_ok ha
    exact hquiet [e] hop rfl (.cons he .nil) (by simp [hv]) rfl
  case convert op source x =>
    obtain ⟨⟨a, w₁⟩, ha, _, ⟨_, -, hm⟩, ⟨n, w₃⟩, hn, h⟩ := h
    cases hm
    cases h
    obtain ⟨-, rfl⟩ := valueSize_ok hn
    obtain ⟨e, he, hv, rfl⟩ := operand_ok ha
    exact hquiet [e] hop rfl (.cons he .nil) (by simp [hv]) rfl
  case icmp pred ty x y =>
    obtain ⟨⟨a, w₁⟩, ha, ⟨b, w₂⟩, hb, h⟩ := h
    cases h
    obtain ⟨e, he, hv, rfl⟩ := operand_ok ha
    obtain ⟨e', he', hv', rfl⟩ := operand_ok hb
    exact hquiet [e, e'] hop rfl (.cons he (.cons he' .nil)) (by simp [hv, hv']) rfl
  case select c x y =>
    obtain ⟨⟨p, w₁⟩, hp, ⟨a, w₂⟩, ha, ⟨b, w₃⟩, hb, h⟩ := h
    cases h
    obtain ⟨e₀, he₀, hv₀, rfl⟩ := operand_ok hp
    obtain ⟨e, he, hv, rfl⟩ := operand_ok ha
    obtain ⟨e', he', hv', rfl⟩ := operand_ok hb
    exact hquiet [e₀, e, e'] hop rfl (.cons he₀ (.cons he (.cons he' .nil))) (by simp [hv₀, hv, hv']) rfl
  case gep p xs inbounds =>
    obtain ⟨⟨a, w₁⟩, ha, ⟨ty, w₂⟩, hty, ⟨b, w₃⟩, hb, h⟩ := h
    cases h
    obtain ⟨e, he, hv, rfl⟩ := operand_ok ha
    obtain ⟨-, rfl⟩ := typeOf_ok hty
    obtain ⟨es, steps, hsteps, -, rfl⟩ := gepTerm_iff.1 hb
    obtain ⟨hes, hvs⟩ := hsteps.found
    exact hquiet (e :: es) hop rfl (.cons he hes) (List.forall_mem_cons.2 ⟨by simp [hv], hvs⟩) rfl
  case skip | br _ _ _ =>
    cases h
    exact hquiet [] hop rfl .nil (by simp) rfl
  case arith op x y flags =>
    obtain ⟨_, ha, h⟩ := h
    cases h
    exact .arith hop ha
  case alloca ty c align =>
    obtain ⟨_, ha, h⟩ := h
    cases h
    exact .alloca hop ha
  case load ty x align =>
    obtain ⟨_, ha, h⟩ := h
    cases h
    exact .load hop ha
  case store stored x y align =>
    obtain ⟨_, hst, h⟩ := h
    cases h
    exact .store hop hst
  case unreachable =>
    cases h
    exact .unreachable hop

theorem encode_isSome {t : Option Term} (h : encode i s w = .ok (t, w')) : t.isSome = hasTerm (s.table.get i).op := by
  cases encode_course h with
  | quiet _ _ _ ht => exact ht
  | _ hop => simp [hop, hasTerm]

end Peephole.Encode
