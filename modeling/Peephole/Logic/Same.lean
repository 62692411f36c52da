import Peephole.Logic.Term

/-!
# Identical terms

Whether two terms, formulas or arrays are built in the same way.
-/

namespace Peephole.Logic

mutual

def Term.same : Term → Term → Bool
  | .var n w, .var m v => n == m && w == v
  | .const a w, .const b v => a == b && w == v
  | .not a, .not b => a.same b
  | .neg a, .neg b => a.same b
  | .op o a b, .op p c d => o == p && a.same c && b.same d
  | .extract h l a, .extract i m b => h == i && l == m && a.same b
  | .zeroExt n a, .zeroExt m b => n == m && a.same b
  | .signExt n a, .signExt m b => n == m && a.same b
  | .concat a b, .concat c d => a.same c && b.same d
  | .ite p a b, .ite q c d => p.same q && a.same c && b.same d
  | .read m a, .read n b => m.same n && a.same b
  | _, _ => false

def Formula.same : Formula → Formula → Bool
  | .lit a, .lit b => a == b
  | .var n, .var m => n == m
  | .cmp c a b, .cmp d x y => c == d && a.same x && b.same y
  | .not p, .not q => p.same q
  | .and ps, .and qs => Formula.sameAll ps qs
  | .or ps, .or qs => Formula.sameAll ps qs
  | .implies p q, .implies r s => p.same r && q.same s
  | .ite c p q, .ite d r s => c.same d && p.same r && q.same s
  | .distinct ps, .distinct qs => Formula.sameAll ps qs
  | .distinctTerms ts, .distinctTerms us => Term.sameAll ts us
  | .all vs p, .all ws q => vs == ws && p.same q
  | .ex vs p, .ex ws q => vs == ws && p.same q
  | _, _ => false

def ArrayTerm.same : ArrayTerm → ArrayTerm → Bool
  | .var n, .var m => n == m
  | .write c a v m, .write d b w n => c.same d && a.same b && v.same w && m.same n
  | .ite c a b, .ite d x y => c.same d && a.same x && b.same y
  | _, _ => false

def Formula.sameAll : List Formula → List Formula → Bool
  | [], [] => true
  | p :: ps, q :: qs => p.same q && Formula.sameAll ps qs
  | _, _ => false

def Term.sameAll : List Term → List Term → Bool
  | [], [] => true
  | t :: ts, u :: us => t.same u && Term.sameAll ts us
  | _, _ => false

end

end Peephole.Logic
