import Peephole.Logic.Bits
import Peephole.Logic.Eval

/-!
# Memories

A memory is an array of bytes, or one byte as a term over the **index**, which stands for the address that the memory is
looked at.  A write puts a condition on the index in front of the term, and to read at an address is to substitute the
address for the index.
-/

namespace Peephole.Logic

inductive Memory where
  | array (m : ArrayTerm)
  /-- A byte in which the index does not occur. -/
  | byte (t : Term)
  /-- One byte where the guard holds and the index is the address, and another one elsewhere. -/
  | ifIndex (guard : Formula) (address value : Term) (rest : Memory)
  | ite (c : Formula) (a b : Memory)

instance : Inhabited Memory := ⟨.byte default⟩

/-- Two addresses are equal.  All addresses of a program have one width, so that neither is resized. -/
def Formula.sameAddress (a b : Term) : Formula :=
  let w := max a.width b.width
  .cmp .eq (a.resizeZero w) (b.resizeZero w)

namespace Memory

/-- The byte at an address: it is selected from an array, or the address is substituted for the index. -/
def read (x : Term) : Memory → Term
  | array m => .read m x
  | byte t => t.resizeZero 8
  | ifIndex p a v m => .ite (.allOf [p, .sameAddress x a]) (v.resizeZero 8) (m.read x)
  | ite c a b => .ite c (a.read x) (b.read x)

/-- The memory with a byte replaced if the guard holds. -/
def write (guard : Formula) (address value : Term) : Memory → Memory
  | array m => array (.write guard address value m)
  | m => ifIndex guard address value m

def choose (c : Formula) : Memory → Memory → Memory
  | array a, array b => array (.ite c a b)
  | a, b => ite c a b

/-- The first of the memories whose condition holds; the last one if none does. -/
def firstOf : List (Formula × Memory) → Option Memory
  | [] => none
  | [(_, m)] => some m
  | (c, m) :: rest => (firstOf rest).map (choose c m)

/-- The byte at an address in an environment. -/
def byteAt (env : Env) (address : Nat) : Memory → BitVec 8
  | array m => m.byteAt env address
  | byte t => (t.eval env).setWidth 8
  | ifIndex p a v m =>
    if (a.eval env).toNat = address ∧ p.eval env = true then (v.eval env).setWidth 8 else m.byteAt env address
  | ite c a b => if c.eval env then a.byteAt env address else b.byteAt env address

end Memory

end Peephole.Logic
