import Peephole.Logic.Term

/-!
# Terms for common bit-vector functions

Change of width, overflow of products, masks, logarithm and the counting of bits, each as a term or as a
formula over its arguments.  The counts are terms of any width `out`; they are reduced modulo `2 ^ out`.
-/

namespace Peephole.Logic

namespace Term

def bitSet (i : Nat) (t : Term) : Formula := .cmp .eq (.extract i i t) (.const 1 1)

/-- The term at another width: its low bits, or zeros in front. -/
def resizeZero (t : Term) (w : Nat) : Term :=
  if t.width = w then t
  else if w < t.width then .extract (w - 1) 0 t
  else .zeroExt (w - t.width) t

/-- The term at another width: its low bits, or copies of the sign bit in front. -/
def resizeSigned (t : Term) (w : Nat) : Term :=
  if t.width = w then t
  else if w < t.width then .extract (w - 1) 0 t
  else .signExt (w - t.width) t

/-- The term at another width: its high bits, or zeros behind it. -/
def resizeHigh (t : Term) (w : Nat) : Term :=
  if t.width = w then t
  else if w < t.width then .extract (t.width - 1) (t.width - w) t
  else .concat t (.const 0 (w - t.width))

/-! ### Logarithm and counts -/

/-- The position of the highest set bit of `v` among the bits `low` to `low + n`, and `low` if none of
them is set, by halving. -/
def log2Between (v : Term) (out low n : Nat) : Term :=
  if n = 0 then .const low out
  else
    let half := n / 2
    .ite (.cmp .ne (.extract (low + n) (low + half + 1) v) (.const 0 (n - half)))
      (log2Between v out (low + half + 1) (n - half - 1))
      (log2Between v out low half)
termination_by n

/-- The position of the highest set bit, zero if there is none. -/
def log2 (v : Term) (out : Nat) : Term := log2Between v out 0 (v.width - 1)

/-- The number of zeros in front of the first set bit, among the low `n` bits and those above. -/
def leadingZerosFrom (v : Term) (out : Nat) : Nat → Term
  | 0 => .const v.width out
  | n + 1 => .ite (bitSet n v) (.const (v.width - 1 - n : Nat) out) (leadingZerosFrom v out n)

/-- The number of zeros in front of the first set bit. -/
def leadingZeros (v : Term) (out : Nat) : Term := leadingZerosFrom v out v.width

/-- The number of zeros behind the last set bit, where only the high `n` bits are left to look at. -/
def trailingZerosFrom (v : Term) (out : Nat) : Nat → Term
  | 0 => .const v.width out
  | n + 1 =>
    let i := v.width - 1 - n
    .ite (bitSet i v) (.const i out) (trailingZerosFrom v out n)

/-- The number of zeros behind the last set bit. -/
def trailingZeros (v : Term) (out : Nat) : Term := trailingZerosFrom v out v.width

/-- The number of bits equal to the sign bit, where the low `n` bits are left to look at. -/
def signBitsFrom (v : Term) (out : Nat) : Nat → Term
  | 0 => .const v.width out
  | n + 1 =>
    .ite (.cmp .eq (.extract n n v) (.extract (v.width - 1) (v.width - 1) v))
      (signBitsFrom v out n) (.const (v.width - 1 - n : Nat) out)

/-- The number of bits from the top that equal the sign bit. -/
def signBits (v : Term) (out : Nat) : Term := signBitsFrom v out (v.width - 1)

end Term

namespace Formula

/-- The product of the signed numbers can be written with their width. -/
def noSignedMulOverflow (a b : Term) : Formula :=
  .cmp .eq (.op .mul (.signExt a.width a) (.signExt a.width b)) (.signExt a.width (.op .mul a b))

/-- The product of the unsigned numbers can be written with their width. -/
def noUnsignedMulOverflow (a b : Term) : Formula :=
  .cmp .eq (.extract (2 * a.width - 1) a.width (.op .mul (.zeroExt a.width a) (.zeroExt a.width b)))
    (.const 0 a.width)

/-- The sum or difference of the signed numbers can be written with their width. -/
def noSignedOverflow (o : BitOp) (a b : Term) : Formula :=
  .cmp .eq (.op o (.signExt 1 a) (.signExt 1 b)) (.signExt 1 (.op o a b))

/-- The sum or difference of the unsigned numbers can be written with their width. -/
def noUnsignedOverflow (o : BitOp) (a b : Term) : Formula :=
  .cmp .eq (.op o (.zeroExt 1 a) (.zeroExt 1 b)) (.zeroExt 1 (.op o a b))

/-- The set bits stand together. -/
def shiftedMask (a : Term) : List Formula :=
  let v := Term.op .or (.op .sub a (.const 1 a.width)) a
  [.cmp .ne v (.const 0 a.width),
    .cmp .eq (.op .and (.op .add v (.const 1 a.width)) v) (.const 0 a.width)]

end Formula

end Peephole.Logic
