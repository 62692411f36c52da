import Peephole.Number.Significant
import Peephole.Logic.Term

/-!
# Sizes and alignments

Sizes of memory blocks count bits and are multiples of eight.  Alignments are powers of two, and `0`
stands for no alignment.
-/

namespace Peephole.Encode

open Logic

/-- The bits that a value of the given size takes in memory: its size rounded up to whole bytes.  The
number of bytes is computed with 53 significant digits. -/
def allocSize (bits : Int) : Int := (Number.round 53 (bits + 7)).tdiv 8 * 8

def isPowerOfTwo (n : Int) : Bool := 0 < n && n.toNat &&& (n.toNat - 1) == 0

/-- The size rounded up to a multiple of the alignment; none if that is no power of two. -/
def alignUp? (size align : Int) : Option Int :=
  if align = 0 then some size
  else if isPowerOfTwo align then some ((size + (align - 1)) / align * align)
  else none

/-- The condition that the pointer is a multiple of the alignment; none if that is no power of two. -/
def alignedTo? (ptr : Term) (align : Int) : Option Formula :=
  if align = 0 then some (.lit true)
  else if isPowerOfTwo align then
    some (.cmp .eq (.op .and ptr (.const (align - 1) ptr.width)) (.const 0 ptr.width))
  else none

end Peephole.Encode
