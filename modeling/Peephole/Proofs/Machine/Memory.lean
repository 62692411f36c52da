import Mathlib.Logic.Function.Basic
import Peephole.Proofs.Encode.Memory
import Peephole.Proofs.Machine.Word

/-!
# Words in memory

The memory of a machine has a byte at each address, and addresses wrap around at the width of pointers.  A word is
spread over bytes with the lowest byte first.  If its width is no multiple of eight, the low bits share the first byte
with what stood there before.

* `loaded`, `stored` : reading and writing a word.
* `permitted` : whether an access is allowed, given the blocks of memory that are known.
* `placed`, `filled` : whether an allocation has found a place, and what then stands there.
* `strides`, `stepped` : the strides of an address computation, and the address behind some steps.
-/

namespace Peephole.Machine

open Program
open Logic (Env)
open Encode (Block Setting)

abbrev Bytes := Nat → Nat

/-! ### Words -/

/-- The number in `k` bytes from an address on. -/
def bytesAt (w : Nat) (mem : Bytes) (a : Nat) : Nat → Nat
  | 0 => 0
  | k + 1 => bytesAt w mem a k + mem ((a + k) % 2 ^ w) * 2 ^ (8 * k)

/-- The word of `n` bits at an address. -/
def loaded (w : Nat) (mem : Bytes) (a n : Nat) : Nat :=
  if n % 8 = 0 then bytesAt w mem a (n / 8)
  else bytesAt w mem ((a + 1) % 2 ^ w) (n / 8) * 2 ^ (n % 8) + mem a % 2 ^ (n % 8)

/-- The memory with the low `k` bytes of a number written from an address on. -/
def written (w v a : Nat) (mem : Bytes) : Nat → Bytes
  | 0 => mem
  | k + 1 => Function.update (written w v a mem k) ((a + k) % 2 ^ w) (v / 2 ^ (8 * k) % 2 ^ 8)

/-- The memory with a word of `n` bits written to an address. -/
def stored (w : Nat) (mem : Bytes) (a n v : Nat) : Bytes :=
  if n % 8 = 0 then written w v a mem (n / 8)
  else
    let first := mem a / 2 ^ (n % 8) % 2 ^ (8 - n % 8) * 2 ^ (n % 8) + v % 2 ^ (n % 8)
    written w (v / 2 ^ (n % 8)) ((a + 1) % 2 ^ w) (Function.update mem a first) (n / 8)

/-! ### Blocks -/

section Blocks

variable (env : Env) (b : Block)

def start : Nat := wrap b.pointerWidth (env.bits b.pointer)

/-- Whether an access of `size` bits lies in the block. -/
def within (size : Int) (a : Nat) : Bool :=
  start env b ≤ a ∧ a - start env b ≤ wrap b.pointerWidth (Encode.bytes (b.size - size))

/-- Whether an access of `size` bits is allowed: its address is not null, the blocks it lies in are aligned as it wants,
and some block is large enough for it.  Of a block from outside only the size is known. -/
def permitted (blocks : List Block) (size align : Int) (a : Nat) : Bool :=
  a ≠ 0 ∧ (∀ b ∈ blocks, align ≠ 0 → size ≤ b.size → within env b size a = true → align ≤ b.align) ∧
    ∃ b ∈ blocks, size ≤ b.size ∧ (b.isAlloca = true → within env b size a = true)

/-- Whether the place of an allocated block is one: it does not wrap around the end of memory, and it starts at a
multiple of the alignment that is not null.  An empty block needs no place. -/
def placed : Bool :=
  b.size = 0 ∨ (8 < b.size → start env b < wrap b.pointerWidth (start env b + (b.size / 8 - 1))) ∧
    start env b ≠ 0 ∧ (b.align = 0 ∨ start env b % b.align.toNat = 0)

/-- The memory with a block allocated: what stands in it is a choice of the environment, under a number. -/
def filled (n : Nat) (mem : Bytes) : Bytes :=
  written b.pointerWidth (wrap b.size.toNat (env.bits (b.contents n).name)) (start env b) mem (b.size.toNat / 8)

end Blocks

/-! ### Addresses -/

/-- The strides of indices into a type, in bytes: the first one steps over what the type points to, each further one
over what the type before it is made of. -/
def strides (s : Setting) : String → Ty → Nat → List Int
  | _, _, 0 => []
  | place, ty, n + 1 =>
    let size : Except Error Nat := do
      let (p, t) ← s.shape.pointee place ty
      s.sizeOf ⟨p, t⟩
    match size, s.shape.underlying place ty with
    | .ok m, .ok (p, t) => Encode.bytes (Encode.allocSize m) :: strides s p t n
    | .ok m, .error _ => [Encode.bytes (Encode.allocSize m)]
    | .error _, _ => []

theorem strides_succ {s : Setting} {place p q : String} {ty t u : Ty} {m : Nat}
    (hpointee : s.shape.pointee place ty = .ok (p, t)) (hsize : s.sizeOf ⟨p, t⟩ = .ok m)
    (hunder : s.shape.underlying place ty = .ok (q, u)) (n : Nat) :
    strides s place ty (n + 1) = Encode.bytes (Encode.allocSize m) :: strides s q u n := by
  simp [strides, hpointee, hsize, hunder, bind, Except.bind]

/-- The address behind steps: a stride, and how often it is taken, as a word of some width. -/
def stepped (w : Nat) : Nat → List (Int × Nat × Nat) → Nat
  | a, [] => a
  | a, (stride, m, n) :: steps => stepped w (wrap w (a + stride * signed m n)) steps

end Peephole.Machine
