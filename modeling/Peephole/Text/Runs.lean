/-!
# Sets of code points

A set of code points is written as the lengths of its runs: how many from U+0000 on are outside, how many behind
these are inside, and so on in turn.  Whatever the lengths are, the runs are in order and apart.
-/

namespace Peephole.Text

/-- The lengths that lines of text stand for.  A digit is its own length, and the characters behind the digits go on
counting. -/
def runLengths (lines : List String) : List Nat := lines.flatMap fun s => s.toList.map (·.toNat - '0'.toNat)

/-- Whether a code point is in the set; `inside` says whether the first run is, and nothing behind the last run is. -/
def inRuns (inside : Bool) : List Nat → Nat → Bool
  | [], _ => false
  | n :: runs, c => if c < n then inside else inRuns (!inside) runs (c - n)

end Peephole.Text
