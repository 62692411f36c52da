import Peephole.Grammar.Pattern
import Peephole.Text.Position

/-!
# Matching patterns

`Compiled.matchAt` matches a pattern at a place of a text.  Of all the ways to match it takes the first in the
order that the pattern gives: earlier alternatives before later ones, more repetitions before fewer for greedy
ones and fewer before more for lazy ones.
-/

namespace Peephole.Grammar

open Text (Chars)

/-- What a match keeps: for each group its first and last place. -/
abbrev Kept := List (Nat × Nat × Nat)

/-- A match: the place where it ends and what it keeps. -/
structure Match where
  stop : Nat
  kept : Kept
  deriving Inhabited, Repr

namespace Pattern

def Place.isAt (t : Chars) (flags : Flags) (p : Nat) : Place → Bool
  | .lineStart => p == 0 || (flags.lines && t[p - 1]? == some '\n')
  | .lineEnd =>
    p == t.size || (p + 1 == t.size && t[p]? == some '\n') || (flags.lines && t[p]? == some '\n')
  | .textStart => p == 0
  | .textEnd => p == t.size
  | .wordEdge inverted =>
    let inWord (i : Option Char) : Bool := (i.map Text.isWordChar).getD false
    let before := if p == 0 then false else inWord t[p - 1]?
    !t.isEmpty && (before != inWord t[p]?) != inverted

def inClass (flags : Flags) (inverted : Bool) (items : List ClassItem) (c : Char) : Bool :=
  let has (c : Char) : Bool := items.any (ClassItem.has c)
  let found := has c || (flags.fold && ((Text.lowerChar c).any has || (Text.upperChar c).any has))
  found != inverted

/-- Match a pattern at a place and go on with `k`; the first way on which `k` succeeds is taken.  Every step of a
way uses up fuel. -/
def run (t : Chars) (flags : Flags) :
    Nat → Pattern → Nat → Kept → (Nat → Kept → Option Match) → Option Match
  | 0, _, _, _, _ => none
  | fuel + 1, pattern, p, kept, k =>
    match pattern with
    | nothing => k p kept
    | one inverted items =>
      match t[p]? with
      | some c => if inClass flags inverted items c then k (p + 1) kept else none
      | none => none
    | any =>
      match t[p]? with
      | some c => if c != '\n' || flags.dotAll then k (p + 1) kept else none
      | none => none
    | place q => if Place.isAt t flags p q then k p kept else none
    | seq a b => run t flags fuel a p kept fun p kept => run t flags fuel b p kept k
    | alt a b =>
      match run t flags fuel a p kept k with
      | some m => some m
      | none => run t flags fuel b p kept k
    | group n a =>
      run t flags fuel a p kept fun q kept => k q ((n, p, q) :: kept.filter fun e => e.1 != n)
    | plain a => run t flags fuel a p kept k
    | again n =>
      match kept.find? fun e => e.1 == n with
      | none => none
      | some (_, first, last) =>
        let word := (t.extract first last).toList
        if word.isPrefixOf (t.extract p (p + word.length)).toList then k (p + word.length) kept else none
    | look behind inverted a =>
      let found :=
        if behind then
          match a.width? with
          | some w => if w ≤ p then run t flags fuel a (p - w) kept (fun q kept => if q == p then some ⟨q, kept⟩ else none)
            else none
          | none => none
        else run t flags fuel a p kept fun q kept => some ⟨q, kept⟩
      match found, inverted with
      | some m, false => k p m.kept
      | none, true => k p kept
      | _, _ => none
    | atomic a =>
      match run t flags fuel a p kept fun q kept => some ⟨q, kept⟩ with
      | some m => k m.stop m.kept
      | none => none
    | rep a least most e =>
      match least with
      | n + 1 =>
        let rest := rep a n (most.map (· - 1)) e
        run t flags fuel a p kept fun q kept => run t flags fuel rest q kept k
      | 0 =>
        let more (_ : Unit) : Option Match :=
          if most == some 0 then none
          else
            let rest := rep a 0 (most.map (· - 1)) e
            run t flags fuel a p kept fun q kept' =>
              if q == p then k q kept' else run t flags fuel rest q kept' k
        match e with
        | .greedy =>
          match more () with
          | some m => some m
          | none => k p kept
        | .lazy =>
          match k p kept with
          | some m => some m
          | none => more ()
        | .possessive =>
          match run t flags fuel (rep a 0 most .greedy) p kept fun q kept => some ⟨q, kept⟩ with
          | some m => k m.stop m.kept
          | none => none

end Pattern

namespace Compiled

/-- The first match at a place; a place after the end counts as the end. -/
def matchAt (r : Compiled) (t : Chars) (p : Nat) : Option Match :=
  let p := min p t.size
  r.pattern.run t r.flags (4 * (r.pattern.size + 2) * (t.size - p + 2)) p [] fun q kept => some ⟨q, kept⟩

def groupText (t : Chars) (m : Match) (n : Nat) : Option String :=
  (m.kept.find? fun e => e.1 == n).map fun (_, first, last) => Text.slice t first last

def groupTexts (r : Compiled) (t : Chars) (m : Match) : List (String × Option String) :=
  r.names.map fun (name, n) => (name, groupText t m n)

/-- The text with every match from place `p` on replaced by what its first group kept. -/
def replaceByFirst (r : Compiled) (t : Chars) : Nat → Nat → List Char
  | 0, _ => []
  | fuel + 1, p =>
    match t[p]? with
    | none => []
    | some c =>
      match r.matchAt t p with
      | some m =>
        if m.stop == p then c :: replaceByFirst r t fuel (p + 1)
        else ((groupText t m 1).getD "").toList ++ replaceByFirst r t fuel m.stop
      | none => c :: replaceByFirst r t fuel (p + 1)

end Compiled

end Peephole.Grammar
