import Peephole.Layout.Doc

/-!
# Rendering documents

A document unfolds into a list of `Event`s: pieces of text, lines with their indentation, and the
begin and end of groups.  `positions` adds to each event the column it would end at if everything
stood on one line.  A printer then needs, at the begin of each group, the position where the group
ends, and `print` shows the group on one line if that end is within the width.

Two functions put the ends of groups at their begins:

* `closeGroups` waits for the end of each group, however far it is;
* `closeGroupsWithin` looks at most `width` ahead: the begin of a group that is longer is written
  without an end, and the printer then breaks the group.

`Doc.render` uses the second.
-/

namespace Peephole.Layout

inductive Event where
  | text (s : String)
  /-- A line, and the indentation behind the line break. -/
  | line (indent : Int)
  | groupBegin
  | groupEnd
  deriving Inhabited, Repr, DecidableEq

mutual

def Doc.events (indent : Int) : Doc → List Event
  | .text s => [.text s]
  | .line => [.line indent]
  | .seq ds => Doc.allEvents indent ds
  | .group d => .groupBegin :: (Doc.events indent d ++ [.groupEnd])
  | .nest n d => Doc.events (indent + n) d

def Doc.allEvents (indent : Int) : List Doc → List Event
  | [] => []
  | d :: ds => Doc.events indent d ++ Doc.allEvents indent ds

end

/-- An event with the position it ends at on one endless line.  A group begin holds the position
where the group ends, or none if that is out of sight. -/
inductive Mark where
  | text (pos : Nat) (s : String)
  | line (pos : Nat) (indent : Int)
  | groupBegin (stop : Option Nat)
  | groupEnd (pos : Nat)
  deriving Inhabited, Repr, DecidableEq

/-- The position in a mark; 0 for a group whose end is out of sight. -/
def Mark.pos : Mark → Nat
  | text p _ => p
  | line p _ => p
  | groupBegin p => p.getD 0
  | groupEnd p => p

/-- The events with the positions they end at, counted from `pos`; a line is one wide.  A group begin
holds its own position. -/
def positions (pos : Nat) : List Event → List Mark
  | [] => []
  | .text s :: es => .text (pos + s.length) s :: positions (pos + s.length) es
  | .line i :: es => .line (pos + 1) i :: positions (pos + 1) es
  | .groupBegin :: es => .groupBegin (some pos) :: positions pos es
  | .groupEnd :: es => .groupEnd pos :: positions pos es

/-! ### Ends of groups, without a limit -/

/-- `closeGroups` with the marks of the groups that are open, innermost first. -/
def closeGroupsFrom : List (List Mark) → List Mark → List Mark
  | _, [] => []
  | waiting, .groupBegin _ :: ms => closeGroupsFrom ([] :: waiting) ms
  | [], m :: ms => m :: closeGroupsFrom [] ms
  | inner :: waiting, .groupEnd p :: ms =>
    let done := .groupBegin (some p) :: (inner ++ [.groupEnd p])
    match waiting with
    | [] => done ++ closeGroupsFrom [] ms
    | outer :: rest => closeGroupsFrom ((outer ++ done) :: rest) ms
  | inner :: waiting, m :: ms => closeGroupsFrom ((inner ++ [m]) :: waiting) ms

def closeGroups (ms : List Mark) : List Mark := closeGroupsFrom [] ms

/-! ### Ends of groups, within a width -/

/-- A group whose end is not known yet: the last position it may reach, and what it holds. -/
structure Waiting where
  limit : Int
  held : List Mark
  deriving Inhabited

/-- Give up waiting for the outermost groups while the position `pos` is beyond `limit` or there are
more open groups than `width`.  `groups` has the outermost group first.  Behind each group that is given
up, `pos` is the position of the last mark that the group held. -/
def giveUp (width : Int) : Int → Nat → List Waiting → List Mark × Int × List Waiting
  | limit, _, [] => ([], limit, [])
  | limit, pos, g :: gs =>
    if limit < pos ∨ width < (gs.length + 1 : Nat) then
      let out := .groupBegin none :: g.held
      match gs with
      | [] => (out, limit, [])
      | next :: _ =>
        let pos := match g.held.getLast? with
          | some m => m.pos
          | none => pos
        let (more, limit, rest) := giveUp width next.limit pos gs
        (out ++ more, limit, rest)
    else ([], limit, g :: gs)

/-- Add marks to what the innermost open group holds. -/
def hold (ms : List Mark) (groups : List Waiting) : List Waiting :=
  match groups.getLast? with
  | some g => groups.dropLast ++ [{ g with held := g.held ++ ms }]
  | none => []

/-- `closeGroupsWithin` with the limit of the outermost open group and the open groups, outermost
first. -/
def closeGroupsWithinFrom (width : Int) : Int → List Waiting → List Mark → List Mark
  | _, _, [] => []
  | limit, [], m :: ms =>
    match m with
    | .groupBegin _ =>
      let limit := m.pos + width
      closeGroupsWithinFrom width limit [⟨limit, []⟩] ms
    | _ => m :: closeGroupsWithinFrom width limit [] ms
  | limit, g :: gs, m :: ms =>
    match m with
    | .groupEnd p =>
      let inner := (g :: gs).getLast?.elim [] Waiting.held
      let done := .groupBegin (some p) :: (inner ++ [.groupEnd p])
      match (g :: gs).dropLast with
      | [] => done ++ closeGroupsWithinFrom width limit [] ms
      | outer => closeGroupsWithinFrom width limit (hold done outer) ms
    | .groupBegin _ =>
      let groups := g :: gs ++ [⟨m.pos + width, []⟩]
      let (out, limit, groups) := giveUp width limit m.pos groups
      out ++ closeGroupsWithinFrom width limit groups ms
    | _ =>
      let (out, limit, groups) := giveUp width limit m.pos (hold [m] (g :: gs))
      out ++ closeGroupsWithinFrom width limit groups ms

/-- The marks with the end of each group at its begin, where the end is within `width`. -/
def closeGroupsWithin (width : Int) (ms : List Mark) : List Mark :=
  closeGroupsWithinFrom width 0 [] ms

/-! ### Printing -/

/-- As many blanks as `n` says, none if it is negative. -/
def blanks (n : Int) : String := String.ofList (List.replicate n.toNat ' ')

/-- Print marks: `flat` is how many groups are open since one that fits, `limit` the last position on
the current line. -/
def printFrom (width : Int) : Nat → Int → List Mark → List String
  | _, _, [] => []
  | flat, limit, .text _ s :: ms => s :: printFrom width flat limit ms
  | 0, _, .line p i :: ms => ("\n" ++ blanks i) :: printFrom width 0 (p + width - i) ms
  | flat + 1, limit, .line _ _ :: ms => " " :: printFrom width (flat + 1) limit ms
  | 0, limit, .groupBegin stop :: ms =>
    let flat := match stop with
      | some p => if (p : Int) ≤ limit then 1 else 0
      | none => 0
    printFrom width flat limit ms
  | flat + 1, limit, .groupBegin _ :: ms => printFrom width (flat + 2) limit ms
  | flat, limit, .groupEnd _ :: ms => printFrom width (flat - 1) limit ms

/-- Print marks whose groups have their ends at their begins. -/
def print (width : Int) (ms : List Mark) : String :=
  String.join (printFrom width 0 width ms)

/-- The document on lines of the given width, behind the indentation `indent`. -/
def Doc.render (d : Doc) (width : Int) (indent : Int) : String :=
  print width (closeGroupsWithin width (positions 0 (d.events indent)))

def defaultWidth : Int := 80

end Peephole.Layout
