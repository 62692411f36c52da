import Peephole.Text.Quoted

/-!
# Layout documents

A document is a text with places where a line may end.  A `line` is shown as a blank or as a line
break; all the lines directly inside one `group` are shown alike, as blanks if the group fits.
`nest` moves the line breaks inside it to the right.

`cat` and `grouped` are the constructors to build with: `cat` splices sequences into one another, and
`grouped` leaves a document alone that is a group already or shows nothing.
-/

namespace Peephole.Layout

/-- A text with places where lines may end. -/
inductive Doc where
  | text (s : String)
  | line
  | seq (ds : List Doc)
  /-- A document whose own lines are shown alike. -/
  | group (d : Doc)
  /-- A document whose line breaks are indented by `n` more. -/
  | nest (n : Int) (d : Doc)
  deriving Inhabited

namespace Doc

/-- The documents that `d` contributes to a sequence it is put in. -/
def items : Doc → List Doc
  | seq ds => ds
  | d => [d]

/-- Documents one after another; sequences are spliced, and a single document stands for itself. -/
def cat (ds : List Doc) : Doc :=
  match ds.flatMap items with
  | [d] => d
  | ds => seq ds

instance : Append Doc := ⟨fun a b => cat [a, b]⟩

instance : Coe String Doc := ⟨text⟩

def above (a b : Doc) : Doc := cat [a, line, b]

def join (sep : Doc) (ds : List Doc) : Doc := cat (ds.intersperse sep)

mutual

/-- Whether the document can show anything. -/
def nonempty : Doc → Bool
  | text s => s != ""
  | line => true
  | seq ds => anyNonempty ds
  | group _ => true
  | nest _ d => nonempty d

def anyNonempty : List Doc → Bool
  | [] => false
  | d :: ds => nonempty d || anyNonempty ds

end

/-- A group, except that groups and empty documents stand for themselves. -/
def grouped (d : Doc) : Doc :=
  match d with
  | group _ => d
  | _ => if d.nonempty then group d else d

mutual

/-- Whether every piece of text stays on one line, as `text` asks. -/
def wellFormed : Doc → Bool
  | text s => !s.toList.contains '\n'
  | line => true
  | seq ds => allWellFormed ds
  | group d => wellFormed d
  | nest _ d => wellFormed d

/-- Whether every piece of text in the documents stays on one line. -/
def allWellFormed : List Doc → Bool
  | [] => true
  | d :: ds => wellFormed d && allWellFormed ds

end

mutual

/-- The structure of the document, written out. -/
def describe : Doc → String
  | text s => "_Text(" ++ Text.quoted s ++ ")"
  | line => "_Line()"
  | seq ds => "_Seq(" ++ Text.tupleText (describeAll ds) ++ ")"
  | group d => "_Group(" ++ describe d ++ ")"
  | nest n d => "_Nest(" ++ toString n ++ ", " ++ describe d ++ ")"

/-- The structures of the documents, written out. -/
def describeAll : List Doc → List String
  | [] => []
  | d :: ds => describe d :: describeAll ds

end

end Doc

end Peephole.Layout
