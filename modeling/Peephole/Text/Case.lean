/-!
# Upper and lower case

`upper` and `lower` change the case of every letter of a text, in every script.  Most letters have one
counterpart, whose counterpart they are; some have one that does not lead back, and a few letters become several.
`title` writes the first letter of every word in upper case and the others in lower case.

Letters that follow each other mostly have counterparts that follow each other, so the tables have runs of them.
-/

namespace Peephole.Text

namespace Case

/-- Runs of letters with their counterparts: the first letter, its counterpart, and the length. -/
abbrev Runs := List (Nat × Nat × Nat)

/-- The runs that start with these letters and counterparts.  Those behind the lengths have one letter. -/
def runs (letters others : String) (lengths : List Nat) : Runs :=
  (letters.toList.zip others.toList).mapIdx fun k (a, b) => (a.toNat, b.toNat, lengths.getD k 1)

def Runs.counterpart? (runs : Runs) (n : Nat) : Option Nat :=
  (List.find? (fun (a, _, len) => a ≤ n && n < a + len) runs).map fun (a, b, _) => b + (n - a)

/-- The runs in which letters and counterparts have changed places. -/
def Runs.flip (runs : Runs) : Runs := runs.map fun (a, b, len) => (b, a, len)

/-- Letters above U+007F that are followed by their lower-case counterparts: the first of several such pairs in a
row, and their number. -/
def neighbours : List (Char × Nat) := List.zip
  "ĀĲĹŊŹƂƇƋƑƘƠƧƬƯƳƸƼǍǞǴǸȢȻɁɆͰͶϘϷϺѠҊӁӐḀẠↃⱠⱧⱲⱵⲀⳫⳲꙀꚀꜢꜲꝹꝾꞋꞐꞖꞴꟇꟐꟖꟵ".toList
  [24, 3, 8, 23, 3, 2, 1, 1, 1, 1, 3, 1, 1, 1, 2, 1, 1, 8, 9, 1, 20, 9, 1, 1, 5, 2, 1, 12, 1, 1, 17, 27, 7, 48, 75, 48,
   1, 1, 3, 1, 1, 50, 2, 1, 23, 14, 7, 31, 2, 5, 1, 2, 10, 8, 2, 1, 2, 1]

/-- The upper-case letters above U+007F with lower-case counterparts whose counterparts they are. -/
def pairs : Runs :=
  (neighbours.flatMap fun (a, len) => (List.range len).map fun k => (a.toNat + 2 * k, a.toNat + 2 * k + 1, 1)) ++
  [(0x1E900, 0x1E922, 34)] ++ runs
  "ÀØƉƱΈΎΑΣϽЀАԱႠᎠᏰᲐᲽἈἘἨἸὈὨᾸᾺῈῘῚῨῪῸῺⅠⒶⰀⱾＡ𐐀𐒰𐕰𐕼𐖌𐖔𐲀𑢠𖹀ŸƁƆƎƏƐƓƔƖƗƜƝƟƦƩƮƷǄǇǊǱǶǷȠȺȽȾɃɄɅͿΆΌϏϹӀჇჍὙὛὝὟῬℲⱢⱣⱤⱭⱮⱯⱰꝽꞍꞪꞫꞬꞭꞮꞰꞱꞲꞳꟄꟅꟆ"
  "àøɖʊέύασͻѐаաⴀꭰᏸაჽἀἐἠἰὀὠᾰὰὲῐὶῠὺὸὼⅰⓐⰰȿａ𐐨𐓘𐖗𐖣𐖳𐖻𐳀𑣀𖹠ÿɓɔǝəɛɠɣɩɨɯɲɵʀʃʈʒǆǉǌǳƕƿƞⱥƚⱦƀʉʌϳάόϗϲӏⴧⴭὑὓὕὗῥⅎɫᵽɽɑɱɐɒᵹɥɦɜɡɬɪʞʇʝꭓꞔʂᶎ"
  [23, 7, 2, 2, 3, 2, 17, 9, 3, 16, 32, 38, 38, 80, 6, 43, 3, 8, 6, 8, 8, 6, 8, 2, 2, 4, 2, 2, 2, 2, 2, 2, 16, 26, 48,
   2, 26, 40, 36, 11, 15, 7, 2, 51, 32, 32]

/-- The other letters above U+007F with one upper-case counterpart. -/
def upperOnly : Runs := runs "ᲃµıſǅǈǋǲͅςϐϑϕϖϰϱϵᲀᲁᲂᲅᲆᲇᲈẛι" "СΜISǄǇǊǱΙΣΒΘΦΠΚΡΕВДОТЪѢꙊṠΙ" [2]

/-- The other letters above U+007F with one lower-case counterpart. -/
def lowerOnly : Runs := runs "ᾈᾘᾨǅǈǋǲϴẞᾼῌῼΩKÅ" "ᾀᾐᾠǆǉǌǳθßᾳῃῳωkå" [8, 8, 8]

/-- The letters that become several in upper case, each in front of these.  At the start there are six runs of eight
letters, in which the first of these moves along. -/
def toUppers : List (Nat × List Nat × Nat) :=
  List.mapIdx (fun k word => ((word.headD ' ').toNat, word.tail.map Char.toNat, if k < 6 then 8 else 1)) <|
    List.map String.toList <| List.flatMap (·.splitOn)
      ["ᾀἈΙ ᾈἈΙ ᾐἨΙ ᾘἨΙ ᾠὨΙ ᾨὨΙ ßSS ŉʼN ǰJ̌ ΐΪ́ ΰΫ́ ևԵՒ ẖH̱ ẗT̈ ẘW̊ ẙY̊ ẚAʾ ὐΥ̓ ὒΥ̓̀ ὔΥ̓́ ὖΥ̓͂ ᾲᾺΙ ᾳΑΙ ᾴΆΙ ᾶΑ͂ ᾷΑ͂Ι",
       "ᾼΑΙ ῂῊΙ ῃΗΙ ῄΉΙ ῆΗ͂ ῇΗ͂Ι ῌΗΙ ῒΪ̀ ΐΪ́ ῖΙ͂ ῗΪ͂ ῢΫ̀ ΰΫ́ ῤΡ̓ ῦΥ͂ ῧΫ͂ ῲῺΙ ῳΩΙ ῴΏΙ ῶΩ͂ ῷΩ͂Ι ῼΩΙ ﬀFF ﬁFI ﬂFL",
       "ﬃFFI ﬄFFL ﬅST ﬆST ﬓՄՆ ﬔՄԵ ﬕՄԻ ﬖՎՆ ﬗՄԽ"]

/-- The upper-case counterparts of single letters above U+007F. -/
def toUpper : Runs := upperOnly ++ pairs.flip

/-- The lower-case counterparts of single letters above U+007F. -/
def toLower : Runs := lowerOnly ++ pairs

/-- The characters that a character becomes: several, or one by the runs. -/
def change (several : List (Nat × List Nat × Nat)) (single : Runs) (c : Char) : List Char :=
  match several.find? fun (a, _, len) => a ≤ c.toNat && c.toNat < a + len with
  | some (a, ns, _) => (ns.modifyHead (· + (c.toNat - a))).map Char.ofNat
  | none => [((single.counterpart? c.toNat).map Char.ofNat).getD c]

end Case

def upperChar (c : Char) : List Char :=
  if c.toNat < 0x80 then [c.toUpper] else Case.change Case.toUppers Case.toUpper c

def lowerChar (c : Char) : List Char :=
  if c.toNat < 0x80 then [c.toLower] else Case.change [(0x130, [0x69, 0x307], 1)] Case.toLower c

def upper (s : String) : String := String.ofList (s.toList.flatMap upperChar)

def isCased (c : Char) : Bool := upperChar c != [c] || lowerChar c != [c]

/-- Whether a character is passed over when the letters around another are looked at: marks and the
punctuation that stands inside of words. -/
def isPassedOver (c : Char) : Bool :=
  ['\'', '.', ':', '^', '\x60', '¨', '\u00AD', '¯', '´', '·', '¸', '’'].contains c ||
    (0x2B0 ≤ c.toNat && c.toNat ≤ 0x36F)

/-- Whether the first character that is not passed over has case. -/
def casedNext (cs : List Char) : Bool := ((cs.dropWhile isPassedOver).head?.map isCased).getD false

/-- A character in lower case, with the characters in front of it (the nearest first) and behind it.  A sigma
at the end of a word has a form of its own. -/
def lowerAt (before : List Char) (c : Char) (after : List Char) : List Char :=
  if c == 'Σ' && casedNext before && !casedNext after then ['ς'] else lowerChar c

/-- Characters in lower case; `before` holds those in front, the nearest first. -/
def lowerChars (before : List Char) : List Char → List Char
  | [] => []
  | c :: cs => lowerAt before c cs ++ lowerChars (c :: before) cs

def lower (s : String) : String := String.ofList (lowerChars [] s.toList)

/-- Characters with the first letter of each word in upper case and the others in lower case; `before` holds
the characters in front, the nearest first. -/
def titleChars (before : List Char) : List Char → List Char
  | [] => []
  | c :: cs =>
    let inside := (before.head?.map isCased).getD false
    (if inside then lowerAt before c cs else upperChar c) ++ titleChars (c :: before) cs

/-- A text with the first letter of each word in upper case and the others in lower case. -/
def title (s : String) : String := String.ofList (titleChars [] s.toList)

end Peephole.Text
