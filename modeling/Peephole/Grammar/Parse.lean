import Peephole.Grammar.Act

/-!
# Matching a text

How an element matches a text at a place.  `parseLevel` is one level of it: it takes what attempts on other elements
do as a parameter, and `parse` closes the knot with a bound on the nesting.

An attempt skips what is in front, matches the form of the element, converts and names the tokens, and does the
actions.  A step that reads past the end of the text counts as a failure to match at the end.
-/

namespace Peephole.Grammar

open Text (Chars)

/-- An attempt to match an element at a place.  `acts` says whether actions are done, and `skips` whether blanks and
comments in front are skipped. -/
abbrev Attempt := ElementId → Nat → (acts skips : Bool) → GrammarM (Nat × ResultId)

/-- Whether another way may be tried after a failure to match. -/
def Failure.isPlain : Failure → Bool
  | .mismatch m => m.severity == .plain
  | _ => false

def Failure.isMismatch : Failure → Bool
  | .mismatch _ => true
  | _ => false

/-- Whether another way may be tried: the text does not match or ends early. -/
def Failure.isMiss : Failure → Bool
  | .mismatch m => m.severity == .plain
  | .fault .outOfRange => true
  | _ => false

def outcome {α : Type} (x : GrammarM α) : GrammarM (Except Failure α) :=
  tryCatch (do return .ok (← x)) (fun f => return .error f)

def charAt (t : Chars) (p : Nat) : GrammarM Char :=
  match t[p]? with
  | some c => return c
  | none => broken .outOfRange

def hasWord (t : Chars) (p : Nat) (word : List Char) : Bool := (t.extract p (p + word.length)).toList == word

/-- Match an element without its actions; nothing is fatal then. -/
def tryParse (go : Attempt) (t : Chars) (e : ElementId) (p : Nat) : GrammarM Nat := do
  match ← outcome (go e p false true) with
  | .ok (q, _) => return q
  | .error (.mismatch m) =>
    if m.severity == .plain then throw (.mismatch m) else mismatch t p (← elementOf e).message
  | .error f => throw f

/-! ### Blanks and comments in front -/

/-- The bound on the number of times that a repetition matches in a text. -/
def patience (t : Chars) : Nat := 2 * t.size + 10

/-- Match an element as often as possible; also whether it matched. -/
def skipRun (go : Attempt) (e : ElementId) : Nat → Nat → Bool → GrammarM (Nat × Bool)
  | 0, _, _ => throw .tooDeep
  | n + 1, p, moved => do
    match ← outcome (go e p true true) with
    | .ok (q, _) => skipRun go e n q true
    | .error f => if f.isPlain then return (p, moved) else throw f

/-- Skip matches of elements in turn until none matches. -/
def skipIgnored (go : Attempt) (t : Chars) (es : List ElementId) : Nat → Nat → GrammarM Nat
  | 0, _ => throw .tooDeep
  | n + 1, p => do
    let (q, moved) ← es.foldlM (fun (q, moved) e => skipRun go e (patience t) q moved) (p, false)
    if moved then skipIgnored go t es n q else return q

def skipChars (t : Chars) (p : Nat) (skipped : Char → Bool) : Nat :=
  p + ((t.extract p t.size).toList.takeWhile skipped).length

def skipComments (go : Attempt) (t : Chars) (el : Element) (p : Nat) : GrammarM Nat :=
  if el.ignored.isEmpty then return p else skipIgnored go t el.ignored (patience t) p

def skipFront (go : Attempt) (t : Chars) (el : Element) (p : Nat) : GrammarM Nat := do
  let p ← skipComments go t el p
  return if el.skipsBlanks then skipChars t p el.blanks.contains else p

def skipToColumn (t : Chars) (n : Int) : Nat → Nat → Nat
  | 0, p => p
  | k + 1, p =>
    match t[p]? with
    | some c => if Text.isSpace c && (Text.column t p : Int) != n then skipToColumn t n k (p + 1) else p
    | none => p

def preParse (go : Attempt) (t : Chars) (el : Element) (p : Nat) : GrammarM Nat :=
  match el.form with
  | .toColumn n => do
    if (Text.column t p : Int) == n then return p
    let p ← skipComments go t el p
    return skipToColumn t n t.size p
  | .lineStart => do
    let q ← skipFront go t el p
    return if (← charAt t q) == '\n' then p + 1 else p
  | _ => skipFront go t el p

/-! ### Forms without parts -/

/-- Whether a character, in upper case, is one of a word. -/
def Chosen.hasUpper (cs : Chosen) (c : Char) : Bool :=
  match Text.upperChar c with
  | [u] => cs.has u
  | us => match cs with
    | .set _ => false
    | .text all => (List.range all.length).any fun i => us.isPrefixOf (all.drop i)

def parseKeyword (t : Chars) (p : Nat) (word : String) (folded : Option String) (checksStart : Bool)
    (chars : Chosen) (message : String) : GrammarM (Nat × Raw) := do
  let n := word.length
  let matched := return (p + n, .one (.text word))
  let endsBefore (inWord : Char → Bool) : GrammarM Bool :=
    if p + n ≥ t.size then return true else return !inWord (← charAt t (p + n))
  let startsAfter (inWord : Char → Bool) : GrammarM Bool :=
    if p == 0 then return true else return !inWord (← charAt t (p - 1))
  match folded with
  | some folded =>
    if Text.upper (Text.slice t p (p + n)) == folded then
      if ← endsBefore chars.hasUpper then
        if !checksStart then return ← matched
        if ← startsAfter chars.hasUpper then return ← matched
    mismatch t p message
  | none =>
    let c ← charAt t p
    match word.toList with
    | [] => broken .noSuchPart
    | w :: ws =>
      if c == w && hasWord t p (w :: ws) then
        if ← endsBefore chars.has then
          if ← startsAfter chars.has then return ← matched
      mismatch t p message

/-- Match characters: the first of one kind and at most `most` in all, the others of another kind.  The place where
they end. -/
def parseRun (t : Chars) (p : Nat) (first rest : Char → Bool) (most : Option Nat) (message : String) :
    GrammarM Nat := do
  if !first (← charAt t p) then mismatch t p message
  let last := match most with
    | some n => min (p + n) t.size
    | none => t.size
  return p + 1 + ((t.extract (p + 1) last).toList.takeWhile rest).length

def parseWord (t : Chars) (p : Nat) (w : WordForm) (message : String) : GrammarM (Nat × Raw) := do
  match w.pattern with
  | some r =>
    match r.matchAt t (min p t.size) with
    | some m => return (m.stop, .one (.text (Text.slice t (min p t.size) m.stop)))
    | none => mismatch t p message
  | none => do
    let body := w.body.toList
    let inBody (q : Nat) : Bool := (t[q]?.map body.contains).getD false
    let q ← parseRun t p w.start.toList.contains body.contains w.most message
    if q - p < w.least || (w.mostGiven && inBody q) || (w.asKeyword && ((p > 0 && inBody (p - 1)) || inBody q)) then
      mismatch t q message
    return (q, .one (.text (Text.slice t p q)))

/-- A quoted text without its quotes and escapes. -/
def unquoted (q : QuotedForm) (s : String) : String :=
  let s := String.ofList (sliceOf s.toList (some q.quote.length) (some (-q.endQuote.length)))
  let s := match q.escapes with
    | some r =>
      let cs := Text.chars s
      String.ofList (r.replaceByFirst cs (cs.size + 2) 0)
    | none => s
  match q.escapedQuote with
  | some "" | none => s
  | some escaped => s.replace escaped q.endQuote

def parseToken (go : Attempt) (t : Chars) (el : Element) (p : Nat) : Form → GrammarM (Nat × Raw)
  | .never => mismatch t p el.message
  | .literal word => do
    let c ← charAt t p
    match word.toList with
    | [] => broken .noSuchPart
    | w :: ws =>
      if c == w && hasWord t p (w :: ws) then return (p + ws.length + 1, .one (.text word))
      else mismatch t p el.message
  | .caselessLiteral word result => do
    if Text.upper (Text.slice t p (p + word.length)) == word then return (p + word.length, .one (.text result))
    else mismatch t p el.message
  | .keyword word folded checksStart chars => parseKeyword t p word folded checksStart chars el.message
  | .word w => parseWord t p w el.message
  | .pattern _ r => do
    let q := min p t.size
    match r.matchAt t q with
    | none => mismatch t p el.message
    | some m =>
      let found ← newFound { tokens := [.text (Text.slice t q m.stop)] }
      for (name, s) in r.groupTexts t m do
        addValue found (.text name) ⟨(s.map Token.text).getD .nothing, 0⟩
      return (m.stop, .result found)
  | .quoted q => do
    let c ← charAt t p
    if q.quote.toList.head? != some c then mismatch t p el.message
    match q.pattern.matchAt t p with
    | none => mismatch t p el.message
    | some m =>
      let s := Text.slice t p m.stop
      return (m.stop, .one (.text (if q.unquotes then unquoted q s else s)))
  | .charsNotIn cs least most => do
    let other := fun c => !cs.toList.contains c
    let q ← parseRun t p other other most el.message
    if q - p < least then mismatch t q el.message
    return (q, .one (.text (Text.slice t p q)))
  | .white cs least most => do
    let q ← parseRun t p cs.toList.contains cs.toList.contains most el.message
    if ((q - p : Nat) : Int) < least then mismatch t q el.message
    return (q, .one (.text (Text.slice t p q)))
  | .toColumn n => do
    let here : Int := Text.column t p
    if here > n then mismatch t p "Text not in expected column"
    let q := p + (n - here).toNat
    return (q, .one (.text (Text.slice t p q)))
  | .lineStart => do
    if p == 0 then return (p, .list [])
    if p == (← preParse go t el 0) then return (p, .list [])
    if (← charAt t (p - 1)) == '\n' then return (p, .list [])
    mismatch t p el.message
  | .lineEnd => do
    match t[p]? with
    | some '\n' => return (p + 1, .one (.text "\n"))
    | some _ => mismatch t p el.message
    | none => if p == t.size then return (p + 1, .list []) else mismatch t p el.message
  | .textStart => do
    if p == 0 then return (p, .list [])
    if p == (← preParse go t el 0) then return (p, .list [])
    mismatch t p el.message
  | .textEnd => do
    if p < t.size then mismatch t p el.message
    return (if p == t.size then p + 1 else p, .list [])
  | .wordStart cs => do
    if p == 0 then return (p, .list [])
    if cs.contains (← charAt t (p - 1)) then mismatch t p el.message
    if !cs.contains (← charAt t p) then mismatch t p el.message
    return (p, .list [])
  | .wordEnd cs => do
    match t[p]? with
    | none => return (p, .list [])
    | some c =>
      let before := if p == 0 then t.back? else t[p - 1]?
      if cs.contains c || !(before.map cs.contains).getD false then mismatch t p el.message
      return (p, .list [])
  | _ => return (p, .list [])

/-! ### Forms with parts -/

def gather (found part : ResultId) : GrammarM Unit := do
  let f ← foundOf part
  if !f.tokens.isEmpty || !f.named.isEmpty then addFound found part

/-- Match the parts of a sequence after the first. -/
def parseRest (go : Attempt) (t : Chars) (acts : Bool) (message : String) (found : ResultId) :
    List Operand → Bool → Nat → GrammarM (Nat × Raw)
  | [], _, p => return (p, .result found)
  | o :: os, committed, p => do
    let e ← o.id
    match (← elementOf e).form with
    | .commit => parseRest go t acts message found os true p
    | _ => do
      let (q, part) ←
        match ← outcome (go e p acts true) with
        | .ok found => pure found
        | .error (.mismatch m) =>
          throw (.mismatch (if committed then { m with severity := .committed } else m))
        | .error (.fault .outOfRange) =>
          if committed then throw (.mismatch ⟨.committed, t, t.size, message⟩) else broken .outOfRange
        | .error f => throw f
      gather found part
      parseRest go t acts message found os committed q

/-- The failure that is reported of several: the first of those that are furthest. -/
def furthest (known : Option Mismatch) (new : Mismatch) : Option Mismatch :=
  match known with
  | some m => if new.place > m.place then some new else some m
  | none => some new

/-- The failure of a part as one that another way may be tried after. -/
def missOf (t : Chars) (e : ElementId) (f : Failure) : GrammarM Mismatch := do
  match f with
  | .mismatch m => if m.severity == .plain then return m else throw f
  | .fault .outOfRange => return ⟨.plain, t, t.size, (← elementOf e).message⟩
  | f => throw f

def noneMatches {α : Type} (t : Chars) (p : Nat) : Option Mismatch → GrammarM α
  | some m => throw (.mismatch m)
  | none => mismatch t p "no defined alternatives to match"

def parseFirst (go : Attempt) (t : Chars) (acts : Bool) (p : Nat) :
    List Operand → Option Mismatch → GrammarM (Nat × Raw)
  | [], worst => noneMatches t p worst
  | o :: os, worst => do
    let e ← o.id
    match ← outcome (go e p acts true) with
    | .ok (q, r) => return (q, .result r)
    | .error f => parseFirst go t acts p os (furthest worst (← missOf t e f))

/-- The part that matches most, and where it ends. -/
def parseLongest (go : Attempt) (t : Chars) (acts : Bool) (p : Nat) :
    List Operand → Option (Nat × ElementId) → Option Mismatch → GrammarM (Nat × Raw)
  | [], some (_, e), _ => do
    let (q, r) ← go e p acts true
    return (q, .result r)
  | [], none, worst => noneMatches t p worst
  | o :: os, best, worst => do
    let e ← o.id
    match ← outcome (tryParse go t e p) with
    | .ok q =>
      let best := match best with
        | some (b, known) => if q > b then some (q, e) else some (b, known)
        | none => some (q, e)
      parseLongest go t acts p os best worst
    | .error f => parseLongest go t acts p os best (furthest worst (← missOf t e f))

/-- Match an element again and again, and gather what it finds. -/
def parseMore (go : Attempt) (t : Chars) (el : Element) (e : ElementId) (acts : Bool) (found : ResultId) :
    Nat → Nat → GrammarM (Nat × Raw)
  | 0, _ => throw .tooDeep
  | n + 1, p => do
    let step : GrammarM Nat := do
      let q ← skipComments go t el p
      let (q, part) ← go e q acts true
      gather found part
      return q
    match ← outcome step with
    | .ok q => parseMore go t el e acts found n q
    | .error f => if f.isMiss then return (p, .result found) else throw f

def parseSkip (go : Attempt) (t : Chars) (el : Element) (e : Option ElementId) (taken : Bool)
    (ignore failOn : Operand) (acts : Bool) (start : Nat) : Nat → Nat → GrammarM (Nat × Raw)
  | 0, _ => throw .tooDeep
  | n + 1, p => do
    if p > t.size then mismatch t p el.message
    let stops : GrammarM Bool := do
      match failOn with
      | .nothing | .text "" => return false
      | o =>
        match ← outcome (tryParse go t (← o.id) p) with
        | .ok _ => return true
        | .error f => if f.isMismatch then return false else throw f
    match ← outcome stops with
    | .ok true => mismatch t p ("Found expression " ++ (← showOperand failOn))
    | .error f => if f.isMiss then parseSkip go t el e taken ignore failOn acts start n (p + 1) else throw f
    | .ok false =>
      let rec skipAll : Nat → Nat → GrammarM (Nat × Bool)
        | 0, _ => throw .tooDeep
        | k + 1, q => do
          match ← outcome (do tryParse go t (← ignore.id) q) with
          | .ok q => skipAll k q
          | .error f => if f.isMismatch then return (q, true) else if f.isMiss then return (q, false) else throw f
      let (q, goes) ← match ignore with
        | .nothing => pure (p, true)
        | _ => skipAll (patience t) p
      if !goes then return ← parseSkip go t el e taken ignore failOn acts start n (q + 1)
      let here : GrammarM (Nat × Raw) := do
        let e ← match e with
          | some e => pure e
          | none => broken .noSuchPart
        let _ ← go e q false false
        let skipped := Token.text (Text.slice t start q)
        if taken then
          let (r, found) ← go e q acts false
          if (← foundOf found).tokens.isEmpty then return (r, .list [skipped])
          let all ← newFound { tokens := [skipped] }
          addFound all found
          return (r, .list [.result all])
        else return (q, .list [skipped])
      match ← outcome here with
      | .ok found => return found
      | .error f => if f.isMiss then parseSkip go t el e taken ignore failOn acts start n (q + 1) else throw f

/-- The elements of a list without the first that is like one. -/
def removeAlike (e : ElementId) : List ElementId → GrammarM (List ElementId)
  | [] => return []
  | d :: ds => do if ← alike d e then return ds else return d :: (← removeAlike e ds)

/-- The parts by how often they have to match. -/
def groupsOf (parts : List Operand) : GrammarM Groups := do
  let es ← parts.mapM fun o => do
    let e ← o.id
    return (e, ← elementOf e)
  let inner (pick : Form → Option (Option ElementId)) : GrammarM (List ElementId) := do
    let found ← es.mapM fun (_, el) => match pick el.form with
      | some (some e) => return [e]
      | some none => broken .noSuchPart
      | none => return []
    return found.flatten
  let optional ← inner fun
    | .optional e _ => some e
    | _ => none
  let empty ← es.filterMapM fun (e, el) => do
    if el.mayBeEmpty then return if ← alikeAny e optional then none else some e else return none
  let repeated ← inner fun
    | .zeroOrMore e => some e
    | _ => none
  let repeatedNeeded ← inner fun
    | .oneOrMore e => some e
    | _ => none
  let needed := es.filterMap fun (e, el) => match el.form with
    | .optional _ _ | .zeroOrMore _ | .oneOrMore _ => none
    | _ => some e
  return ⟨optional ++ empty, repeated, repeatedNeeded, needed ++ repeatedNeeded⟩

/-- The state while elements are matched in any order. -/
structure AnyOrder where
  place : Nat
  needed : List ElementId
  optionals : List ElementId
  /-- The elements that matched, the last first. -/
  order : List ElementId

/-- Try elements in turn; also whether one matched. -/
def anyOrderRound (go : Attempt) (t : Chars) : List ElementId → AnyOrder → Bool → GrammarM (AnyOrder × Bool)
  | [], s, moved => return (s, moved)
  | e :: es, s, moved => do
    match ← outcome (tryParse go t e s.place) with
    | .ok q => do
      let s := { s with place := q, order := e :: s.order }
      let s ←
        if ← alikeAny e s.needed then do pure { s with needed := ← removeAlike e s.needed }
        else if ← alikeAny e s.optionals then do pure { s with optionals := ← removeAlike e s.optionals }
        else pure s
      anyOrderRound go t es s true
    | .error f => if f.isPlain then anyOrderRound go t es s moved else throw f

/-- Try elements in turn until none matches. -/
def anyOrderRounds (go : Attempt) (t : Chars) (g : Groups) : Nat → AnyOrder → GrammarM AnyOrder
  | 0, _ => throw .tooDeep
  | n + 1, s => do
    let (s, moved) ← anyOrderRound go t (s.needed ++ s.optionals ++ g.repeated ++ g.repeatedNeeded) s false
    if moved then anyOrderRounds go t g n s else return s

/-- Add what a part found; values of a name that is known are joined. -/
def gatherJoined (all part : ResultId) : GrammarM Unit := do
  let f ← foundOf part
  let joined ← f.named.filterMapM fun (key, _) => do
    match ← lookUp? all key with
    | none => return none
    | some known =>
      let known ← asResult known
      addFound known (← asResult (← lookUp part key))
      return some (key, known)
  addFound all part
  for (key, r) in joined do
    addValue all key ⟨.result r, 0⟩

def parseAnyOrder (go : Attempt) (t : Chars) (e : ElementId) (acts : Bool) (p : Nat) (parts : List Operand)
    (groups : Option Groups) : GrammarM (Nat × Raw) := do
  let g ← match groups with
    | some g => pure g
    | none => do
      let g ← groupsOf parts
      changeElement e fun el => { el with form := .anyOrder parts (some g) }
      pure g
  let s ← anyOrderRounds go t g (patience t) ⟨p, g.needed, g.optionals, []⟩
  if !s.needed.isEmpty then
    let missing ← s.needed.mapM showOne
    mismatch t p ("Missing one or more required elements (" ++ ", ".intercalate missing ++ ")")
  let unmatched ← parts.filterMapM fun o => do
    let e ← o.id
    match (← elementOf e).form with
    | .optional (some inner) _ => return if ← alikeAny inner s.optionals then some e else none
    | _ => return none
  let (p, found) ← (s.order.reverse ++ unmatched).foldlM (fun (p, found) e => do
      let (q, r) ← go e p acts true
      return (q, r :: found)) (p, [])
  let all ← newFound {}
  for r in found.reverse do gatherJoined all r
  return (p, .result all)

def parseForm (go : Attempt) (t : Chars) (e : ElementId) (el : Element) (p : Nat) (acts : Bool) :
    GrammarM (Nat × Raw) := do
  let within (inner : Option ElementId) : GrammarM ElementId :=
    match inner with
    | some e => return e
    | none => broken .noSuchPart
  let enclosed (inner : ElementId) : GrammarM (Nat × Raw) := do
    let (q, r) ← go inner p acts false
    return (q, .result r)
  match el.form with
  | .sequence [] => broken .outOfRange
  | .sequence (o :: os) => do
    let (q, found) ← go (← o.id) p acts false
    parseRest go t acts el.message found os false q
  | .longest parts => parseLongest go t acts p parts none none
  | .first parts => parseFirst go t acts p parts none
  | .anyOrder parts groups => parseAnyOrder go t e acts p parts groups
  | .ahead inner => do
    let _ ← tryParse go t (← within inner) p
    return (p, .list [])
  | .notAhead inner => do
    match ← outcome (tryParse go t (← within inner) p) with
    | .ok _ => mismatch t p el.message
    | .error f => if f.isMiss then return (p, .list []) else throw f
  | .zeroOrMore inner => do
    let inner ← within inner
    match ← outcome (go inner p acts false) with
    | .ok (q, found) => parseMore go t el inner acts found (patience t) q
    | .error f => if f.isMiss then return (p, .list []) else throw f
  | .oneOrMore inner => do
    let inner ← within inner
    let (q, found) ← go inner p acts false
    parseMore go t el inner acts found (patience t) q
  | .optional inner default => do
    let inner ← within inner
    match ← outcome (go inner p acts false) with
    | .ok (q, r) => return (q, .result r)
    | .error f =>
      if !f.isMiss then throw f
      match default, (← elementOf inner).resultName with
      | none, _ => return (p, .list [])
      | some t, none | some t, some "" => return (p, .list [t])
      | some t, some name => do
        let found ← newFound { tokens := [t] }
        addValue found (.text name) ⟨t, 0⟩
        return (p, .result found)
  | .skipTo inner taken ignore failOn =>
    parseSkip go t el inner taken ignore failOn acts p (t.size + 2) p
  | .forward .nothing | .convert _ none => mismatch #[] p el.message
  | .forward (.element inner) | .convert _ (some inner) => enclosed inner
  | .forward .found => broken .badOperands
  | .forward (.text _) => broken .noSuchPart
  | form => parseToken go t el p form

/-! ### Conversions -/

/-- A token as the members that a table entry has: its length and its members. -/
def membersOf : Token → GrammarM (List Token)
  | .text s => return s.toList.map fun c => .text c.toString
  | .list ts => return ts
  | .result r => return (← foundOf r).tokens
  | _ => broken .badOperands

def nameEntry (table : ResultId) (i : Nat) (t : Token) : GrammarM Unit := do
  let put (key value : Token) : GrammarM Unit := addValue table key ⟨value, i⟩
  let keyOf (key : Token) : Token := match key with
    | .number n => .text (Token.numberText n)
    | .truth b => .text (Token.truthText b)
    | key => key
  match ← membersOf t with
  | [] => pure ()
  | [key] => put (keyOf key) (.text "")
  | key :: rest =>
    let key := keyOf key
    match rest with
    | [value] => if !value.isResult then return ← put key value
    | _ => pure ()
    match t with
    | .result r => do
      let value ← copyFound r
      removeToken value 0
      match (← foundOf value).named, rest with
      | [], [only] => put key only
      | _, _ => put key (.result value)
    | .list _ =>
      match rest with
      | [only] => put key only
      | _ => put key (.list rest)
    | _ => broken .noSuchPart

def convertFound (el : Element) (raw : Raw) : GrammarM Raw := do
  let named : Bool := match el.resultName with
    | none | some "" => false
    | some _ => true
  match el.form, raw with
  | .convert .upper _, .result r => do
    return .list (← (← foundOf r).tokens.mapM fun t => match t with
      | .text s => return .text (Text.upper s)
      | _ => broken .badOperands)
  | .convert (.join separator _) _, .result r => do
    let joined ← copyFound r
    removeSlice joined none none
    let g ← get
    match textPieces g g.depth separator r with
    | none => throw .tooDeep
    | some pieces =>
      let text ← newFound { tokens := [.text (String.join pieces)] }
      addFound joined text
      if named && !(← foundOf joined).named.isEmpty then return .list [.result joined] else return .result joined
  | .convert .group _, .result r => return .list [.result r]
  | .convert .table _, .result r => do
    for (t, i) in (← foundOf r).tokens.zipIdx do nameEntry r i t
    return if named then .list [.result r] else .result r
  | .convert .drop _, _ => return .list []
  | _, raw => return raw

/-! ### One level -/

def printLine (s : String) : GrammarM Unit := modify fun g => { g with printed := g.printed ++ s ++ "\n" }

def reportFailure (e : ElementId) (m : Mismatch) : GrammarM Unit := do
  if (← elementOf e).reports == .printed then printLine ("Exception raised:" ++ m.shown)

/-- Do the actions of an element one after the other; each sees the tokens of those before. -/
def runActions (t : Chars) (start stop : Nat) (el : Element) : List Act → ResultId → GrammarM ResultId
  | [], r => return r
  | a :: as, r => do
    match ← runAction ⟨t, start, stop, r⟩ a.action with
    | none => runActions t start stop el as r
    | some raw =>
      let isList := match raw with
        | .result _ | .list _ => true
        | .one _ => false
      runActions t start stop el as (← wrap raw el.resultName (el.savesList && isList) el.lastCounts)

/-- One attempt, with `go` for the attempts inside. -/
def parseLevel (go : Attempt) (t : Chars) : Attempt := fun e p acts skips => do
  let el ← elementOf e
  let watched := el.debugged || el.failAct.isSome
  if watched && el.reports == .printed then
    printLine ("Match " ++ (← showOne e) ++ " at loc " ++ toString p ++ "(" ++ toString (Text.lineNumber t p) ++ "," ++
      toString (Text.column t p) ++ ")")
  let start ← if skips && el.preparses then preParse go t el p else pure p
  let (stop, raw) ←
    match ← outcome (parseForm go t e el start acts) with
    | .ok found => pure found
    | .error f =>
      let f ← match f with
        | .fault .outOfRange =>
          if watched || el.mayOverrun || p ≥ t.size then do
            pure (.mismatch ⟨.plain, t, t.size, (← elementOf e).message⟩)
          else pure f
        | f => pure f
      match f with
      | .mismatch m =>
        if watched then
          reportFailure e m
          match el.failAct with
          | some act => do
            let shown ← showOne e
            modify fun g => { g with log := .failed start shown m.shown :: g.log }
            match act.message with
            | some message => throw (.mismatch ⟨.fatal, t, start, message⟩)
            | none => pure ()
          | none => pure ()
      | _ => pure ()
      throw f
  let el ← elementOf e
  let raw ← convertFound el raw
  let found ← wrap raw el.resultName el.savesList el.lastCounts
  let found ←
    if !el.actions.isEmpty && (acts || el.actsInTrial) then
      match ← outcome (runActions t start stop el el.actions found) with
      | .ok r => pure r
      | .error f => do
        match f with
        | .mismatch m => if el.debugged then reportFailure e m
        | _ => pure ()
        throw f
    else pure found
  if el.debugged && el.reports == .printed then
    let ts ← listedTokens found
    match writtenToken (← get) (.list ts) with
    | some s => printLine ("Matched " ++ (← showOne e) ++ " -> " ++ s)
    | none => throw .tooDeep
  return (stop, found)

/-- One attempt that is looked up if it was made before. -/
def parseMemo (go : Attempt) (t : Chars) : Attempt := fun e p acts skips => do
  let g ← get
  if !g.memoizes then return ← parseLevel go t e p acts skips
  match g.memos.find? fun m => m.element == e && m.place == p && m.preparsed == skips && m.acts == acts with
  | some m =>
    match m.outcome with
    | .ok (q, r) => return (q, ← copyFound r)
    | .error m => throw (.mismatch m)
  | none => do
    let keep (o : Except Mismatch (Nat × ResultId)) : GrammarM Unit :=
      modify fun g => { g with memos := ⟨e, p, skips, acts, o⟩ :: g.memos }
    match ← outcome (parseLevel go t e p acts skips) with
    | .ok (q, r) => do
      keep (.ok (q, ← copyFound r))
      return (q, r)
    | .error f => do
      match f with
      | .mismatch m => keep (.error m)
      | _ => pure ()
      throw f

/-- Attempts that nest at most as deep as the first argument says. -/
def parse (t : Chars) : Nat → Attempt
  | 0 => fun _ _ _ _ => throw .tooDeep
  | n + 1 => fun e p acts skips => do parseMemo (parse t n) t ((← elementOf e).standsFor.getD e) p acts skips

end Peephole.Grammar
