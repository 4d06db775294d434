/-
# YAML tokens

A text is cut into tokens.  Indentation shows itself as tokens that open and close block collections, and
a key that is only known as one by the colon after it gets its token in front of it afterwards.

* `Token` : the tokens;
* `Scanner` : the state of the cutting;
* `Token.scan?` : the tokens of a whole text.
-/
import TestScribe.Document.Yaml.Scalar

namespace TestScribe.Yaml

/-- A token.  A tag is a handle and what follows it; the empty handle stands for a tag in full. -/
inductive Token where
  | streamEnd
  | versionDirective (major minor : Nat)
  | tagDirective (handle lead : String)
  | documentStart
  | documentEnd
  | sequenceStart
  | mappingStart
  | blockEnd
  | flowSequenceStart
  | flowSequenceEnd
  | flowMappingStart
  | flowMappingEnd
  | blockEntry
  | flowEntry
  | key
  | value
  | reference (name : String)
  | anchor (name : String)
  | tag (handle suffix : String)
  | scalar (plain : Bool) (text : String)
deriving DecidableEq, Repr

/-! ## Names and tags -/

/-- What may follow the name of an anchor or a reference. -/
def endsName : List Char → Bool
  | [] => true
  | c :: _ => isGap c || isBreak c || "?:,]\x7d%@\x60".toList.contains c

/-- The name of an anchor or a reference, from its indicator. -/
def anchorName? (c : Cursor) : Option (String × Cursor) :=
  let c := c.skip
  let name := c.rest.takeWhile isNameChar
  let c := c.skipMany name.length
  if name.isEmpty || !endsName c.rest then none else some (String.ofList name, c)

/-- Characters of a tag; those of flow collections only where `full`. -/
def isTagChar (full : Bool) (c : Char) : Bool :=
  isNameChar c || ";/?:@&=+$.%!~*'()".toList.contains c || (full && ",[]".toList.contains c)

/-- The octet of a percent escape. -/
def octet? : List Char → Option (Nat × List Char)
  | '%' :: a :: b :: rest =>
    match Text.hexDigit? a, Text.hexDigit? b with
    | some x, some y => some (16 * x + y, rest)
    | _, _ => none
  | _ => none

/-- The octets after the first of a character, added to its code. -/
def moreOctets? : Nat → Nat → List Char → Option (Nat × List Char)
  | 0, code, rest => some (code, rest)
  | n + 1, code, rest =>
    match octet? rest with
    | some (o, rest) => if o / 64 = 2 then moreOctets? n (code * 64 + o % 64) rest else none
    | none => none

/-- The character of a run of percent escapes. -/
def escapedChar? (text : List Char) : Option (Char × List Char) := do
  let (o, rest) ← octet? text
  let (more, code) ←
    if o < 0x80 then some (0, o)
    else if o / 32 = 6 then some (1, o % 32)
    else if o / 16 = 14 then some (2, o % 16)
    else if o / 8 = 30 then some (3, o % 8)
    else none
  let (code, rest) ← moreOctets? more code rest
  some ((Text.charOf? code).getD '\ufffd', rest)

/-- The characters of a tag, escapes taken out; `fuel` bounds their number. -/
def tagText? (full : Bool) : Nat → List Char → List Char → Option (List Char × List Char)
  | 0, seen, text => some (seen.reverse, text)
  | fuel + 1, seen, text =>
    match text with
    | [] => some (seen.reverse, [])
    | c :: rest =>
      if c == '%' then
        match escapedChar? text with
        | some (d, rest) => tagText? full fuel (d :: seen) rest
        | none => none
      else if isTagChar full c then tagText? full fuel (c :: seen) rest
      else some (seen.reverse, text)

/-- The characters of a tag at a cursor. -/
def tagSuffix? (full : Bool) (c : Cursor) : Option (List Char × Cursor) :=
  (tagText? full c.rest.length [] c.rest).map fun (text, rest) =>
    (text, c.skipMany (c.rest.length - rest.length))

/-- The handle of a tag: an exclamation mark, a name, and a second mark if it is there. -/
def tagHandle? (c : Cursor) : Option (List Char × Cursor) :=
  match c.rest with
  | '!' :: rest =>
    let name := rest.takeWhile isNameChar
    let handle := '!' :: name
    let c := c.skipMany handle.length
    if c.nextIs (· == '!') then some (handle ++ ['!'], c.skip) else some (handle, c)
  | _ => none

/-- A tag, from its indicator. -/
def tag? (flow : Bool) (c : Cursor) : Option (Token × Cursor) := do
  let (token, c) ←
    if c.rest.tail.head? == some '<' then do
      let (text, c) ← tagSuffix? true (c.skipMany 2)
      if text.isEmpty || !c.nextIs (· == '>') then none
      else some (Token.tag "" (String.ofList text), c.skip)
    else do
      let (handle, c) ← tagHandle? c
      let (text, c) ← tagSuffix? false c
      if 1 < handle.length && handle.getLast? == some '!' then
        if text.isEmpty then none else some (Token.tag (String.ofList handle) (String.ofList text), c)
      else
        let suffix := handle.tail ++ text
        if suffix.isEmpty then some (Token.tag "" "!", c)
        else some (Token.tag "!" (String.ofList suffix), c)
  if atGap c.rest || (flow && c.nextIs (· == ',')) then some (token, c) else none

/-! ## Directives -/

/-- A version number's part: at most nine digits. -/
def versionPart? (c : Cursor) : Option (Nat × Cursor) :=
  let digits := c.rest.takeWhile Text.isDigit
  if digits.isEmpty || 9 < digits.length then none
  else some (Text.decimal digits, c.skipMany digits.length)

/-- A directive, from its indicator. -/
def directive? (c : Cursor) : Option (Token × Cursor) := do
  let c := c.skip
  let name := c.rest.takeWhile isNameChar
  let c := c.skipMany name.length
  if !atGap c.rest then none
  else
    let c := c.skipWhile isGap
    let (token, c) ←
      if name = "YAML".toList then do
        let (major, c) ← versionPart? c
        if !c.nextIs (· == '.') then none
        else
          let (minor, c) ← versionPart? c.skip
          some (Token.versionDirective major minor, c)
      else if name = "TAG".toList then do
        let (handle, c) ← tagHandle? c
        if handle != ['!'] && handle.getLast? != some '!' then none
        else if !c.nextIs isGap then none
        else
          let (lead, c) ← tagSuffix? true (c.skipWhile isGap)
          if lead.isEmpty || !atGap c.rest then none
          else some (Token.tagDirective (String.ofList handle) (String.ofList lead), c)
      else none
    let c ← c.finishLine?
    some (token, c)

/-! ## The scanner -/

/-- A place where a key may have begun: the number of its first token, where it stands, and whether
nothing else may stand there. -/
structure KeyPlace where
  required : Bool
  token : Nat
  index : Nat
  line : Nat
  column : Nat
deriving Repr

/-- The state of the cutting: the tokens so far, the columns of the open block collections from the
inside out, whether a key may begin, and the possible key of each open flow collection and of the block
level, from the inside out. -/
structure Scanner where
  cursor : Cursor
  tokens : Array Token
  indents : List Nat
  keyAllowed : Bool
  key : Option KeyPlace
  outerKeys : List (Option KeyPlace)
deriving Repr

namespace Scanner

/-- The state before a text. -/
def ofText (text : List Char) : Scanner := ⟨Cursor.ofText text, #[], [], true, none, []⟩

/-- Whether a flow collection is open. -/
def inFlow (s : Scanner) : Bool := !s.outerKeys.isEmpty

/-- The least column of what lies inside the innermost block collection. -/
def margin (s : Scanner) : Nat :=
  match s.indents with
  | [] => 0
  | n :: _ => n + 1

/-- One more token. -/
def push (s : Scanner) (token : Token) : Scanner := { s with tokens := s.tokens.push token }

/-- One more token, read up to the given place. -/
def pushAt (s : Scanner) (token : Token) (c : Cursor) : Scanner :=
  { s with tokens := s.tokens.push token, cursor := c }

/-- A token in front of an earlier one. -/
def insert (s : Scanner) (position : Nat) (token : Token) : Scanner :=
  { s with
    tokens := s.tokens.extract 0 position ++ #[token] ++ s.tokens.extract position s.tokens.size }

/-- Whether keys may begin from now on. -/
def allowKey (s : Scanner) (allowed : Bool) : Scanner := { s with keyAllowed := allowed }

/-! ### Possible keys -/

/-- The possible key is given up; it must not have been required. -/
def dropKey? (s : Scanner) : Option Scanner :=
  if s.key.any (·.required) then none else some { s with key := none }

/-- A key may begin here. -/
def saveKey? (s : Scanner) : Option Scanner :=
  if s.keyAllowed then do
    let s ← s.dropKey?
    let c := s.cursor
    let required := !s.inFlow && s.indents.head? == some c.column
    some { s with key := some ⟨required, s.tokens.size, c.index, c.line, c.column⟩ }
  else some s

/-- The longest distance between a key and the colon after it. -/
def keyReach : Nat := 1024

/-- The possible key at a colon: it must begin on the same line and not too far back, and a required one
must be there. -/
def liveKey? (s : Scanner) : Option (Option KeyPlace) :=
  match s.key with
  | none => some none
  | some k =>
    if k.line < s.cursor.line || k.index + keyReach < s.cursor.index then
      if k.required then none else some none
    else some (some k)

/-- A possible key that is not required is given up when its line is over. -/
def forgetKey (s : Scanner) : Scanner :=
  if s.key.any (fun k => !k.required && k.line < s.cursor.line) then { s with key := none } else s

/-! ### Indentation -/

/-- A block collection opens at a column further right than the open ones; its token goes in front of the
token of the given number. -/
def openBlock (s : Scanner) (column position : Nat) (token : Token) : Scanner :=
  if s.inFlow then s
  else if s.indents.head?.all (· < column) then
    { s.insert position token with indents := column :: s.indents }
  else s

/-- The columns that stay open from a column on, and how many close. -/
def closing (column : Option Nat) : List Nat → Nat × List Nat
  | [] => (0, [])
  | n :: rest =>
    if column.all (· < n) then
      let (k, kept) := closing column rest
      (k + 1, kept)
    else (0, n :: rest)

/-- Block collections further right than a column close; all close without one. -/
def closeBlocks (s : Scanner) (column : Option Nat) : Scanner :=
  if s.inFlow then s
  else
    let (k, kept) := closing column s.indents
    { s with indents := kept, tokens := s.tokens ++ (List.replicate k Token.blockEnd).toArray }

/-! ### Between tokens -/

/-- On to the next token: over gaps, comments and line ends. -/
def toToken : Nat → Scanner → Scanner
  | 0, s => s
  | fuel + 1, s =>
    let c := s.cursor
    let c := if c.column == 0 && c.nextIs (· == '\ufeff') then c.skip else c
    let c := c.skipWhile fun d => d == ' ' || (d == '\t' && (s.inFlow || !s.keyAllowed))
    let c := c.skipComment
    if c.nextIs isBreak then
      toToken fuel { s with cursor := c.takeBreak.2, keyAllowed := s.keyAllowed || !s.inFlow }
    else { s with cursor := c }

/-! ### Tokens -/

/-- A token that ends all block collections. -/
def topToken? (s : Scanner) (token : Token) (c : Cursor) : Option Scanner := do
  let s ← (s.closeBlocks none).dropKey?
  some ((s.pushAt token c).allowKey false)

/-- A flow collection opens. -/
def openFlow? (s : Scanner) (token : Token) : Option Scanner := do
  let s ← s.saveKey?
  let s := { s with key := none, outerKeys := s.key :: s.outerKeys }
  some ((s.pushAt token s.cursor.skip).allowKey true)

/-- A flow collection closes. -/
def closeFlow? (s : Scanner) (token : Token) : Option Scanner := do
  let s ← s.dropKey?
  let s :=
    match s.outerKeys with
    | [] => s
    | k :: rest => { s with key := k, outerKeys := rest }
  some ((s.pushAt token s.cursor.skip).allowKey false)

/-- The comma of a flow collection. -/
def flowEntry? (s : Scanner) : Option Scanner := do
  let s ← s.dropKey?
  some ((s.pushAt .flowEntry s.cursor.skip).allowKey true)

/-- A block collection may open at a token that stands for a key or an item. -/
def openHere? (s : Scanner) (token : Token) : Option Scanner :=
  if s.inFlow then some s
  else if s.keyAllowed then some (s.openBlock s.cursor.column s.tokens.size token)
  else none

/-- The dash of a block sequence. -/
def blockEntry? (s : Scanner) : Option Scanner := do
  let s ← (← s.openHere? .sequenceStart).dropKey?
  some ((s.pushAt .blockEntry s.cursor.skip).allowKey true)

/-- The question mark of a key. -/
def keyMark? (s : Scanner) : Option Scanner := do
  let s ← (← s.openHere? .mappingStart).dropKey?
  some ((s.pushAt .key s.cursor.skip).allowKey !s.inFlow)

/-- The colon of a value. -/
def valueMark? (s : Scanner) : Option Scanner := do
  match ← s.liveKey? with
  | some k =>
    let s := { s.insert k.token .key with key := none }
    let s := s.openBlock k.column k.token .mappingStart
    some ((s.pushAt .value s.cursor.skip).allowKey false)
  | none =>
    let s ← s.openHere? .mappingStart
    some ((s.pushAt .value s.cursor.skip).allowKey !s.inFlow)

/-- A token that may begin a key and after which none begins. -/
def content? (s : Scanner) (read : Cursor → Option (Token × Cursor)) : Option Scanner := do
  let s ← s.saveKey?
  let (token, c) ← read s.cursor
  some ((s.pushAt token c).allowKey false)

/-- A block scalar. -/
def blockScalar? (s : Scanner) (literal : Bool) : Option Scanner := do
  let s ← s.dropKey?
  let (text, c) ← Scalar.block? literal s.margin s.cursor
  some ((s.pushAt (.scalar false text) c).allowKey true)

/-- A quoted scalar. -/
def quoted? (s : Scanner) (double : Bool) : Option Scanner :=
  s.content? fun c => (Scalar.quoted? double c).map fun (text, c) => (.scalar false text, c)

/-- A plain scalar; keys may begin after it if it ran to a new line. -/
def plain? (s : Scanner) : Option Scanner := do
  let s ← s.saveKey?
  let (text, newLine, c) ← Scalar.plain? s.inFlow s.margin s.cursor
  some ((s.pushAt (.scalar true text) c).allowKey newLine)

/-- Whether a plain scalar may begin with these characters. -/
def beginsPlain (flow : Bool) : List Char → Bool
  | [] => false
  | c :: rest =>
    if isGap c || isBreak c then false
    else if c == '-' then !rest.head?.any isGap
    else if c == '?' || c == ':' then !flow && !atGap rest
    else !",[]\x7b\x7d#&*!|>'\"%@\x60".toList.contains c

/-- The token here, of the kind that its first characters show. -/
def token? (s : Scanner) : Option Scanner :=
  let c := s.cursor
  match c.rest with
  | [] => s.topToken? .streamEnd c
  | d :: rest =>
    if c.column == 0 && d == '%' then do
      let s ← (s.closeBlocks none).dropKey?
      let (token, c) ← directive? c
      some ((s.pushAt token c).allowKey false)
    else if c.column == 0 && atDocumentMark c.rest then
      s.topToken? (if d == '-' then .documentStart else .documentEnd) (c.skipMany 3)
    else if d == '[' then s.openFlow? .flowSequenceStart
    else if d == '\x7b' then s.openFlow? .flowMappingStart
    else if d == ']' then s.closeFlow? .flowSequenceEnd
    else if d == '\x7d' then s.closeFlow? .flowMappingEnd
    else if d == ',' then s.flowEntry?
    else if d == '-' && atGap rest then s.blockEntry?
    else if d == '?' && (s.inFlow || atGap rest) then s.keyMark?
    else if d == ':' && (s.inFlow || atGap rest) then s.valueMark?
    else if d == '*' then s.content? fun c => (anchorName? c).map fun (n, c) => (.reference n, c)
    else if d == '&' then s.content? fun c => (anchorName? c).map fun (n, c) => (.anchor n, c)
    else if d == '!' then s.content? (tag? s.inFlow)
    else if d == '|' && !s.inFlow then s.blockScalar? true
    else if d == '>' && !s.inFlow then s.blockScalar? false
    else if d == '\x27' then s.quoted? false
    else if d == '"' then s.quoted? true
    else if beginsPlain s.inFlow c.rest then s.plain?
    else none

/-- One more token, after what stands before it. -/
def step? (s : Scanner) : Option Scanner :=
  let s := (toToken (s.cursor.rest.length + 1) s).forgetKey
  (s.closeBlocks (some s.cursor.column)).token?

/-- All tokens up to the end of the text. -/
def run? : Nat → Scanner → Option (Array Token)
  | 0, _ => none
  | fuel + 1, s =>
    match s.step? with
    | none => none
    | some s => if s.tokens.back? = some .streamEnd then some s.tokens else run? fuel s

end Scanner

/-- The tokens of a text, the last of which is its end; none if the text cannot be cut. -/
def Token.scan? (text : List Char) : Option (List Token) :=
  if text.all isReadable then
    ((Scanner.ofText text).run? (text.length + 2)).map Array.toList
  else none

end TestScribe.Yaml
