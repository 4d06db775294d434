/-
# JSON text

Reading and writing values as JSON.

Reading follows the grammar strictly: no comments, no trailing commas, no lone surrogates, at most
127 levels of lists and mappings.  A repeated key keeps its first place and takes its last value.  A
whole number that fits 64 bits is kept exactly; every other number becomes a floating-point number in
two rounded steps, its leading digits first and then a power of ten.

Writing is compact.  Floating-point numbers have the fewest digits that read back, positional for
magnitudes from `1e-5` to below `1e16` and scientific outside of them.

* `Json.read?` : the value that a text spells;
* `Json.write` : the text of a value.
-/
import TestScribe.Document.Value
import TestScribe.Number.Shortest
import TestScribe.Text.Cut

namespace TestScribe.Json

open Text

/-- A reader gives a result and the text that follows it. -/
abbrev Reader (α : Type) := List Char → Option (α × List Char)

/-! ## Blank space and fixed words -/

/-- Blank space between the parts of a text. -/
def isSpace (c : Char) : Bool := c == ' ' || c == '\n' || c == '\t' || c == '\r'

/-- The text after blank space. -/
def skipSpace (cs : List Char) : List Char := cs.dropWhile isSpace

/-! ## Numbers -/

/-- Greatest whole number that is kept without rounding. -/
def greatestWhole : Nat := Nat.pow 2 64 - 1

/-- Powers of ten with at most this exponent are multiplied or divided by in one step. -/
def greatestPower : Nat := 308

/-- The power of ten as a floating-point number, for exponents up to the greatest. -/
def powerOfTen (k : Nat) : Binary64 :=
  (Binary64.ofDecimal? false 1 k).getD (Binary64.zero false)

/-- `x * 10 ^ e` in rounded steps, none where it is too great.  Four steps reach zero from any
significand. -/
def scaleTen (x : Binary64) (e : Int) : (steps : Nat) → Option Binary64
  | 0 => some x
  | steps + 1 =>
    if e.natAbs ≤ greatestPower then
      if 0 ≤ e then x.mul? (powerOfTen e.toNat) else x.div? (powerOfTen e.natAbs)
    else if x.isZero then some x
    else if 0 ≤ e then none
    else
      match x.div? (powerOfTen greatestPower) with
      | some y => scaleTen y (e + greatestPower) steps
      | none => none

/-- The floating-point number of a significand below `2 ^ 64` and a power of ten. -/
def floatOf (negative : Bool) (significand : Nat) (e : Int) : Option Number :=
  match Binary64.ofRatio? false significand 1 with
  | some x => (scaleTen x e 4).map fun y => .float (y.withSign negative)
  | none => none

/-- Digits taken into a significand as long as it stays below `2 ^ 64`: the significand, how many
digits were taken, and the digits left over. -/
def takeDigits (significand taken : Nat) : List Char → Nat × Nat × List Char
  | [] => (significand, taken, [])
  | c :: rest =>
    let next := significand * 10 + (c.toNat - 48)
    if next ≤ greatestWhole then takeDigits next (taken + 1) rest
    else (significand, taken, c :: rest)

/-- The exponent after its mark: a sign that may be left out, then digits.  Exponents beyond 31 bits
are given as a negative one or none by their sign. -/
def exponent? : Reader Int := fun cs =>
  let (negative, cs) :=
    match cs with
    | '+' :: rest => (false, rest)
    | '-' :: rest => (true, rest)
    | _ => (false, cs)
  let digits := cs.takeWhile isDigit
  if digits.isEmpty then none
  else
    let n : Int := decimal digits
    some (if negative then -n else n, cs.drop digits.length)

/-- A number without its sign. -/
def unsigned (negative : Bool) : Reader Number := fun cs =>
  let whole := cs.takeWhile isDigit
  let cs := cs.drop whole.length
  match whole with
  | [] => none
  | '0' :: _ :: _ => none
  | _ =>
    let (significand, _, beyond) := takeDigits 0 0 whole
    let shift : Int := beyond.length
    let fraction? : Option (Option (List Char) × List Char) :=
      match cs with
      | '.' :: rest =>
        let digits := rest.takeWhile isDigit
        if digits.isEmpty then none else some (some digits, rest.drop digits.length)
      | _ => some (none, cs)
    match fraction? with
    | none => none
    | some (fraction, cs) =>
      let (significand, places, _) := takeDigits significand 0 (fraction.getD [])
      let shift := shift - places
      match cs with
      | 'e' :: rest | 'E' :: rest =>
        match exponent? rest with
        | none => none
        | some (e, rest) => (floatOf negative significand (shift + e)).map (·, rest)
      | _ =>
        if fraction.isNone && beyond.isEmpty then
          if !negative then some (.int significand, cs)
          else if 0 < significand && significand ≤ Nat.pow 2 63 then some (.int (-significand), cs)
          else (floatOf true significand 0).map (·, cs)
        else (floatOf negative significand shift).map (·, cs)

/-- A number. -/
def number : Reader Number
  | '-' :: rest => unsigned true rest
  | cs => unsigned false cs

/-! ## Texts -/

/-- Four hexadecimal digits. -/
def unit? : Reader Nat
  | a :: b :: c :: d :: rest => (numeral? 16 [a, b, c, d]).map (·, rest)
  | _ => none

/-- The character of a `\u` escape; a high surrogate needs its low one right after it. -/
def escapedUnit? : Reader Char := fun cs =>
  match unit? cs with
  | none => none
  | some (n, rest) =>
    if 0xD800 ≤ n && n ≤ 0xDBFF then
      match rest with
      | '\\' :: 'u' :: rest =>
        match unit? rest with
        | some (low, rest) =>
          if 0xDC00 ≤ low && low ≤ 0xDFFF then
            some (Char.ofNat (0x10000 + (n - 0xD800) * 0x400 + (low - 0xDC00)), rest)
          else none
        | none => none
      | _ => none
    else (charOf? n).map (·, rest)

/-- The character after a backslash. -/
def escaped? : Reader Char
  | '"' :: rest => some ('"', rest)
  | '\\' :: rest => some ('\\', rest)
  | '/' :: rest => some ('/', rest)
  | 'b' :: rest => some ('\x08', rest)
  | 'f' :: rest => some ('\x0c', rest)
  | 'n' :: rest => some ('\n', rest)
  | 'r' :: rest => some ('\r', rest)
  | 't' :: rest => some ('\t', rest)
  | 'u' :: rest => escapedUnit? rest
  | _ => none

/-- The characters up to the closing quote; `fuel` bounds their number. -/
def quoted (acc : List Char) : (fuel : Nat) → Reader String
  | 0, _ => none
  | _ + 1, [] => none
  | fuel + 1, c :: rest =>
    if c = '"' then some (String.ofList acc.reverse, rest)
    else if c = '\\' then
      match escaped? rest with
      | some (e, rest) => quoted (e :: acc) fuel rest
      | none => none
    else if c.toNat < 0x20 then none
    else quoted (c :: acc) fuel rest

/-! ## Values -/

/-- The items of a list after its bracket, each read by `item`; `first` tells whether none was read
yet. -/
def items (item : Reader Value) (acc : List Value) (first : Bool) :
    (fuel : Nat) → Reader (List Value)
  | 0, _ => none
  | fuel + 1, cs =>
    match skipSpace cs with
    | ']' :: rest => if first then some ([], rest) else none
    | cs =>
      match item cs with
      | none => none
      | some (v, rest) =>
        match skipSpace rest with
        | ',' :: rest => items item (v :: acc) false fuel rest
        | ']' :: rest => some ((v :: acc).reverse, rest)
        | _ => none

/-- The entries of a mapping after its brace, each value read by `item`. -/
def entries (item : Reader Value) (acc : Mapping) (first : Bool) :
    (fuel : Nat) → Reader Mapping
  | 0, _ => none
  | fuel + 1, cs =>
    match skipSpace cs with
    | '\x7d' :: rest => if first then some ([], rest) else none
    | '"' :: cs =>
      match quoted [] (cs.length + 1) cs with
      | none => none
      | some (key, rest) =>
        match skipSpace rest with
        | ':' :: rest =>
          match item (skipSpace rest) with
          | none => none
          | some (v, rest) =>
            match skipSpace rest with
            | ',' :: rest => entries item (Mapping.set key v acc) false fuel rest
            | '\x7d' :: rest => some (Mapping.set key v acc, rest)
            | _ => none
        | _ => none
    | _ => none

/-- A value that starts at once, with at most `depth` levels of lists and mappings. -/
def value : (depth : Nat) → Reader Value
  | 0, cs => scalar cs
  | depth + 1, cs =>
    match cs with
    | '[' :: rest => (items (value depth) [] true (rest.length + 1) rest).map fun (v, r) => (.list v, r)
    | '\x7b' :: rest =>
      (entries (value depth) [] true (rest.length + 1) rest).map fun (v, r) => (.mapping v, r)
    | _ => scalar cs
where
  /-- A value that is neither a list nor a mapping. -/
  scalar : Reader Value
    | 'n' :: 'u' :: 'l' :: 'l' :: rest => some (.null, rest)
    | 't' :: 'r' :: 'u' :: 'e' :: rest => some (.bool true, rest)
    | 'f' :: 'a' :: 'l' :: 's' :: 'e' :: rest => some (.bool false, rest)
    | '"' :: rest => (quoted [] (rest.length + 1) rest).map fun (s, r) => (.text s, r)
    | cs => (number cs).map fun (n, r) => (.number n, r)

/-- Levels of lists and mappings that a text may nest. -/
def depthLimit : Nat := 127

/-- The value that a whole text spells. -/
def read? (text : String) : Option Value :=
  match value depthLimit (skipSpace text.toList) with
  | some (v, rest) => if (skipSpace rest).isEmpty then some v else none
  | none => none

/-! ## Writing -/

/-- Two lower-case hexadecimal digits. -/
def twoHex (n : Nat) : List Char :=
  [Nat.digitChar (n / 16 % 16), Nat.digitChar (n % 16)]

/-- The characters that stand for one character of a text. -/
def escape (c : Char) : List Char :=
  if c = '"' then ['\\', '"']
  else if c = '\\' then ['\\', '\\']
  else if c = '\x08' then ['\\', 'b']
  else if c = '\x0c' then ['\\', 'f']
  else if c = '\n' then ['\\', 'n']
  else if c = '\r' then ['\\', 'r']
  else if c = '\t' then ['\\', 't']
  else if c.toNat < 0x20 then '\\' :: 'u' :: '0' :: '0' :: twoHex c.toNat
  else [c]

/-- A text between double quotes. -/
def writeText (s : String) : String :=
  String.ofList ('"' :: s.toList.flatMap escape ++ ['"'])

/-- A floating-point number: positional from `1e-5` to below `1e16`, scientific outside. -/
def writeFloat (x : Binary64) : String :=
  let d := x.shortest .toEven
  let layout := if -5 ≤ d.leading && d.leading < 16 then d.positional else d.scientific
  String.ofList (if x.negative then '-' :: layout else layout)

/-- A number. -/
def writeNumber : Number → String
  | .int i => toString i
  | .float x => writeFloat x

mutual

/-- The compact text of a value. -/
def write : Value → String
  | .null => "null"
  | .bool true => "true"
  | .bool false => "false"
  | .number n => writeNumber n
  | .text s => writeText s
  | .list items => "[" ++ writeItems items ++ "]"
  | .mapping entries => "\x7b" ++ writeEntries entries ++ "\x7d"

/-- The items of a list with commas between them. -/
def writeItems : List Value → String
  | [] => ""
  | [v] => write v
  | v :: w :: rest => write v ++ "," ++ writeItems (w :: rest)

/-- The entries of a mapping with commas between them. -/
def writeEntries : List (String × Value) → String
  | [] => ""
  | [(k, v)] => writeText k ++ ":" ++ write v
  | (k, v) :: w :: rest => writeText k ++ ":" ++ write v ++ "," ++ writeEntries (w :: rest)

end

end TestScribe.Json

namespace TestScribe

/-- The compact JSON text of a value, as error texts quote it. -/
def Value.json (v : Value) : String := Json.write v

end TestScribe
