/-
# Python literals

Values and texts as Python source.  A text is quoted so that the literal evaluates back to it and
never holds a raw line end, whatever the text holds.

* `Literal.quote` : a text between given quote characters;
* `Literal.double`, `Literal.single`, `Literal.text` : the three ways in which texts are quoted;
* `Literal.write` : a whole value;
* `Literal.isIdentifier` : texts that can stand as a name in Python source.
-/
import TestScribe.Document.Value
import TestScribe.Number.Shortest

namespace TestScribe.Literal

/-! ## Quoting -/

/-- Two lower-case hexadecimal digits. -/
def hexPair (n : Nat) : List Char :=
  [Nat.digitChar (n / 16 % 16), Nat.digitChar (n % 16)]

/-- The characters that stand for `c` inside a literal quoted by `q`. -/
def escape (q c : Char) : List Char :=
  if c = '\\' then ['\\', '\\']
  else if c = '\n' then ['\\', 'n']
  else if c = '\r' then ['\\', 'r']
  else if c = '\t' then ['\\', 't']
  else if c = q then ['\\', c]
  else if c.toNat < 0x20 ∨ c.toNat = 0x7f then '\\' :: 'x' :: hexPair c.toNat
  else [c]

/-- A text between two quote characters, escaped so that it evaluates back to itself. -/
def quote (q : Char) (s : String) : String :=
  String.ofList (q :: s.toList.flatMap (escape q) ++ [q])

/-- A text in double quotes. -/
def double (s : String) : String := quote '"' s

/-- A text in single quotes. -/
def single (s : String) : String := quote '\x27' s

/-- A text in single quotes, unless it holds a single quote and no double quote. -/
def text (s : String) : String :=
  if s.toList.contains '\x27' && !s.toList.contains '"' then double s else single s

/-! ## Values -/

/-- A truth value. -/
def bool (b : Bool) : String := if b then "True" else "False"

/-- A number; one with a fraction or an exponent is written out in full, with a point. -/
def number : Number → String
  | .int i => toString i
  | .float x =>
    let digits := (x.shortest .up).positional
    String.ofList (if x.negative then '-' :: digits else digits)

mutual

/-- The literal of a value. -/
def write : Value → String
  | .null => "None"
  | .bool b => bool b
  | .number n => number n
  | .text s => text s
  | .list items => "[" ++ writeItems items ++ "]"
  | .mapping entries => "\x7b" ++ writeEntries entries ++ "\x7d"

/-- The literals of a list's items, with a comma and a blank between them. -/
def writeItems : List Value → String
  | [] => ""
  | [v] => write v
  | v :: w :: rest => write v ++ ", " ++ writeItems (w :: rest)

/-- The entries of a mapping, with a comma and a blank between them. -/
def writeEntries : List (String × Value) → String
  | [] => ""
  | [(k, v)] => text k ++ ": " ++ write v
  | (k, v) :: w :: rest => text k ++ ": " ++ write v ++ ", " ++ writeEntries (w :: rest)

end

/-- The literal of a mapping. -/
def mapping (m : Mapping) : String := write (.mapping m)

/-- The literal of a list of texts. -/
def texts (items : List String) : String := write (.list (items.map .text))

/-- The literal of a request body or an expected value: a text is double-quoted. -/
def body : Value → String
  | .text s => double s
  | v => write v

/-! ## Names -/

/-- Letters of ASCII and the underscore. -/
def startsName (c : Char) : Bool := c.isAlpha || c == '_'

/-- Letters and digits of ASCII and the underscore. -/
def continuesName (c : Char) : Bool := c.isAlphanum || c == '_'

/-- Whether a text can stand as a name in Python source; only ASCII names count. -/
def isIdentifier (s : String) : Bool :=
  match s.toList with
  | [] => false
  | c :: rest => startsName c && rest.all continuesName

end TestScribe.Literal
