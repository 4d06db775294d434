/-
# Cutting and joining text

Splitting at a separator, joining with one, and taking a known beginning off.  Cutting works on
lists of characters, where every rule is a recursion on the text.

* `pieces` : the parts of a text between separators;
* `joinWith` : parts with a separator between them;
* `afterPrefix?` : what follows a known beginning.
-/

namespace TestScribe.Text

/-! ## Splitting and joining -/

/-- The parts of a text between the occurrences of `sep`; there is always at least one. -/
def splitChars (sep : Char) : List Char → List (List Char)
  | [] => [[]]
  | c :: rest =>
    if c = sep then [] :: splitChars sep rest
    else
      match splitChars sep rest with
      | [] => [[c]]
      | part :: parts => (c :: part) :: parts

/-- The parts of a text between the occurrences of `sep`; there is always at least one. -/
def pieces (sep : Char) (text : String) : List String :=
  (splitChars sep text.toList).map String.ofList

/-- The parts in order, with `sep` between neighbours. -/
def joinWith (sep : String) : List String → String
  | [] => ""
  | [part] => part
  | part :: next :: rest => part ++ sep ++ joinWith sep (next :: rest)

/-! ## Beginnings and ends -/

/-- What follows `lead` in a text that begins with it. -/
def afterPrefix? (lead text : String) : Option String :=
  (lead.toList.isPrefixOf? text.toList).map String.ofList

/-- Whether a text begins with `lead`. -/
def beginsWith (lead text : String) : Bool :=
  lead.toList.isPrefixOf text.toList

/-- Whether a text ends with `tail`. -/
def endsIn (tail text : String) : Bool :=
  tail.toList.isSuffixOf text.toList

/-- A text without the run of `c` at either end. -/
def trimChar (c : Char) (text : String) : String :=
  String.ofList ((text.toList.dropWhile (· == c)).reverse.dropWhile (· == c)).reverse

/-- Every occurrence of `old` replaced by `new`. -/
def replaceChar (old new : Char) (text : String) : String :=
  String.ofList (text.toList.map fun c => if c = old then new else c)

/-- The text up to its first line end. -/
def firstLine (text : String) : String :=
  let line := text.toList.takeWhile (· ≠ '\n')
  String.ofList (if line.length < text.length then
    (match line.reverse with
    | '\r' :: rest => rest.reverse
    | _ => line) else line)

/-! ## Blank space -/

/-- Characters that count as blank space in any script. -/
def isBlank (c : Char) : Bool :=
  let n := c.toNat
  (0x9 ≤ n && n ≤ 0xD) || n == 0x20 || n == 0x85 || n == 0xA0 || n == 0x1680
    || (0x2000 ≤ n && n ≤ 0x200A) || n == 0x2028 || n == 0x2029 || n == 0x202F || n == 0x205F
    || n == 0x3000

/-- A text without blank space at either end. -/
def trim (text : String) : String :=
  String.ofList ((text.toList.dropWhile isBlank).reverse.dropWhile isBlank).reverse

/-! ## Digits -/

/-- One of the ten digits. -/
def isDigit (c : Char) : Bool := '0' ≤ c && c ≤ '9'

/-- The value of a digit in base sixteen. -/
def hexDigit? (c : Char) : Option Nat :=
  if '0' ≤ c && c ≤ '9' then some (c.toNat - 48)
  else if 'a' ≤ c && c ≤ 'f' then some (c.toNat - 87)
  else if 'A' ≤ c && c ≤ 'F' then some (c.toNat - 55)
  else none

/-- The number written by digits of the given base, most significant first; there must be one. -/
def numeral? (base : Nat) (digits : List Char) : Option Nat :=
  if digits.isEmpty then none
  else
    digits.foldlM (fun n c =>
      match hexDigit? c with
      | some d => if d < base then some (n * base + d) else none
      | none => none) 0

/-- The number written by ten-digits, each of which is known to be one. -/
def decimal (digits : List Char) : Nat :=
  digits.foldl (fun n c => n * 10 + (c.toNat - 48)) 0

/-- A code point that is a character, as that character. -/
def charOf? (n : Nat) : Option Char :=
  if n.isValidChar then some (Char.ofNat n) else none

end TestScribe.Text
