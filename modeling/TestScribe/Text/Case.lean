/-
# Letter case

Case of single characters and of whole texts.  A character may map to several (`ß` is `SS` in upper
case), so both mappings give a list.  Over a whole text the mapping is character by character, with
one exception: a capital sigma that ends a word becomes the final small sigma.

* `lowerOf`, `upperOf` : the mappings of one character;
* `lower`, `upper` : the mappings of a text.
-/
import TestScribe.Text.Case.Tables

namespace TestScribe.Text

open Case

/-! ## Properties of one character -/

/-- Lower-case letters and the other characters that count as lower case. -/
def isLowercase (c : Char) : Bool :=
  if c.toNat < 0x80 then 'a' ≤ c && c ≤ 'z' else lowercaseRuns.any (·.holds c.toNat)

/-- Upper-case letters and the other characters that count as upper case. -/
def isUppercase (c : Char) : Bool :=
  if c.toNat < 0x80 then 'A' ≤ c && c ≤ 'Z' else uppercaseRuns.any (·.holds c.toNat)

/-- Characters that have case, the title-case letters among them. -/
def isCased (c : Char) : Bool :=
  isLowercase c || isUppercase c || titlecaseRuns.any (·.holds c.toNat)

/-- Characters that do not separate a letter from its neighbours. -/
def isCaseIgnorable (c : Char) : Bool :=
  if c.toNat < 0x80 then ['\x27', '.', ':', '^', '\x60'].contains c
  else ignorableRanges.any fun range => range.1 ≤ c.toNat && c.toNat ≤ range.2

/-! ## Mappings -/

/-- The counterpart of a code point: an expansion, else a shift, else the code point itself. -/
def counterpart (expansions : List (Nat × List Nat)) (shifts : List MovedRun) (c : Char) :
    List Char :=
  match expansions.lookup c.toNat with
  | some codes => codes.map Char.ofNat
  | none =>
    match shifts.find? (·.holds c.toNat) with
    | some run => [Char.ofNat ((c.toNat : Int) + run.distance).toNat]
    | none => [c]

/-- The upper-case form of one character. -/
def upperOf (c : Char) : List Char :=
  if c.toNat < 0x80 then [c.toUpper] else counterpart upperExpansions upperShifts c

/-- The lower-case form of one character. -/
def lowerOf (c : Char) : List Char :=
  if c.toNat < 0x80 then [c.toLower] else counterpart lowerExpansions lowerShifts c

/-- The upper-case form of a text. -/
def upper (text : String) : String :=
  String.ofList (text.toList.flatMap upperOf)

/-- Whether the first character that is not passed over has case. -/
def leadsToCased (cs : List Char) : Bool :=
  match cs.dropWhile isCaseIgnorable with
  | c :: _ => isCased c
  | [] => false

/-- The lower-case form of the characters that follow those of `before`, which is given backwards. -/
def lowerAfter (before : List Char) : List Char → List Char
  | [] => []
  | c :: rest =>
    if c = 'Σ' then
      (if leadsToCased before && !leadsToCased rest then 'ς' else 'σ')
        :: lowerAfter (c :: before) rest
    else lowerOf c ++ lowerAfter (c :: before) rest

/-- The lower-case form of a text. -/
def lower (text : String) : String :=
  String.ofList (lowerAfter [] text.toList)

end TestScribe.Text
