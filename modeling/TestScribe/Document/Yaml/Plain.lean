/-
# What plain YAML scalars stand for

A plain scalar is nothing, a truth value, a number or a text, by the way it is written.

* `Plain.integer?`, `Plain.float?`, `Plain.bool?`, `Plain.isNull` : the spellings;
* `Plain.value?` : the value of a plain scalar;
* `Plain.taggedValue?` : the value of a scalar with a tag.
-/
import TestScribe.Document.Value
import TestScribe.Text.Cut

namespace TestScribe.Yaml.Plain

/-- The spellings of nothing. -/
def isNull (s : String) : Bool := s = "~" || s = "null" || s = "Null" || s = "NULL"

/-- The spellings of truth values. -/
def bool? (s : String) : Option Bool :=
  if s = "true" || s = "True" || s = "TRUE" then some true
  else if s = "false" || s = "False" || s = "FALSE" then some false
  else none

/-! ## Integers -/

/-- Digits after a leading zero are a text. -/
def isPadded (text : List Char) : Bool :=
  let digits :=
    match text with
    | '-' :: rest | '+' :: rest => rest
    | _ => text
  match digits with
  | '0' :: d :: rest => (d :: rest).all Text.isDigit
  | _ => false

/-- The base and the digits of an unsigned number with a mark of its base. -/
def based? : List Char → Option (Nat × List Char)
  | '0' :: 'x' :: rest => some (16, rest)
  | '0' :: 'o' :: rest => some (8, rest)
  | '0' :: 'b' :: rest => some (2, rest)
  | _ => none

/-- An unsigned number below a limit. -/
def below? (limit base : Nat) (digits : List Char) : Option Nat :=
  match Text.numeral? base digits with
  | some n => if n < limit then some n else none
  | none => none

/-- A number without a minus sign, below a limit. -/
def positive? (limit : Nat) (text : List Char) : Option Nat :=
  let digits :=
    match text with
    | '+' :: rest => rest
    | _ => text
  let inBase := (based? digits).bind fun (base, rest) => below? limit base rest
  match inBase with
  | some n => some n
  | none => if isPadded text then none else below? limit 10 digits

/-- The size of a number with a minus sign, below a limit. -/
def negative? (limit : Nat) : List Char → Option Nat
  | '-' :: digits =>
    let inBase := (based? digits).bind fun (base, rest) => below? limit base rest
    match inBase with
    | some n => some n
    | none => if isPadded digits then none else below? limit 10 digits
  | _ => none

/-- An integer.  None if the text is not one; an integer of up to 128 bits that does not fit 64 has no
value. -/
def integer? (text : List Char) : Option (Option Int) :=
  match positive? (Nat.pow 2 64) text with
  | some n => some (some (n : Int))
  | none =>
    match negative? (Nat.pow 2 63 + 1) text with
    | some n => some (some (-(n : Int)))
    | none =>
      if (positive? (Nat.pow 2 128) text).isSome || (negative? (Nat.pow 2 127 + 1) text).isSome then some none
      else none

/-! ## Floats -/

/-- An exponent, with its mark; nothing is the exponent zero. -/
def exponent? : List Char → Option Int
  | [] => some 0
  | e :: rest =>
    if e == 'e' || e == 'E' then
      let (negative, digits) :=
        match rest with
        | '-' :: more => (true, more)
        | '+' :: more => (false, more)
        | _ => (false, rest)
      if digits.isEmpty || !digits.all Text.isDigit then none
      else
        let n : Int := Text.decimal digits
        some (if negative then -n else n)
    else none

/-- A decimal with an optional fraction and an optional exponent; it must have a digit and be finite. -/
def decimal? (negative : Bool) (text : List Char) : Option Binary64 :=
  let whole := text.takeWhile Text.isDigit
  let rest := text.drop whole.length
  let (fraction, rest) :=
    match rest with
    | '.' :: more => (more.takeWhile Text.isDigit, more.dropWhile Text.isDigit)
    | _ => ([], rest)
  if whole.isEmpty && fraction.isEmpty then none
  else
    match exponent? rest with
    | some e => Binary64.ofDecimal? negative (Text.decimal (whole ++ fraction)) (e - fraction.length)
    | none => none

/-- A float.  None if the text is not one; infinities and what is no number have no finite value. -/
def float? (s : String) : Option (Option Binary64) :=
  let text := s.toList
  let unsigned :=
    match text with
    | '+' :: rest => rest
    | _ => text
  let word := String.ofList unsigned
  if word = ".inf" || word = ".Inf" || word = ".INF" then some none
  else if s = "-.inf" || s = "-.Inf" || s = "-.INF" then some none
  else if s = ".nan" || s = ".NaN" || s = ".NAN" then some none
  else
    match text with
    | '-' :: rest => (decimal? true rest).map some
    | _ => (decimal? false unsigned).map some

/-! ## Values -/

/-- The value of an integer, none if it has no value. -/
def ofInteger? (i : Option Int) : Option Value := i.map fun i => .number (.int i)

/-- The value of a float; what is not finite is nothing. -/
def ofFloat : Option Binary64 → Value
  | some x => .number (.float x)
  | none => .null

/-- The value of a plain scalar; none for integers that are too great. -/
def value? (s : String) : Option Value :=
  if s.isEmpty || isNull s then some .null
  else
    match bool? s with
    | some b => some (.bool b)
    | none =>
      match integer? s.toList with
      | some i => ofInteger? i
      | none =>
        if isPadded s.toList then some (.text s)
        else
          match float? s with
          | some x => some (ofFloat x)
          | none => some (.text s)

/-- The value of a scalar with a tag in full: what the tag says, or none; tags of other kinds give
texts. -/
def taggedValue? (tag : String) (s : String) : Option Value :=
  if tag = "tag:yaml.org,2002:bool" then (bool? s).map .bool
  else if tag = "tag:yaml.org,2002:int" then (integer? s.toList).bind ofInteger?
  else if tag = "tag:yaml.org,2002:float" then (float? s).map ofFloat
  else if tag = "tag:yaml.org,2002:null" then (if isNull s then some .null else none)
  else some (.text s)

end TestScribe.Yaml.Plain
