/-
# Shortest decimals

The decimal with the fewest digits that rounds to a given floating-point number.  Of two such
decimals the nearer one is taken, and a `Tie` says what happens when they are equally near.  The
candidates of a given length are the two neighbours of the number on the grid of decimals of that
length, so the search tries the grids one after the other.

* `shortest` : the digits and the power of ten of that decimal;
* `positional`, `scientific` : the two layouts of a decimal.
-/
import TestScribe.Number.Binary64

namespace TestScribe

/-- Which of two equally near decimals is taken. -/
inductive Tie where
  | toEven
  | up
deriving DecidableEq, Repr

/-- The decimal `digits * 10 ^ exponent`. -/
structure Decimal where
  digits : Nat
  exponent : Int
deriving DecidableEq, Repr

namespace Decimal

/-- The decimal without the zeros at its end, of which there are at most `limit`. -/
def trimZeros (d : Decimal) : (limit : Nat) → Decimal
  | 0 => d
  | limit + 1 =>
    if d.digits % 10 = 0 ∧ d.digits ≠ 0 then
      trimZeros ⟨d.digits / 10, d.exponent + 1⟩ limit
    else d

end Decimal

namespace Binary64

/-! ## The decimals that round to a number -/

/-- Order of `a * 10 ^ i` and `n * 2 ^ j`. -/
def compareScaled (a : Nat) (i : Int) (n : Nat) (j : Int) : Ordering :=
  compare (a * Nat.pow 10 i.toNat * Nat.pow 2 (-j).toNat) (n * Nat.pow 2 j.toNat * Nat.pow 10 (-i).toNat)

/-- Below a power of two the next number lies half as far away. -/
def narrowBelow (x : Binary64) : Bool :=
  x.significand == Nat.pow 2 52 && leastExponent < x.exponent

/-- Whether a decimal rounds to the number: it lies between the midpoints to the two neighbours, or
on one of them when the significand is even. -/
def readsBack (x : Binary64) (d : Decimal) : Bool :=
  let low := if x.narrowBelow then 4 * x.significand - 1 else 4 * x.significand - 2
  let high := 4 * x.significand + 2
  let closed := x.significand % 2 == 0
  let toLow := compareScaled d.digits d.exponent low (x.exponent - 2)
  let toHigh := compareScaled d.digits d.exponent high (x.exponent - 2)
  (toLow == .gt || (closed && toLow == .eq)) && (toHigh == .lt || (closed && toHigh == .eq))

/-! ## The search -/

/-- The least `k` with the number below `10 ^ k`. -/
def scale (x : Binary64) : Int :=
  let shifted := x.num * Nat.pow 10 340 / x.den
  ((Nat.toDigits 10 shifted).length : Int) - 340

/-- The shortest-decimal candidate with the grid `10 ^ exponent`, if one rounds to the number. -/
def onGrid? (tie : Tie) (x : Binary64) (exponent : Int) : Option Decimal :=
  let top := x.num * Nat.pow 10 (-exponent).toNat
  let bottom := x.den * Nat.pow 10 exponent.toNat
  let below : Decimal := ⟨top / bottom, exponent⟩
  let above : Decimal := ⟨top / bottom + 1, exponent⟩
  match x.readsBack below, x.readsBack above with
  | false, false => none
  | true, false => some below
  | false, true => some above
  | true, true =>
    match compare (2 * (top % bottom)) bottom with
    | .lt => some below
    | .gt => some above
    | .eq =>
      match tie with
      | .toEven => if below.digits % 2 = 0 then some below else some above
      | .up => some above

/-- The decimals of at most seventeen digits that round to the number, shortest first. -/
def candidates (tie : Tie) (x : Binary64) : List Decimal :=
  (List.range 17).filterMap fun n => x.onGrid? tie (x.scale - ((n + 1 : Nat) : Int))

/-- The shortest decimal that rounds to the size of a number; failing that, its exact value. -/
def shortest (tie : Tie) (x : Binary64) : Decimal :=
  if x.isZero then ⟨0, 0⟩
  else
    match x.candidates tie with
    | d :: _ => d.trimZeros 17
    | [] => ⟨x.num * Nat.pow 5 (-x.exponent).toNat, min x.exponent 0⟩

end Binary64

/-! ## Layouts -/

namespace Decimal

/-- The digits of a decimal as text. -/
def digitText (d : Decimal) : List Char := Nat.toDigits 10 d.digits

/-- The power of ten of the first digit. -/
def leading (d : Decimal) : Int := d.exponent + (d.digitText.length : Int) - 1

/-- All digits around a point, with at least one digit on either side of it. -/
def positional (d : Decimal) : List Char :=
  let digits := d.digitText
  if 0 ≤ d.exponent then digits ++ List.replicate d.exponent.toNat '0' ++ ['.', '0']
  else
    let places := (-d.exponent).toNat
    if places < digits.length then
      digits.take (digits.length - places) ++ '.' :: digits.drop (digits.length - places)
    else '0' :: '.' :: List.replicate (places - digits.length) '0' ++ digits

/-- One digit, the point and the others if there are any, and the power of ten with its sign. -/
def scientific (d : Decimal) : List Char :=
  let mantissa :=
    match d.digitText with
    | [] => []
    | [digit] => [digit]
    | digit :: rest => digit :: '.' :: rest
  let e := d.leading
  mantissa ++ 'e' :: (if e < 0 then '-' else '+') :: Nat.toDigits 10 e.natAbs

end Decimal

end TestScribe
