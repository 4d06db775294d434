/-
# Floating-point numbers, exactly

A finite 64-bit floating-point number is a sign, a significand and a power of two.  All arithmetic
here is on natural numbers: a quotient is rounded to the nearest such number, and to the even one of
two equally near.

* `Binary64.ofRatio?` : the number nearest to a quotient;
* `Binary64.mul?`, `Binary64.div?` : the rounded product and quotient of two numbers;
* `Binary64.ofDecimal?` : the number nearest to a decimal.
-/

namespace TestScribe

/-- The number `± significand * 2 ^ exponent`.  The significand has at most 53 bits, and exactly 53 unless
the exponent is the least one. -/
structure Binary64 where
  negative : Bool
  significand : Nat
  exponent : Int
deriving DecidableEq, Repr, Inhabited

namespace Binary64

/-! ## Rounding -/

/-- The least power of two of a significand. -/
def leastExponent : Int := -1074

/-- The greatest power of two of a significand. -/
def greatestExponent : Int := 971

/-- Zero, with the given sign. -/
def zero (negative : Bool) : Binary64 := ⟨negative, 0, leastExponent⟩

/-- The whole number nearest to `num / den`, the even one of two equally near. -/
def nearest (num den : Nat) : Nat :=
  let q := num / den
  let twice := 2 * (num % den)
  if twice < den then q
  else if twice = den then q + q % 2
  else q + 1

/-- The greatest `k` with `2 ^ k ≤ num / den`. -/
def magnitude (num den : Nat) : Int :=
  let k : Int := (num.log2 : Int) - (den.log2 : Int)
  if den * Nat.pow 2 k.toNat ≤ num * Nat.pow 2 (-k).toNat then k else k - 1

/-- The number nearest to `± num / den`, none where that lies beyond the greatest one. -/
def ofRatio? (negative : Bool) (num den : Nat) : Option Binary64 :=
  if num = 0 then some (zero negative)
  else
    let e := max (magnitude num den - 52) leastExponent
    let m := nearest (num * Nat.pow 2 (-e).toNat) (den * Nat.pow 2 e.toNat)
    let (m, e) := if m = Nat.pow 2 53 then (Nat.pow 2 52, e + 1) else (m, e)
    if greatestExponent < e then none
    else if m = 0 then some (zero negative)
    else some ⟨negative, m, e⟩

/-! ## Arithmetic -/

/-- The numerator of a number as a quotient. -/
def num (x : Binary64) : Nat := x.significand * Nat.pow 2 x.exponent.toNat

/-- The denominator of a number as a quotient. -/
def den (x : Binary64) : Nat := Nat.pow 2 (-x.exponent).toNat

/-- The rounded product, none where it is too great. -/
def mul? (x y : Binary64) : Option Binary64 :=
  ofRatio? (x.negative != y.negative) (x.num * y.num) (x.den * y.den)

/-- The rounded quotient by a number that is not zero, none where it is too great. -/
def div? (x y : Binary64) : Option Binary64 :=
  ofRatio? (x.negative != y.negative) (x.num * y.den) (x.den * y.num)

/-- Whether the number is zero, of either sign. -/
def isZero (x : Binary64) : Bool := x.significand == 0

/-- The number with the given sign. -/
def withSign (negative : Bool) (x : Binary64) : Binary64 := { x with negative }

/-! ## Decimals -/

/-- Decimals from this power of ten on exceed every number. -/
def decimalCeiling : Int := 400

/-- Decimals below this power of ten are nearest to zero. -/
def decimalFloor : Int := -400

/-- The number nearest to `± digits * 10 ^ exponent`, none where that lies beyond the greatest one. -/
def ofDecimal? (negative : Bool) (digits : Nat) (exponent : Int) : Option Binary64 :=
  if digits = 0 then some (zero negative)
  else
    let size : Int := (digits.log2 / 3 : Nat)
    if decimalCeiling < exponent then none
    else if exponent + size + 1 < decimalFloor then some (zero negative)
    else ofRatio? negative (digits * Nat.pow 10 exponent.toNat) (Nat.pow 10 (-exponent).toNat)

end Binary64

end TestScribe
