/-
# UTF-8

Bytes as text.  Bytes that are no UTF-8 are refused with the place where they go wrong: either a
sequence of one to three bytes that begins no character, or a character that the end cuts short.

* `Utf8.decode` : the text of some bytes;
* `Utf8.Fault.message` : the fault in words.
-/

namespace TestScribe.Utf8

/-- Why bytes are no text, with the index of the first byte of the fault. -/
inductive Fault where
  | malformed (length index : Nat)
  | incomplete (index : Nat)
deriving DecidableEq, Repr

/-- The fault in words. -/
def Fault.message : Fault → String
  | .malformed length index =>
    "invalid utf-8 sequence of " ++ toString length ++ " bytes from index " ++ toString index
  | .incomplete index => "incomplete utf-8 byte sequence from index " ++ toString index

/-- Bytes that continue a character. -/
def isTail (b : UInt8) : Bool := 0x80 ≤ b && b ≤ 0xBF

/-- The second bytes that may follow the first byte of a character of three bytes. -/
def secondOfThree (a b : UInt8) : Bool :=
  if a = 0xE0 then 0xA0 ≤ b && b ≤ 0xBF
  else if a = 0xED then 0x80 ≤ b && b ≤ 0x9F
  else isTail b

/-- The second bytes that may follow the first byte of a character of four bytes. -/
def secondOfFour (a b : UInt8) : Bool :=
  if a = 0xF0 then 0x90 ≤ b && b ≤ 0xBF
  else if a = 0xF4 then 0x80 ≤ b && b ≤ 0x8F
  else isTail b

/-- The bits that a continuing byte adds. -/
def tailBits (b : UInt8) : Nat := b.toNat - 0x80

/-- The characters of some bytes, the first of which has the given index; those already read are held
backwards. -/
def decodeFrom (index : Nat) (done : List Char) : List UInt8 → Except Fault (List Char)
  | [] => .ok done.reverse
  | a :: rest =>
    if a < 0x80 then decodeFrom (index + 1) (Char.ofNat a.toNat :: done) rest
    else if 0xC2 ≤ a && a ≤ 0xDF then
      match rest with
      | [] => .error (.incomplete index)
      | b :: rest =>
        if isTail b then
          decodeFrom (index + 2) (Char.ofNat ((a.toNat - 0xC0) * 0x40 + tailBits b) :: done) rest
        else .error (.malformed 1 index)
    else if 0xE0 ≤ a && a ≤ 0xEF then
      match rest with
      | [] => .error (.incomplete index)
      | b :: rest =>
        if secondOfThree a b then
          match rest with
          | [] => .error (.incomplete index)
          | c :: rest =>
            if isTail c then
              decodeFrom (index + 3)
                (Char.ofNat (((a.toNat - 0xE0) * 0x40 + tailBits b) * 0x40 + tailBits c) :: done) rest
            else .error (.malformed 2 index)
        else .error (.malformed 1 index)
    else if 0xF0 ≤ a && a ≤ 0xF4 then
      match rest with
      | [] => .error (.incomplete index)
      | b :: rest =>
        if secondOfFour a b then
          match rest with
          | [] => .error (.incomplete index)
          | c :: rest =>
            if isTail c then
              match rest with
              | [] => .error (.incomplete index)
              | d :: rest =>
                if isTail d then
                  decodeFrom (index + 4)
                    (Char.ofNat ((((a.toNat - 0xF0) * 0x40 + tailBits b) * 0x40 + tailBits c) * 0x40
                      + tailBits d) :: done) rest
                else .error (.malformed 3 index)
            else .error (.malformed 2 index)
        else .error (.malformed 1 index)
    else .error (.malformed 1 index)

/-- The text of some bytes. -/
def decode (bytes : List UInt8) : Except Fault String :=
  (decodeFrom 0 [] bytes).map String.ofList

end TestScribe.Utf8
