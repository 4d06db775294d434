/-
# Validators

A validator compares a part of a response with an expected value.  Documents write it in two ways: as
a mapping with the fields `check` and `expect`, or as a comparator with a list of its arguments.

* `Comparator.longName` : comparators by one name each;
* `Validator.ofValue` : a validator from either notation.
-/
import TestScribe.Fault
import TestScribe.Literal

namespace TestScribe

/-- The long name of a comparator; names without a known short form stay as they are. -/
def Comparator.longName (name : String) : String :=
  match name with
  | "eq" | "equals" | "equal" => "equal"
  | "lt" | "less_than" => "less_than"
  | "le" | "less_or_equals" => "less_or_equals"
  | "gt" | "greater_than" => "greater_than"
  | "ge" | "greater_or_equals" => "greater_or_equals"
  | "ne" | "not_equal" => "not_equal"
  | "str_eq" | "string_equals" => "string_equals"
  | "len_eq" | "length_equal" => "length_equal"
  | "len_gt" | "length_greater_than" => "length_greater_than"
  | "len_ge" | "length_greater_or_equals" => "length_greater_or_equals"
  | "len_lt" | "length_less_than" => "length_less_than"
  | "len_le" | "length_less_or_equals" => "length_less_or_equals"
  | other => other

/-- A comparison of a part of a response with an expected value. -/
structure Validator where
  method : String
  check : String
  expected : Value
  message : String
deriving DecidableEq, Repr

namespace Validator

/-- The parts of a validator as written, before they are checked. -/
structure Draft where
  comparator : String
  check : Value
  expected : Value
  message : String

/-- The message of a validator: none or null is empty, and what is no text is written as JSON. -/
def messageOf : Option Value → String
  | none => ""
  | some .null => ""
  | some (.text s) => s
  | some v => v.json

/-- The comparator of a mapping with `check` and `expect`: `assert` goes before `comparator`, and
equality is meant where neither is given. -/
def comparatorOf (m : Mapping) : Except ValidatorFault String :=
  match (Mapping.get? "assert" m).or (Mapping.get? "comparator" m) with
  | none => .ok "eq"
  | some (.text s) => .ok s
  | some _ => .error .comparatorNotText

/-- The parts of a validator in either notation. -/
def draft (m : Mapping) : Except ValidatorFault Draft :=
  match Mapping.get? "check" m, Mapping.get? "expect" m with
  | some check, some expected =>
    match comparatorOf m with
    | .ok comparator => .ok ⟨comparator, check, expected, messageOf (Mapping.get? "message" m)⟩
    | .error fault => .error fault
  | _, _ =>
    match m with
    | [(comparator, .list [check, expected])] => .ok ⟨comparator, check, expected, ""⟩
    | [(comparator, .list [check, expected, message])] =>
      .ok ⟨comparator, check, expected, messageOf (some message)⟩
    | [_] => .error .wrongValues
    | _ => .error .unknownShape

/-- The validator of a draft: the check is a text, and the comparator's long name is a name. -/
def ofDraft (d : Draft) : Except ValidatorFault Validator :=
  match d.check with
  | .text check =>
    let method := Comparator.longName d.comparator
    if Literal.isIdentifier method then .ok ⟨method, check, d.expected, d.message⟩
    else .error .comparatorNotName
  | _ => .error .checkNotText

/-- The validator of the entries of a mapping. -/
def ofMapping (m : Mapping) : Except ValidatorFault Validator := draft m >>= ofDraft

/-- The validator that a value writes, in either notation. -/
def ofValue (raw : Value) : Except SchemaFault Validator :=
  match raw with
  | .mapping m => (ofMapping m).mapError (.validator raw)
  | _ => .error (.validator raw .notMapping)

end Validator

end TestScribe
