/-
# Two notations for a validator

A validator is written as a mapping with a field for each of its parts, or as a comparator with a list of the
other parts.  Both are converted and read by rules of their own, which come to the same validator or to none,
whatever values the parts are and whatever the comparator is called.

* `Check` : the parts of a validator as they are written;
* `Check.Writes` : the values that write them, in either notation;
* `Check.Means` : the validator that they make up, said without regard to the notation;
* `notations_agree` : both notations lead to this validator.
-/
import TestScribe.Proofs.Recasting
import TestScribe.Validator

namespace TestScribe

open Mapping

/-! ## Parts and notations -/

/-- The parts of a validator as they are written. -/
structure Check where
  comparator : String
  check : Value
  expected : Value
  message : Option Value

namespace Check

/-- The notation with a field for each part. -/
def inFields (c : Check) : Value :=
  .mapping ([("check", c.check), ("assert", .text c.comparator), ("expect", c.expected)]
    ++ (c.message.map ("message", ·)).toList)

/-- The notation with a list of the parts behind the comparator. -/
def inList (c : Check) : Value :=
  .mapping [(c.comparator, .list (c.check :: c.expected :: c.message.toList))]

/-- A value writes the parts: the order of the fields and other fields do not matter. -/
inductive Writes (c : Check) : Value → Prop
  | fields {m : Mapping} (hcheck : get? "check" m = some c.check)
      (hassert : get? "assert" m = some (.text c.comparator)) (hexpect : get? "expect" m = some c.expected)
      (hmessage : get? "message" m = c.message) : Writes c (.mapping m)
  | list : Writes c c.inList

/-- The validator that the parts make up: the check is a text in the current syntax, the comparator has its long
name, which must be an identifier, and the message is a text. -/
structure Means (c : Check) (x : Validator) : Prop where
  check : ∃ raw, c.check = .text raw ∧ Expression.modernize raw = .ok x.check
  method : x.method = Comparator.longName c.comparator
  named : Literal.isIdentifier x.method = true
  expected : x.expected = c.expected
  message : x.message = Validator.messageOf c.message

theorem writes_inFields (c : Check) : c.Writes c.inFields := by
  obtain ⟨comparator, check, expected, message⟩ := c
  cases message with
  | none => exact .fields rfl rfl rfl rfl
  | some v => exact .fields rfl rfl rfl rfl

/-! ## One validator -/

variable {c : Check}

/-- Both notations have the same parts. -/
theorem draft_of_writes {m : Mapping} (h : c.Writes (.mapping m)) :
    Validator.draft m = .ok ⟨c.comparator, c.check, c.expected, Validator.messageOf c.message⟩ := by
  obtain ⟨comparator, check, expected, message⟩ := c
  cases h with
  | fields hcheck hassert hexpect hmessage =>
    simp only [Validator.draft, Validator.comparatorOf, hcheck, hexpect, hassert, hmessage, Option.some_or]
  | list =>
    -- Alone, an entry is not in the notation with fields, also if the comparator is called like a field.
    cases message <;> by_cases hc : comparator = "check" <;>
      simp [Validator.draft, get?, hc, Validator.messageOf]

/-- A check that is a text is converted in the same place of the same notation. -/
theorem validator_of_writes {v : Value} (h : c.Writes v) {raw : String} (hraw : c.check = .text raw) :
    ∃ converted : String → Value, Legacy.validator v = (Expression.modernize raw).map converted ∧
      ∀ e, ({ c with check := .text e } : Check).Writes (converted e) := by
  obtain ⟨comparator, check, expected, message⟩ := c
  obtain rfl : check = .text raw := hraw
  cases h with
  | @fields m hcheck hassert hexpect hmessage =>
    have hhas : has "expect" m := by rw [has, hexpect]; rfl
    refine ⟨_, (Legacy.validator_full hcheck hhas).2, fun e => .fields (get?_set_self _ _ _) ?_ ?_ ?_⟩
    · rwa [get?_set_of_ne (by decide)]
    · rwa [get?_set_of_ne (by decide)]
    · rwa [get?_set_of_ne (by decide)]
  | list => exact ⟨_, Legacy.validator_short comparator raw _, fun e => .list⟩

/-- A check that is no text is left alone. -/
theorem validator_of_writes_of_text?_eq_none {v : Value} (h : c.Writes v) (hcheck : c.check.text? = none) :
    Legacy.validator v = .ok v := by
  refine Legacy.validator_of_check?_eq_none ?_
  obtain ⟨comparator, check, expected, message⟩ := c
  cases h with
  | fields hfield _ hexpect _ => simp [Legacy.check?, has, hfield, hexpect, hcheck]
  | list =>
    rw [inList, Legacy.check?, Legacy.not_full_single]
    cases check <;> simp_all [Legacy.shortCheck?, Value.text?]

/-- What is read, in either notation, if the check needs no conversion any more. -/
theorem ofValue_eq_ok_iff {v : Value} (h : c.Writes v) {x : Validator} :
    Validator.ofValue v = .ok x ↔ c.check = .text x.check ∧ x.method = Comparator.longName c.comparator ∧
      Literal.isIdentifier x.method = true ∧ x.expected = c.expected ∧
      x.message = Validator.messageOf c.message := by
  obtain ⟨m, rfl⟩ : ∃ m, v = .mapping m := by cases h <;> exact ⟨_, rfl⟩
  have hofMapping : Validator.ofMapping m
      = Validator.ofDraft ⟨c.comparator, c.check, c.expected, Validator.messageOf c.message⟩ := by
    rw [Validator.ofMapping, draft_of_writes h]
    rfl
  rw [Validator.ofValue, hofMapping]
  obtain ⟨method, check, expected, message⟩ := x
  cases hcheck : c.check with
  | text raw =>
    simp only [Validator.ofDraft]
    split
    · next hname =>
      simp only [Except.mapError, Except.ok.injEq, Validator.mk.injEq, Value.text.injEq]
      constructor
      · rintro ⟨rfl, rfl, rfl, rfl⟩
        exact ⟨rfl, rfl, hname, rfl, rfl⟩
      · rintro ⟨rfl, rfl, -, rfl, rfl⟩
        exact ⟨rfl, rfl, rfl, rfl⟩
    · next hname =>
      refine ⟨nofun, ?_⟩
      rintro ⟨-, rfl, hname', -⟩
      exact absurd hname' hname
  | null | bool | number | list | mapping => exact ⟨nofun, fun h => nomatch h.1⟩

/-- A value that writes the parts is converted and read as the validator that they make up. -/
theorem read_eq_ok_iff {v : Value} (h : c.Writes v) {x : Validator} :
    (Legacy.validator v >>= Validator.ofValue) = .ok x ↔ c.Means x := by
  cases htext : c.check.text? with
  | none =>
    rw [validator_of_writes_of_text?_eq_none h htext]
    refine (ofValue_eq_ok_iff h).trans ⟨fun hread => ?_, fun hmeans => ?_⟩
    · rw [hread.1] at htext
      cases htext
    · obtain ⟨raw, hraw, -⟩ := hmeans.check
      rw [hraw] at htext
      cases htext
  | some raw =>
    have hraw : c.check = .text raw := by
      cases hcheck : c.check <;> rw [hcheck] at htext <;> cases htext
      rfl
    obtain ⟨converted, hconverted, hwrites⟩ := validator_of_writes h hraw
    rw [hconverted, bind_eq_ok]
    constructor
    · rintro ⟨w, hw, hread⟩
      obtain ⟨e, he, rfl⟩ := map_eq_ok.1 hw
      obtain ⟨hcheck, hmethod, hnamed, hexpected, hmessage⟩ := (ofValue_eq_ok_iff (hwrites e)).1 hread
      obtain rfl : e = x.check := Value.text.inj hcheck
      exact ⟨⟨raw, hraw, he⟩, hmethod, hnamed, hexpected, hmessage⟩
    · rintro ⟨⟨raw', hraw', he⟩, hmethod, hnamed, hexpected, hmessage⟩
      obtain rfl : raw = raw' := Value.text.inj (hraw.symm.trans hraw')
      exact ⟨converted x.check, map_eq_ok.2 ⟨_, he, rfl⟩,
        (ofValue_eq_ok_iff (hwrites x.check)).2 ⟨rfl, hmethod, hnamed, hexpected, hmessage⟩⟩

end Check

/-! ## Lists of validators -/

/-- The validators that some values write, after their checks have been converted. -/
def Validator.readAll (vs : List Value) : Except SchemaFault (List Validator) :=
  Legacy.validators vs >>= fun converted => converted.mapM Validator.ofValue

/-- All conversions come before the first reading, but only faults can tell. -/
theorem Validator.readAll_eq_ok_iff {vs : List Value} {xs : List Validator} :
    readAll vs = .ok xs ↔
      List.Forall₂ (fun v x => (Legacy.validator v >>= Validator.ofValue) = .ok x) vs xs := by
  rw [readAll, bind_eq_ok, ← mapM_eq_ok]
  exact mapM_bind_eq_ok.symm

theorem Check.readAll_eq_ok_iff {checks : List Check} {vs : List Value} (h : List.Forall₂ Writes checks vs)
    (xs : List Validator) : Validator.readAll vs = .ok xs ↔ List.Forall₂ Means checks xs := by
  rw [Validator.readAll_eq_ok_iff]
  induction h generalizing xs with
  | nil => rw [List.forall₂_nil_left_iff, List.forall₂_nil_left_iff]
  | cons hwrites _ ih =>
    cases xs with
    | nil => exact ⟨nofun, nofun⟩
    | cons x xs => rw [List.forall₂_cons, List.forall₂_cons, read_eq_ok_iff hwrites, ih]

/-- **Both notations agree.**  Converted and read, any validators come out the same in one notation as in the
other, or both fail.  What comes out of either notation, and of a mixture of them, are the validators that the
parts make up. -/
theorem notations_agree (checks : List Check) :
    Agree (Validator.readAll (checks.map Check.inFields)) (Validator.readAll (checks.map Check.inList)) ∧
    ∀ vs, List.Forall₂ Check.Writes checks vs →
      ∀ xs, Validator.readAll vs = .ok xs ↔ List.Forall₂ Check.Means checks xs := by
  have hfields : List.Forall₂ Check.Writes checks (checks.map Check.inFields) :=
    List.forall₂_map_right_iff.2 (List.forall₂_same.2 fun c _ => c.writes_inFields)
  have hlist : List.Forall₂ Check.Writes checks (checks.map Check.inList) :=
    List.forall₂_map_right_iff.2 (List.forall₂_same.2 fun c _ => .list)
  refine ⟨fun xs => ?_, fun vs => Check.readAll_eq_ok_iff⟩
  rw [Check.readAll_eq_ok_iff hfields, Check.readAll_eq_ok_iff hlist]

/-- Two validators whose comparators are called like fields, one in each notation, with a message that is no text
and a field that is not looked at. -/
theorem notations_agree_fieldNames :
    let checks : List Check :=
      [⟨"check", .text "content.0.id", .null, some (.bool true)⟩, ⟨"expect", .text "status_code", .list [], none⟩]
    let mixed : List Value :=
      [.mapping [("message", .bool true), ("comparator", .null), ("expect", .null), ("assert", .text "check"),
          ("check", .text "content.0.id")],
        .mapping [("expect", .list [.text "status_code", .list []])]]
    let read : List Validator := [⟨"check", "body[0].id", .null, "true"⟩, ⟨"expect", "status_code", .list [], ""⟩]
    List.Forall₂ Check.Writes checks mixed ∧ Validator.readAll mixed = .ok read ∧
      Validator.readAll (checks.map Check.inFields) = .ok read ∧
      Validator.readAll (checks.map Check.inList) = .ok read := by
  intro checks mixed read
  have hwrites : List.Forall₂ Check.Writes checks mixed := .cons (.fields rfl rfl rfl rfl) (.cons .list .nil)
  have hmeans : List.Forall₂ Check.Means checks read :=
    .cons ⟨⟨_, rfl, by decide +kernel⟩, by decide, by decide, rfl, by decide +kernel⟩
      (.cons ⟨⟨_, rfl, by decide +kernel⟩, by decide, by decide, rfl, rfl⟩ .nil)
  obtain ⟨hagree, hread⟩ := notations_agree checks
  have hfields := (hread (checks.map Check.inFields)
    (.cons (Check.writes_inFields _) (.cons (Check.writes_inFields _) .nil)) read).2 hmeans
  exact ⟨hwrites, (hread mixed hwrites read).2 hmeans, hfields, (hagree read).1 hfields⟩

end TestScribe
