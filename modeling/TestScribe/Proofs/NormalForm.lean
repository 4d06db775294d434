/-
# What normalizing establishes

A normalized document has a config and a list of steps and nothing else.  Every step is named, is either a
request or a reference, has none but the known keys, and has its extractors and validators in the shapes in which
the testcase is read.  So whatever fault is found when the testcase is read, it is none about these shapes.

* `Legacy.IsNormalStep`, `Legacy.IsNormal` : steps and documents in the current shape;
* `Legacy.isNormal_of_normalize` : what normalizing gives;
* `SchemaFault.concernsShape` : the faults of documents that are not in this shape;
* `ShapeSafe` : a step of reading that has none of these faults;
* `Testcase.failsWith_ofDocument` : the faults of reading a normalized document;
* `normalize_establishes_shape` : a normalized document is read without such a fault.
-/
import TestScribe.Proofs.Blame
import TestScribe.Proofs.Renormalizing

namespace TestScribe

namespace Legacy

open Mapping

/-! ## The current shape -/

/-- A step in the current shape. -/
structure IsNormalStep (m : Mapping) : Prop where
  nodup : (keys m).Nodup
  known : ∀ key ∈ keys m, key ∈ ["request", "testcase"] ++ attachmentKeys
  named : has "name" m = true
  acts : has "request" m = !has "testcase" m
  extract : ∀ v, get? "extract" m = some v →
    ∃ rules, v = .mapping rules ∧ ∀ rule ∈ rules, ∃ raw, rule.2 = .text raw
  validate : ∀ v, get? "validate" m = some v → ∃ validators, v = .list validators

/-- A document in the current shape. -/
structure IsNormal (d : Mapping) : Prop where
  keys_eq : keys d = ["config", "teststeps"]
  config : ∃ m, get? "config" d = some (.mapping m)
  steps : ∃ vs, get? "teststeps" d = some (.list vs) ∧ ∀ v ∈ vs, ∃ m, v = .mapping m ∧ IsNormalStep m

/-! ## Keys -/

theorem keys_append (m n : Mapping) : keys (m ++ n) = keys m ++ keys n := List.map_append

theorem keys_entriesOf_sublist (ks : List String) (m : Mapping) : (keys (entriesOf ks m)).Sublist ks := by
  induction ks with
  | nil => exact .slnil
  | cons key ks ih =>
    rw [entriesOf, List.filterMap_cons]
    cases get? key m with
    | none => exact ih.cons key
    | some v => exact ih.cons_cons key

theorem keys_convertedEntry_sublist {key : String} {convert : Value → Except SchemaFault Value}
    {m entry : Mapping} (h : convertedEntry key convert m = .ok entry) : (keys entry).Sublist [key] := by
  rw [convertedEntry] at h
  split at h
  · cases h
    exact List.nil_sublist _
  · obtain ⟨w, -, rfl⟩ := map_eq_ok.1 h
    exact List.Sublist.refl _

/-- Attachments have their keys in one order. -/
theorem keys_attachments_sublist {step attached : Mapping} (h : attachments step = .ok attached) :
    (keys attached).Sublist attachmentKeys := by
  obtain ⟨name, extract, validate, -, hextract, hvalidate, rfl⟩ := attachments_eq_ok.1 h
  rw [attachedTo, keys_append, keys_append, keys_append]
  have hfirst := (keys_entriesOf_sublist ["variables", "setup_hooks", "teardown_hooks"] step).cons_cons "name"
  exact ((hfirst.append (keys_convertedEntry_sublist hextract)).append (keys_entriesOf_sublist ["export"] step)).append
    (keys_convertedEntry_sublist hvalidate)

/-! ## Steps -/

/-- Extractors become a mapping to texts. -/
theorem exists_rules_of_extractors {v w : Value} (h : (extractors v).map Value.mapping = .ok w) :
    ∃ rules, w = .mapping rules ∧ ∀ rule ∈ rules, ∃ raw, rule.2 = .text raw := by
  obtain ⟨converted, hconverted, rfl⟩ := map_eq_ok.1 h
  rw [extractors_eq, bind_eq_ok] at hconverted
  obtain ⟨m, -, hmapM⟩ := hconverted
  refine ⟨converted, rfl, fun rule hrule => ?_⟩
  obtain ⟨⟨name, raw⟩, -, hextractor⟩ := exists_of_mem_mapM hmapM hrule
  cases raw with
  | text raw =>
    rw [extractor] at hextractor
    split at hextractor
    · cases hextractor
      exact ⟨raw, rfl⟩
    · obtain ⟨e, -, rfl⟩ := map_eq_ok.1 hextractor
      exact ⟨e, rfl⟩
  | null | bool | number | list | mapping => cases hextractor

/-- Checks become a list. -/
theorem exists_list_of_stepValidators {v w : Value} (h : stepValidators v = .ok w) :
    ∃ validators, w = .list validators := by
  cases v with
  | list vs =>
    obtain ⟨ws, -, rfl⟩ := map_eq_ok.1 h
    exact ⟨ws, rfl⟩
  | null | bool | number | text | mapping => cases h

/-- A converted step is in the current shape. -/
theorem isNormalStep_of_step {v w : Value} (h : step v = .ok w) : ∃ m, w = .mapping m ∧ IsNormalStep m := by
  obtain ⟨m, ⟨key, value⟩, attached, rfl, haction, hattached, rfl⟩ := step_eq_ok.1 h
  refine ⟨_, rfl, ?_⟩
  have hkey : key = "request" ∨ key = "testcase" := action?_key haction
  have hkeys : (keys ((key, value) :: attached)).Sublist (key :: attachmentKeys) :=
    (keys_attachments_sublist hattached).cons_cons key
  have hget : ∀ other ∈ attachmentKeys, get? other ((key, value) :: attached) = get? other attached := by
    intro other hother
    refine if_neg ?_
    rintro rfl
    rcases hkey with rfl | rfl <;> exact absurd hother (by decide)
  obtain ⟨name, extract, validate, -, hextract, hvalidate, hattachedTo⟩ := attachments_eq_ok.1 hattached
  refine ⟨?_, ?_, ?_, ?_, ?_, ?_⟩
  · refine hkeys.nodup ?_
    rcases hkey with rfl | rfl <;> decide
  · intro other hother
    rcases List.mem_cons.1 (hkeys.subset hother) with rfl | hother
    · rcases hkey with rfl | rfl <;> decide
    · exact List.mem_append_right _ hother
  · rw [has, hget _ (by decide), ← hattachedTo]
    rfl
  · have hrequest := get?_attachments_of_notMem hattached (show "request" ∉ attachmentKeys by decide)
    have htestcase := get?_attachments_of_notMem hattached (show "testcase" ∉ attachmentKeys by decide)
    rcases hkey with rfl | rfl <;> simp [has, get?, hrequest, htestcase]
  · intro w hw
    rw [hget _ (by decide), ← hattachedTo, get?_extract_attachedTo hvalidate] at hw
    obtain ⟨v, hv⟩ := exists_of_get?_convertedEntry hextract hw
    exact exists_rules_of_extractors hv
  · intro w hw
    rw [hget _ (by decide), ← hattachedTo, get?_validate_attachedTo hextract] at hw
    obtain ⟨v, hv⟩ := exists_of_get?_convertedEntry hvalidate hw
    exact exists_list_of_stepValidators hv

/-- A document that was brought into the current shape has it. -/
theorem isNormal_of_normalize {v : Value} {d : Mapping} (h : normalize v = .ok d) : IsNormal d := by
  obtain ⟨-, config, raw, steps, -, hsteps, rfl, -⟩ := exists_steps_of_normalize h
  refine ⟨rfl, ⟨config, rfl⟩, steps, rfl, fun w hw => ?_⟩
  obtain ⟨v, -, hv⟩ := exists_of_mem_mapM hsteps hw
  exact isNormalStep_of_step hv

end Legacy

/-! ## Faults of the shape -/

/-- The faults of a document that lacks its config or its steps, of a step that is no mapping, and of extractors
and validators in a shape that is not read. -/
@[simp] def SchemaFault.concernsShape : SchemaFault → Bool
  | .missingConfig => true
  | .missingSteps => true
  | .badStep (.mapping _) => false
  | .badStep _ => true
  | .stepExtract _ _ => true
  | .stepExtractor _ _ _ => true
  | .stepValidate _ _ => true
  | _ => false

/-- If a step of reading fails, it is not for the shape. -/
def ShapeSafe {α : Type} (x : Except SchemaFault α) : Prop := ∀ e, x = .error e → e.concernsShape = false

/-! ## Reading without such faults -/

open Mapping

namespace Step

variable {m : Mapping} (h : Legacy.IsNormalStep m) (place : Place)

include h

theorem failsWith_extractOf : FailsWith (·.concernsPart) (extractOf place (get? "extract" m)) := by
  cases hget : get? "extract" m with
  | none => exact failsWith_ok _
  | some v =>
    obtain ⟨rules, rfl, htexts⟩ := h.extract v hget
    refine FailsWith.map (.mapM fun rule hrule => ?_) some
    obtain ⟨raw, hraw⟩ := htexts rule hrule
    obtain ⟨name, v⟩ := rule
    obtain rfl : v = .text raw := hraw
    exact failsWith_ok _

theorem failsWith_validateOf : FailsWith (·.concernsPart) (validateOf place (get? "validate" m)) := by
  cases hget : get? "validate" m with
  | none => exact failsWith_ok _
  | some v =>
    obtain ⟨validators, rfl⟩ := h.validate v hget
    exact FailsWith.map (.mapM fun v _ => Validator.failsWith_ofValue v) some

/-- A step of this shape fails for one of its parts. -/
theorem failsWith_ofValue : FailsWith (·.concernsPart) (ofValue (.mapping m)) :=
  .bind (Field.failsWith_text _ _ _) fun _ => .bind (failsWith_actionOf _ _) fun _ =>
    .bind (failsWith_variablesOf _) fun _ => .bind (failsWith_extractOf h _) fun _ =>
    .bind (failsWith_validateOf h _) fun _ => .bind (Hook.failsWith_listOf _ _) fun _ =>
    .bind (Hook.failsWith_listOf _ _) fun _ => .bind (Field.failsWith_texts? _ _ _) fun _ => failsWith_ok _

end Step

/-- The testcase of a document in the current shape is read, unless a part of it has a fault. -/
theorem Testcase.failsWith_ofDocument {d : Mapping} (h : Legacy.IsNormal d) (source : Path) :
    FailsWith (·.concernsPart) (Testcase.ofDocument d source) := by
  obtain ⟨config, hconfig⟩ := h.config
  obtain ⟨vs, hsteps, hnormal⟩ := h.steps
  simp only [ofDocument, hconfig, hsteps]
  refine .bind (Config.failsWith_ofMapping _ _) fun config => .bind (.mapM fun v hv => ?_) fun _ => failsWith_ok _
  obtain ⟨m, rfl, hm⟩ := hnormal v hv
  exact Step.failsWith_ofValue hm

theorem SchemaFault.concernsShape_of_concernsPart {e : SchemaFault} (h : e.concernsPart = true) :
    e.concernsShape = false := by
  cases e with
  | missingConfig | missingSteps | stepExtract | stepExtractor | stepValidate => cases h
  | badStep v =>
    cases v with
    | mapping m => rfl
    | null | bool | number | text | list => cases h
  | _ => rfl

theorem Testcase.shapeSafe_ofDocument {d : Mapping} (h : Legacy.IsNormal d) (source : Path) :
    ShapeSafe (Testcase.ofDocument d source) :=
  (Testcase.failsWith_ofDocument h source).mono fun _ => SchemaFault.concernsShape_of_concernsPart

/-- **What reading relies on.**  A normalized document is in the current shape, so it is never refused for its
shape when its testcase is read. -/
theorem normalize_establishes_shape {raw : Value} {d : Mapping} (h : Legacy.normalize raw = .ok d) :
    Legacy.IsNormal d ∧ ∀ source e, Testcase.ofDocument d source = .error e → e.concernsShape = false := by
  have hnormal := Legacy.isNormal_of_normalize h
  exact ⟨hnormal, fun source => Testcase.shapeSafe_ofDocument hnormal source⟩

/-- A testcase of an older shape whose request lacks its method. -/
theorem normalize_establishes_shape_referring :
    let d := Legacy.referredTestcase "body.items[0].\"X-Id\""
    let e := SchemaFault.field (.stepNamed "item") "method" .missing
    Legacy.normalize (.mapping (Legacy.referringTestcase "content.items.0.X-Id")) = .ok d ∧
      Testcase.ofDocument d (.ofString "/p/a.json") = .error e ∧
      Legacy.IsNormal d ∧ e.concernsShape = false := by
  intro d e
  have hnormalize : Legacy.normalize (.mapping (Legacy.referringTestcase "content.items.0.X-Id")) = .ok d := rfl
  have hread : Testcase.ofDocument d (.ofString "/p/a.json") = .error e := rfl
  obtain ⟨hnormal, hfault⟩ := normalize_establishes_shape hnormalize
  exact ⟨hnormalize, hread, hnormal, hfault _ e hread⟩

end TestScribe
