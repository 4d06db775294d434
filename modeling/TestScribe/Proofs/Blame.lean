/-
# The faults of reading

Which faults can be found when a document is brought into the current shape and its testcase is read.  All of them
lie in the document itself; a reference is only looked at when it is called.

* `FailsWith` : what the fault of a step is like if it has one, with a rule for each way to combine steps;
* `SchemaFault.concernsPart` : the faults of the parts of a testcase, such as fields, requests and hooks;
* `SchemaFault.concernsDocument` : the faults that lie in a document itself;
* `Legacy.failsWith_normalize` : the faults of bringing a document into the current shape.
-/
import TestScribe.Proofs.Outcome
import TestScribe.Testcase.Schema

namespace TestScribe

/-! ## Faults of pure steps -/

/-- If a step fails, its fault has `P`. -/
def FailsWith {ε α : Type} (P : ε → Prop) (x : Except ε α) : Prop := ∀ e, x = .error e → P e

section FailsWith

variable {ε α β : Type} {P : ε → Prop}

@[simp] theorem failsWith_ok (a : α) : FailsWith P (.ok a : Except ε α) := nofun

@[simp] theorem failsWith_error {e : ε} : FailsWith P (.error e : Except ε α) ↔ P e := by
  simp [FailsWith]

namespace FailsWith

/-- What both steps fail with, they fail with one after the other. -/
theorem bind {x : Except ε α} {f : α → Except ε β} (hx : FailsWith P x) (hf : ∀ a, FailsWith P (f a)) :
    FailsWith P (x >>= f) := by
  cases x with
  | ok a => exact hf a
  | error e => exact failsWith_error.2 (hx e rfl)

theorem map {x : Except ε α} (hx : FailsWith P x) (f : α → β) : FailsWith P (x.map f) := by
  cases x with
  | ok a => exact failsWith_ok (f a)
  | error e => exact failsWith_error.2 (hx e rfl)

/-- What every element fails with, the list fails with. -/
theorem mapM {f : α → Except ε β} {as : List α} (h : ∀ a ∈ as, FailsWith P (f a)) : FailsWith P (as.mapM f) := by
  induction as with
  | nil => exact failsWith_ok _
  | cons a as ih =>
    rw [List.forall_mem_cons] at h
    rw [List.mapM_cons]
    exact h.1.bind fun b => (ih h.2).bind fun bs => failsWith_ok _

theorem mono {Q : ε → Prop} {x : Except ε α} (hx : FailsWith P x) (h : ∀ e, P e → Q e) : FailsWith Q x :=
  fun e he => h e (hx e he)

end FailsWith

end FailsWith

/-! ## Faults of a document -/

/-- The faults of the parts of a testcase, such as its fields, requests and hooks. -/
@[simp] def SchemaFault.concernsPart : SchemaFault → Bool
  | .variablesItem _ | .variablesComputed _ | .badVariables _ => true
  | .validator _ _ | .field _ _ _ | .hook _ _ | .hooks _ _ => true
  | .configSkip _ | .configParameters _ | .configMark _ => true
  | .badStep (.mapping _) | .stepReference _ _ => true
  | .request _ _ | .requestMethod _ _ | .requestTimeout _ _ => true
  | _ => false

/-- The faults that lie in a document itself and not in what it calls. -/
@[simp] def SchemaFault.concernsDocument : SchemaFault → Bool
  | .unresolved _ _ => false
  | .referenceNotMapping _ _ => false
  | _ => true

/-- A fault in a part is one in the document. -/
theorem SchemaFault.concernsDocument_of_concernsPart {e : SchemaFault} (h : e.concernsPart = true) :
    e.concernsDocument = true := by
  cases e with
  | unresolved step reference => cases h
  | referenceNotMapping step path => cases h
  | _ => rfl

/-! ## Reading the parts of a testcase -/

section Fields

variable (place : Place) (key : String) (m : Mapping)

/-- A required text may be missing or no text. -/
theorem Field.failsWith_text : FailsWith (·.concernsPart) (Field.text place key m) := by
  unfold Field.text
  split <;> simp

/-- An optional text may be no text. -/
theorem Field.failsWith_text? : FailsWith (·.concernsPart) (Field.text? place key m) := by
  unfold Field.text?
  split <;> simp

/-- An optional truth value may be something else. -/
theorem Field.failsWith_bool? : FailsWith (·.concernsPart) (Field.bool? place key m) := by
  unfold Field.bool?
  split <;> simp

/-- An optional mapping may be something else. -/
theorem Field.failsWith_mapping? : FailsWith (·.concernsPart) (Field.mapping? place key m) := by
  unfold Field.mapping?
  split <;> simp

/-- An optional list of texts may be no list, or have other items. -/
theorem Field.failsWith_texts? : FailsWith (·.concernsPart) (Field.texts? place key m) := by
  unfold Field.texts?
  split
  · refine FailsWith.map (.mapM fun v _ => ?_) some
    unfold Field.item
    split <;> simp
  · simp
  · exact failsWith_ok _

end Fields

/-- Bindings may be neither a mapping nor a list of single bindings. -/
theorem Legacy.failsWith_bindings (v : Value) : FailsWith (·.concernsPart) (Legacy.bindings v) := by
  have hmerge : ∀ (items : List Value) (done : Mapping), FailsWith (·.concernsPart) (mergeVariables done items) := by
    intro items
    induction items with
    | nil => exact failsWith_ok
    | cons item rest ih =>
      intro done
      cases item with
      | mapping m =>
        rcases m with _ | ⟨⟨name, v⟩, _ | ⟨_, _⟩⟩
        · exact failsWith_error.2 rfl
        · exact ih _
        · exact failsWith_error.2 rfl
      | null | bool | number | text | list => exact failsWith_error.2 rfl
  unfold bindings
  split
  · exact failsWith_ok _
  · exact failsWith_ok _
  · exact hmerge _ _
  · simp
  · simp

/-- A configuration fails for one of its fields. -/
theorem Config.failsWith_ofMapping (m : Mapping) (source : Path) :
    FailsWith (·.concernsPart) (Config.ofMapping m source) := by
  have hskip : ∀ o, FailsWith (·.concernsPart) (skipOf o) := by
    intro o
    unfold skipOf
    split <;> simp
  have hparameters : ∀ o, FailsWith (·.concernsPart) (parametersOf o) := by
    intro o
    unfold parametersOf
    split <;> simp
  have hmarks : FailsWith (·.concernsPart) (marksOf m) := by
    refine .bind (Field.failsWith_texts? _ _ _) fun marks => ?_
    split <;> simp
  exact .bind (Field.failsWith_text _ _ _) fun _ => .bind (Legacy.failsWith_bindings _) fun _ =>
    .bind (hskip _) fun _ => .bind (hparameters _) fun _ => .bind hmarks fun _ =>
    .bind (Field.failsWith_text? _ _ _) fun _ => .bind (Field.failsWith_bool? _ _ _) fun _ =>
    .bind (Field.failsWith_texts? _ _ _) fun _ => failsWith_ok _

/-- A request fails for its shape or for one of its fields. -/
theorem Request.failsWith_ofValue (place : Place) (v : Value) :
    FailsWith (·.concernsPart) (Request.ofValue place v) := by
  have hmethod : ∀ m, FailsWith (·.concernsPart) (methodOf place m) := by
    intro m
    refine .bind (Field.failsWith_text _ _ _) fun name => ?_
    dsimp only
    split <;> simp
  have htimeout : ∀ o, FailsWith (·.concernsPart) (timeoutOf place o) := by
    intro o
    unfold timeoutOf
    split <;> simp
  unfold ofValue
  split
  · exact .bind (hmethod _) fun _ => .bind (htimeout _) fun _ => .bind (Field.failsWith_text _ _ _) fun _ =>
      .bind (Field.failsWith_mapping? _ _ _) fun _ => .bind (Field.failsWith_mapping? _ _ _) fun _ =>
      .bind (Field.failsWith_mapping? _ _ _) fun _ => .bind (Field.failsWith_bool? _ _ _) fun _ =>
      .bind (Field.failsWith_bool? _ _ _) fun _ => .bind (Field.failsWith_mapping? _ _ _) fun _ => failsWith_ok _
  · simp

/-- Hooks fail for the shape of one of them. -/
theorem Hook.failsWith_listOf (time : HookTime) (o : Option Value) :
    FailsWith (·.concernsPart) (Hook.listOf time o) := by
  unfold listOf
  split
  · exact failsWith_ok _
  · refine FailsWith.map (.mapM fun v _ => ?_) some
    unfold ofValue
    split <;> simp
  · simp

/-- A check fails for its own shape. -/
theorem Validator.failsWith_ofValue (v : Value) : FailsWith (·.concernsPart) (Validator.ofValue v) := by
  unfold ofValue
  split
  · next m =>
    cases ofMapping m <;> simp [Except.mapError]
  · simp

namespace Step

/-- A step that does nothing is named whole in its fault, and is a mapping. -/
theorem failsWith_actionOf (place : Place) (m : Mapping) : FailsWith (·.concernsPart) (actionOf place m) := by
  unfold actionOf
  dsimp only
  split
  case h_3 => exact (Request.failsWith_ofValue _ _).map _
  all_goals
    split
    · split <;> simp
    · simp
    · simp

/-- The variables of a step may not be bindings. -/
theorem failsWith_variablesOf (o : Option Value) : FailsWith (·.concernsPart) (variablesOf o) := by
  unfold variablesOf
  split
  · exact failsWith_ok _
  · exact (Legacy.failsWith_bindings _).map _

end Step

/-! ## Bringing a document into the current shape -/

namespace Legacy

/-- An old expression fails for its brackets. -/
theorem failsWith_modernize (raw : String) :
    FailsWith (·.concernsDocument) (Expression.modernize raw) := by
  unfold Expression.modernize
  split <;> simp

/-- Old extractors fail for their shape or for one of their expressions. -/
theorem failsWith_extractors (v : Value) : FailsWith (·.concernsDocument) (extractors v) := by
  have hmerge : ∀ (items : List Value) (done : Mapping),
      FailsWith (·.concernsDocument) (mergeExtractors done items) := by
    intro items
    induction items with
    | nil => exact fun done => failsWith_ok _
    | cons item rest ih =>
      intro done
      cases item with
      | mapping m => exact ih _
      | null | bool | number | text | list => exact failsWith_error.2 rfl
  have hextractor : ∀ merged : Mapping,
      FailsWith (·.concernsDocument) (merged.mapM extractor) := by
    refine fun merged => .mapM fun entry _ => ?_
    unfold extractor
    split
    · split
      · exact failsWith_ok _
      · exact (failsWith_modernize _).map _
    · simp
  cases v with
  | mapping m => exact .bind (failsWith_ok _) hextractor
  | list items => exact .bind (hmerge _ _) hextractor
  | null | bool | number | text => exact failsWith_error.2 rfl

/-- Old checks fail for their shape or for one of their expressions. -/
theorem failsWith_stepValidators (v : Value) :
    FailsWith (·.concernsDocument) (stepValidators v) := by
  have hvalidator : ∀ v, FailsWith (·.concernsDocument) (validator v) := by
    intro v
    unfold validator
    split
    · split
      · split
        · exact (failsWith_modernize _).map _
        · exact failsWith_ok _
      · split
        · exact (failsWith_modernize _).map _
        · exact failsWith_ok _
    · exact failsWith_ok _
  unfold stepValidators
  split
  · exact FailsWith.map (.mapM fun v _ => hvalidator v) _
  · simp

/-- What is attached to a step fails in one of its parts. -/
theorem failsWith_attachments (step : Mapping) :
    FailsWith (·.concernsDocument) (attachments step) := by
  have hconverted : ∀ {key : String} {convert : Value → Except SchemaFault Value},
      (∀ v, FailsWith (·.concernsDocument) (convert v)) →
      FailsWith (·.concernsDocument) (convertedEntry key convert step) := by
    intro key convert hconvert
    unfold convertedEntry
    split
    · exact failsWith_ok _
    · exact (hconvert _).map _
  unfold attachments
  split
  · simp
  · exact .bind (hconverted fun v => (failsWith_extractors v).map _) fun _ =>
      .bind (hconverted failsWith_stepValidators) fun _ => failsWith_ok _

/-- A document of the old shape fails in its configuration or in one of its steps. -/
theorem failsWith_current (testcase : Mapping) :
    FailsWith (·.concernsDocument) (current testcase) := by
  have hstep : ∀ v, FailsWith (·.concernsDocument) (step v) := by
    intro v
    unfold step
    split
    · split
      · exact (failsWith_attachments _).map _
      · simp
    · simp
  unfold current
  split
  · simp
  · split
    · exact .bind (.mapM fun v _ => hstep v) fun _ => failsWith_ok _
    · simp
    · simp

/-- A document is brought into the current shape, unless it has a fault itself. -/
theorem failsWith_normalize (raw : Value) :
    FailsWith (·.concernsDocument) (normalize raw) := by
  have hpromote : ∀ api, FailsWith (·.concernsDocument) (promote api) := by
    intro api
    unfold promote
    split
    · simp
    · exact .bind (failsWith_attachments _) fun _ => failsWith_ok _
  unfold normalize
  split
  · dsimp only
    split
    · refine .bind (hpromote _) fun document => ?_
      split
      · simp
      · exact failsWith_current _
      · simp
    · refine .bind (failsWith_ok _) fun document => ?_
      split
      · simp
      · exact failsWith_current _
      · simp
  · simp

end Legacy

end TestScribe
