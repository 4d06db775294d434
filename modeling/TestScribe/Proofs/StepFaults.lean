/-
# The faults of steps

Most steps of making a module fail only because of what a run is given: a document, a reference in it, the place of
a file or the disk.  What has been made before does not matter to them, and neither do the calls around them.

* `Fault.concernsInput` : the faults of what a run is given;
* `Make.Blames` : what the faults of a step are like, in whatever session, with a rule for each way to combine steps;
* `Make.blames_opened`, `Make.blames_drafted`, `Make.blames_emit` and so on : the steps.
-/
import TestScribe.Proofs.Course
import TestScribe.Proofs.Documents
import TestScribe.Proofs.NormalForm

namespace TestScribe

/-! ## Faults of what a run is given -/

/-- The faults of what a run is given.  The others come of the calls around a step or of what has been made. -/
@[simp] def Fault.concernsInput : Fault → Bool
  | .schema (.unresolved _ _) => false
  | .path (.notGenerated _) => false
  | .collision _ => false
  | .cycle _ => false
  | .tooDeep _ => false
  | _ => true

/-- A fault in the document is one in the input. -/
theorem Fault.concernsInput_of_concernsDocument {e : SchemaFault} (h : e.concernsDocument = true) :
    (Fault.schema e).concernsInput = true := by
  cases e with
  | unresolved step reference => cases h
  | _ => rfl

/-- A file that cannot be loaded is a fault in the input. -/
theorem Fault.concernsInput_of_isLoadFault {e : Fault} (h : e.isLoadFault = true) : e.concernsInput = true := by
  cases e with
  | noFile p => rfl
  | file p fault => rfl
  | _ => cases h

/-- A fault in the input is no collision of identifiers. -/
theorem Fault.category_ne_of_concernsInput {e : Fault} (h : e.concernsInput = true) :
    e.category ≠ .identifierCollision := by
  cases e with
  | collision fault => cases h
  | _ => simp [category]

/-! ## Steps -/

namespace Make

/-- If a step fails, in whatever session, its fault has `P`. -/
def Blames {α : Type} (P : Fault → Prop) (step : Make α) : Prop := ∀ s e t, step s = .error e t → P e

namespace Blames

variable {α β : Type} {P : Fault → Prop} {step : Make α}

theorem pure (a : α) : Blames P (Pure.pure a) := fun _ _ _ h => by cases h

theorem get : Blames P get := fun _ _ _ h => by cases h

theorem throw {e : Fault} (h : P e) : Blames P (throw e : Make α) := by
  intro s e' t hthrow
  cases hthrow
  exact h

/-- What both steps are to blame for, they are to blame for one after the other. -/
theorem bind {f : α → Make β} (h : Blames P step) (hf : ∀ a, Blames P (f a)) : Blames P (step >>= f) := by
  intro s e t hbind
  cases hstep : step s with
  | ok a u =>
    rw [bind_of_ok hstep] at hbind
    exact hf a u e t hbind
  | error e' u =>
    rw [bind_of_error hstep] at hbind
    cases hbind
    exact h s _ _ hstep

/-- A computation in a step is to blame for what it fails with. -/
theorem ofExcept {ε : Type} {fault : ε → Fault} {x : Except ε α} (h : FailsWith (fun e => P (fault e)) x) :
    Blames P (Make.ofExcept fault x) := by
  cases x with
  | ok a => exact pure a
  | error e => exact throw (h e rfl)

/-- The next step may rely on where its value comes from. -/
theorem ofExcept_bind {ε : Type} {fault : ε → Fault} {x : Except ε α} {f : α → Make β}
    (h : FailsWith (fun e => P (fault e)) x) (hf : ∀ a, x = .ok a → Blames P (f a)) :
    Blames P (Make.ofExcept fault x >>= f) := by
  cases x with
  | ok a => exact hf a rfl
  | error e =>
    intro s _ t hthrow
    cases hthrow
    exact h e rfl

theorem findRoot (p : Path) : Blames P (Make.findRoot p) := fun _ _ _ h => by cases h

theorem mono {Q : Fault → Prop} (h : Blames P step) (hPQ : ∀ e, P e → Q e) : Blames Q step :=
  fun s e t hstep => hPQ e (h s e t hstep)

end Blames

/-- A reference fails if there is no such file. -/
theorem blames_reference (source : Path) (raw : String) :
    Blames (·.concernsInput) (reference source raw) := by
  -- Absolute or joined to the root, the path goes through the same last step.
  have hlast : ∀ p : Path, Blames (·.concernsInput) (do
      if (← get).disk.isFile p.normalize then return p.normalize
      else throw (.missing (.reference p.normalize)) : Make Path) := by
    intro p
    refine .bind .get fun s => ?_
    split
    · exact .pure _
    · exact .throw rfl
  simp only [reference, pure_bind]
  split
  · exact hlast _
  · exact .bind (.findRoot source) fun root => hlast _

/-- A call fails if its document is not there, cannot be loaded or is no mapping. -/
theorem blames_opened (source : Path) (step : Step) (raw : String) :
    Blames (·.concernsInput) (opened source step raw) := by
  refine .bind (blames_reference source raw) fun p => .bind .get fun s => .bind (.ofExcept ?_) fun content => ?_
  · intro e he
    rcases Source.isLoadFault_of_load he with hload | rfl
    · exact Fault.concernsInput_of_isLoadFault hload
    · rfl
  · split
    · exact .throw rfl
    · exact .pure _

/-- A path may not be below the root. -/
theorem failsWith_relative (root p : Path) :
    FailsWith (fun e => (Fault.path e).concernsInput) (Naming.relative root p) := by
  unfold Naming.relative
  split <;> simp

/-- There is no dotted name of a path outside of the project. -/
theorem blames_moduleName (p : Path) : Blames (·.concernsInput) (moduleName p) :=
  .bind (.findRoot _) fun root => .ofExcept ((failsWith_relative root _).map _)

/-- A source may be outside of the project. -/
theorem blames_relative (p : Path) : Blames (·.concernsInput) (relative p) :=
  .bind (.findRoot _) fun root => .ofExcept (failsWith_relative root p)

/-- A module has no place if its source is outside of the project. -/
theorem blames_place (source : Path) (outputDirectory : Option Path) :
    Blames (·.concernsInput) (place source outputDirectory) := by
  have htidy : ∀ root stemRoot, FailsWith (fun e => (Fault.path e).concernsInput)
      (Naming.tidy root stemRoot source) := by
    intro root stemRoot
    refine .bind (failsWith_relative stemRoot _) fun below => ?_
    split
    · exact failsWith_ok _
    · exact failsWith_ok _
  have htidied : Blames (·.concernsInput) (tidied source) :=
    .bind (.findRoot _) fun root => .bind (.findRoot _) fun stemRoot => .ofExcept (htidy root stemRoot)
  refine .bind (.bind htidied fun p => .bind .get fun s => .pure _) ?_
  rintro ⟨output, className⟩
  dsimp only
  split
  · exact .pure _
  · exact .pure _

/-- A document that is brought into the current shape is read without further faults than those of its parts. -/
theorem blames_drafted (raw : Value) (source : Path) (outputDirectory : Option Path) :
    Blames (·.concernsInput) (drafted raw source outputDirectory) := by
  have hnormalize := (Legacy.failsWith_normalize raw).mono fun _ => Fault.concernsInput_of_concernsDocument
  refine .ofExcept_bind hnormalize fun document hdocument => ?_
  have hread := (Testcase.failsWith_ofDocument (Legacy.isNormal_of_normalize hdocument) source).mono fun _ he =>
    Fault.concernsInput_of_concernsDocument (SchemaFault.concernsDocument_of_concernsPart he)
  exact .bind (.ofExcept hread) fun testcase => .bind (blames_place source outputDirectory) fun placed => .pure _

/-- A module cannot be written if the disk fails. -/
theorem blames_emit (text : String) (output : Path) :
    Blames (·.concernsInput) (emit text output) := by
  unfold emit
  split
  · exact .throw rfl
  · refine .bind .get fun s => ?_
    intro u e t h
    unfold onDisk at h
    split at h
    · cases h
    · cases h
      rfl

end Make

end TestScribe
