/-
# Faults inside a run

Two faults stand for a mistake inside a run and not for one in its inputs: a call finds no module where it has just
made one, and a step still refers to a document by its path when the text of its module is put together.  No run
ends with either of them, because each step leaves behind what the next one relies on.

* `Fault.isInternal` : the two faults;
* `Make.exists_script` : steps without references have a text;
* `Behaves` : a step keeps its promise or fails with another fault, with a rule for each way to combine steps;
* `Make.behaves_resolveSteps` : steps are without references once they are resolved;
* `Make.behaves_testcaseWithin` : a module is there once it has been made, however deep calls are nested.
-/
import TestScribe.Proofs.Callees
import TestScribe.Proofs.StepFaults

namespace TestScribe

/-- The faults that show a mistake inside a run. -/
@[simp] def Fault.isInternal : Fault → Bool
  | .schema (.unresolved _ _) => true
  | .path (.notGenerated _) => true
  | _ => false

/-- A fault in the input is not an internal one. -/
theorem Fault.isInternal_of_concernsInput {e : Fault} (h : e.concernsInput = true) : e.isInternal = false := by
  cases e with
  | schema fault =>
    cases fault with
    | unresolved step reference => cases h
    | _ => rfl
  | path fault =>
    cases fault with
    | notGenerated p => cases h
    | _ => rfl
  | _ => rfl

/-! ## Steps without references -/

/-- A step has a text, unless it refers to a document by its path. -/
theorem Step.exists_chain {step : Step} (h : ¬ step.Refers) : ∃ text, step.chain = .ok text := by
  have hcalls : ∃ calls, step.actionCalls = .ok calls := by
    unfold actionCalls
    cases haction : step.action with
    | request r => exact ⟨_, rfl⟩
    | call target =>
      cases target with
      | made localName => exact ⟨_, rfl⟩
      | path raw => exact absurd ⟨raw, haction⟩ h
  obtain ⟨calls, hcalls⟩ := hcalls
  exact ⟨_, map_eq_ok.2 ⟨_, map_eq_ok.2 ⟨calls, hcalls, rfl⟩, rfl⟩⟩

/-- The module of a testcase can be put together, if none of its steps refers to a document by its path. -/
theorem Make.exists_script {testcase : Testcase} (h : ∀ step ∈ testcase.steps, ¬ step.Refers) (settings : Settings)
    (className : String) (imports : List Import) (below : Path) :
    ∃ script, Make.script settings testcase className imports below = .ok script := by
  have hsteps : ∀ steps : List Step, (∀ step ∈ steps, ¬ step.Refers) → ∃ texts, steps.mapM Step.chain = .ok texts := by
    intro steps
    induction steps with
    | nil => exact fun _ => ⟨[], rfl⟩
    | cons step rest ih =>
      intro h
      rw [List.forall_mem_cons] at h
      obtain ⟨text, htext⟩ := Step.exists_chain h.1
      obtain ⟨texts, htexts⟩ := ih h.2
      exact ⟨text :: texts, mapM_eq_ok.2 (.cons htext (mapM_eq_ok.1 htexts))⟩
  obtain ⟨texts, htexts⟩ := hsteps testcase.steps h
  exact ⟨_, bind_eq_ok.2 ⟨texts, htexts, rfl⟩⟩

/-! ## Steps that keep their promises -/

/-- From the session `s`, a step succeeds with `Q`, or fails with a fault that is not internal. -/
structure Behaves {α : Type} (step : Make α) (s : Session) (Q : α → Session → Prop) : Prop where
  ends : Ends Q (fun e _ => e.isInternal = false) (step s)

namespace Behaves

variable {α β : Type} {step : Make α} {s t : Session} {Q : α → Session → Prop}

theorem ok {a : α} (h : Behaves step s Q) (hstep : step s = .ok a t) : Q a t := by
  obtain ⟨hends⟩ := h
  rw [hstep] at hends
  exact hends

theorem error {e : Fault} (h : Behaves step s Q) (hstep : step s = .error e t) : e.isInternal = false := by
  obtain ⟨hends⟩ := h
  rw [hstep] at hends
  exact hends

theorem pure {a : α} (h : Q a s) : Behaves (Pure.pure a) s Q := ⟨h⟩

theorem throw {e : Fault} (h : e.isInternal = false) : Behaves (throw e) s Q := ⟨h⟩

theorem get : Behaves get s fun a t => t = s ∧ a = s := ⟨rfl, rfl⟩

theorem modify {f : Session → Session} {P : Session → Prop} (h : P (f s)) : Behaves (modify f) s fun _ => P := ⟨h⟩

/-- Steps that behave, behave one after the other. -/
theorem bind {f : α → Make β} {Q' : β → Session → Prop} (h : Behaves step s Q)
    (hf : ∀ a t, Q a t → Behaves (f a) t Q') : Behaves (step >>= f) s Q' := by
  constructor
  cases hstep : step s with
  | ok a t =>
    rw [bind_of_ok hstep]
    exact (hf a t (h.ok hstep)).ends
  | error e t =>
    rw [bind_of_error hstep]
    exact h.error hstep

/-- A step that fails only because of its inputs promises nothing. -/
theorem of_blames (h : Make.Blames (·.concernsInput) step) : Behaves step s fun _ _ => True := by
  constructor
  cases hstep : step s with
  | ok a t => trivial
  | error e t => exact Fault.isInternal_of_concernsInput (h s e t hstep)

/-- What is said of the value alone does not depend on the stack. -/
theorem whileResolving {source : Path} {P : α → Prop}
    (h : Behaves step { s with resolving := s.resolving ++ [source] } fun a _ => P a) :
    Behaves (Make.whileResolving source step) s fun a _ => P a := by
  constructor
  unfold Make.whileResolving
  cases hstep : step { s with resolving := s.resolving ++ [source] } with
  | ok a t => exact h.ok hstep
  | error e t => exact h.error hstep

end Behaves

namespace Make

variable {s : Session}

/-- A testcase without references left compiles, or its fault is in the input. -/
theorem behaves_compile {testcase : Testcase} (h : ∀ step ∈ testcase.steps, ¬ step.Refers) (className : String)
    (imports : List Import) : Behaves (compile testcase className imports) s fun _ _ => True := by
  refine .bind (.of_blames (blames_relative _)) fun below t _ => .bind .get fun u _ _ => ?_
  obtain ⟨script, hscript⟩ := exists_script h u.settings className imports below
  rw [hscript]
  exact .pure trivial

/-- A module that was made is found. -/
theorem behaves_foundAt {output : Path} (h : (s.made? output).isSome) :
    Behaves (foundAt output) s fun _ _ => True := by
  obtain ⟨made, hmade⟩ := Option.isSome_iff_exists.1 h
  refine .bind .get ?_
  rintro _ _ ⟨rfl, rfl⟩
  rw [hmade]
  exact .pure trivial

/-- A collision is no internal fault. -/
theorem behaves_claimClass (output : Path) (className : String) (source : Path) :
    Behaves (claimClass output className source) s fun _ _ => True := by
  refine .bind .get fun u t _ => ?_
  cases u.claim? output.parent className with
  | none => exact ⟨trivial⟩
  | some c =>
    dsimp only
    split
    · exact .pure trivial
    · exact .throw rfl

section Nested

variable {nested : Value → Path → Make Path}
  (hnested : ∀ content p s, Behaves (nested content p) s fun output t => (t.made? output).isSome)

include hnested

/-- A call finds the module that was made for it. -/
theorem behaves_called (source : Path) (step : Step) (raw : String) :
    Behaves (called nested source step raw) s fun _ _ => True := by
  rw [called_eq]
  refine .bind (.of_blames (blames_opened source step raw)) ?_
  rintro ⟨content, p⟩ t -
  exact .bind (hnested content p t) fun output u hmade => behaves_foundAt hmade

/-- A step refers to no document once it is resolved. -/
theorem behaves_resolveStep (source : Path) (imports : List Import) (step : Step) :
    Behaves (resolveStep nested source imports step) s fun resolved _ => ¬ resolved.1.Refers := by
  unfold resolveStep
  cases haction : step.action with
  | request r =>
    refine .pure ?_
    rintro ⟨raw, hraw⟩
    rw [haction] at hraw
    cases hraw
  | call target =>
    cases target with
    | made localName =>
      refine .pure ?_
      rintro ⟨raw, hraw⟩
      rw [haction] at hraw
      cases hraw
    | path raw =>
      refine .bind (behaves_called hnested source step raw) ?_
      rintro ⟨output, made⟩ t -
      refine .bind (.of_blames (blames_moduleName output)) fun name u _ => .pure ?_
      rintro ⟨raw', hraw⟩
      cases hraw

/-- No reference is left when all are resolved. -/
theorem behaves_resolveSteps (source : Path) (imports : List Import) (steps : List Step) :
    Behaves (resolveSteps nested source imports steps) s fun resolved _ => ∀ step ∈ resolved.1, ¬ step.Refers := by
  induction steps generalizing s imports with
  | nil => exact .pure (by simp)
  | cons step rest ih =>
    refine .bind (behaves_resolveStep hnested source imports step) ?_
    rintro ⟨first, imports⟩ t hfirst
    refine .bind (ih imports) ?_
    rintro ⟨more, imports⟩ u hmore
    exact .pure (List.forall_mem_cons.2 ⟨hfirst, hmore⟩)

/-- A module that was built is there. -/
theorem behaves_build (testcase : Testcase) (output : Path) (className : String) :
    Behaves (build nested testcase output className) s fun _ t => (t.made? output).isSome := by
  refine .bind (.whileResolving (behaves_resolveSteps hnested _ _ _)) ?_
  rintro ⟨steps, imports⟩ t hresolved
  refine .bind (behaves_compile hresolved className imports) fun text t _ => ?_
  refine .bind (behaves_claimClass output className _) fun _ t _ => ?_
  refine .bind (.of_blames (blames_emit text output)) fun _ t _ => ?_
  exact .modify (Option.isSome_iff_exists.2 ⟨_, t.made?_keep output _⟩)

/-- The module of a document is there when it was made. -/
theorem behaves_testcaseWith (raw : Value) (source : Path) (outputDirectory : Option Path) :
    Behaves (testcaseWith nested raw source outputDirectory) s fun output t => (t.made? output).isSome := by
  rw [testcaseWith_eq]
  refine .bind (.of_blames (blames_drafted raw _ outputDirectory)) ?_
  rintro ⟨testcase, output, className⟩ t -
  refine .bind .get ?_
  rintro t' _ ⟨rfl, rfl⟩
  cases hmade : t'.made? output with
  | some made =>
    dsimp only
    split
    · exact .pure (Option.isSome_iff_exists.2 ⟨made, hmade⟩)
    · exact .throw rfl
  | none =>
    dsimp only
    split
    · exact .throw rfl
    · exact .bind (behaves_build hnested testcase output className) fun _ u hu => .pure hu

end Nested

/-- A run ends with its module made or with a fault that is not internal, however deep its calls are nested. -/
theorem behaves_testcaseWithin (fuel : Nat) (raw : Value) (source : Path) (outputDirectory : Option Path) :
    Behaves (testcaseWithin fuel raw source outputDirectory) s fun output t => (t.made? output).isSome := by
  induction fuel generalizing s raw source outputDirectory with
  | zero => exact .throw rfl
  | succ fuel ih => exact behaves_testcaseWith (fun content p t => ih content p none) raw source outputDirectory

end Make

/-- **No internal faults.**  From whatever session a testcase is made, the run does not end because a step is still a
reference when it is put into words, nor because a module that was just made is not there.  Whenever a call ends well,
at whatever depth, its module is found at the path it returns.  Once the references of some steps are resolved, no step
is one, and any testcase with these steps can be put into words. -/
theorem internal_faults_never_arise (raw : Value) (source : Path) (outputDirectory : Option Path) (s : Session) :
    (∀ e t, Make.testcase raw source outputDirectory s = .error e t →
      (∀ step reference, e ≠ .schema (.unresolved step reference)) ∧ ∀ p, e ≠ .path (.notGenerated p)) ∧
    ∀ fuel,
      (∀ output t, Make.testcaseWithin fuel raw source outputDirectory s = .ok output t →
        ∃ made, t.made? output = some made) ∧
      ∀ imports steps resolved imports' t,
        Make.resolveSteps (fun content p => Make.testcaseWithin fuel content p none) source imports steps s
          = .ok (resolved, imports') t →
        (∀ step ∈ resolved, ∀ path, step.action ≠ .call (.path path)) ∧
        ∀ (testcase : Testcase) settings className below,
          ∃ script, Make.script settings { testcase with steps := resolved } className imports' below = .ok script := by
  refine ⟨fun e t herror => ?_, fun fuel => ⟨fun output t hok => ?_, ?_⟩⟩
  · have hinternal : e.isInternal = false :=
      (Make.behaves_testcaseWithin _ raw source outputDirectory).error (s := s) herror
    constructor
    · rintro step reference rfl
      cases hinternal
    · rintro p rfl
      cases hinternal
  · exact Option.isSome_iff_exists.1 ((Make.behaves_testcaseWithin fuel raw source outputDirectory).ok hok)
  · intro imports steps resolved imports' t hok
    have hresolved : ∀ step ∈ resolved, ¬ step.Refers :=
      (Make.behaves_resolveSteps (fun content p t => Make.behaves_testcaseWithin fuel content p none) source imports
        steps).ok hok
    exact ⟨fun step hstep path haction => hresolved step hstep ⟨path, haction⟩,
      fun testcase settings className below => Make.exists_script hresolved settings className imports' below⟩

/-- The fault of a result, if it has one. -/
def reportedFault? {α : Type} : EStateM.Result Fault Session α → Option Fault
  | .error e _ => some e
  | .ok _ _ => none

/-- A call of a missing file fails for that reason, a call of one that is there ends well, and steps that call two
testcases of one name are resolved. -/
theorem internal_faults_never_arise_calls :
    let source := Path.ofString "/p/a.json"
    (∃ e t, Make.testcase (caller "c.json") source none (.fresh {} "/p" oneTestcase) = .error e t ∧
      e = .missing (.reference (.ofString "/p/c.json")) ∧
      (∀ step reference, e ≠ .schema (.unresolved step reference)) ∧ ∀ p, e ≠ .path (.notGenerated p)) ∧
    (∃ output t, Make.testcaseWithin 2 (caller "b.json") source none (.fresh {} "/p" oneTestcase) = .ok output t ∧
      output.text = "/p/a_test.py" ∧ ∃ made, t.made? output = some made) ∧
    ∃ resolved imports t,
      Make.resolveSteps (fun content p => Make.testcaseWithin 1 content p none) source [] twinSteps
        (twinSession false) = .ok (resolved, imports) t ∧
      (∀ step ∈ resolved, ∀ path, step.action ≠ .call (.path path)) ∧
      ∀ (testcase : Testcase) settings className below,
        ∃ script, Make.script settings { testcase with steps := resolved } className imports below = .ok script := by
  intro source
  refine ⟨?_, ?_, ?_⟩
  · have hmissing : reportedFault? (Make.testcase (caller "c.json") source none (.fresh {} "/p" oneTestcase))
        = some (.missing (.reference (.ofString "/p/c.json"))) := by decide +kernel
    cases hrun : Make.testcase (caller "c.json") source none (.fresh {} "/p" oneTestcase) with
    | ok output t =>
      rw [hrun] at hmissing
      cases hmissing
    | error e t =>
      rw [hrun] at hmissing
      exact ⟨e, t, rfl, Option.some_inj.1 hmissing, (internal_faults_never_arise _ source none _).1 e t hrun⟩
  · have hpasses : passes (fun output _ => decide (output.text = "/p/a_test.py"))
        (Make.testcaseWithin 2 (caller "b.json") source none (.fresh {} "/p" oneTestcase)) = true := by decide +kernel
    obtain ⟨output, t, hrun, htext⟩ := exists_of_passes hpasses
    exact ⟨output, t, hrun, of_decide_eq_true htext,
      ((internal_faults_never_arise _ source none _).2 2).1 output t hrun⟩
  · obtain ⟨t, hcallees⟩ := exists_callees_twins false
    have hresolved := Make.resolveSteps_of_callees [] hcallees
    exact ⟨_, _, t, hresolved, ((internal_faults_never_arise .null source none _).2 1).2 [] twinSteps _ _ t hresolved⟩

end TestScribe
