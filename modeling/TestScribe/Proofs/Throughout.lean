/-
# What is true throughout a run

A property of sessions is true at every moment of a run if the steps keep it that change something else than
the roots and classes: a source goes on the stack and off it, and a module is written and kept.  Of the module
of the first source nothing is asked, since the run is over when it has been kept.  The induction is done once,
here.

* `Called`, `Builds` : what is known of a source that is called, and of a module that is written for it;
* `Throughout` : what has to be shown of the steps;
* `Throughout.of_mem` : what follows for the moments of a run.
-/
import TestScribe.Proofs.Lookups

namespace TestScribe

/-! ## Steps that matter -/

/-- A source is called: it holds a mapping, and no module was made at the path where its own is to go. -/
structure Called (s : Session) (source output : Path) : Prop where
  document : ∃ content, Source.load s.disk source = .ok content ∧ content.mapping?.isSome = true
  fresh : s.made? output = none
  placed : ∀ root, s.locator = .fixed root → ∃ className,
    Naming.placed root s.settings.generatedSuffix source = .ok (output, className)

/-- The module of a source that was called is written, which leads to the disk `d`. -/
structure Builds (s : Session) (source output : Path) (script : Script) (d : Disk) : Prop where
  generated : Naming.IsGenerated s.settings.generatedSuffix output
  placed : ∀ root, s.locator = .fixed root → ∃ className,
    Naming.placed root s.settings.generatedSuffix source = .ok (output, className)
  scripted : ∃ root below testcase className imports, Naming.relative root source = .ok below ∧
    Make.script s.settings testcase className imports below = .ok script
  emitted : Emission.emit s.settings.packageMarker script.render output.parent output s.disk = .ok () d

/-- What has to be shown of the steps of a run for a property to be true throughout.  A source leaves the stack
before its module is written, so that the property may speak of the stack with it when the module is kept. -/
structure Throughout (I : Session → Prop) : Prop where
  still : ∀ {s} roots classes, I s → I { s with roots, classes }
  pushed : ∀ {s} {source output}, I s → source.normalize = source →
    (s.resolving.any (·.same source)) = false → (s.resolving ≠ [] → Called s source output) → I (s.push source)
  popped : ∀ {s}, I s → I s.pop
  built : ∀ {s} {stack source output script d} made, I s → s.resolving = stack ++ [source] → stack ≠ [] →
    Builds s source output script d → I (Session.keep { s with disk := d } output made).pop

/-- The session is that of another one as far as a run restores it. -/
structure Restores (s t : Session) : Prop where
  settings : t.settings = s.settings
  locator : t.locator = s.locator
  resolving : t.resolving = s.resolving

section Restores

variable {s t u : Session}

theorem Restores.refl (s : Session) : Restores s s := ⟨rfl, rfl, rfl⟩

theorem Restores.trans (h : Restores s t) (h' : Restores t u) : Restores s u :=
  ⟨h'.settings.trans h.settings, h'.locator.trans h.locator, h'.resolving.trans h.resolving⟩

theorem Restores.of_alike (h : s.Alike t) : Restores s t := by
  obtain ⟨roots, rfl⟩ := h.roots
  exact ⟨rfl, rfl, rfl⟩

end Restores

/-- A document that is called holds a mapping. -/
theorem Make.looksUp_opened_mapping {s : Session} (source : Path) (step : Step) (raw : String) :
    LooksUp (opened source step raw) s fun found => found.1.mapping?.isSome = true := by
  unfold opened
  refine .bind (looksUp_reference source raw) fun p t _ _ => .bind .get fun _ _ _ _ => ?_
  refine .bind (.ofExcept fun e he hcategory => ?_) fun content _ _ _ => ?_
  · rcases Source.isLoadFault_of_load he with hload | rfl
    · rw [Fault.isLoadFault, ← id_eq e, hcategory] at hload
      cases hload
    · cases hcategory
  · split
    · exact .throw (by simp [Fault.category])
    · next hmapping => exact .pure (by simpa [Option.isSome_iff_ne_none] using hmapping)

/-! ## Runs -/

namespace Throughout

variable {I : Session → Prop} {depth : Nat} {s : Session}

/-- The stack of the moment is that of a session with the property.  Between the writing of a module and its
keeping the property itself may be broken. -/
def Holds (I : Session → Prop) (m : Moment) : Prop := ∃ t, I t ∧ m.session.resolving = t.resolving

/-- What is claimed of a step: it passes only such moments, and what a success leads to has `Q`. -/
abbrev Keeps {α : Type} (I : Session → Prop) (step : Observed α) (s : Session) (Q : α → Session → Prop) : Prop :=
  Runs (fun _ => True) (Holds I) step s Q fun _ _ => True

/-- What is claimed of the calls that are nested in a run. -/
def Nested (I : Session → Prop) (nested : Value → Path → Observed Path) : Prop :=
  ∀ (content : Value) (p : Path) (s : Session), I s → p.normalize = p → s.resolving ≠ [] →
    Source.load s.disk p = .ok content → content.mapping?.isSome = true →
    Keeps I (nested content p) s fun _ t => I t ∧ Restores s t

/-- A step that looks something up. -/
theorem lookup {α : Type} {step : Make α} {P : α → Prop} (hI : I s) (hstep : LooksUp step s P) :
    Keeps I (Observed.ofMake depth step) s fun a t => s.Alike t ∧ P a :=
  (Runs.lookup (fun _ => ⟨s, hI, rfl⟩) fun _ => hstep).mono (fun _ _ h => h) fun _ _ _ => trivial

theorem alike (h : Throughout I) {t : Session} (hI : I s) (ht : s.Alike t) : I t := by
  obtain ⟨roots, rfl⟩ := ht.roots
  exact h.still roots s.classes hI

section Nested

variable (h : Throughout I) {nested : Value → Path → Observed Path} (hnested : Nested I nested)

include h hnested

theorem called (hI : I s) (hstack : s.resolving ≠ []) (source : Path) (step : Step) (raw : String) :
    Keeps I (Observed.called depth nested source step raw) s fun _ t => I t ∧ Restores s t := by
  unfold Observed.called
  refine .bind (lookup hI ((Make.looksUp_opened source step raw).and
    (Make.looksUp_opened_mapping source step raw))) ?_
  rintro ⟨content, p⟩ t ⟨halike, ⟨hnormal, hload, -⟩, hmapping⟩
  have hst := Restores.of_alike halike
  have hload' : Source.load t.disk p = .ok content := by
    obtain ⟨roots, rfl⟩ := halike.roots
    exact hload
  refine .bind (hnested content p t (h.alike hI halike) hnormal (hst.resolving ▸ hstack) hload' hmapping) ?_
  rintro output u ⟨hu, htu⟩
  refine (lookup hu (Make.looksUp_foundAt output)).mono ?_ fun _ _ _ => trivial
  rintro found v ⟨halike', -⟩
  exact ⟨h.alike hu halike', (hst.trans htu).trans (.of_alike halike')⟩

/-- While the calls of a source are made, the source is on the stack. -/
theorem resolved (hI : I s) {testcase : Testcase} {output : Path}
    (hnormal : testcase.config.source.normalize = testcase.config.source)
    (hnew : (s.resolving.any (·.same testcase.config.source)) = false)
    (hcalled : s.resolving ≠ [] → Called s testcase.config.source output) :
    Keeps I (Observed.whileResolving testcase.config.source
        (Observed.resolveSteps depth nested testcase.config.source [] testcase.steps)) s
      fun _ t => ∃ u, t = u.pop ∧ I u ∧ Restores (s.push testcase.config.source) u := by
  have hpushed := h.pushed hI hnormal hnew hcalled
  apply Runs.whileResolving
  refine (Runs.resolveSteps (s := s.push testcase.config.source)
    (R := fun t u => Restores t u ∧ (I t → I u)) (C := fun _ _ => True) (E := fun _ _ => True)
    (fun t => ⟨.refl t, id⟩) (fun h h' => ⟨h.1.trans h'.1, h'.2 ∘ h.2⟩) (fun _ _ => trivial) ?_ ?_ []).mono
    ?_ fun _ _ _ => trivial
  · rintro t ⟨ht, hkept⟩ step - raw -
    have hstack : t.resolving ≠ [] := by
      rw [ht.resolving]
      simp [Session.push]
    exact (called h hnested (hkept hpushed) hstack _ step raw).mono
      (fun _ _ hu => ⟨⟨hu.2, fun _ => hu.1⟩, trivial⟩) fun _ _ _ => trivial
  · rintro t ⟨ht, hkept⟩ output
    refine (lookup (hkept hpushed) (Make.looksUp_moduleName output)).mono ?_ fun _ _ _ => trivial
    rintro name u ⟨halike, -⟩
    exact ⟨.of_alike halike, fun ht => h.alike ht halike⟩
  · rintro _ t ⟨⟨ht, hkept⟩, -⟩
    exact ⟨t, rfl, hkept hpushed, ht⟩

/-- The module of a source is built; only of the end of the first one nothing is said. -/
theorem build (hI : I s) (document : Value) {testcase : Testcase} {output : Path} {className : String}
    (hnormal : testcase.config.source.normalize = testcase.config.source)
    (hnew : (s.resolving.any (·.same testcase.config.source)) = false)
    (hgenerated : Naming.IsGenerated s.settings.generatedSuffix output)
    (hcalled : s.resolving ≠ [] → Called s testcase.config.source output) :
    Keeps I (Observed.build depth nested document testcase output className) s
      fun _ t => s.resolving ≠ [] → I t ∧ Restores s t := by
  unfold Observed.build
  refine .bind (resolved h hnested hI hnormal hnew hcalled) ?_
  rintro ⟨steps, imports⟩ _ ⟨t, rfl, ht, hst⟩
  refine .bind (lookup (h.popped ht) (Make.looksUp_scripted _ _ _)) ?_
  rintro script _ ⟨halike, below, ⟨root, hbelow⟩, -, hscript⟩
  obtain ⟨roots, rfl⟩ := halike.roots
  -- the session goes on as the one with the source on the stack, which is known to have the property
  refine .bind (Q := fun _ u => ∃ classes, u = Session.pop { t with roots, classes })
    (.claimClass (fun _ => ⟨_, h.popped ht, rfl⟩) (fun more _ _ => ⟨t.classes ++ more, rfl⟩) fun _ _ => trivial) ?_
  rintro _ _ ⟨classes, rfl⟩
  refine .bind (Q := fun _ u => ∃ d, u = Session.pop { t with roots, classes, disk := d } ∧
      Emission.emit t.settings.packageMarker script.render output.parent output t.disk = .ok () d)
    (.emit (Settings.covers_true _) (fun _ _ => trivial) (fun _ => ⟨_, h.popped ht, rfl⟩)
      (fun d _ hd _ => ⟨d, rfl, hd⟩) fun _ _ _ _ => trivial) ?_
  rintro _ _ ⟨d, rfl, hd⟩
  refine .of_eq rfl (fun _ => ⟨_, h.popped ht, rfl⟩) fun _ hstack => ?_
  have hresolving : t.resolving = s.resolving ++ [testcase.config.source] := hst.resolving
  have hbuilds : Builds { t with roots, classes } testcase.config.source output script d := by
    refine ⟨?_, ?_, ⟨root, below, _, className, imports, hbelow, hscript⟩, hd⟩
    · show Naming.IsGenerated t.settings.generatedSuffix output
      rw [hst.settings]
      exact hgenerated
    · show ∀ root, t.locator = .fixed root → _
      rw [hst.settings, hst.locator]
      exact (hcalled hstack).placed
  refine ⟨h.built _ (h.still roots classes ht) hresolving hstack hbuilds, hst.settings, hst.locator, ?_⟩
  · show t.resolving.dropLast = s.resolving
    rw [hresolving, List.dropLast_concat]

theorem testcaseWith (hI : I s) (raw : Value) (source : Path) (outputDirectory : Option Path)
    (hcalled : s.resolving ≠ [] → outputDirectory = none ∧
      ∃ content, Source.load s.disk source.normalize = .ok content ∧ content.mapping?.isSome = true) :
    Keeps I (Observed.testcaseWith depth nested raw source outputDirectory) s
      fun _ t => s.resolving ≠ [] → I t ∧ Restores s t := by
  unfold Observed.testcaseWith
  refine .bind (lookup hI (Make.looksUp_drafted _ _ _)) ?_
  rintro ⟨testcase, output, className⟩ t ⟨halike, ⟨document, -, htestcase⟩, hgenerated, hplaced⟩
  have htsource := Testcase.source_of_ofDocument htestcase
  have ht := h.alike hI halike
  obtain ⟨roots, rfl⟩ := halike.roots
  refine .bind (lookup ht .get) ?_
  rintro _ u ⟨halike', rfl⟩
  have hu := h.alike ht halike'
  obtain ⟨roots', rfl⟩ := halike'.roots
  cases hmade : s.made? output with
  | some made =>
    simp only [show Session.made? { s with roots } output = some made from hmade]
    split
    · exact .pure fun _ => ⟨hu, rfl, rfl, rfl⟩
    · exact .of_eq rfl (fun _ => ⟨_, hu, rfl⟩) fun _ => trivial
  | none =>
    simp only [show Session.made? { s with roots } output = none from hmade]
    split
    · exact .of_eq rfl (fun _ => ⟨_, hu, rfl⟩) fun _ => trivial
    · next hnew =>
      rw [Bool.not_eq_true, ← htsource] at hnew
      refine .bind (build h hnested hu raw (by rw [htsource, Path.normalize_normalize]) hnew hgenerated ?_)
        fun _ _ hv => .pure fun hstack => ?_
      · intro hstack
        obtain ⟨rfl, hdocument⟩ := hcalled hstack
        refine ⟨htsource.symm ▸ hdocument, hmade, fun root hroot => ⟨className, ?_⟩⟩
        rw [htsource, ← Naming.placedIn_none]
        exact hplaced root hroot
      · obtain ⟨hv, hrestores⟩ := hv hstack
        exact ⟨hv, hrestores.settings, hrestores.locator, hrestores.resolving⟩

end Nested

theorem testcaseWithin (h : Throughout I) {fuel : Nat} (hI : I s) (raw : Value) (source : Path)
    (outputDirectory : Option Path) (hcalled : s.resolving ≠ [] → outputDirectory = none ∧
      ∃ content, Source.load s.disk source.normalize = .ok content ∧ content.mapping?.isSome = true) :
    Keeps I (Observed.testcaseWithin depth fuel raw source outputDirectory) s
      fun _ t => s.resolving ≠ [] → I t ∧ Restores s t := by
  induction fuel generalizing depth s raw source outputDirectory with
  | zero => exact .of_eq rfl (fun _ => ⟨_, hI, rfl⟩) fun _ => trivial
  | succ fuel ih =>
    refine testcaseWith h ?_ hI raw source outputDirectory hcalled
    intro content p t ht hnormal hstack hload hmapping
    refine (ih ht content p none fun _ => ⟨rfl, content, hnormal.symm ▸ hload, hmapping⟩).mono ?_
      fun _ _ _ => trivial
    exact fun _ _ hu => hu hstack

/-- **A property that the steps keep stands throughout a run** that begins with an empty stack: at every
moment, the stack is that of a session with the property. -/
theorem of_mem (h : Throughout I) (hI : I s) (hstack : s.resolving = []) {fuel : Nat} {raw : Value}
    {source : Path} {outputDirectory : Option Path} {m : Moment}
    (hm : m ∈ (Observed.testcaseWithin 1 fuel raw source outputDirectory s).2) :
    ∃ t, I t ∧ m.session.resolving = t.resolving :=
  (h.testcaseWithin hI raw source outputDirectory fun hne => absurd hstack hne).moments
    (fun _ _ => trivial) m hm

end Throughout

end TestScribe
