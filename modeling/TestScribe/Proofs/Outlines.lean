/-
# What the documents say about modules

The module of a source is fixed by the documents on the disk, by its own and by those that it refers to:
where it goes, the class in it, and its text.  Here this is worked out without making anything.

* `Outline`, `outline?` : the place and the class of the module of a source;
* `resolveWith`, `Outline.text?` : its text;
* `Settings.NamesApart` : the files of modules cannot be taken for each other;
* `Keeps`, `Yields.resolveCalls` : what the calls of a module keep, if they find what the documents say.
-/
import TestScribe.Proofs.Cycles
import TestScribe.Proofs.Layout
import TestScribe.Proofs.Once

namespace TestScribe

/-! ## Outlines -/

/-- What the document of a source says about its module. -/
structure Outline where
  source : Path
  testcase : Testcase
  output : Path
  className : String

/-- What a session keeps of a module. -/
def Outline.made (o : Outline) : Made := ⟨o.source, o.className, o.testcase.config.exports.getD []⟩

def Outline.entry (o : Outline) : Path × Made := (o.output, o.made)

theorem toOption_eq_some_iff {ε α : Type} {x : Except ε α} {a : α} : x.toOption = some a ↔ x = .ok a := by
  cases x <;> simp [Except.toOption]

section Outline

variable (root : Path) (settings : Settings) (d : Disk)

/-- The outline of the module of a source, if its document can be used. -/
def outline? (source : Path) : Option Outline := do
  let raw ← (Source.load d source).toOption
  let document ← (Legacy.normalize raw).toOption
  let testcase ← (Testcase.ofDocument document source).toOption
  let placed ← (Naming.placed root settings.generatedSuffix source).toOption
  return ⟨source, testcase, placed.1, placed.2⟩

/-- A step with the testcase it calls, if it calls one by its path; `find` gives the module of a reference
with its dotted name. -/
def resolveStepWith (find : String → Option (Made × String)) (imports : List Import) (step : Step) :
    Option (Step × List Import) :=
  match step.action with
  | .call (.path raw) => (find raw).map fun (made, name) =>
    let (localName, imports) := Import.choose imports made.className name
    ({ step with
      exports := mergeExports step.exports made.exports
      action := .call (.made localName) }, imports)
  | _ => some (step, imports)

/-- The steps with the testcases they call, and the imports for these. -/
def resolveWith (find : String → Option (Made × String)) :
    List Import → List Step → Option (List Step × List Import)
  | imports, [] => some ([], imports)
  | imports, step :: rest =>
    (resolveStepWith find imports step).bind fun (step, imports) =>
      (resolveWith find imports rest).map fun (rest, imports) => (step :: rest, imports)

/-- The module of a reference, with its dotted name. -/
def referred? (raw : String) : Option (Made × String) := do
  let o ← outline? root settings d (referenced root raw)
  let name ← (Naming.moduleName root o.output).toOption
  return (o.made, name)

/-- The text of the module of an outline. -/
def Outline.text? (o : Outline) : Option String := do
  let resolved ← resolveWith (referred? root settings d) [] o.testcase.steps
  let below ← (Naming.relative root o.source).toOption
  let script ← (Make.script settings { o.testcase with steps := resolved.1 } o.className resolved.2
    below).toOption
  return script.render

end Outline

variable {root : Path} {settings : Settings} {d : Disk}

theorem outline?_eq_some_iff {source : Path} {o : Outline} :
    outline? root settings d source = some o ↔ o.source = source ∧ ∃ raw document,
      Source.load d source = .ok raw ∧ Legacy.normalize raw = .ok document ∧
      Testcase.ofDocument document source = .ok o.testcase ∧
      Naming.placed root settings.generatedSuffix source = .ok (o.output, o.className) := by
  simp only [outline?, bind, pure, Option.bind_eq_some_iff, toOption_eq_some_iff]
  constructor
  · rintro ⟨raw, hraw, document, hdocument, testcase, htestcase, placed, hplaced, ho⟩
    cases ho
    exact ⟨rfl, raw, document, hraw, hdocument, htestcase, hplaced⟩
  · rintro ⟨rfl, raw, document, hraw, hdocument, htestcase, hplaced⟩
    exact ⟨raw, hraw, document, hdocument, o.testcase, htestcase, _, hplaced, rfl⟩

theorem referred?_eq_some_iff {raw : String} {found : Made × String} :
    referred? root settings d raw = some found ↔ ∃ o,
      outline? root settings d (referenced root raw) = some o ∧ found.1 = o.made ∧
      Naming.moduleName root o.output = .ok found.2 := by
  simp only [referred?, bind, pure, Option.bind_eq_some_iff, toOption_eq_some_iff]
  constructor
  · rintro ⟨o, ho, name, hname, hfound⟩
    cases hfound
    exact ⟨o, ho, rfl, hname⟩
  · rintro ⟨o, ho, hmade, hname⟩
    exact ⟨o, ho, found.2, hname, by rw [← hmade]⟩

theorem Outline.text?_eq_some_iff {o : Outline} {text : String} :
    o.text? root settings d = some text ↔ ∃ resolved below script,
      resolveWith (referred? root settings d) [] o.testcase.steps = some resolved ∧
      Naming.relative root o.source = .ok below ∧
      Make.script settings { o.testcase with steps := resolved.1 } o.className resolved.2 below
        = .ok script ∧ text = script.render := by
  simp only [Outline.text?, bind, pure, Option.bind_eq_some_iff, toOption_eq_some_iff]
  constructor
  · rintro ⟨resolved, hresolved, below, hbelow, script, hscript, htext⟩
    exact ⟨resolved, below, script, hresolved, hbelow, hscript, (Option.some.inj htext).symm⟩
  · rintro ⟨resolved, below, script, hresolved, hbelow, hscript, rfl⟩
    exact ⟨resolved, hresolved, below, hbelow, script, hscript, rfl⟩

theorem source_of_outline? {source : Path} {o : Outline} (h : outline? root settings d source = some o) :
    o.testcase.config.source = source := by
  obtain ⟨-, _, _, -, -, htestcase, -⟩ := outline?_eq_some_iff.1 h
  exact Testcase.source_of_ofDocument htestcase

/-- A module that was made as its outline says is kept as the entry of the outline. -/
theorem entry_of_outline? {o : Outline} (h : outline? root settings d o.source = some o) (document : Value)
    (imports : List Import) (script : Script) :
    (⟨document, o.testcase, o.output, o.className, imports, script⟩ : Record).entry = o.entry := by
  rw [Record.entry, Record.source, source_of_outline? h]
  rfl

/-- Of two outlines of the same source there is one. -/
theorem eq_of_outline?_eq {o q : Outline} (ho : outline? root settings d o.source = some o)
    (hq : outline? root settings d q.source = some q) (h : o.source = q.source) : o = q := by
  rw [h, hq] at ho
  exact (Option.some.inj ho).symm

/-! ## Names of modules -/

/-- The files that are written are no documents, only temporary ones have temporary names, and no module is
a package marker. -/
structure Settings.NamesApart (settings : Settings) : Prop where
  documents : settings.WritesNoDocument
  module : ∀ stem, ¬ IsTemporaryName (stem ++ settings.generatedSuffix)
  marker : ¬ IsTemporaryName settings.packageMarker
  apart : ∀ stem, settings.packageMarker ≠ stem ++ settings.generatedSuffix

theorem Settings.namesApart_default : ({} : Settings).NamesApart where
  documents := writesNoDocument_default
  module := by
    rintro stem ⟨front, h⟩
    have hlast := congrArg (fun s => s.toList.getLast?) h
    simp at hlast
  marker := by
    rintro ⟨front, h⟩
    have hlast := congrArg (fun s => s.toList.getLast?) h
    simp at hlast
  apart := by
    intro stem h
    have hsuffix : "_test.py".toList <:+ "__init__.py".toList :=
      ⟨stem.toList, by rw [← String.toList_append]; exact congrArg String.toList h.symm⟩
    exact absurd hsuffix (by decide)

/-- The path of a module is read back from its text. -/
theorem Naming.isWritten_of_placed {root source output : Path} {suffix className : String}
    (hroot : root.IsWritten) (hplain : source.IsPlain) (hnormal : source.normalize = source)
    (h : placed root suffix source = .ok (output, className)) : output.IsWritten := by
  obtain ⟨tidied, htidied, hout⟩ := map_eq_ok.1 h
  obtain ⟨below, -, htidied⟩ := bind_eq_ok.1 htidied
  have hwritten : tidied.IsWritten := by
    split at htidied
    · cases htidied
      exact Path.isWritten_of_normal hplain hnormal
    · cases htidied
      exact hroot.foldl_child _
  cases hout
  exact hwritten.parent.child _

theorem Naming.isGenerated_of_placed {root source output : Path} {suffix className : String}
    (h : placed root suffix source = .ok (output, className)) : IsGenerated suffix output := by
  obtain ⟨tidied, -, hout⟩ := map_eq_ok.1 h
  cases hout
  exact .beside _ _

/-- Where the module of a source goes is the path of a module, if it ends in a name. -/
theorem Naming.isModule_of_placed {root source output : Path} {className name : String}
    {settings : Settings} (hnames : settings.NamesApart) (hroot : root.IsWritten)
    (hplain : source.IsPlain) (hnormal : source.normalize = source)
    (hplaced : placed root settings.generatedSuffix source = .ok (output, className))
    (hend : output.EndsIn name) : Emission.IsModule settings.packageMarker output := by
  have hmarker := hnames.documents.marker
  obtain ⟨stem, rfl, -⟩ : ∃ stem, name = stem ++ settings.generatedSuffix ∧
      className = Naming.className stem :=
    exists_stem_of_placed hroot.plain hnames.documents.suffix.1 hplain hplaced hend
  have hisName : Path.IsName settings.packageMarker := by
    have happend := Path.isName_append hmarker.exists_ne_dot ""
    rwa [String.empty_append] at happend
  refine ⟨⟨_, ⟨isWritten_of_placed hroot hplain hnormal hplaced, hend, hmarker.1, hisName,
    hnames.apart stem, ?_⟩, hnames.module stem⟩, hnames.marker⟩
  exact fun htemp => hnames.marker ⟨_, htemp⟩

/-! ## Steps with the testcases they call -/

/-- A step succeeds with `Q`, or fails with one of the faults `E`. -/
abbrev Yields {α : Type} (step : Observed α) (s : Session) (Q : α → Session → Prop)
    (E : Fault → Prop) : Prop := Runs (fun _ => True) (fun _ => True) step s Q fun e _ => E e

/-- There is a module of a source. -/
def Session.HasMade (s : Session) (source : Path) : Prop := ∃ entry ∈ s.made, entry.2.source = source

/-- A session follows another one in the course of a run that keeps an invariant. -/
structure Keeps (I : Session → Prop) (s t : Session) : Prop where
  made : s.made <+: t.made
  resolving : t.resolving = s.resolving
  runSet : t.runSet = s.runSet
  keeps : I s → I t

section Resolve

variable {I : Session → Prop} {E : Fault → Prop} {s t u : Session} {depth : Nat}
  {nested : Value → Path → Observed Path} {source : Path}

theorem Keeps.refl (s : Session) : Keeps I s s := ⟨List.prefix_rfl, rfl, rfl, id⟩

theorem Keeps.trans (h : Keeps I s t) (h' : Keeps I t u) : Keeps I s u :=
  ⟨h.made.trans h'.made, h'.resolving.trans h.resolving, h'.runSet.trans h.runSet,
    fun hs => h'.keeps (h.keeps hs)⟩

theorem Session.HasMade.of_keeps (hs : s.HasMade source) (h : Keeps I s t) : t.HasMade source := by
  obtain ⟨entry, hentry, hsource⟩ := hs
  exact ⟨entry, h.made.subset hentry, hsource⟩

/-- A call finds what the documents say: the module of its reference, and then its dotted name. -/
def Finds (root : Path) (settings : Settings) (d : Disk) (I : Session → Prop) (E : Fault → Prop)
    (depth : Nat) (nested : Value → Path → Observed Path) (source : Path) (s : Session) (step : Step) :
    Prop :=
  ∀ raw, step.action = .call (.path raw) →
    Yields (Observed.called depth nested source step raw) s (fun found t => Keeps I s t ∧
      t.HasMade (referenced root raw) ∧
      Yields (Observed.ofMake depth (Make.moduleName found.1)) t
        (fun name u => t = u ∧ referred? root settings d raw = some (found.2, name)) E) E

theorem Yields.resolveStep {step : Step}
    (hfinds : Finds root settings d I E depth nested source s step) (imports : List Import) :
    Yields (Observed.resolveStep depth nested source imports step) s
      (fun resolved t => Keeps I s t ∧
        (∀ raw, step.action = .call (.path raw) → t.HasMade (referenced root raw)) ∧
        resolveStepWith (referred? root settings d) imports step = some resolved) E := by
  unfold Observed.resolveStep
  split
  · next raw haction =>
    refine .bind (hfinds raw haction) ?_
    rintro ⟨output, made⟩ t ⟨ht, hmade, hname⟩
    refine .bind hname ?_
    rintro name _ ⟨rfl, hfind⟩
    refine .pure ⟨ht, ?_, ?_⟩
    · intro raw' haction'
      rw [haction] at haction'
      cases haction'
      exact hmade
    · simp only [resolveStepWith, haction, hfind]
      rfl
  · next hother =>
    refine .pure ⟨.refl s, fun raw haction => absurd haction (hother raw), ?_⟩
    unfold resolveStepWith
    split
    · next raw haction => exact absurd haction (hother raw)
    · rfl

/-- If each call of some steps finds what the documents say, then so do all of them together. -/
theorem Yields.resolveSteps {steps : List Step}
    (hfinds : ∀ t, Keeps I s t → ∀ step ∈ steps, Finds root settings d I E depth nested source t step)
    (imports : List Import) :
    Yields (Observed.resolveSteps depth nested source imports steps) s
      (fun resolved t => Keeps I s t ∧ (∀ step ∈ steps, ∀ raw, step.action = .call (.path raw) →
          t.HasMade (referenced root raw)) ∧
        resolveWith (referred? root settings d) imports steps = some resolved) E := by
  induction steps generalizing s imports with
  | nil => exact .pure ⟨.refl s, by simp, rfl⟩
  | cons step rest ih =>
    unfold Observed.resolveSteps
    refine .bind (Yields.resolveStep (hfinds s (.refl s) step List.mem_cons_self) imports) ?_
    rintro ⟨resolved, imports'⟩ t ⟨ht, hmade, hresolved⟩
    refine .bind (ih (fun u hu step' hmem => hfinds u (ht.trans hu) step'
      (List.mem_cons_of_mem _ hmem)) imports') ?_
    rintro ⟨more, imports''⟩ u ⟨hu, hcalls, hmore⟩
    refine .pure ⟨ht.trans hu, ?_, ?_⟩
    · intro step' hmem raw haction
      rcases List.mem_cons.1 hmem with rfl | hmem
      · exact (hmade raw haction).of_keeps hu
      · exact hcalls step' hmem raw haction
    · rw [resolveWith, hresolved, Option.bind_some]
      dsimp only
      rw [hmore]
      rfl

/-- The calls of a source are made while it is on the stack. -/
theorem Yields.resolveCalls {steps : List Step}
    (hfinds : ∀ t, Keeps I { s with resolving := s.resolving ++ [source] } t → ∀ step ∈ steps,
      Finds root settings d I E depth nested source t step) :
    Yields (Observed.whileResolving source (Observed.resolveSteps depth nested source [] steps)) s
      (fun resolved t => ∃ inner, t = { inner with resolving := s.resolving } ∧
        Keeps I { s with resolving := s.resolving ++ [source] } inner ∧
        (∀ step ∈ steps, ∀ raw, step.action = .call (.path raw) →
          inner.HasMade (referenced root raw)) ∧
        resolveWith (referred? root settings d) [] steps = some resolved) E := by
  apply Runs.whileResolving
  refine (Yields.resolveSteps hfinds []).mono ?_ fun _ _ h => h
  rintro resolved inner ⟨hinner, hcalls, hresolved⟩
  refine ⟨inner, ?_, hinner, hcalls, hresolved⟩
  rw [Session.pop, hinner.resolving, List.dropLast_concat]

end Resolve

end TestScribe
