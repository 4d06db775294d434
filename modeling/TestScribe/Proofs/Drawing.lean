/-
# What a run has made

After a run that succeeded, the modules made are those that the documents say, with the texts that they
say, and the files of all of them are there.

* `Stands` : an outline has a text, and its references have outlines too, with no cycle to be reached;
* `Drawn` : the modules of a session are those of outlines that stand, and their files are there;
* `Observed.draws_testcaseWithin` : this is kept by a run, and the module of the source is among them.
-/
import TestScribe.Proofs.Outlines

namespace TestScribe

/-- The documents that can be loaded from a disk. -/
def documentsOn (d : Disk) (p : Path) : Option Value := (Source.load d p).toOption

section Drawn

variable (root : Path) (settings : Settings) (d : Disk)

/-- An outline stands among others: it is that of its document, it has a text, its references have their
outlines among the others, and no cycle can be reached from it. -/
structure Stands (outlines : List Outline) (o : Outline) : Prop where
  outlined : outline? root settings d o.source = some o
  normal : o.source.normalize = o.source
  plain : o.source.IsPlain
  text : ∃ text, o.text? root settings d = some text
  references : ∀ step ∈ o.testcase.steps, ∀ raw, step.action = .call (.path raw) →
    ∃ q ∈ outlines, q.source = referenced root raw
  clear : Clear root (documentsOn d) o.source
  isModule : Emission.IsModule settings.packageMarker o.output

/-- The modules of a session are those of outlines that stand among each other: each has claimed its class, and
the files of all of them are there.  Documents are as they were, and none that was made is on the stack. -/
structure Drawn (outlines : List Outline) (s : Session) : Prop where
  locator : s.locator = .fixed root
  reliable : s.disk.IsReliable
  touches : Disk.Touches (fun name => ¬ Source.IsDocumentName name) IsTemporaryName d s.disk
  made : s.made = outlines.map Outline.entry
  stands : ∀ o ∈ outlines, Stands root settings d outlines o
  claimed : ∀ o ∈ outlines, ∃ c, s.claim? o.output.parent o.className = some c ∧ c.source.same o.source
  off : ∀ o ∈ outlines, o.source ∉ s.resolving
  leaves : Emission.Leaves settings.packageMarker (outlines.map Outline.output) d s.disk
  settings : s.settings = settings

/-- The modules of a session are those that the documents say. -/
def IsDrawn (s : Session) : Prop := ∃ outlines, Drawn root settings d outlines s

end Drawn

section Drawn

variable {root : Path} {settings : Settings} {d : Disk} {outlines more : List Outline} {o : Outline}
  {s t u : Session}

theorem Stands.mono (h : Stands root settings d outlines o) (hsubset : outlines ⊆ more) :
    Stands root settings d more o where
  outlined := h.outlined
  normal := h.normal
  plain := h.plain
  text := h.text
  references step hstep raw haction := by
    obtain ⟨q, hq, hsource⟩ := h.references step hstep raw haction
    exact ⟨q, hsubset hq, hsource⟩
  clear := h.clear
  isModule := h.isModule

/-- The files to run say nothing about the modules, nor does the stack if none that was made is on it. -/
theorem Drawn.of_eq (h : Drawn root settings d outlines s) (hlocator : t.locator = s.locator)
    (hsettings : t.settings = s.settings) (hdisk : t.disk = s.disk) (hmade : t.made = s.made)
    {classes : List ClassClaim} (hclasses : t.classes = s.classes ++ classes)
    (hoff : ∀ o ∈ outlines, o.source ∉ t.resolving) : Drawn root settings d outlines t where
  locator := hlocator.trans h.locator
  settings := hsettings.trans h.settings
  reliable := hdisk ▸ h.reliable
  touches := hdisk ▸ h.touches
  made := hmade.trans h.made
  stands := h.stands
  claimed o ho := by
    obtain ⟨c, hc, hsource⟩ := h.claimed o ho
    exact ⟨c, Session.claim?_of_append hclasses hc, hsource⟩
  off := hoff
  leaves := hdisk ▸ h.leaves

/-- Documents are loaded as before. -/
theorem Drawn.load_iff (h : Drawn root settings d outlines s)
    (hworking : d.kind? d.workingDirectory = some .directory) {p : Path} (hp : p.normalize = p)
    (v : Value) : Source.load s.disk p = .ok v ↔ Source.load d p = .ok v :=
  Source.load_eq_ok_iff_of_touches (fun _ hname hnot => hnot hname) h.touches hworking hp v

/-- A module that was made is that of an outline. -/
theorem Drawn.exists_of_made? (h : Drawn root settings d outlines s) {output : Path} {made : Made}
    (hmade : s.made? output = some made) :
    ∃ o ∈ outlines, o.made = made ∧ o.output.same output = true := by
  obtain ⟨q, hmem, hsame⟩ := Session.exists_mem_of_made? hmade
  rw [h.made, List.mem_map] at hmem
  obtain ⟨o, ho, hentry⟩ := hmem
  cases hentry
  exact ⟨o, ho, rfl, hsame⟩

/-- No module is at the path of an outline that is on the stack, if its class is claimed by no other source. -/
theorem Drawn.made?_eq_none (h : Drawn root settings d outlines s) (hroot : root.IsPlain)
    (hsuffix : '/' ∉ settings.generatedSuffix.toList) (ho : Stands root settings d more o)
    (hon : ∀ q ∈ outlines, q.source ≠ o.source)
    (hclaim : ∀ c, s.claim? o.output.parent o.className = some c → c.source.same o.source) :
    s.made? o.output = none := by
  cases hmade : s.made? o.output with
  | none => rfl
  | some made =>
    obtain ⟨q, hq, -, hsame⟩ := h.exists_of_made? hmade
    have hstands := h.stands q hq
    obtain ⟨name, hmodule, -⟩ := hstands.isModule.names
    obtain ⟨name', hmodule', -⟩ := ho.isModule.names
    obtain ⟨-, -, -, -, -, -, hplaced⟩ := outline?_eq_some_iff.1 hstands.outlined
    obtain ⟨-, -, -, -, -, -, hplaced'⟩ := outline?_eq_some_iff.1 ho.outlined
    obtain ⟨c, hc, hsource⟩ := h.claimed q hq
    -- the same path has the same class, which the other outline has claimed
    rw [Naming.className_eq_of_same hroot hsuffix hstands.plain ho.plain hplaced hplaced' hmodule.endsIn
      hmodule'.endsIn hsame, Session.claim?_of_same (Path.same_parent hsame)] at hc
    have hsource' := hclaim c hc
    rw [Path.same_iff] at hsource hsource'
    refine absurd ?_ (hon q hq)
    exact Path.eq_of_same_of_normal hstands.normal ho.normal (Path.same_iff.2 (hsource.symm.trans hsource'))

/-- A source that was not made is put on the stack. -/
theorem Drawn.push (h : Drawn root settings d outlines s) (ho : outline? root settings d o.source = some o)
    (hnone : s.made? o.output = none) :
    Drawn root settings d outlines { s with resolving := s.resolving ++ [o.source] } := by
  refine h.of_eq rfl rfl rfl rfl (List.append_nil _).symm fun q hq => ?_
  rw [List.mem_append, List.mem_singleton, not_or]
  refine ⟨h.off q hq, fun hqo => ?_⟩
  -- the outline of the source would have its module at its path
  obtain rfl : q = o := eq_of_outline?_eq (h.stands q hq).outlined ho hqo
  refine Session.made?_eq_none_iff.1 hnone q.entry ?_ (Path.same_iff.2 rfl)
  rw [h.made]
  exact List.mem_map_of_mem hq

/-- No cycle can be reached from a source whose references were made. -/
theorem Drawn.clear_of_references (h : Drawn root settings d outlines s)
    (ho : outline? root settings d o.source = some o)
    (hreferences : ∀ step ∈ o.testcase.steps, ∀ raw, step.action = .call (.path raw) →
      ∃ q ∈ outlines, q.source = referenced root raw) : Clear root (documentsOn d) o.source := by
  obtain ⟨-, raw, document, hload, hdocument, htestcase, -⟩ := outline?_eq_some_iff.1 ho
  refine .of_references (toOption_eq_some_iff.2 hload) hdocument htestcase fun step hstep raw haction => ?_
  obtain ⟨q, hq, hqsource⟩ := hreferences step hstep raw haction
  rw [← hqsource]
  exact (h.stands q hq).clear

/-- One more module is written and kept. -/
theorem Drawn.add (h : Drawn root settings d outlines s) (ho : Stands root settings d outlines o)
    (hnone : s.made? o.output = none) (hoff : o.source ∉ s.resolving)
    (hclaim : ∃ c, s.claim? o.output.parent o.className = some c ∧ c.source.same o.source)
    {text : String} {d' : Disk}
    (hemit : Emission.emit settings.packageMarker text o.output.parent o.output s.disk = .ok () d')
    (htouches : Disk.Touches (fun name => ¬ Source.IsDocumentName name) IsTemporaryName s.disk d') :
    Drawn root settings d (outlines ++ [o]) (Session.keep { s with disk := d' } o.output o.made) := by
  have hmodules : ∀ p ∈ outlines.map Outline.output, Emission.IsModule settings.packageMarker p := by
    rw [List.forall_mem_map]
    exact fun q hq => (h.stands q hq).isModule
  obtain ⟨hleaves, hreliable⟩ := h.leaves.emit hmodules ho.isModule h.reliable hemit
  refine ⟨h.locator, hreliable, h.touches.trans htouches, ?_, ?_, ?_, ?_, ?_, h.settings⟩
  · rw [List.map_append, ← h.made]
    exact Session.made_keep hnone
  · intro q hq
    rcases List.mem_append.1 hq with hq | hq
    · exact (h.stands q hq).mono (List.subset_append_left _ _)
    · rw [List.mem_singleton.1 hq]
      exact ho.mono (List.subset_append_left _ _)
  · intro q hq
    rcases List.mem_append.1 hq with hq | hq
    · exact h.claimed q hq
    · rw [List.mem_singleton.1 hq]
      exact hclaim
  · intro q hq
    rcases List.mem_append.1 hq with hq | hq
    · exact h.off q hq
    · rw [List.mem_singleton.1 hq]
      exact hoff
  · rw [List.map_append]
    exact hleaves

end Drawn

/-! ## Runs -/

namespace Observed

section Draws

variable {root : Path} {settings : Settings} {d : Disk} {depth : Nat} {s : Session}

/-- A step that looks something up under a fixed root leaves the session as it is. -/
theorem yields_lookup {α : Type} {step : Make α} {P : α → Prop} (hroot : s.locator = .fixed root)
    (h : LooksUp step s P) :
    Yields (ofMake depth step) s (fun a t => s = t ∧ P a) fun _ => True :=
  (Runs.lookup_fixed hroot (fun _ => trivial) fun _ => h).mono (fun _ _ h => h) fun _ _ _ => trivial

/-- What is claimed of the calls that are nested in a run. -/
def DrawsNested (root : Path) (settings : Settings) (d : Disk) (nested : Value → Path → Observed Path) :
    Prop :=
  ∀ (content : Value) (p : Path) (s : Session), IsDrawn root settings d s → p.normalize = p →
    p.IsPlain → Source.load d p = .ok content →
    Yields (nested content p) s
      (fun output t => Keeps (IsDrawn root settings d) s t ∧
        (∃ o, outline? root settings d p = some o ∧ o.output = output) ∧ t.Has p output)
      fun _ => True

section Nested

variable {nested : Value → Path → Observed Path} (hnested : DrawsNested root settings d nested)
  (hroot : root.IsWritten) (hworking : d.kind? d.workingDirectory = some .directory)

include hnested hroot hworking

/-- A call finds the module that its document says. -/
theorem draws_called (hs : IsDrawn root settings d s) (source : Path) (step : Step) :
    Finds root settings d (IsDrawn root settings d) (fun _ => True) depth nested source s step := by
  intro raw _
  obtain ⟨outlines, hdrawn⟩ := hs
  unfold called
  refine .bind (yields_lookup hdrawn.locator (Make.looksUp_opened source step raw)) ?_
  rintro ⟨content, p⟩ _ ⟨rfl, hnormal, hload, hp⟩
  replace hp : p = referenced root raw := hp root hdrawn.locator
  have hplain : p.IsPlain := hp ▸ isPlain_referenced hroot.plain raw
  rw [hdrawn.load_iff hworking hnormal] at hload
  refine .bind (hnested content p s ⟨outlines, hdrawn⟩ hnormal hplain hload) ?_
  rintro output t ⟨ht, ⟨o, ho, hout⟩, made, hmade, hsource⟩
  obtain ⟨outlines', hdrawn'⟩ := ht.keeps ⟨outlines, hdrawn⟩
  refine (yields_lookup hdrawn'.locator (Make.looksUp_foundAt output)).mono ?_ fun _ _ h => h
  rintro ⟨found, foundMade⟩ _ ⟨rfl, rfl, hfound⟩
  -- the module was made from the referenced source, so that it is the one of its outline
  obtain rfl : made = foundMade := Option.some.inj (hmade.symm.trans hfound)
  obtain ⟨q, hq, rfl, -⟩ := hdrawn'.exists_of_made? hmade
  have hstands := hdrawn'.stands q hq
  have hqp : q.source = p := Path.eq_of_same_of_normal hstands.normal hnormal hsource
  obtain rfl : o = q := by
    have houtlined := hstands.outlined
    rw [hqp, ho] at houtlined
    exact Option.some.inj houtlined
  refine ⟨ht, ⟨o.entry, ?_, hqp.trans hp⟩, ?_⟩
  · rw [hdrawn'.made]
    exact List.mem_map_of_mem hq
  · refine (yields_lookup hdrawn'.locator (Make.looksUp_moduleName found)).mono ?_ fun _ _ h => h
    rintro name _ ⟨rfl, found, hname, hroot⟩
    refine ⟨rfl, referred?_eq_some_iff.2 ⟨o, hp ▸ ho, rfl, ?_⟩⟩
    rw [hout, ← hroot root hdrawn'.locator]
    exact hname

/-- The module of an outline is written and kept, after those of its references. -/
theorem draws_build (hnames : settings.NamesApart) (hs : IsDrawn root settings d s) {o : Outline}
    (ho : outline? root settings d o.source = some o) (hnormal : o.source.normalize = o.source)
    (hplain : o.source.IsPlain) (hnone : s.made? o.output = none) (hoff : o.source ∉ s.resolving)
    (content : Value) :
    Yields (build depth nested content o.testcase o.output o.className) s
      (fun _ => Keeps (IsDrawn root settings d) s) fun _ => True := by
  obtain ⟨-, -, -, -, -, -, hplaced⟩ := outline?_eq_some_iff.1 ho
  have hsource : o.testcase.config.source = o.source := source_of_outline? ho
  obtain ⟨outlines, hdrawn⟩ := hs
  have hpushed : IsDrawn root settings d { s with resolving := s.resolving ++ [o.source] } :=
    ⟨outlines, hdrawn.push ho hnone⟩
  have hfinds : ∀ t, Keeps (IsDrawn root settings d) { s with resolving := s.resolving ++ [o.source] } t →
      ∀ step ∈ o.testcase.steps, Finds root settings d (IsDrawn root settings d) (fun _ => True) depth
        nested o.source t step :=
    fun t ht step _ => draws_called hnested hroot hworking (ht.keeps hpushed) o.source step
  unfold build
  rw [hsource]
  refine .bind (Yields.resolveCalls hfinds) ?_
  rintro ⟨steps, imports⟩ _ ⟨inner, rfl, hinner, hcalls, hresolved⟩
  obtain ⟨outlines', hdrawn'⟩ := hinner.keeps hpushed
  have hothers := hdrawn'.off
  rw [hinner.resolving] at hothers
  set t : Session := { inner with resolving := s.resolving }
  replace hdrawn' : Drawn root settings d outlines' t :=
    hdrawn'.of_eq rfl rfl rfl rfl (List.append_nil _).symm fun q hq hmem =>
      hothers q hq (List.mem_append_left _ hmem)
  refine .bind (yields_lookup hdrawn'.locator (Make.looksUp_scripted _ _ _)) ?_
  rintro script _ ⟨rfl, below, -, hbelow, hscript⟩
  replace hbelow : Naming.relative root o.source = .ok below := hsource ▸ hbelow root hdrawn'.locator
  rw [hdrawn'.settings] at hscript
  refine .bind (Q := fun _ u => u.made = t.made ∧ u.resolving = t.resolving ∧ u.runSet = t.runSet ∧
      Drawn root settings d outlines' u ∧
      (∃ c, u.claim? o.output.parent o.className = some c ∧ c.source.same o.source) ∧
      ∀ c, t.claim? o.output.parent o.className = some c → c.source.same o.source)
    (.claimClass (fun _ => trivial) ?_ fun _ _ => trivial) ?_
  · exact fun _ hclaimed hfree =>
      ⟨rfl, rfl, rfl, hdrawn'.of_eq rfl rfl rfl rfl rfl hdrawn'.off, hclaimed, hfree⟩
  rintro _ u ⟨hmade, hresolving, hrunSet, hu, hclaimed, hfree⟩
  have hcovers : u.settings.Covers fun name => ¬ Source.IsDocumentName name := by
    rw [hu.settings]
    exact hnames.documents.covers
  have houtput : Naming.IsGenerated u.settings.generatedSuffix o.output := by
    rw [hu.settings]
    exact Naming.isGenerated_of_placed hplaced
  refine .bind (Q := fun _ v => ∃ d', v = { u with disk := d' } ∧
      Disk.Touches (fun name => ¬ Source.IsDocumentName name) IsTemporaryName u.disk d' ∧
      Emission.emit settings.packageMarker script.render o.output.parent o.output u.disk = .ok () d' ∧
      ∃ name, o.output.EndsIn name)
    (.emit hcovers (fun name => hcovers.output o.output name houtput) (fun _ => trivial) ?_ fun _ _ _ _ => trivial) ?_
  · exact fun d' htouches hemit hend => ⟨d', rfl, htouches, hu.settings ▸ hemit, hend⟩
  rintro _ _ ⟨d', rfl, htouches, hemit, name, hend⟩
  have hreferences : ∀ step ∈ o.testcase.steps, ∀ raw, step.action = .call (.path raw) →
      ∃ q ∈ outlines', q.source = referenced root raw := by
    intro step hstep raw haction
    obtain ⟨entry, hentry, hentrySource⟩ := hcalls step hstep raw haction
    change entry ∈ t.made at hentry
    rw [hdrawn'.made, List.mem_map] at hentry
    obtain ⟨q, hq, rfl⟩ := hentry
    exact ⟨q, hq, hentrySource⟩
  have hstands : Stands root settings d outlines' o :=
    ⟨ho, hnormal, hplain, ⟨_, Outline.text?_eq_some_iff.2
      ⟨_, below, script, hresolved, hbelow, hscript, rfl⟩⟩, hreferences,
      hdrawn'.clear_of_references ho hreferences,
      Naming.isModule_of_placed hnames hroot hplain hnormal hplaced hend⟩
  have hnone' : u.made? o.output = none := by
    rw [Session.made?, hmade]
    refine hdrawn'.made?_eq_none hroot.plain hnames.documents.suffix.1 hstands (fun q hq hqo => ?_) hfree
    exact hothers q hq (hqo ▸ List.mem_append_right _ List.mem_cons_self)
  refine .of_eq rfl (fun _ => trivial)
    fun _ => ⟨?_, hresolving, hrunSet.trans hinner.runSet, fun _ => ⟨outlines' ++ [o], ?_⟩⟩
  · exact Session.prefix_made_keep hnone (hmade ▸ hinner.made)
  · show Drawn root settings d _ (Session.keep _ _ _)
    rw [entry_of_outline? ho]
    exact hu.add hstands hnone' (hresolving ▸ hoff) hclaimed hemit htouches

theorem draws_testcaseWith (hnames : settings.NamesApart) (hs : IsDrawn root settings d s) {raw : Value}
    {p : Path} (hnormal : p.normalize = p) (hplain : p.IsPlain) (hload : Source.load d p = .ok raw) :
    Yields (testcaseWith depth nested raw p none) s
      (fun output t => Keeps (IsDrawn root settings d) s t ∧
        ∃ o, outline? root settings d p = some o ∧ o.output = output)
      fun _ => True := by
  obtain ⟨outlines, hdrawn⟩ := hs
  unfold testcaseWith
  rw [hnormal]
  refine .bind (yields_lookup hdrawn.locator (Make.looksUp_drafted _ _ _)) ?_
  rintro ⟨testcase, output, className⟩ _ ⟨rfl, ⟨document, hdocument, htestcase⟩, -, hplaced⟩
  replace hplaced := hplaced root hdrawn.locator
  rw [Naming.placedIn_none, hdrawn.settings] at hplaced
  set o : Outline := ⟨p, testcase, output, className⟩
  have ho : outline? root settings d p = some o :=
    outline?_eq_some_iff.2 ⟨rfl, raw, document, hload, hdocument, htestcase, hplaced⟩
  refine .bind (yields_lookup hdrawn.locator .get) ?_
  rintro _ _ ⟨rfl, rfl⟩
  cases hnone : s.made? output with
  | some made =>
    dsimp only
    split
    · exact .pure ⟨.refl s, o, ho, rfl⟩
    · exact .of_eq rfl (fun _ => trivial) fun _ => trivial
  | none =>
    dsimp only
    split
    · exact .of_eq rfl (fun _ => trivial) fun _ => trivial
    · next hnew =>
      rw [Bool.not_eq_true] at hnew
      have hoff : p ∉ s.resolving := fun hp => Path.not_same_of_any hnew p hp (Path.same_iff.2 rfl)
      have hbuild : Yields (build depth nested raw testcase output className) s
          (fun _ => Keeps (IsDrawn root settings d) s) fun _ => True :=
        draws_build hnested hroot hworking hnames ⟨outlines, hdrawn⟩ (o := o) ho hnormal hplain hnone hoff
          raw
      exact .bind hbuild fun _ t ht => .pure ⟨ht, o, ho, rfl⟩

end Nested

/-- The modules of a run are those that the documents say, that of the source among them. -/
theorem draws_testcaseWithin (hnames : settings.NamesApart) (hroot : root.IsWritten)
    (hworking : d.kind? d.workingDirectory = some .directory) (fuel : Nat) :
    DrawsNested root settings d fun content p => testcaseWithin depth fuel content p none := by
  induction fuel generalizing depth with
  | zero => exact fun _ _ _ _ _ _ _ => .of_eq rfl (fun _ => trivial) fun _ => trivial
  | succ fuel ih =>
    intro content p s hs hnormal hplain hload
    have hsince : Since root settings.generatedSuffix [] s := by
      obtain ⟨outlines, hdrawn⟩ := hs
      exact ⟨hdrawn.locator, by rw [hdrawn.settings], List.nil_prefix⟩
    have hadds : Runs (fun _ => True) (WritesNew []) (testcaseWithin depth (fuel + 1) content p none) s
        (fun output t => Adds settings.generatedSuffix s.resolving s t ∧ t.Has p.normalize output)
        fun _ => Adds settings.generatedSuffix s.resolving s :=
      adds_testcaseWithin hroot.plain hnames.documents.suffix.1 hsince content hplain none
    refine ((draws_testcaseWith ih hroot hworking hnames hs hnormal hplain hload).and hadds).mono ?_
      fun _ _ _ => trivial
    rintro output t ⟨⟨ht, ho⟩, -, hhas⟩
    rw [hnormal] at hhas
    exact ⟨ht, ho, hhas⟩

end Draws

end Observed

/-- After a success, the modules are those that the documents say, that of the source among them. -/
theorem drawn_of_testcase_eq_ok {root : Path} {settings : Settings} {d : Disk}
    (hnames : settings.NamesApart) (hroot : root.IsWritten)
    (hworking : d.kind? d.workingDirectory = some .directory) {s t : Session}
    (hs : IsDrawn root settings d s) {p : Path} (hnormal : p.normalize = p) (hplain : p.IsPlain)
    {content : Value} (hload : Source.load d p = .ok content) {output : Path}
    (h : Make.testcase content p none s = .ok output t) :
    Keeps (IsDrawn root settings d) s t ∧ t.HasMade p ∧ (s.Distinct → t.Distinct) := by
  have hsince : Since root settings.generatedSuffix [] s := by
    obtain ⟨outlines, hdrawn⟩ := hs
    exact ⟨hdrawn.locator, by rw [hdrawn.settings], List.nil_prefix⟩
  have hadds : Runs (fun _ => True) (WritesNew [])
      (Observed.testcaseWithin 1 (Make.depthBound s.disk) content p none) s
      (fun output t => Adds settings.generatedSuffix s.resolving s t ∧ t.Has p.normalize output)
      fun _ => Adds settings.generatedSuffix s.resolving s :=
    Observed.adds_testcaseWithin hroot.plain hnames.documents.suffix.1 hsince content hplain none
  have hdraws : Yields (Observed.testcaseWithin 1 (Make.depthBound s.disk) content p none) s
      (fun output t => Keeps (IsDrawn root settings d) s t ∧
        (∃ o, outline? root settings d p = some o ∧ o.output = output) ∧ t.Has p output)
      fun _ => True :=
    Observed.draws_testcaseWithin hnames hroot hworking (Make.depthBound s.disk) content p s hs hnormal
      hplain hload
  have hends := (hdraws.and hadds).ends fun _ _ => trivial
  rw [Observed.testcaseWithin_fst] at hends
  change Make.testcaseWithin (Make.depthBound s.disk) content p none s = .ok output t at h
  rw [h] at hends
  obtain ⟨⟨hkeeps, -, made, hmade, hsource⟩, hadds, -⟩ := hends
  obtain ⟨outlines, hdrawn⟩ := hkeeps.keeps hs
  obtain ⟨o, ho, rfl, -⟩ := hdrawn.exists_of_made? hmade
  refine ⟨hkeeps, ⟨o.entry, ?_, ?_⟩, hadds.distinct⟩
  · rw [hdrawn.made]
    exact List.mem_map_of_mem ho
  · exact Path.eq_of_same_of_normal (hdrawn.stands o ho).normal hnormal hsource

end TestScribe
