/-
# Making modules again

Modules that were made once can be made again on the disk as it was before, and in another order: nothing
that could fail depends on what was made before.  So a run among their outlines succeeds, and it is known
what it leaves behind.

* `Feasible` : outlines that can all be made, `Drawn.feasible` : those of modules that were made;
* `Make.opened_eq_ok`, `Make.scripted_eq_ok`, `Make.emit_eq_ok` and so on : steps that succeed;
* `Replayed` : the session after some of the modules were made;
* `Observed.replays_testcaseWithin` : a run succeeds, unless calls are nested too deep for it;
* `exists_testcase_eq_ok` : a run succeeds.
-/
import TestScribe.Proofs.Drawing

namespace TestScribe

/-! ## Steps that succeed -/

theorem Legacy.mapping?_of_normalize {raw : Value} {document : Mapping}
    (h : normalize raw = .ok document) : raw.mapping?.isNone = false := by
  cases raw with
  | mapping m => rfl
  | _ => cases h

namespace Make

section Fixed

variable {root : Path} {s : Session} (hroot : s.locator = .fixed root)

include hroot

theorem reference_eq_ok {raw : String} (hfile : s.disk.isFile (referenced root raw) = true)
    (source : Path) : reference source raw s = .ok (referenced root raw) s := by
  have hlast : ∀ p : Path, p.normalize = referenced root raw → (do
      if (← get).disk.isFile p.normalize then return p.normalize
      else throw (.missing (.reference p.normalize)) : Make Path) s = .ok (referenced root raw) s := by
    intro p hp
    rw [bind_get, hp, if_pos hfile]
    rfl
  simp only [reference, pure_bind]
  split
  · next h => exact hlast _ (by rw [referenced, if_pos h])
  · next h =>
    rw [bind_of_ok (findRoot_eq hroot source)]
    exact hlast _ (by rw [referenced, if_neg h])

theorem opened_eq_ok {raw : String} {content : Value}
    (hload : Source.load s.disk (referenced root raw) = .ok content)
    (hmapping : content.mapping?.isNone = false) (source : Path) (step : Step) :
    opened source step raw s = .ok (content, referenced root raw) s := by
  unfold opened
  rw [bind_of_ok (reference_eq_ok hroot (Source.isFile_of_load hload) source), bind_get, hload,
    bind_of_ok (rfl : ofExcept id (.ok content) s = .ok content s), if_neg (by simp [hmapping])]
  rfl

theorem moduleName_eq_ok {p : Path} {name : String} (h : Naming.moduleName root p = .ok name) :
    moduleName p s = .ok name s := by
  unfold moduleName
  rw [bind_of_ok (findRoot_eq hroot _), h]
  rfl

theorem scripted_eq_ok {testcase : Testcase} {className : String} {imports : List Import} {below : Path}
    {result : Script} (hbelow : Naming.relative root testcase.config.source = .ok below)
    (hscript : script s.settings testcase className imports below = .ok result) :
    scripted testcase className imports s = .ok result s := by
  have hrelative : relative testcase.config.source s = .ok below s := by
    unfold relative
    rw [bind_of_ok (findRoot_eq hroot _), hbelow]
    rfl
  unfold scripted
  rw [bind_of_ok hrelative, bind_get, hscript]
  rfl

end Fixed

variable {s : Session}

theorem foundAt_eq_ok {output : Path} {made : Made} (h : s.made? output = some made) :
    foundAt output s = .ok (output, made) s := by
  unfold foundAt
  rw [bind_get, h]
  rfl

theorem claimClass_eq_ok {output : Path} {className : String}
    (h : s.claim? output.parent className = none) (source : Path) :
    claimClass output className source s
      = .ok () { s with classes := s.classes ++ [⟨output.parent, className, source⟩] } := by
  unfold claimClass
  rw [bind_get, h]
  rfl

theorem emit_eq_ok {text name : String} {output : Path} {d : Disk} (hend : output.EndsIn name)
    (h : Emission.emit s.settings.packageMarker text output.parent output s.disk = .ok () d) :
    emit text output s = .ok () { s with disk := d } := by
  unfold emit
  rw [Path.parent, Path.parent?_of_endsIn hend, Option.getD_some] at h
  rw [Path.parent?_of_endsIn hend]
  show onDisk (Emission.emit s.settings.packageMarker text _ output) s = _
  rw [onDisk, h]

end Make

/-- A step that succeeds. -/
theorem Yields.of_eq_ok {α : Type} {step : Observed α} {s t : Session} {a : α}
    {Q : α → Session → Prop} {E : Fault → Prop} (h : (step s).1 = .ok a t) (hQ : Q a t) :
    Yields step s Q E := by
  refine ⟨fun _ _ _ => trivial, fun _ => ?_⟩
  rw [h]
  exact hQ

/-- A step that succeeds, and what comes after it. -/
theorem Yields.bind_of_eq_ok {α β : Type} {step : Observed α} {s t : Session} {a : α}
    {f : α → Observed β} {Q : β → Session → Prop} {E : Fault → Prop} (h : (step s).1 = .ok a t)
    (hf : Yields (f a) t Q E) : Yields (step >>= f) s Q E := by
  have hstep : Yields step s (fun b u => b = a ∧ u = t) E := .of_eq_ok h ⟨rfl, rfl⟩
  refine .bind hstep ?_
  rintro _ _ ⟨rfl, rfl⟩
  exact hf

/-- What is resolved has found all that it calls. -/
theorem exists_of_resolveWith {find : String → Option (Made × String)} {imports : List Import}
    {steps : List Step} {resolved : List Step × List Import}
    (h : resolveWith find imports steps = some resolved) :
    ∀ step ∈ steps, ∀ raw, step.action = .call (.path raw) → ∃ found, find raw = some found := by
  induction steps generalizing imports resolved with
  | nil => simp
  | cons step rest ih =>
    rw [resolveWith, Option.bind_eq_some_iff] at h
    obtain ⟨first, hfirst, h⟩ := h
    obtain ⟨more, hmore, -⟩ := Option.map_eq_some_iff.1 h
    intro step' hmem raw haction
    rcases List.mem_cons.1 hmem with rfl | hmem
    · simp only [resolveStepWith, haction] at hfirst
      obtain ⟨found, hfound, -⟩ := Option.map_eq_some_iff.1 hfirst
      exact ⟨found, hfound⟩
    · exact ih hmore step' hmem raw haction

/-! ## Outlines that can be made -/

/-- A class that is claimed for an outline. -/
def Outline.claim (o : Outline) : ClassClaim := ⟨o.output.parent, o.className, o.source⟩

section Feasible

variable (root : Path) (settings : Settings) (d : Disk)

/-- The module of an outline with its text. -/
def Outline.module (o : Outline) : Path × String := (o.output, (o.text? root settings d).getD "")

/-- Outlines that can all be made, in any order: each stands among them, no two have the same path or
the same class in a directory, and their files fit on the disk. -/
structure Feasible (outlines : List Outline) : Prop where
  stands : ∀ o ∈ outlines, Stands root settings d outlines o
  outputs : ∀ o ∈ outlines, ∀ q ∈ outlines, o.output.same q.output → o = q
  classes : ∀ o ∈ outlines, ∀ q ∈ outlines, o.output.parent.same q.output.parent →
    o.className = q.className → o = q
  fits : Emission.Fits settings.packageMarker (outlines.map Outline.output) d

end Feasible

section Feasible

variable {root : Path} {settings : Settings} {d : Disk} {outlines : List Outline}

/-- Modules that were made, and do not get in each other's way, can all be made. -/
theorem Drawn.feasible {s : Session} (h : Drawn root settings d outlines s) (hdistinct : s.Distinct)
    (hworking : d.kind? d.workingDirectory = some .directory)
    (hapart : Emission.Apart d (outlines.map Outline.output)) : Feasible root settings d outlines := by
  refine ⟨h.stands, ?_, ?_, h.leaves.fits ?_ hworking hapart⟩
  · intro o ho q hq hsame
    rw [Session.Distinct, h.made, List.pairwise_map] at hdistinct
    have hsymm : Std.Symm fun o q : Outline => ¬ o.entry.1.same q.entry.1 := by
      refine ⟨fun o q hnot hsame => hnot ?_⟩
      rw [Path.same_iff] at hsame ⊢
      exact hsame.symm
    by_contra hne
    exact hdistinct.forall ho hq hne hsame
  · intro o ho q hq hparent hclass
    -- the class is claimed by the sources of both
    obtain ⟨c, hc, hsource⟩ := h.claimed o ho
    obtain ⟨c', hc', hsource'⟩ := h.claimed q hq
    rw [Session.claim?_of_same hparent, hclass, hc'] at hc
    cases hc
    have ho' := h.stands o ho
    have hq' := h.stands q hq
    refine eq_of_outline?_eq ho'.outlined hq'.outlined (Path.eq_of_same_of_normal ho'.normal hq'.normal ?_)
    rw [Path.same_iff] at hsource hsource' ⊢
    rw [← hsource, hsource']
  · rw [List.forall_mem_map]
    exact fun o ho => (h.stands o ho).isModule

/-- Outlines with all their references are feasible among others that are. -/
theorem Feasible.of_closed (h : Feasible root settings d outlines) {some : List Outline}
    (hsubset : some ⊆ outlines)
    (hclosed : ∀ o ∈ some, ∀ step ∈ o.testcase.steps, ∀ raw, step.action = .call (.path raw) →
      ∃ q ∈ some, q.source = referenced root raw) : Feasible root settings d some where
  stands o ho := by
    obtain ⟨houtlined, hnormal, hplain, htext, -, hclear, hmodule⟩ := h.stands o (hsubset ho)
    exact ⟨houtlined, hnormal, hplain, htext, hclosed o ho, hclear, hmodule⟩
  outputs o ho q hq := h.outputs o (hsubset ho) q (hsubset hq)
  classes o ho q hq := h.classes o (hsubset ho) q (hsubset hq)
  fits := h.fits.of_subset (List.map_subset _ hsubset)

/-- What a reference of an outline leads to. -/
theorem Feasible.exists_called (h : Feasible root settings d outlines) {o : Outline} (ho : o ∈ outlines)
    {step : Step} (hstep : step ∈ o.testcase.steps) {raw : String}
    (haction : step.action = .call (.path raw)) :
    ∃ q ∈ outlines, q.source = referenced root raw ∧ Refers root (documentsOn d) o.source q.source ∧
      (∃ content, Source.load d q.source = .ok content ∧ content.mapping?.isNone = false) ∧
      ∃ name, Naming.moduleName root q.output = .ok name ∧
        referred? root settings d raw = some (q.made, name) := by
  have hstands := h.stands o ho
  obtain ⟨-, raw', document, hload, hdocument, htestcase, -⟩ :=
    outline?_eq_some_iff.1 hstands.outlined
  obtain ⟨q, hq, hsource⟩ := hstands.references step hstep raw haction
  obtain ⟨-, content, document', hload', hdocument', -, -⟩ :=
    outline?_eq_some_iff.1 (h.stands q hq).outlined
  -- the text could be worked out, so that the reference was found
  obtain ⟨text, htext⟩ := hstands.text
  obtain ⟨resolved, -, -, hresolved, -⟩ := Outline.text?_eq_some_iff.1 htext
  obtain ⟨⟨made, name⟩, hreferred⟩ := exists_of_resolveWith hresolved step hstep raw haction
  obtain ⟨q', hq', rfl, hname⟩ := referred?_eq_some_iff.1 hreferred
  obtain rfl : q = q' := by
    rw [← hsource, (h.stands q hq).outlined] at hq'
    exact Option.some.inj hq'
  exact ⟨q, hq, hsource, ⟨raw', document, o.testcase, toOption_eq_some_iff.2 hload, hdocument, htestcase,
    step, hstep, raw, haction, hsource⟩, ⟨content, hload', Legacy.mapping?_of_normalize hdocument'⟩, name,
    hname, hreferred⟩

end Feasible

/-! ## Sessions in which outlines were made -/

section Replayed

variable (root : Path) (settings : Settings) (d : Disk) (outlines : List Outline)

/-- Some of the outlines were made, with all their references, and nothing else was done; none of them is on
the stack. -/
structure Replayed (done : List Outline) (s : Session) : Prop where
  locator : s.locator = .fixed root
  reliable : s.disk.IsReliable
  touches : Disk.Touches (fun name => ¬ Source.IsDocumentName name) IsTemporaryName d s.disk
  subset : done ⊆ outlines
  made : s.made = done.map Outline.entry
  classes : s.classes = done.map Outline.claim
  closed : ∀ o ∈ done, ∀ step ∈ o.testcase.steps, ∀ raw, step.action = .call (.path raw) →
    ∃ q ∈ done, q.source = referenced root raw
  off : ∀ o ∈ done, o.source ∉ s.resolving
  laid : Emission.Laid settings.packageMarker (done.map (Outline.module root settings d)) d s.disk
  settings : s.settings = settings

/-- Some of the outlines were made. -/
def IsReplayed (s : Session) : Prop := ∃ done, Replayed root settings d outlines done s

end Replayed

section Replayed

variable {root : Path} {settings : Settings} {d : Disk} {outlines done : List Outline} {s : Session}
  {o : Outline}

theorem Replayed.of_resolving (h : Replayed root settings d outlines done s) {stack : List Path}
    (hoff : ∀ o ∈ done, o.source ∉ stack) :
    Replayed root settings d outlines done { s with resolving := stack } :=
  ⟨h.locator, h.reliable, h.touches, h.subset, h.made, h.classes, h.closed, hoff, h.laid, h.settings⟩

theorem Replayed.of_runSet (h : Replayed root settings d outlines done s) (runSet : List Path) :
    Replayed root settings d outlines done { s with runSet } :=
  ⟨h.locator, h.reliable, h.touches, h.subset, h.made, h.classes, h.closed, h.off, h.laid, h.settings⟩

theorem Replayed.load_iff (h : Replayed root settings d outlines done s)
    (hworking : d.kind? d.workingDirectory = some .directory) {p : Path} (hp : p.normalize = p)
    (v : Value) : Source.load s.disk p = .ok v ↔ Source.load d p = .ok v :=
  Source.load_eq_ok_iff_of_touches (fun _ hname hnot => hnot hname) h.touches hworking hp v

section Feasible

variable (hfeasible : Feasible root settings d outlines)
  (h : Replayed root settings d outlines done s)

include hfeasible h

theorem Replayed.mem_of_hasMade (ho : o ∈ outlines) (hmade : s.HasMade o.source) : o ∈ done := by
  obtain ⟨entry, hentry, hsource⟩ := hmade
  rw [h.made, List.mem_map] at hentry
  obtain ⟨q, hq, rfl⟩ := hentry
  have hqo := eq_of_outline?_eq (hfeasible.stands q (h.subset hq)).outlined
    (hfeasible.stands o ho).outlined hsource
  exact hqo ▸ hq

/-- An outline that was made has its module at its path. -/
theorem Replayed.made?_of_mem (ho : o ∈ done) : s.made? o.output = some o.made := by
  rw [Session.made?, Option.map_eq_some_iff]
  cases hfind : s.made.find? fun entry => entry.1.same o.output with
  | none =>
    rw [List.find?_eq_none] at hfind
    refine absurd (Path.same_iff.2 rfl) (hfind o.entry ?_)
    rw [h.made]
    exact List.mem_map_of_mem ho
  | some entry =>
    have hmem := List.mem_of_find?_eq_some hfind
    have hsame : entry.1.same o.output = true := by simpa using List.find?_some hfind
    rw [h.made, List.mem_map] at hmem
    obtain ⟨q, hq, rfl⟩ := hmem
    rw [hfeasible.outputs q (h.subset hq) o (h.subset ho) hsame]
    exact ⟨o.entry, rfl, rfl⟩

/-- An outline that was not made finds its path free, and its class. -/
theorem Replayed.free_of_notMem (ho : o ∈ outlines) (hnew : o ∉ done) :
    s.made? o.output = none ∧ s.claim? o.output.parent o.className = none ∧
      ∀ q ∈ done, q.output ≠ o.output := by
  refine ⟨?_, ?_, ?_⟩
  · rw [Session.made?_eq_none_iff, h.made]
    intro entry hentry hsame
    obtain ⟨q, hq, rfl⟩ := List.mem_map.1 hentry
    exact hnew (hfeasible.outputs q (h.subset hq) o ho hsame ▸ hq)
  · rw [Session.claim?, List.find?_eq_none, h.classes]
    intro c hc hsame
    obtain ⟨q, hq, rfl⟩ := List.mem_map.1 hc
    rw [Bool.and_eq_true, decide_eq_true_iff] at hsame
    exact hnew (hfeasible.classes q (h.subset hq) o ho hsame.1 hsame.2 ▸ hq)
  · intro q hq heq
    exact hnew (hfeasible.outputs q (h.subset hq) o ho (Path.same_iff.2 (by rw [heq])) ▸ hq)

/-- The module of one more outline can be written, and the session is then that of one more. -/
theorem Replayed.exists_add (hnames : settings.NamesApart) (ho : o ∈ outlines) (hnew : o ∉ done)
    (hoff : o.source ∉ s.resolving)
    (hreferences : ∀ step ∈ o.testcase.steps, ∀ raw, step.action = .call (.path raw) →
      ∃ q ∈ done, q.source = referenced root raw) {text : String}
    (htext : o.text? root settings d = some text) :
    ∃ d', Emission.emit settings.packageMarker text o.output.parent o.output s.disk = .ok () d' ∧
      Replayed root settings d outlines (done ++ [o])
        (Session.keep { s with disk := d', classes := s.classes ++ [o.claim] } o.output o.made) := by
  have hmodules : ∀ m ∈ done.map (Outline.module root settings d), m.1 ∈ outlines.map Outline.output := by
    rw [List.forall_mem_map]
    exact fun q hq => List.mem_map_of_mem (h.subset hq)
  have hapart : ∀ m ∈ done.map (Outline.module root settings d), m.1 ≠ o.output := by
    rw [List.forall_mem_map]
    exact (h.free_of_notMem hfeasible ho hnew).2.2
  obtain ⟨d', hemit, hreliable, hlaid⟩ := hfeasible.fits.exists_emit hmodules h.laid h.reliable
    (List.mem_map_of_mem ho) hapart text
  have hcovers := hnames.documents.covers
  obtain ⟨-, -, -, -, -, -, hplaced⟩ := outline?_eq_some_iff.1 (hfeasible.stands o ho).outlined
  have htouches := (Emission.touches_emit hcovers.temporary
    (fun name => hcovers.output o.output name (Naming.isGenerated_of_placed hplaced))
    (hcovers.marker o.output.parent) text s.disk).ok hemit
  refine ⟨d', hemit, h.locator, hreliable, h.touches.trans htouches, ?_, ?_, ?_, ?_, ?_, ?_, h.settings⟩
  · exact List.append_subset.2 ⟨h.subset, List.cons_subset.2 ⟨ho, List.nil_subset _⟩⟩
  · rw [List.map_append, ← h.made]
    exact Session.made_keep (h.free_of_notMem hfeasible ho hnew).1
  · rw [List.map_append, ← h.classes]
    rfl
  · intro q hq step hstep raw haction
    have hq' : ∃ r ∈ done, r.source = referenced root raw := by
      rcases List.mem_append.1 hq with hq | hq
      · exact h.closed q hq step hstep raw haction
      · rw [List.mem_singleton.1 hq] at hstep
        exact hreferences step hstep raw haction
    obtain ⟨r, hr, hsource⟩ := hq'
    exact ⟨r, List.mem_append_left _ hr, hsource⟩
  · intro q hq
    rcases List.mem_append.1 hq with hq | hq
    · exact h.off q hq
    · rw [List.mem_singleton.1 hq]
      exact hoff
  · have hmodule : o.module root settings d = (o.output, text) := by rw [Outline.module, htext]; rfl
    rw [List.map_append, List.map_singleton, hmodule]
    exact hlaid

end Feasible

end Replayed

/-! ## Runs -/

namespace Observed

variable {root : Path} {settings : Settings} {d : Disk} {outlines : List Outline} {depth : Nat}
  {s : Session}

/-- Every source on the stack leads to a path along references. -/
def Leads (root : Path) (d : Disk) (stack : List Path) (p : Path) : Prop :=
  ∀ q ∈ stack, q.normalize = q ∧ Relation.TransGen (Refers root (documentsOn d)) q p

/-- What is claimed of the calls that are nested in a run. -/
def ReplaysNested (root : Path) (settings : Settings) (d : Disk) (outlines : List Outline)
    (nested : Value → Path → Observed Path) : Prop :=
  ∀ (content : Value) (o : Outline) (s : Session), o ∈ outlines →
    IsReplayed root settings d outlines s → Leads root d s.resolving o.source →
    Source.load d o.source = .ok content →
    Yields (nested content o.source) s
      (fun output t => Keeps (IsReplayed root settings d outlines) s t ∧ output = o.output ∧
        t.HasMade o.source)
      fun e => ∃ p, e = .tooDeep p

section Nested

variable {nested : Value → Path → Observed Path}
  (hnested : ReplaysNested root settings d outlines nested)
  (hfeasible : Feasible root settings d outlines)
  (hworking : d.kind? d.workingDirectory = some .directory)

include hnested hfeasible hworking

/-- A call of an outline finds the module that its document says. -/
theorem replays_called (hs : IsReplayed root settings d outlines s) {o : Outline} (ho : o ∈ outlines)
    (hleads : ∀ q ∈ s.resolving, q.normalize = q ∧
      Relation.ReflTransGen (Refers root (documentsOn d)) q o.source)
    {step : Step} (hstep : step ∈ o.testcase.steps) :
    Finds root settings d (IsReplayed root settings d outlines) (fun e => ∃ p, e = .tooDeep p) depth
      nested o.source s step := by
  intro raw haction
  obtain ⟨done, hdone⟩ := hs
  obtain ⟨q, hq, hsource, hrefers, ⟨content, hload, hmapping⟩, name, hname, hreferred⟩ :=
    hfeasible.exists_called ho hstep haction
  have hopened : Make.opened o.source step raw s = .ok (content, q.source) s := by
    rw [hsource]
    refine Make.opened_eq_ok hdone.locator ?_ hmapping o.source step
    rw [← hsource, hdone.load_iff hworking (hfeasible.stands q hq).normal, hload]
  unfold called
  refine .bind_of_eq_ok hopened ?_
  have hleads' : Leads root d s.resolving q.source :=
    fun r hr => ⟨(hleads r hr).1, .tail' (hleads r hr).2 hrefers⟩
  refine .bind (hnested content q s hq ⟨done, hdone⟩ hleads' hload) ?_
  rintro _ t ⟨ht, rfl, hhas⟩
  obtain ⟨done', hdone'⟩ := ht.keeps ⟨done, hdone⟩
  have hfound := hdone'.made?_of_mem hfeasible (hdone'.mem_of_hasMade hfeasible hq hhas)
  refine Yields.of_eq_ok (Make.foundAt_eq_ok hfound) ⟨ht, hsource ▸ hhas, ?_⟩
  exact Yields.of_eq_ok (Make.moduleName_eq_ok hdone'.locator hname) ⟨rfl, hreferred⟩

/-- The module of an outline that was not made is made. -/
theorem replays_build (hnames : settings.NamesApart) (hs : IsReplayed root settings d outlines s)
    {o : Outline} (ho : o ∈ outlines) (hnew : s.made? o.output = none) (hoff : o.source ∉ s.resolving)
    (hleads : Leads root d s.resolving o.source) (content : Value) :
    Yields (build depth nested content o.testcase o.output o.className) s
      (fun _ t => Keeps (IsReplayed root settings d outlines) s t ∧ t.HasMade o.source)
      fun e => ∃ p, e = .tooDeep p := by
  obtain ⟨done, hdone⟩ := hs
  have hstands := hfeasible.stands o ho
  have hsource : o.testcase.config.source = o.source := source_of_outline? hstands.outlined
  have hnotMem : o ∉ done := by
    intro hmem
    rw [hdone.made?_of_mem hfeasible hmem] at hnew
    cases hnew
  have hpushed : IsReplayed root settings d outlines { s with resolving := s.resolving ++ [o.source] } := by
    refine ⟨done, hdone.of_resolving fun q hq => ?_⟩
    rw [List.mem_append, List.mem_singleton, not_or]
    refine ⟨hdone.off q hq, fun hqo => hnotMem ?_⟩
    have hqo' := eq_of_outline?_eq (hfeasible.stands q (hdone.subset hq)).outlined hstands.outlined hqo
    exact hqo' ▸ hq
  have hfinds : ∀ t, Keeps (IsReplayed root settings d outlines)
      { s with resolving := s.resolving ++ [o.source] } t → ∀ step ∈ o.testcase.steps,
      Finds root settings d (IsReplayed root settings d outlines) (fun e => ∃ p, e = .tooDeep p) depth
        nested o.source t step := by
    intro t ht step hstep
    refine replays_called hnested hfeasible hworking (ht.keeps hpushed) ho ?_ hstep
    rw [ht.resolving, List.forall_mem_append]
    refine ⟨fun q hq => ⟨(hleads q hq).1, (hleads q hq).2.to_reflTransGen⟩, ?_⟩
    rw [List.forall_mem_singleton]
    exact ⟨hstands.normal, .refl⟩
  unfold build
  rw [hsource]
  refine .bind (Yields.resolveCalls hfinds) ?_
  rintro ⟨steps, imports⟩ _ ⟨inner, rfl, hinner, hcalls, hresolved⟩
  obtain ⟨done', hdone'⟩ := hinner.keeps hpushed
  -- the source is still on the stack, so that it was not made by one of its calls
  have hnotMem' : o ∉ done' := by
    intro hmem
    refine hdone'.off o hmem ?_
    rw [hinner.resolving]
    exact List.mem_append_right _ List.mem_cons_self
  have hreferences : ∀ step ∈ o.testcase.steps, ∀ raw, step.action = .call (.path raw) →
      ∃ q ∈ done', q.source = referenced root raw := by
    intro step hstep raw haction
    obtain ⟨q, hq, hqsource, -⟩ := hfeasible.exists_called ho hstep haction
    refine ⟨q, hdone'.mem_of_hasMade hfeasible hq ?_, hqsource⟩
    rw [hqsource]
    exact hcalls step hstep raw haction
  set t : Session := { inner with resolving := s.resolving }
  replace hdone' : Replayed root settings d outlines done' t := by
    refine hdone'.of_resolving fun q hq hmem => hdone'.off q hq ?_
    rw [hinner.resolving]
    exact List.mem_append_left _ hmem
  -- the text that was worked out is the one that is written
  obtain ⟨text, htext⟩ := hstands.text
  obtain ⟨resolved, below, script, hresolved', hbelow, hscript, rfl⟩ :=
    Outline.text?_eq_some_iff.1 htext
  obtain rfl : resolved = (steps, imports) := Option.some.inj (hresolved'.symm.trans hresolved)
  have hscripted : Make.scripted { o.testcase with steps } o.className imports t = .ok script t :=
    Make.scripted_eq_ok hdone'.locator (hsource ▸ hbelow) (hdone'.settings ▸ hscript)
  refine Yields.bind_of_eq_ok hscripted ?_
  have hclaim := (hdone'.free_of_notMem hfeasible ho hnotMem').2.1
  refine Yields.bind_of_eq_ok (Make.claimClass_eq_ok hclaim o.source) ?_
  obtain ⟨d', hemit, hadd⟩ :=
    hdone'.exists_add hfeasible hnames ho hnotMem' hoff hreferences htext
  obtain ⟨name, hmodule, -⟩ := hstands.isModule.names
  refine Yields.bind_of_eq_ok (Make.emit_eq_ok hmodule.endsIn (hdone'.settings ▸ hemit)) ?_
  have hkept : ∀ u, (keep depth ⟨content, o.testcase, o.output, o.className, imports, script⟩ u).1
      = .ok () (u.keep o.output o.made) := by
    intro u
    show EStateM.Result.ok () (u.keep _ _) = _
    rw [entry_of_outline? hstands.outlined]
    rfl
  refine Yields.of_eq_ok (hkept _) ⟨⟨?_, rfl, hinner.runSet, fun _ => ⟨done' ++ [o], hadd⟩⟩, o.entry, ?_, rfl⟩
  · exact Session.prefix_made_keep hnew hinner.made
  · exact hadd.made ▸ List.mem_map_of_mem (List.mem_append_right _ List.mem_cons_self)

/-- The module of an outline is made, or was made before. -/
theorem replays_testcaseWith (hnames : settings.NamesApart) (hs : IsReplayed root settings d outlines s)
    {o : Outline} (ho : o ∈ outlines) (hleads : Leads root d s.resolving o.source) {content : Value}
    (hload : Source.load d o.source = .ok content) :
    Yields (testcaseWith depth nested content o.source none) s
      (fun output t => Keeps (IsReplayed root settings d outlines) s t ∧ output = o.output ∧
        t.HasMade o.source)
      fun e => ∃ p, e = .tooDeep p := by
  obtain ⟨done, hdone⟩ := hs
  have hstands := hfeasible.stands o ho
  obtain ⟨-, content', document, hload', hdocument, htestcase, hplaced⟩ :=
    outline?_eq_some_iff.1 hstands.outlined
  obtain rfl : content' = content := Except.ok.inj (hload'.symm.trans hload)
  have hdrafted : Make.drafted content' o.source none s = .ok (o.testcase, o.output, o.className) s := by
    refine Make.drafted_eq_ok hdone.locator hdocument htestcase ?_
    rw [Naming.placedIn_none, hdone.settings, hplaced]
  -- no source leads back to itself
  have hoff : ∀ q ∈ s.resolving, ¬ q.same o.source := by
    intro q hq hsame
    obtain ⟨hnormal, hpath⟩ := hleads q hq
    rw [Path.eq_of_same_of_normal hnormal hstands.normal hsame] at hpath
    exact hstands.clear.not_transGen hpath
  unfold testcaseWith
  rw [hstands.normal]
  refine Yields.bind_of_eq_ok hdrafted (Yields.bind_of_eq_ok (t := s) (a := s) rfl ?_)
  by_cases hmem : o ∈ done
  · rw [hdone.made?_of_mem hfeasible hmem]
    have hsame : o.made.source.same o.source = true := Path.same_iff.2 rfl
    dsimp only
    rw [if_pos hsame]
    refine .pure ⟨.refl s, rfl, o.entry, ?_, rfl⟩
    rw [hdone.made]
    exact List.mem_map_of_mem hmem
  · have hnone := (hdone.free_of_notMem hfeasible ho hmem).1
    rw [hnone]
    dsimp only
    rw [if_neg (by simpa using hoff)]
    have hnot : o.source ∉ s.resolving := fun hon => hoff o.source hon (Path.same_iff.2 rfl)
    refine .bind (replays_build hnested hfeasible hworking hnames ⟨done, hdone⟩ ho hnone hnot hleads _) ?_
    exact fun _ t ht => .pure ⟨ht.1, rfl, ht.2⟩

end Nested

/-- The modules of feasible outlines are made, unless calls are nested too deep for the bound. -/
theorem replays_testcaseWithin (hfeasible : Feasible root settings d outlines)
    (hworking : d.kind? d.workingDirectory = some .directory) (hnames : settings.NamesApart)
    (fuel : Nat) :
    ReplaysNested root settings d outlines fun content p => testcaseWithin depth fuel content p none := by
  induction fuel generalizing depth with
  | zero => exact fun _ o _ _ _ _ _ => .of_eq rfl (fun _ => trivial) fun _ => ⟨o.source, rfl⟩
  | succ fuel ih =>
    intro content o s ho hs hleads hload
    exact replays_testcaseWith ih hfeasible hworking hnames hs ho hleads hload

end Observed

/-- From a session with an empty stack, the module of a feasible outline is made. -/
theorem exists_testcase_eq_ok {root : Path} {settings : Settings} {d : Disk} {outlines : List Outline}
    (hfeasible : Feasible root settings d outlines)
    (hworking : d.kind? d.workingDirectory = some .directory) (hnames : settings.NamesApart)
    {s : Session} (hs : IsReplayed root settings d outlines s) (hstack : s.resolving = []) {o : Outline}
    (ho : o ∈ outlines) {content : Value} (hload : Source.load d o.source = .ok content) :
    ∃ t, Make.testcase content o.source none s = .ok o.output t ∧
      Keeps (IsReplayed root settings d outlines) s t ∧ t.HasMade o.source := by
  have hreplays : Observed.ReplaysNested root settings d outlines fun content p =>
      Observed.testcaseWithin 1 (Make.depthBound s.disk) content p none :=
    Observed.replays_testcaseWithin hfeasible hworking hnames (Make.depthBound s.disk)
  have hends := (hreplays content o s ho hs (by simp [Observed.Leads, hstack]) hload).ends
    fun _ _ => trivial
  dsimp only at hends
  rw [Observed.testcaseWithin_fst] at hends
  cases hresult : Make.testcaseWithin (Make.depthBound s.disk) content o.source none s with
  | ok output t =>
    rw [hresult] at hends
    obtain ⟨ht, rfl, hmade⟩ := hends
    exact ⟨t, hresult, ht, hmade⟩
  | error e t =>
    -- the bound on the nesting of calls is not met
    rw [hresult] at hends
    obtain ⟨p, rfl⟩ := hends
    obtain ⟨done, hdone⟩ := hs
    have hdirectory : s.disk.kind? s.disk.workingDirectory = some .directory := by
      rw [hdone.laid.workingDirectory]
      exact hdone.touches.directory _ hworking
    have hunchanging := unchanging_of_writesNoDocument hstack (hdone.settings ▸ hnames.documents)
      hdirectory content o.source none
    have hterminates := Make.terminatesWithin_of_unchanging hstack hunchanging
    exact absurd hresult ((hterminates _ le_rfl).2 p t)

end TestScribe
