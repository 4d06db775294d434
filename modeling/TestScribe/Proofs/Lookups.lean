/-
# Steps that look something up

Most steps of making a module only look something up: they leave the session as it is, but for the roots
that are remembered, and they do not fail because of the nesting of calls.  One statement for each such
step says what it finds, also where the root is fixed, and one for each step that does more says what that
is.

* `Locator.Gives`, `Session.Rooted` : the roots that a locator gives, and remembered roots that are such;
* `Session.Alike` : sessions that differ in remembered roots at most;
* `LooksUp` : a step looks something up, and what it finds;
* `Make.looksUp_opened`, `Make.looksUp_drafted`, `Make.looksUp_scripted` and so on : the steps;
* `Make.ends_claimClass`, `Make.ends_emit` : the steps that change something else, `Runs.claimClass`, `Runs.emit` :
  these steps in a run;
* `Runs.resolveSteps` : what is kept by the calls of a module is kept by all of them together.
-/
import TestScribe.Proofs.Course
import TestScribe.Proofs.Documents
import TestScribe.Proofs.Making

namespace TestScribe

/-! ## Roots -/

/-- An ancestor is what a path begins with. -/
theorem Path.components_prefix_of_mem_ancestors {p q : Path} (h : q ∈ p.ancestors) :
    q.components <+: p.components := by
  have hwithin : ∀ (fuel : Nat) (p : Path), q ∈ ancestorsWithin fuel p → q.components <+: p.components := by
    intro fuel
    induction fuel with
    | zero =>
      intro p hq
      rw [ancestorsWithin, List.mem_singleton] at hq
      rw [hq]
    | succ fuel ih =>
      intro p hq
      rw [ancestorsWithin] at hq
      cases hparent : p.parent? with
      | none =>
        rw [hparent, List.mem_singleton] at hq
        rw [hq]
      | some above =>
        rw [hparent] at hq
        rcases List.mem_cons.1 hq with rfl | hq
        · exact List.prefix_rfl
        · have habove : above.components = p.components.dropLast := by
            rw [← components_parent, parent, hparent, Option.getD_some]
          exact (ih above hq).trans (habove ▸ List.dropLast_prefix _)
  exact hwithin _ p h

/-- The root that a locator may give a path, whatever it remembers: the fixed one, or else the fallback or a
directory at or above the path. -/
def Locator.Gives (l : Locator) (p root : Path) : Prop :=
  match l with
  | .fixed only => root = only
  | .marker _ fallback => root = fallback ∨ root.components <+: p.components

/-- A locator that remembers such roots gives such a root and remembers it. -/
theorem Locator.gives_find {l : Locator} {memo : Memo} (h : ∀ entry ∈ memo, l.Gives entry.1 entry.2)
    (d : Disk) (p : Path) :
    l.Gives p (l.find d memo p).1 ∧ ∀ entry ∈ (l.find d memo p).2, l.Gives entry.1 entry.2 := by
  cases l with
  | fixed root => exact ⟨rfl, h⟩
  | marker name fallback =>
    have hstart : (start d p).components <+: p.components := by
      rw [start]
      split
      · exact List.prefix_rfl
      · rw [Path.components_parent]
        exact List.dropLast_prefix _
    rw [find]
    cases hknown : known? memo (start d p) with
    | some root =>
      refine ⟨?_, h⟩
      obtain ⟨entry, hentry, rfl⟩ := Option.map_eq_some_iff.1 hknown
      have hsame : entry.1.same (start d p) := by simpa using List.find?_some hentry
      rw [Path.same_iff] at hsame
      refine (h entry (List.mem_of_find?_eq_some hentry)).imp_right fun hbegins => ?_
      exact (hsame ▸ hbegins).trans hstart
    | none =>
      have hsearch : (Locator.marker name fallback).Gives (start d p) (search d name fallback (start d p)) := by
        rw [search]
        cases hfound : (start d p).ancestors.find? fun directory => d.isFile (directory.child name) with
        | none => exact .inl rfl
        | some root => exact .inr (Path.components_prefix_of_mem_ancestors (List.mem_of_find?_eq_some hfound))
      refine ⟨hsearch.imp_right fun hbegins => hbegins.trans hstart, ?_⟩
      intro entry hentry
      rcases List.mem_cons.1 hentry with rfl | hentry
      · exact hsearch
      · exact h entry hentry

/-! ## Sessions with other roots remembered -/

/-- All roots that a session remembers are such as its locator may give. -/
def Session.Rooted (s : Session) : Prop := ∀ entry ∈ s.roots, s.locator.Gives entry.1 entry.2

/-- The sessions differ in the roots they remember at most, and not at all if the root is fixed. -/
structure Session.Alike (s t : Session) : Prop where
  roots : ∃ roots, t = { s with roots }
  fixed : ∀ {root}, s.locator = .fixed root → t = s
  rooted : s.Rooted → t.Rooted

namespace Session.Alike

variable {s t u : Session}

theorem refl (s : Session) : Alike s s := ⟨⟨s.roots, rfl⟩, fun _ => rfl, id⟩

theorem trans (h : Alike s t) (h' : Alike t u) : Alike s u := by
  obtain ⟨roots, rfl⟩ := h.roots
  obtain ⟨roots', rfl⟩ := h'.roots
  refine ⟨⟨roots', rfl⟩, fun hroot => ?_, h'.rooted ∘ h.rooted⟩
  rw [h'.fixed hroot, h.fixed hroot]

end Session.Alike

/-- From the session `s`, a step looks something up and finds what has `P`. -/
structure LooksUp {α : Type} (step : Make α) (s : Session) (P : α → Prop) : Prop where
  ends : Ends (fun a t => s.Alike t ∧ P a) (fun e t => s.Alike t ∧ e.category ≠ .cyclicReference)
    (step s)

namespace LooksUp

variable {α β : Type} {step : Make α} {s : Session} {P : α → Prop}

theorem pure {a : α} (h : P a) : LooksUp (Pure.pure a) s P := ⟨.refl s, h⟩

theorem throw {e : Fault} (h : e.category ≠ .cyclicReference) : LooksUp (throw e) s P :=
  ⟨.refl s, h⟩

theorem get : LooksUp get s (s = ·) := ⟨.refl s, rfl⟩

/-- Looking up one thing after the other looks something up. -/
theorem bind {f : α → Make β} {P' : β → Prop} (h : LooksUp step s P)
    (hf : ∀ a t, s.Alike t → P a → LooksUp (f a) t P') : LooksUp (step >>= f) s P' := by
  obtain ⟨hends⟩ := h
  constructor
  cases hstep : step s with
  | ok a t =>
    rw [hstep] at hends
    rw [bind_of_ok hstep]
    obtain ⟨hlast⟩ := hf a t hends.1 hends.2
    cases hrun : f a t with
    | ok b u =>
      rw [hrun] at hlast
      exact ⟨hends.1.trans hlast.1, hlast.2⟩
    | error e u =>
      rw [hrun] at hlast
      exact ⟨hends.1.trans hlast.1, hlast.2⟩
  | error e t =>
    rw [hstep] at hends
    rw [bind_of_error hstep]
    exact hends

theorem mono {P' : α → Prop} (h : LooksUp step s P) (hP : ∀ a, P a → P' a) : LooksUp step s P' := by
  obtain ⟨hends⟩ := h
  constructor
  cases hstep : step s with
  | ok a t =>
    rw [hstep] at hends
    exact ⟨hends.1, hP a hends.2⟩
  | error e t =>
    rw [hstep] at hends
    exact hends

theorem and {P' : α → Prop} (h : LooksUp step s P)
    (h' : LooksUp step s P') : LooksUp step s fun a => P a ∧ P' a := by
  obtain ⟨hends⟩ := h
  obtain ⟨hends'⟩ := h'
  constructor
  cases hstep : step s with
  | ok a t =>
    rw [hstep] at hends hends'
    exact ⟨hends.1, hends.2, hends'.2⟩
  | error e t =>
    rw [hstep] at hends
    exact hends

theorem ofExcept {ε : Type} {fault : ε → Fault} {x : Except ε α}
    (h : ∀ e, x = .error e → (fault e).category ≠ .cyclicReference) :
    LooksUp (Make.ofExcept fault x) s (x = .ok ·) := by
  cases x with
  | ok a => exact pure rfl
  | error e => exact throw (h e rfl)

theorem ensures (h : LooksUp step s P) : Ensures step s (fun a t => s.Alike t ∧ P a) s.Alike := by
  obtain ⟨hends⟩ := h
  constructor
  · intro a t hstep
    rwa [hstep] at hends
  · intro e t hstep
    rw [hstep] at hends
    exact hends.1

end LooksUp

/-! ## The steps -/

namespace Make

variable {s : Session}

/-- The root of a path is the fixed one, if there is one. -/
theorem looksUp_findRoot (p : Path) :
    LooksUp (findRoot p) s fun found => ∀ root, s.locator = .fixed root → found = root := by
  cases hlocator : s.locator with
  | fixed root =>
    constructor
    rw [findRoot_eq hlocator]
    refine ⟨.refl s, ?_⟩
    rintro _ ⟨⟩
    rfl
  | marker name fallback =>
    refine ⟨⟨⟨_, rfl⟩, ?_, fun hrooted => (Locator.gives_find hrooted s.disk p).2⟩, nofun⟩
    intro root hroot
    rw [hlocator] at hroot
    cases hroot

/-- A reference names a file, which is found by the path in normal form. -/
theorem looksUp_reference (source : Path) (raw : String) :
    LooksUp (reference source raw) s fun p => p.normalize = p ∧
      ∀ root, s.locator = .fixed root → p = referenced root raw := by
  -- Absolute or joined to the root, the path goes through the same last step.
  have hlast : ∀ (p : Path) (t : Session), s.Alike t →
      (∀ root, s.locator = .fixed root → p.normalize = referenced root raw) →
      LooksUp (do
        if (← get).disk.isFile p.normalize then return p.normalize
        else throw (.missing (.reference p.normalize)) : Make Path) t fun p => p.normalize = p ∧
          ∀ root, s.locator = .fixed root → p = referenced root raw := by
    intro p t _ hp
    refine .bind .get ?_
    rintro u _ - rfl
    split
    · exact .pure ⟨Path.normalize_normalize p, hp⟩
    · exact .throw (by simp [Fault.category])
  simp only [reference, pure_bind]
  split
  · next h => exact hlast _ s (.refl s) fun root _ => by rw [referenced, if_pos h]
  · next h =>
    refine .bind (looksUp_findRoot source) ?_
    intro root t ht hroot
    refine hlast _ t ht fun root' hfixed => ?_
    rw [referenced, if_neg h, hroot root' hfixed]

/-- A step calls a document that can be loaded from the path its reference names. -/
theorem looksUp_opened (source : Path) (step : Step) (raw : String) :
    LooksUp (opened source step raw) s fun found => found.2.normalize = found.2 ∧
      Source.load s.disk found.2 = .ok found.1 ∧
      ∀ root, s.locator = .fixed root → found.2 = referenced root raw := by
  unfold opened
  refine .bind (looksUp_reference source raw) ?_
  rintro p t ht ⟨hp, hroot⟩
  refine .bind .get ?_
  rintro _ t' ht' rfl
  have hdisk : s.disk = t.disk := by
    obtain ⟨roots, rfl⟩ := ht.roots
    rfl
  refine .bind (.ofExcept ?_) ?_
  · intro e he hcategory
    rcases Source.isLoadFault_of_load he with hload | rfl
    · rw [Fault.isLoadFault, ← id_eq e, hcategory] at hload
      cases hload
    · cases hcategory
  · intro content u _ hload
    rw [← hdisk] at hload
    split
    · exact .throw (by simp [Fault.category])
    · exact .pure ⟨hp, hload, hroot⟩

/-- The dotted name of a path is that below some root, the fixed one if there is one. -/
theorem looksUp_moduleName (p : Path) :
    LooksUp (moduleName p) s fun dotted => ∃ root, Naming.moduleName root p = .ok dotted ∧
      ∀ other, s.locator = .fixed other → root = other := by
  refine .bind (looksUp_findRoot _) ?_
  intro root t _ hroot
  exact (LooksUp.ofExcept (by simp [Fault.category])).mono fun dotted hdotted => ⟨root, hdotted, hroot⟩

/-- What was made at a path is found there. -/
theorem looksUp_foundAt (output : Path) :
    LooksUp (foundAt output) s fun found => found.1 = output ∧ s.made? output = some found.2 := by
  refine .bind .get ?_
  rintro _ t - rfl
  cases hmade : s.made? output with
  | some made => exact .pure ⟨rfl, rfl⟩
  | none => exact .throw (by simp [Fault.category])

/-- The script of a module is that of a source below the root. -/
theorem looksUp_scripted (testcase : Testcase) (className : String) (imports : List Import) :
    LooksUp (scripted testcase className imports) s fun script => ∃ below,
      (∃ root, Naming.relative root testcase.config.source = .ok below) ∧
      (∀ root, s.locator = .fixed root → Naming.relative root testcase.config.source = .ok below) ∧
      Make.script s.settings testcase className imports below = .ok script := by
  have hrelative : LooksUp (relative testcase.config.source) s fun below =>
      (∃ root, Naming.relative root testcase.config.source = .ok below) ∧
      ∀ root, s.locator = .fixed root → Naming.relative root testcase.config.source = .ok below := by
    refine .bind (looksUp_findRoot _) ?_
    intro found t _ hroot
    refine (LooksUp.ofExcept (by simp [Fault.category])).mono ?_
    intro below hbelow
    exact ⟨⟨found, hbelow⟩, fun root hfixed => by rw [← hroot root hfixed, hbelow]⟩
  refine .bind hrelative ?_
  rintro below t ht ⟨hexists, hbelow⟩
  refine .bind .get ?_
  rintro _ t' _ rfl
  refine (LooksUp.ofExcept (by simp [Fault.category])).mono fun script hscript => ?_
  obtain ⟨roots, rfl⟩ := ht.roots
  exact ⟨below, hexists, hbelow, hscript⟩

end Make

/-- The path of a module: a stem with the suffix in some directory, or the file name of such a path in
another one. -/
inductive Naming.IsGenerated (suffix : String) : Path → Prop
  | beside (directory : Path) (stem : String) : IsGenerated suffix (directory.child (stem ++ suffix))
  | elsewhere {p : Path} {name : String} (directory : Path) : IsGenerated suffix p →
    p.fileName? = some name → IsGenerated suffix (directory.child name)

/-- A generated path ends in the suffix. -/
theorem Naming.IsGenerated.endsIn {suffix : String} {p : Path} (h : IsGenerated suffix p)
    (hplain : '/' ∉ suffix.toList) (hsuffix : ∃ c ∈ suffix.toList, c ≠ '.') :
    ∃ front, p.EndsIn (front ++ suffix) := by
  induction h with
  | beside directory stem => exact Path.endsIn_child_append directory stem hplain hsuffix
  | elsewhere directory _ hname ih =>
    obtain ⟨front, hend⟩ := ih
    rw [hend.fileName?_eq, Option.some_inj] at hname
    rw [← hname]
    exact Path.endsIn_child_append directory front hplain hsuffix

/-- The names of all files that are written, temporary ones among them, are to be touched. -/
structure Settings.Covers (settings : Settings) (touched : String → Prop) : Prop where
  temporary : ∀ name, IsTemporaryName name → touched name
  output : ∀ p name, Naming.IsGenerated settings.generatedSuffix p → p.EndsIn name → touched name
  marker : ∀ directory name, (Path.child directory settings.packageMarker).EndsIn name → touched name

theorem Settings.covers_true (settings : Settings) : settings.Covers fun _ => True :=
  ⟨fun _ _ => trivial, fun _ _ _ _ => trivial, fun _ _ _ => trivial⟩

/-- If no document is written, the names that are written are no names of documents. -/
theorem Settings.WritesNoDocument.covers {settings : Settings} (h : settings.WritesNoDocument) :
    settings.Covers fun name => ¬ Source.IsDocumentName name where
  temporary := by
    rintro _ ⟨front, rfl⟩
    exact Source.not_isDocumentName_temporary front
  output p name hp hend := by
    obtain ⟨front, hend'⟩ := hp.endsIn h.suffix.1 h.suffix.exists_ne_dot
    have hsame : some name = some (front ++ settings.generatedSuffix) := by rw [← hend.1, ← hend'.1]
    rw [Option.some_inj.1 hsame]
    exact h.suffix.not_isDocumentName front
  marker directory name hend := by
    obtain ⟨front, hend'⟩ : ∃ front,
        (directory.child ("" ++ settings.packageMarker)).EndsIn (front ++ settings.packageMarker) :=
      Path.endsIn_child_append directory "" h.marker.1 h.marker.exists_ne_dot
    rw [String.empty_append] at hend'
    have hsame : some name = some (front ++ settings.packageMarker) := by rw [← hend.1, ← hend'.1]
    rw [Option.some_inj.1 hsame]
    exact h.marker.not_isDocumentName front

namespace Make

variable {s : Session}

/-- A module is placed where its source belongs. -/
theorem looksUp_place (source : Path) (outputDirectory : Option Path) :
    LooksUp (place source outputDirectory) s fun placed =>
      Naming.IsGenerated s.settings.generatedSuffix placed.1 ∧ ∀ root, s.locator = .fixed root →
        Naming.placedIn root s.settings.generatedSuffix source outputDirectory = .ok placed := by
  have htidied : LooksUp (tidied source) s fun p => ∀ root, s.locator = .fixed root →
      Naming.tidy root root source = .ok p := by
    refine .bind (looksUp_findRoot source) ?_
    intro found t ht hroot
    refine .bind (looksUp_findRoot _) ?_
    intro found' t' _ hroot'
    have hlocator : s.locator = t.locator := by
      obtain ⟨roots, rfl⟩ := ht.roots
      rfl
    refine (LooksUp.ofExcept ?_).mono ?_
    · simp [Fault.category]
    · intro p hp root hfixed
      rw [hroot root hfixed, hroot' root (hlocator ▸ hfixed)] at hp
      exact hp
  have houtput : LooksUp (output source) s fun placed =>
      Naming.IsGenerated s.settings.generatedSuffix placed.1 ∧ ∀ root, s.locator = .fixed root →
        Naming.placed root s.settings.generatedSuffix source = .ok placed := by
    refine .bind htidied ?_
    intro p t ht hp
    refine .bind .get ?_
    rintro _ t' _ rfl
    have hsettings : s.settings = t.settings := by
      obtain ⟨roots, rfl⟩ := ht.roots
      rfl
    rw [hsettings]
    refine .pure ⟨.beside _ _, fun root hfixed => ?_⟩
    rw [Naming.placed, hp root hfixed]
    rfl
  refine .bind houtput ?_
  rintro ⟨p, className⟩ t _ ⟨hgenerated, hplaced⟩
  cases outputDirectory with
  | none => exact .pure ⟨hgenerated, fun root hfixed => (Naming.placedIn_none _ _ _).trans (hplaced root hfixed)⟩
  | some directory =>
    cases hname : p.fileName? with
    | none =>
      simp only [hname]
      exact .pure ⟨hgenerated,
        fun root hfixed => Naming.placedIn_of_no_fileName (hplaced root hfixed) directory hname⟩
    | some name =>
      simp only [hname]
      exact .pure ⟨.elsewhere directory hgenerated hname,
        fun root hfixed => Naming.placedIn_of_fileName (hplaced root hfixed) directory hname⟩

/-- A document that passes is read as a testcase, and its module has a place. -/
theorem looksUp_drafted (raw : Value) (source : Path) (outputDirectory : Option Path) :
    LooksUp (drafted raw source outputDirectory) s fun draft =>
      (∃ document, Legacy.normalize raw = .ok document ∧
        Testcase.ofDocument document source = .ok draft.1) ∧
      Naming.IsGenerated s.settings.generatedSuffix draft.2.1 ∧ ∀ root, s.locator = .fixed root →
        Naming.placedIn root s.settings.generatedSuffix source outputDirectory = .ok draft.2 := by
  refine .bind (.ofExcept (by simp [Fault.category])) ?_
  intro document t ht hdocument
  refine .bind (.ofExcept (by simp [Fault.category])) ?_
  intro testcase t' ht' htestcase
  refine .bind (looksUp_place source outputDirectory) ?_
  intro placed u _ hplaced
  obtain ⟨roots, rfl⟩ := (ht.trans ht').roots
  exact .pure ⟨⟨document, hdocument, htestcase⟩, hplaced⟩

/-- A document that passes has the testcase and the place that were worked out for it, and the session
stays as it is. -/
theorem drafted_eq_ok {root : Path} (hroot : s.locator = .fixed root) {raw : Value} {document : Mapping}
    (hdocument : Legacy.normalize raw = .ok document) {source : Path} {testcase : Testcase}
    (htestcase : Testcase.ofDocument document source = .ok testcase) {outputDirectory : Option Path}
    {placed : Path × String}
    (hplaced : Naming.placedIn root s.settings.generatedSuffix source outputDirectory = .ok placed) :
    drafted raw source outputDirectory s = .ok (testcase, placed) s := by
  obtain ⟨⟨beside, className⟩, hbeside, hout⟩ := map_eq_ok.1 hplaced
  obtain ⟨p, hp, hp'⟩ := map_eq_ok.1 hbeside
  have htidied : tidied source s = .ok p s := by
    unfold tidied
    rw [bind_of_ok (findRoot_eq hroot source), bind_of_ok (findRoot_eq hroot _), hp]
    rfl
  have houtput : output source s = .ok (beside, className) s := by
    unfold output
    rw [bind_of_ok htidied, ← hp']
    rfl
  have hplace : place source outputDirectory s = .ok placed s := by
    unfold place
    rw [bind_of_ok houtput, ← hout]
    cases outputDirectory with
    | none => rfl
    | some directory => cases hname : beside.fileName? <;> simp only [hname] <;> rfl
  unfold drafted
  rw [hdocument, bind_of_ok (rfl : ofExcept .schema (.ok document) s = .ok document s), htestcase,
    bind_of_ok (rfl : ofExcept .schema (.ok testcase) s = .ok testcase s), bind_of_ok hplace]
  rfl

/-! ## Steps that change something -/

/-- A class is claimed only where no other source has claimed it, and is then claimed. -/
theorem ends_claimClass (output : Path) (className : String) (source : Path) (s : Session) :
    Ends (fun _ t => (∃ more, t = { s with classes := s.classes ++ more }) ∧
        (∃ c, t.claim? output.parent className = some c ∧ c.source.same source) ∧
        ∀ c, s.claim? output.parent className = some c → c.source.same source)
      (fun e t => t = s ∧ e.category ≠ .cyclicReference) (claimClass output className source s) := by
  have hensures := ensures_claimClass output className source s
  cases hrun : claimClass output className source s with
  | ok a t => exact hensures.ok hrun
  | error e t =>
    refine ⟨hensures.error hrun, ?_⟩
    unfold claimClass at hrun
    simp only [bind, EStateM.bind, get, getThe, MonadStateOf.get, EStateM.get] at hrun
    cases hclaim : s.claim? output.parent className with
    | none =>
      rw [hclaim] at hrun
      cases hrun
    | some c =>
      rw [hclaim] at hrun
      dsimp only at hrun
      split at hrun
      · cases hrun
      · cases hrun
        simp [Fault.category]

/-- Writing a module changes nothing but the disk, where no file is removed but the temporary one. -/
theorem ends_emit {touched : String → Prop} {s : Session} (hcovers : s.settings.Covers touched)
    {output : Path} (houtput : ∀ name, output.EndsIn name → touched name) (text : String) :
    Ends (fun _ t => (∃ d, t = { s with disk := d } ∧ Disk.Touches touched IsTemporaryName s.disk d ∧
        Emission.emit s.settings.packageMarker text output.parent output s.disk = .ok () d) ∧
        ∃ name, output.EndsIn name)
      (fun e t => (∃ d, t = { s with disk := d } ∧ Disk.Touches touched IsTemporaryName s.disk d) ∧
        e.category ≠ .cyclicReference) (emit text output s) := by
  unfold emit
  cases hparent : output.parent? with
  | none => exact ⟨⟨s.disk, rfl, .refl _⟩, by simp [Fault.category]⟩
  | some directory =>
    obtain rfl : directory = output.parent := by rw [Path.parent, hparent, Option.getD_some]
    have hdisk := Emission.ensures_emit s.settings.packageMarker text output.parent output s.disk
    have htouches := Emission.touches_emit hcovers.temporary houtput (hcovers.marker output.parent) text
      s.disk
    show Ends _ _ (onDisk (Emission.emit s.settings.packageMarker text output.parent output) s)
    rw [onDisk]
    cases hemit : Emission.emit s.settings.packageMarker text output.parent output s.disk with
    | ok a d => exact ⟨⟨d, rfl, htouches.ok hemit, rfl⟩, hdisk.ok hemit⟩
    | error e d => exact ⟨⟨d, rfl, htouches.error hemit⟩, by simp [Fault.category]⟩

end Make

/-! ## Steps of a run -/

namespace Runs

variable {α : Type} {U V : Moment → Prop} {s : Session} {depth : Nat}

/-- A step that looks something up is claimed at its moment. -/
theorem lookup {step : Make α} {P : α → Prop} (hV : U ⟨s, depth, none, none⟩ → V ⟨s, depth, none, none⟩)
    (h : U ⟨s, depth, none, none⟩ → LooksUp step s P) :
    Runs U V (Observed.ofMake depth step) s (fun a t => s.Alike t ∧ P a)
      fun e t => s.Alike t ∧ e.category ≠ .cyclicReference :=
  .of_eq rfl hV fun hU => (h hU).ends

/-- Under a fixed root, such a step leaves the session as it is. -/
theorem lookup_fixed {step : Make α} {P : α → Prop} {root : Path} (hroot : s.locator = .fixed root)
    (hV : U ⟨s, depth, none, none⟩ → V ⟨s, depth, none, none⟩) (h : U ⟨s, depth, none, none⟩ → LooksUp step s P) :
    Runs U V (Observed.ofMake depth step) s (fun a t => s = t ∧ P a)
      fun e t => s = t ∧ e.category ≠ .cyclicReference := by
  refine (lookup hV h).mono ?_ ?_
  · rintro a t ⟨halike, ha⟩
    exact ⟨(halike.fixed hroot).symm, ha⟩
  · rintro e t ⟨halike, hlocal⟩
    exact ⟨(halike.fixed hroot).symm, hlocal⟩

/-- A class is claimed, unless another source has it. -/
theorem claimClass {output source : Path} {className : String} {Q : Unit → Session → Prop}
    {E : Fault → Session → Prop} (hV : U ⟨s, depth, none, none⟩ → V ⟨s, depth, none, none⟩)
    (hclaimed : ∀ more, (∃ c, Session.claim? { s with classes := s.classes ++ more } output.parent className = some c ∧
        c.source.same source) → (∀ c, s.claim? output.parent className = some c → c.source.same source) →
      Q () { s with classes := s.classes ++ more })
    (hfails : ∀ e, e.category ≠ .cyclicReference → E e s) :
    Runs U V (Observed.ofMake depth (Make.claimClass output className source)) s Q E := by
  refine (of_eq rfl hV fun _ => Make.ends_claimClass output className source s).mono ?_ ?_
  · rintro _ _ ⟨⟨more, rfl⟩, hnow, hbefore⟩
    exact hclaimed more hnow hbefore
  · rintro e _ ⟨rfl, hlocal⟩
    exact hfails e hlocal

/-- A module is written, or the disk fails. -/
theorem emit {touched : String → Prop} (hcovers : s.settings.Covers touched) {output : Path} {text : String}
    (houtput : ∀ name, output.EndsIn name → touched name) {Q : Unit → Session → Prop} {E : Fault → Session → Prop}
    (hV : U ⟨s, depth, some output, none⟩ → V ⟨s, depth, some output, none⟩)
    (hwritten : ∀ d, Disk.Touches touched IsTemporaryName s.disk d →
      Emission.emit s.settings.packageMarker text output.parent output s.disk = .ok () d →
      (∃ name, output.EndsIn name) → Q () { s with disk := d })
    (hfails : ∀ e d, Disk.Touches touched IsTemporaryName s.disk d → e.category ≠ .cyclicReference →
      E e { s with disk := d }) :
    Runs U V (Observed.emit depth text output) s Q E := by
  refine (of_eq rfl hV fun _ => Make.ends_emit hcovers houtput text).mono ?_ ?_
  · rintro _ _ ⟨⟨d, rfl, htouches, hemit⟩, hend⟩
    exact hwritten d htouches hemit hend
  · rintro e _ ⟨⟨d, rfl, htouches⟩, hlocal⟩
    exact hfails e d htouches hlocal

/-- What each call of some steps keeps is kept by all of them, and what each finds is still there after the
others. -/
theorem resolveSteps {nested : Value → Path → Observed Path} {source : Path} {steps : List Step}
    {R : Session → Session → Prop} {C : String → Session → Prop} {E : Fault → Session → Prop}
    (hrefl : ∀ t, R t t) (htrans : ∀ {t u v}, R t u → R u v → R t v)
    (hC : ∀ {raw t u}, C raw t → R t u → C raw u)
    (hcalled : ∀ t, R s t → ∀ step ∈ steps, ∀ raw, step.action = .call (.path raw) →
      Runs U V (Observed.called depth nested source step raw) t (fun _ u => R t u ∧ C raw u) E)
    (hname : ∀ t, R s t → ∀ output, Runs U V (Observed.ofMake depth (Make.moduleName output)) t
      (fun _ u => R t u) E) (imports : List Import) :
    Runs U V (Observed.resolveSteps depth nested source imports steps) s
      (fun _ t => R s t ∧ ∀ step ∈ steps, ∀ raw, step.action = .call (.path raw) → C raw t) E := by
  induction steps generalizing s imports with
  | nil => exact .pure ⟨hrefl s, by simp⟩
  | cons step rest ih =>
    have hstep : Runs U V (Observed.resolveStep depth nested source imports step) s
        (fun _ t => R s t ∧ ∀ raw, step.action = .call (.path raw) → C raw t) E := by
      unfold Observed.resolveStep
      split
      · next raw haction =>
        refine .bind (hcalled s (hrefl s) step List.mem_cons_self raw haction) ?_
        rintro ⟨output, made⟩ t ⟨ht, hfound⟩
        refine .bind (hname t ht output) ?_
        intro name u hu
        refine .pure ⟨htrans ht hu, ?_⟩
        intro raw' haction'
        rw [haction] at haction'
        cases haction'
        exact hC hfound hu
      · next hother => exact .pure ⟨hrefl s, fun raw haction => absurd haction (hother raw)⟩
    unfold Observed.resolveSteps
    refine .bind hstep ?_
    rintro ⟨resolved, imports⟩ t ⟨ht, hfound⟩
    have hrest := ih (s := t)
      (fun u hu step hmem => hcalled u (htrans ht hu) step (List.mem_cons_of_mem _ hmem))
      (fun u hu => hname u (htrans ht hu)) imports
    refine .bind hrest ?_
    rintro ⟨more, imports⟩ u ⟨hu, hmore⟩
    refine .pure ⟨htrans ht hu, ?_⟩
    intro step' hmem raw haction
    rcases List.mem_cons.1 hmem with rfl | hmem
    · exact hC (hfound raw haction) hu
    · exact hmore step' hmem raw haction

end Runs

end TestScribe
