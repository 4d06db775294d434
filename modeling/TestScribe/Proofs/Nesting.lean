/-
# How deep calls are nested

The sources that are being made are on a stack, each called by the one before it.  A source goes on the
stack only if it is not there, and all but the first were read from files, which stay files while modules
are written.  So calls are nested no deeper than there are files, and a run ends.

* `Stacked` : what is true of the stack;
* `Observed.runs_testcaseWithin` : it is true at every moment of a run;
* `Unchanging` : no document comes into being or changes in the course of a run;
* `Make.TerminatesWithin` : a run ends without meeting a bound on the nesting of calls.
-/
import TestScribe.Proofs.Lookups

namespace TestScribe

/-! ## The stack -/

section Stack

variable (touched : String → Prop) (before : Disk) (G : Path → Prop)

/-- The sources on the stack are distinct paths in normal form, and all but the first are files with the
names of documents, which have `G`.  The disk has come from the one `before`, with nothing touched but what
may be. -/
structure Stacked (s : Session) : Prop where
  distinct : s.resolving.Pairwise fun p q => ¬ p.same q
  normal : ∀ p ∈ s.resolving, p.normalize = p
  file : ∀ p ∈ s.resolving.tail, s.disk.isFile p = true
  document : ∀ p ∈ s.resolving.tail, ∃ name, p.fileName? = some name ∧ Source.IsDocumentName name
  has : ∀ p ∈ s.resolving.tail, G p
  covers : s.settings.Covers touched
  since : Disk.Touches touched IsTemporaryName before s.disk

/-- A source that is not the first can go on the stack if it is a document. -/
structure Stackable (s : Session) (p : Path) : Prop where
  file : s.resolving ≠ [] → s.disk.isFile p = true
  document : s.resolving ≠ [] → ∃ name, p.fileName? = some name ∧ Source.IsDocumentName name
  has : s.resolving ≠ [] → G p

/-- The stack is the same, what is on it still consists of files, and what was made stays. -/
structure Stays (s t : Session) : Prop where
  settings : t.settings = s.settings
  resolving : t.resolving = s.resolving
  disk : Disk.Touches touched IsTemporaryName s.disk t.disk
  made : s.made <+: t.made

end Stack

section Stack

variable {touched : String → Prop} {before : Disk} {G : Path → Prop} {s t u : Session}

theorem Stays.refl (s : Session) : Stays touched s s := ⟨rfl, rfl, .refl _, List.prefix_rfl⟩

theorem Stays.trans (h : Stays touched s t) (h' : Stays touched t u) : Stays touched s u :=
  ⟨h'.settings.trans h.settings, h'.resolving.trans h.resolving, h.disk.trans h'.disk,
    h.made.trans h'.made⟩

theorem Stays.of_alike (h : s.Alike t) : Stays touched s t := by
  obtain ⟨roots, rfl⟩ := h.roots
  exact ⟨rfl, rfl, .refl _, List.prefix_rfl⟩

/-- A source is put on the stack and taken off it again. -/
theorem Stays.of_push {source : Path}
    (h : Stays touched { s with resolving := s.resolving ++ [source] } t) :
    Stays touched s { t with resolving := t.resolving.dropLast } := by
  refine ⟨h.settings, ?_, h.disk, h.made⟩
  show t.resolving.dropLast = s.resolving
  rw [h.resolving, List.dropLast_concat]

theorem Stacked.stays (h : Stacked touched before G s) (hstays : Stays touched s t) :
    Stacked touched before G t := by
  have hresolving := hstays.resolving
  have hfile : ∀ p ∈ s.resolving.tail, t.disk.isFile p = true := by
    intro p hp
    obtain ⟨name, hname, hdocument⟩ := h.document p hp
    have hnormal := h.normal p (List.mem_of_mem_tail hp)
    exact Source.isFile_of_touches hstays.disk hnormal hname hdocument (h.file p hp)
  exact {
    distinct := hresolving ▸ h.distinct
    normal := hresolving ▸ h.normal
    file := hresolving ▸ hfile
    document := hresolving ▸ h.document
    has := hresolving ▸ h.has
    covers := hstays.settings ▸ h.covers
    since := h.since.trans hstays.disk }

theorem Stackable.stays {p : Path} (hp : p.normalize = p) (h : Stackable G s p)
    (hstays : Stays touched s t) : Stackable G t p := by
  have hresolving := hstays.resolving
  refine ⟨fun hne => ?_, hresolving ▸ h.document, hresolving ▸ h.has⟩
  rw [hresolving] at hne
  obtain ⟨name, hname, hdocument⟩ := h.document hne
  exact Source.isFile_of_touches hstays.disk hp hname hdocument (h.file hne)

theorem Stacked.push (h : Stacked touched before G s) {source : Path}
    (hnormal : source.normalize = source) (hnew : (s.resolving.any (·.same source)) = false)
    (hsource : Stackable G s source) :
    Stacked touched before G { s with resolving := s.resolving ++ [source] } := by
  -- what is asked of all but the first source is asked of the new one only if it is not the first
  have htail : ∀ P : Path → Prop, (∀ p ∈ s.resolving.tail, P p) → (s.resolving ≠ [] → P source) →
      ∀ p ∈ (s.resolving ++ [source]).tail, P p := by
    intro P hold hnew p hp
    cases hstack : s.resolving with
    | nil => simp [hstack] at hp
    | cons first rest =>
      rw [hstack, List.cons_append, List.tail_cons, List.mem_append, List.mem_singleton] at hp
      rcases hp with hp | rfl
      · exact hold p (by rwa [hstack])
      · exact hnew (by simp [hstack])
  refine ⟨?_, ?_, htail _ h.file hsource.file, htail _ h.document hsource.document,
    htail _ h.has hsource.has, h.covers, h.since⟩
  · show (s.resolving ++ [source]).Pairwise _
    rw [List.pairwise_append]
    refine ⟨h.distinct, by simp, ?_⟩
    intro p hp q hq
    rw [List.mem_singleton.1 hq]
    rw [List.any_eq_false] at hnew
    exact hnew p hp
  · intro p hp
    rcases List.mem_append.1 hp with hp | hp
    · exact h.normal p hp
    · rw [List.mem_singleton.1 hp, hnormal]

theorem Stacked.of_nil (hstack : s.resolving = []) (hcovers : s.settings.Covers touched) :
    Stacked touched s.disk G s :=
  ⟨by simp [hstack], by simp [hstack], by simp [hstack], by simp [hstack], by simp [hstack], hcovers,
    .refl _⟩

theorem Stackable.of_nil (hstack : s.resolving = []) (p : Path) : Stackable G s p :=
  ⟨fun hne => absurd hstack hne, fun hne => absurd hstack hne, fun hne => absurd hstack hne⟩

/-- The stack is no longer than there are paths that can be on it, but for its first source. -/
theorem Stacked.length_le (h : Stacked touched before G s) {paths : Set Path} (hfinite : paths.Finite)
    (hpaths : ∀ p ∈ s.resolving.tail, p ∈ paths) : s.resolving.length ≤ paths.ncard + 1 := by
  classical
  have hnodup : s.resolving.tail.Nodup := by
    refine (List.Pairwise.sublist (List.tail_sublist _) h.distinct).imp ?_
    rintro p _ hp rfl
    exact hp (Path.same_iff.2 rfl)
  have hcard : s.resolving.tail.length ≤ paths.ncard := by
    rw [← List.toFinset_card_of_nodup hnodup, ← Set.ncard_coe_finset]
    exact Set.ncard_le_ncard (by simpa [Set.subset_def] using hpaths) hfinite
  rw [List.length_tail] at hcard
  omega

end Stack

/-! ## Runs -/

section Runs

variable (touched : String → Prop) (before : Disk) (G : Path → Prop) (bounded : Prop) (limit : Nat)

/-- What is assumed of the moments of a run: what can be loaded has `G`, and if the depth is `bounded`, it
is less than the limit. -/
structure Assumed (m : Moment) : Prop where
  has : ∀ p v, p.normalize = p → Source.load m.session.disk p = .ok v → G p
  depth : bounded → m.depth < limit

/-- What is claimed of the moments of a run. -/
structure StackedAt (m : Moment) : Prop where
  stacked : Stacked touched before G m.session
  depth : m.depth ≤ m.session.resolving.length + 1

/-- What is claimed of the end of a run: only a limit on the depth that was met can make it too deep. -/
def EndsWithin (s : Session) (e : Fault) (t : Session) : Prop :=
  Stays touched s t ∧ (bounded → ∀ p, e ≠ .tooDeep p)

/-- What is claimed of the calls that are nested in a run, at a depth. -/
def StaysNested (depth : Nat) (nested : Value → Path → Observed Path) : Prop :=
  ∀ (content : Value) (p : Path) (s : Session), Stacked touched before G s →
    s.resolving.length + 1 = depth → p.normalize = p → Stackable G s p →
      Runs (Assumed G bounded limit) (StackedAt touched before G) (nested content p) s
        (fun _ => Stays touched s) (EndsWithin touched bounded s)

end Runs

theorem Fault.ne_tooDeep {e : Fault} (h : e.category ≠ .cyclicReference) (p : Path) :
    e ≠ .tooDeep p := by
  rintro rfl
  exact h rfl

namespace Observed

variable {touched : String → Prop} {before : Disk} {G : Path → Prop} {bounded : Prop}
  {limit depth : Nat} {s t : Session}

/-- A step that looks something up keeps the stack. -/
theorem runs_lookup {α : Type} {step : Make α} {P : α → Prop} (hstart : Stays touched t s)
    (hs : Stacked touched before G s) (hdepth : depth ≤ s.resolving.length + 1)
    (h : Assumed G bounded limit ⟨s, depth, none, none⟩ → LooksUp step s P) :
    Runs (Assumed G bounded limit) (StackedAt touched before G) (ofMake depth step) s
      (fun a u => s.Alike u ∧ P a) (EndsWithin touched bounded t) := by
  refine (Runs.lookup (fun _ => ⟨hs, hdepth⟩) h).mono (fun _ _ h => h) ?_
  rintro e u ⟨halike, hlocal⟩
  exact ⟨hstart.trans (.of_alike halike), fun _ => Fault.ne_tooDeep hlocal⟩

section Nested

variable {nested : Value → Path → Observed Path}
  (hnested : StaysNested touched before G bounded limit (depth + 1) nested)

include hnested

theorem runs_called (hs : Stacked touched before G s) (hdepth : s.resolving.length = depth) (source : Path)
    (step : Step) (raw : String) :
    Runs (Assumed G bounded limit) (StackedAt touched before G) (called depth nested source step raw) s
      (fun _ => Stays touched s) (EndsWithin touched bounded s) := by
  have hopened : Runs (Assumed G bounded limit) (StackedAt touched before G)
      (ofMake depth (Make.opened source step raw)) s
      (fun found t => s.Alike t ∧ found.2.normalize = found.2 ∧ Stackable G s found.2)
      (EndsWithin touched bounded s) := by
    refine runs_lookup (.refl s) hs (by omega) fun hassumed => ?_
    refine (Make.looksUp_opened source step raw).mono ?_
    rintro ⟨content, p⟩ ⟨hnormal, hload, -⟩
    exact ⟨hnormal, fun _ => Source.isFile_of_load hload, fun _ => Source.exists_name_of_load hload,
      fun _ => hassumed.has p content hnormal hload⟩
  unfold called
  refine .bind hopened ?_
  rintro ⟨content, p⟩ t ⟨halike, hnormal, hstackable⟩
  have hst : Stays touched s t := .of_alike halike
  have hlength : t.resolving.length + 1 = depth + 1 := by rw [hst.resolving, hdepth]
  have hcall := hnested content p t (hs.stays hst) hlength hnormal (hstackable.stays hnormal hst)
  refine .bind (hcall.mono (fun _ _ h => h) fun e u h => ⟨hst.trans h.1, h.2⟩) ?_
  intro output u hu
  have hsu := hst.trans hu
  refine (runs_lookup hsu (hs.stays hsu) ?_ fun _ => Make.looksUp_foundAt output).mono ?_
    fun _ _ h => h
  · rw [hsu.resolving]
    omega
  · rintro found v ⟨halike, -⟩
    exact hsu.trans (.of_alike halike)

theorem runs_build (hs : Stacked touched before G s) (hdepth : s.resolving.length + 1 = depth) {testcase : Testcase}
    (hnormal : testcase.config.source.normalize = testcase.config.source)
    (hnew : (s.resolving.any (·.same testcase.config.source)) = false)
    (hsource : Stackable G s testcase.config.source) {output : Path}
    (houtput : Naming.IsGenerated s.settings.generatedSuffix output) (hnone : s.made? output = none)
    (document : Value) (className : String) :
    Runs (Assumed G bounded limit) (StackedAt touched before G)
      (build depth nested document testcase output className) s (fun _ => Stays touched s) (EndsWithin touched bounded s) := by
  have hpush := hs.push hnormal hnew hsource
  have hresolved : Runs (Assumed G bounded limit) (StackedAt touched before G)
      (whileResolving testcase.config.source
        (resolveSteps depth nested testcase.config.source [] testcase.steps)) s
      (fun _ => Stays touched s) (EndsWithin touched bounded s) := by
    apply Runs.whileResolving
    set pushed : Session := { s with resolving := s.resolving ++ [testcase.config.source] }
    have hlength : ∀ t, Stays touched pushed t → t.resolving.length = depth := by
      intro t ht
      rw [ht.resolving, ← hdepth]
      exact List.length_append
    refine (Runs.resolveSteps (R := Stays touched) (C := fun _ _ => True)
      (E := EndsWithin touched bounded pushed) .refl .trans (fun _ _ => trivial) ?_ ?_ []).mono ?_ ?_
    · intro t ht step _ raw _
      refine (runs_called hnested (hpush.stays ht) (hlength t ht) _ step raw).mono ?_ ?_
      · exact fun _ _ h => ⟨h, trivial⟩
      · exact fun _ _ h => ⟨ht.trans h.1, h.2⟩
    · intro t ht output
      refine (runs_lookup ht (hpush.stays ht) ?_ fun _ => Make.looksUp_moduleName output).mono ?_
        fun _ _ h => h
      · rw [hlength t ht]
        omega
      · exact fun _ _ h => .of_alike h.1
    · exact fun _ _ h => h.1.of_push
    · exact fun _ _ h => ⟨h.1.of_push, h.2⟩
  have hat : ∀ {t : Session}, Stays touched s t → depth ≤ t.resolving.length + 1 := by
    intro t ht
    rw [ht.resolving, hdepth]
  unfold build
  refine .bind hresolved ?_
  rintro ⟨steps, imports⟩ t ht
  refine .bind (runs_lookup ht (hs.stays ht) (hat ht) fun _ => Make.looksUp_scripted _ _ _) ?_
  rintro script u ⟨halike, -⟩
  replace ht := ht.trans (.of_alike halike)
  -- claiming a class says nothing about the stack or the disk
  refine .bind (Q := fun _ => Stays touched s) (.claimClass (fun _ => ⟨hs.stays ht, hat ht⟩)
    (fun _ _ _ => ⟨ht.settings, ht.resolving, ht.disk, ht.made⟩)
    fun _ hlocal => ⟨ht, fun _ => Fault.ne_tooDeep hlocal⟩) ?_
  intro _ v hv
  have hdisk : ∀ d, Disk.Touches touched IsTemporaryName v.disk d → Stays touched s { v with disk := d } :=
    fun d hd => ⟨hv.settings, hv.resolving, hv.disk.trans hd, hv.made⟩
  refine .bind (Q := fun _ => Stays touched s) (.emit (hs.stays hv).covers
    (fun name => hs.covers.output output name houtput) (fun _ => ⟨hs.stays hv, hat hv⟩)
    (fun d hd _ _ => hdisk d hd) fun _ d hd hlocal => ⟨hdisk d hd, fun _ => Fault.ne_tooDeep hlocal⟩) ?_
  intro _ w hw
  exact .of_eq rfl (fun _ => ⟨hs.stays hw, hat hw⟩)
    fun _ => ⟨hw.settings, hw.resolving, hw.disk, Session.prefix_made_keep hnone hw.made⟩

theorem runs_testcaseWith (hs : Stacked touched before G s) (hdepth : s.resolving.length + 1 = depth) (raw : Value)
    {source : Path} (hsource : Stackable G s source.normalize) (outputDirectory : Option Path) :
    Runs (Assumed G bounded limit) (StackedAt touched before G)
      (testcaseWith depth nested raw source outputDirectory) s (fun _ => Stays touched s)
      (EndsWithin touched bounded s) := by
  unfold testcaseWith
  refine .bind (runs_lookup (.refl s) hs hdepth.ge fun _ => Make.looksUp_drafted _ _ _) ?_
  rintro ⟨testcase, output, className⟩ t ⟨halike, ⟨document, -, htestcase⟩, houtput, -⟩
  have htsource := Testcase.source_of_ofDocument htestcase
  have ht : Stays touched s t := .of_alike halike
  have hnormal : testcase.config.source.normalize = testcase.config.source := by
    rw [htsource, Path.normalize_normalize]
  rw [← htsource] at hsource
  have hdepth' : t.resolving.length + 1 = depth := by rw [ht.resolving, hdepth]
  replace hs := hs.stays ht
  refine .bind (runs_lookup ht hs hdepth'.ge fun _ => .get) ?_
  rintro _ u ⟨halike, rfl⟩
  have hu : Stays touched t u := .of_alike halike
  cases hmade : t.made? output with
  | some made =>
    dsimp only
    split
    · exact .pure (ht.trans hu)
    · refine (runs_lookup (P := fun _ => False) (ht.trans hu) (hs.stays hu) ?_
        fun _ => .throw (by simp [Fault.category])).mono (fun _ _ h => h.2.elim) fun _ _ h => h
      rw [hu.resolving, hdepth']
  | none =>
    dsimp only
    split
    · -- a cycle is reported, which is no matter of depth
      refine .of_eq rfl (fun _ => ⟨hs.stays hu, ?_⟩) fun _ => ⟨ht.trans hu, fun _ p => by simp⟩
      rw [hu.resolving, hdepth']
    · next hnew =>
      rw [Bool.not_eq_true] at hnew
      have hnone : u.made? output = none := by
        obtain ⟨roots, rfl⟩ := halike.roots
        exact hmade
      have hbuild := runs_build hnested (hs.stays hu) (by rw [hu.resolving, hdepth']) hnormal
        (by rw [hu.resolving, htsource, hnew]) (hsource.stays hnormal (ht.trans hu))
        (by rw [hu.settings, ht.settings]; exact houtput) hnone raw className
      refine .bind (hbuild.mono (fun _ _ h => h) fun _ _ h => ⟨(ht.trans hu).trans h.1, h.2⟩) ?_
      exact fun _ v hv => .pure ((ht.trans hu).trans hv)

end Nested

/-- The stack is as it should be at every moment of a run, and the run ends within its limit. -/
theorem runs_testcaseWithin {fuel : Nat} (hlimit : bounded → limit = depth + fuel) (hs : Stacked touched before G s)
    (hdepth : s.resolving.length + 1 = depth) (raw : Value) {source : Path}
    (hsource : Stackable G s source.normalize) (outputDirectory : Option Path) :
    Runs (Assumed G bounded limit) (StackedAt touched before G)
      (testcaseWithin depth fuel raw source outputDirectory) s (fun _ => Stays touched s)
      (EndsWithin touched bounded s) := by
  induction fuel generalizing depth s raw source outputDirectory with
  | zero =>
    refine .of_eq rfl (fun _ => ⟨hs, hdepth.ge⟩) fun hassumed => ⟨.refl s, fun hbounded => ?_⟩
    have hlt := hassumed.depth hbounded
    rw [hlimit hbounded] at hlt
    exact absurd hlt (Nat.lt_irrefl depth)
  | succ fuel ih =>
    refine runs_testcaseWith ?_ hs hdepth raw hsource outputDirectory
    intro content p t ht hlength hnormal hp
    refine ih (fun hbounded => ?_) ht hlength content (hnormal.symm ▸ hp) none
    rw [hlimit hbounded]
    omega

/-- From an empty stack, the stack is as it should be at every moment. -/
theorem stackedAt_of_mem (hstack : s.resolving = []) (hcovers : s.settings.Covers touched) {fuel : Nat}
    {raw : Value} {source : Path} {outputDirectory : Option Path}
    (hG : ∀ m ∈ (testcaseWithin 1 fuel raw source outputDirectory s).2, ∀ p v, p.normalize = p →
      Source.load m.session.disk p = .ok v → G p) :
    ∀ m ∈ (testcaseWithin 1 fuel raw source outputDirectory s).2,
      StackedAt touched s.disk G m := by
  have hrun : Runs (Assumed G False 0) (StackedAt touched s.disk G)
      (testcaseWithin 1 fuel raw source outputDirectory) s (fun _ => Stays touched s)
      (EndsWithin touched False s) :=
    runs_testcaseWithin nofun (.of_nil hstack hcovers) (by simp [hstack]) raw (.of_nil hstack _)
      outputDirectory
  exact hrun.moments fun m hm => ⟨hG m hm, nofun⟩

/-- From an empty stack, calls are nested no deeper than there are paths for the sources on the stack. -/
theorem depth_le_of_mem (hstack : s.resolving = []) {fuel : Nat} {raw : Value} {source : Path}
    {outputDirectory : Option Path} {m : Moment}
    (hm : m ∈ (testcaseWithin 1 fuel raw source outputDirectory s).2) {paths : Set Path}
    (hfinite : paths.Finite) (hpaths : ∀ p ∈ m.session.resolving.tail, p ∈ paths) :
    m.depth ≤ paths.ncard + 2 := by
  have hat := stackedAt_of_mem (G := fun _ => True) hstack s.settings.covers_true
    (fun _ _ _ _ _ _ => trivial) m hm
  have hlength := hat.stacked.length_le hfinite hpaths
  have hdepth := hat.depth
  omega

/-- From an empty stack, a run that does not go as deep as it may does not end for want of depth. -/
theorem ne_tooDeep_of_depth_le (hstack : s.resolving = []) {fuel : Nat} {raw : Value} {source : Path}
    {outputDirectory : Option Path}
    (hdepth : ∀ m ∈ (testcaseWithin 1 fuel raw source outputDirectory s).2, m.depth ≤ fuel)
    (p : Path) (t : Session) :
    Make.testcaseWithin fuel raw source outputDirectory s ≠ .error (.tooDeep p) t := by
  have hrun : Runs (Assumed (fun _ => True) True (1 + fuel))
      (StackedAt (fun _ => True) s.disk fun _ => True)
      (testcaseWithin 1 fuel raw source outputDirectory) s (fun _ => Stays (fun _ => True) s)
      (EndsWithin (fun _ => True) True s) :=
    runs_testcaseWithin (fun _ => rfl) (.of_nil hstack s.settings.covers_true) (by simp [hstack]) raw
      (.of_nil hstack _) outputDirectory
  have hends := hrun.ends fun m hm => ⟨fun _ _ _ _ => trivial, fun _ => by
    have hle := hdepth m hm
    omega⟩
  rw [testcaseWithin_fst] at hends
  intro hdeep
  rw [hdeep] at hends
  exact hends.2 trivial p rfl

end Observed

/-- From an empty stack, a run that succeeds or fails leaves the stack empty, and what was made stays. -/
theorem Make.stays_testcase {touched : String → Prop} {s : Session} (hstack : s.resolving = [])
    (hcovers : s.settings.Covers touched) (raw : Value) (source : Path) (outputDirectory : Option Path) :
    Ends (fun _ => Stays touched s) (fun _ => Stays touched s) (testcase raw source outputDirectory s) := by
  have hrun : Runs (Assumed (fun _ => True) False 0) (StackedAt touched s.disk fun _ => True)
      (Observed.testcaseWithin 1 (depthBound s.disk) raw source outputDirectory) s
      (fun _ => Stays touched s) (EndsWithin touched False s) :=
    Observed.runs_testcaseWithin nofun (.of_nil hstack hcovers) (by simp [hstack]) raw
      (.of_nil hstack _) outputDirectory
  have hends := (hrun.mono (fun _ _ h => h) fun _ _ h => h.1).ends fun m hm =>
    ⟨fun _ _ _ _ => trivial, nofun⟩
  rwa [Observed.testcaseWithin_fst] at hends

/-! ## The end of a run -/

/-- Making ends with the same result for the given bound on the nesting of calls and for every greater one,
and not because the bound was met. -/
def Make.TerminatesWithin (bound : Nat) (raw : Value) (source : Path) (outputDirectory : Option Path)
    (s : Session) : Prop :=
  ∀ fuel, bound ≤ fuel →
    testcaseWithin fuel raw source outputDirectory s
      = testcaseWithin bound raw source outputDirectory s ∧
    ∀ p t, testcaseWithin fuel raw source outputDirectory s ≠ .error (.tooDeep p) t

theorem Make.terminatesWithin_of_depth_le {s : Session} (hstack : s.resolving = []) {fuel : Nat}
    {raw : Value} {source : Path} {outputDirectory : Option Path}
    (hdepth : ∀ m ∈ (Observed.testcaseWithin 1 fuel raw source outputDirectory s).2, m.depth ≤ fuel) :
    TerminatesWithin fuel raw source outputDirectory s := by
  have hnot := Observed.ne_tooDeep_of_depth_le hstack hdepth
  intro fuel' hle
  have hfollows : Follows True (Observed.testcaseWithin 1 fuel raw source outputDirectory)
      (testcaseWithin fuel' raw source outputDirectory) :=
    Observed.follows_testcaseWithin (.inr ⟨trivial, hle⟩) raw source outputDirectory
  have hsame : testcaseWithin fuel' raw source outputDirectory s
      = testcaseWithin fuel raw source outputDirectory s := by
    rcases hfollows s with h | ⟨-, p, t, h⟩
    · rw [← h, Observed.testcaseWithin_fst]
    · rw [Observed.testcaseWithin_fst] at h
      exact absurd h (hnot p t)
  rw [hsame]
  exact ⟨rfl, hnot⟩

/-- At no moment is there a document that was not there `before` in the same form. -/
def Unchanging (before : Disk) (course : List Moment) : Prop :=
  ∀ m ∈ course, ∀ p v, p.normalize = p → Source.load m.session.disk p = .ok v →
    Source.load before p = .ok v

/-- Documents do not change if none is written. -/
theorem unchanging_of_writesNoDocument {s : Session} (hstack : s.resolving = [])
    (hsettings : s.settings.WritesNoDocument)
    (hworking : s.disk.kind? s.disk.workingDirectory = some .directory) (raw : Value) (source : Path)
    (outputDirectory : Option Path) :
    Unchanging s.disk (Observed.testcase raw source outputDirectory s).2 := by
  intro m hm p v hp hload
  rw [Observed.testcase_eq] at hm
  rcases List.mem_cons.1 hm with rfl | hm
  · exact hload
  · have hstacked := Observed.stackedAt_of_mem (G := fun _ => True) hstack hsettings.covers
      (fun _ _ _ _ _ _ => trivial) m hm
    exact (Source.load_eq_ok_iff_of_touches (fun _ h h' => h' h) hstacked.stacked.since hworking hp v).1
      hload

/-- Where documents do not change, calls are nested no deeper than there are files before the run. -/
theorem depth_le_of_unchanging {s : Session} (hstack : s.resolving = []) {raw : Value} {source : Path}
    {outputDirectory : Option Path}
    (hunchanging : Unchanging s.disk (Observed.testcase raw source outputDirectory s).2) :
    ∀ m ∈ (Observed.testcaseWithin 1 (Make.depthBound s.disk) raw source outputDirectory s).2,
      m.depth ≤ s.disk.filePaths.ncard + 2 := by
  have hG : ∀ m ∈ (Observed.testcaseWithin 1 (Make.depthBound s.disk) raw source outputDirectory s).2,
      ∀ p v, p.normalize = p → Source.load m.session.disk p = .ok v → p ∈ s.disk.filePaths := by
    intro m hm p v hp hload
    have hbefore := hunchanging m (List.mem_cons_of_mem _ hm) p v hp hload
    exact ⟨hp, Source.isFile_of_load hbefore⟩
  intro m hm
  have hat := Observed.stackedAt_of_mem hstack s.settings.covers_true hG m hm
  exact Observed.depth_le_of_mem hstack hm s.disk.finite_filePaths hat.stacked.has

/-- Where documents do not change, the bound on the nesting of calls is enough. -/
theorem Make.terminatesWithin_of_unchanging {s : Session} (hstack : s.resolving = []) {raw : Value}
    {source : Path} {outputDirectory : Option Path}
    (hunchanging : Unchanging s.disk (Observed.testcase raw source outputDirectory s).2) :
    TerminatesWithin (depthBound s.disk) raw source outputDirectory s := by
  apply terminatesWithin_of_depth_le hstack
  intro m hm
  have hle := depth_le_of_unchanging hstack hunchanging m hm
  have hfew := s.disk.ncard_filePaths_le
  unfold depthBound
  omega

/-- The text of a document that calls one testcase. -/
def callingText (raw : String) : String :=
  "\x7b\"config\": \x7b\"name\": \"a\"\x7d, \"teststeps\": [\x7b\"name\": \"call\", \"testcase\": \"" ++ raw
    ++ "\"\x7d]\x7d"

/-- A project with two testcases that call each other. -/
def mutualCalls : Disk :=
  ⟨[("p", .directory [("a.json", .file (callingText "b.json").toUTF8),
    ("b.json", .file (callingText "a.json").toUTF8)])], [], []⟩

end TestScribe
