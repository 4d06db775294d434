/-
# Batches in another order

A batch that makes all of its inputs makes them in any other order as well, with the same modules and the
same files to run, and leaves the same content in every file.  In each order a document is made first as an
input or first because another one calls it, but what is written is what the documents say.

* `Batch.file_eq`, `Batch.outcome_eq_run_iff` : what becomes of a file;
* `Batch.drawn_of_arguments` : what a batch that makes all its inputs has made;
* `Batch.exists_arguments` : a batch of inputs whose modules can be made;
* `batch_in_any_order` : the order of the inputs does not matter.
-/
import TestScribe.Proofs.Batches
import TestScribe.Proofs.Replay

namespace TestScribe

namespace Batch

variable {s t : Session} {p q : Path} {outputDirectory : Option Path} {skipped : List Skip}

theorem outcome_eq_run_iff (h : isGenerated s.settings.generatedSuffix p = false) :
    outcome p outputDirectory s = .ok (.run q) t ↔ ∃ content, Source.load s.disk p = .ok content ∧
      unusable? content = none ∧ Make.testcase content p outputDirectory s = .ok q t := by
  rw [outcome_eq h]
  constructor
  · intro hrun
    split at hrun
    · split at hrun <;> cases hrun
    · next content hload =>
      split at hrun
      · cases hrun
      · next husable =>
        split at hrun
        · next hmake =>
          cases hrun
          exact ⟨content, hload, husable, hmake⟩
        · split at hrun <;> cases hrun
  · rintro ⟨content, hload, husable, hmake⟩
    rw [hload]
    dsimp only
    rw [husable]
    dsimp only
    rw [hmake]

/-! ## What a batch keeps -/

/-- From an empty stack: what was made stays, and the stack is empty again. -/
def MakesMore (s t : Session) : Prop := s.resolving = [] → s.made <+: t.made ∧ t.resolving = []

theorem carries_makesMore (outputDirectory : Option Path) :
    Carries outputDirectory Path.IsPlain MakesMore where
  plain := id
  refl s hstack := ⟨List.prefix_rfl, hstack⟩
  trans h h' hstack := ⟨(h hstack).1.trans (h' (h hstack).2).1, (h' (h hstack).2).2⟩
  make s content p _ := by
    have hstays := fun hstack =>
      Make.stays_testcase (s := s) hstack s.settings.covers_true content p outputDirectory
    cases hresult : Make.testcase content p outputDirectory s with
    | ok q t =>
      rw [hresult] at hstays
      obtain ⟨runSet, hrunSet⟩ := t.exists_addToRun q
      intro hstack
      rw [hrunSet]
      exact ⟨(hstays hstack).made, (hstays hstack).resolving.trans hstack⟩
    | error e t =>
      rw [hresult] at hstays
      exact fun hstack => ⟨(hstays hstack).made, (hstays hstack).resolving.trans hstack⟩
  listed {s t p found q} _ _ _ hst _ hstack := by
    obtain ⟨runSet, hrunSet⟩ := t.exists_addToRun q
    rw [hrunSet]
    exact hst hstack

/-! ## What a batch has made -/

/-- An argument that is a file, and no directory, is made as a file. -/
theorem argument_eq_file (hfile : s.disk.isFile p = true) (outputDirectory : Option Path)
    (skipped : List Skip) :
    argument outputDirectory p (s, skipped) = file outputDirectory p (s, skipped) := by
  have hfound : filesOf? s p = some [p] := by
    have hnot : s.disk.isDirectory p = false := by
      unfold Disk.isFile at hfile
      unfold Disk.isDirectory
      split at hfile
      · next hentry => rw [hentry]
      · cases hfile
    rw [filesOf?, if_neg (by simp [hnot]), if_pos hfile]
  unfold argument
  rw [bind_get, hfound]
  show (file outputDirectory p >>= pure) (s, skipped) = _
  rw [bind_pure]

/-- The path of a file to be made: it is in normal form, and not that of a generated module. -/
structure IsInput (settings : Settings) (d : Disk) (p : Path) : Prop where
  normal : p.normalize = p
  plain : p.IsPlain
  file : d.isFile p = true
  notGenerated : isGenerated settings.generatedSuffix p = false

/-- A document that can be made as far as shows at once. -/
def IsUsable (d : Disk) (p : Path) : Prop :=
  ∃ content, Source.load d p = .ok content ∧ unusable? content = none

section Drawn

variable {root : Path} {settings : Settings} {d : Disk} {outlines : List Outline}

/-- A file that is made after modules that do not get in each other's way is still a file. -/
theorem isFile_of_argument (hs : Drawn root settings d outlines s)
    (hapart : Emission.Apart d (outlines.map Outline.output)) (hfile : d.isFile p = true)
    (h : argument outputDirectory p x = .ok () y) (hx : x.1 = s) : s.disk.isFile p = true := by
  obtain ⟨content, hread⟩ := Disk.isFile_iff.1 hfile
  have hnot : s.disk.isDirectory p = false := by
    rw [← Bool.not_eq_true]
    intro hdirectory
    have hkind := Disk.kind?_of_isDirectory hdirectory
    rw [Disk.location_of_workingDirectory_eq hs.leaves.workingDirectory] at hkind
    exact hs.leaves.kind?_ne_directory hapart (Disk.read?_eq_some_iff.1 hread).2.2 hkind
  unfold argument at h
  rw [bind_get, hx, filesOf?, if_neg (by simp [hnot])] at h
  split_ifs at h with hthere
  · exact hthere
  · cases h

variable (hnames : settings.NamesApart) (hroot : root.IsWritten)
  (hworking : d.kind? d.workingDirectory = some .directory)

include hnames hroot hworking

/-- An input that is not skipped is made from its document. -/
theorem drawn_of_file (hs : IsDrawn root settings d s) (hdistinct : s.Distinct) (hp : IsInput settings d p)
    {u : Session} (h : file none p (s, []) = .ok () (u, [])) :
    IsDrawn root settings d u ∧ u.Distinct ∧ u.HasMade p ∧ IsUsable d p := by
  obtain ⟨outlines, hdrawn⟩ := hs
  rw [file_eq] at h
  split at h
  · next q t houtcome =>
    rw [outcome_eq_run_iff (hdrawn.settings ▸ hp.notGenerated)] at houtcome
    obtain ⟨content, hload, husable, hmake⟩ := houtcome
    rw [hdrawn.load_iff hworking hp.normal] at hload
    obtain ⟨hkeeps, hmade, hdistinct'⟩ := drawn_of_testcase_eq_ok hnames hroot hworking
      ⟨outlines, hdrawn⟩ hp.normal hp.plain hload hmake
    obtain ⟨outlines', hdrawn'⟩ := hkeeps.keeps ⟨outlines, hdrawn⟩
    obtain ⟨runSet, hrunSet⟩ := t.exists_addToRun q
    rw [hrunSet] at h
    cases h
    exact ⟨⟨outlines', hdrawn'.of_eq rfl rfl rfl rfl (List.append_nil _).symm hdrawn'.off⟩, hdistinct' hdistinct,
      hmade, content, hload, husable⟩
  · cases h
  · cases h

/-- A batch that skips nothing makes all its inputs, if their modules do not get in each other's way. -/
theorem drawn_of_arguments {inputs : List Path} (hs : IsDrawn root settings d s) (hdistinct : s.Distinct)
    (hstack : s.resolving = []) (hinputs : ∀ p ∈ inputs, IsInput settings d p) {u : Session}
    (h : arguments none inputs (s, []) = .ok () (u, []))
    (hapart : Emission.Apart d (u.made.map Prod.fst)) :
    IsDrawn root settings d u ∧ u.Distinct ∧ ∀ p ∈ inputs, u.HasMade p ∧ IsUsable d p := by
  induction inputs generalizing s with
  | nil =>
    cases h
    exact ⟨hs, hdistinct, by simp⟩
  | cons p inputs ih =>
    have hcarries := carries_makesMore none
    have hp := hinputs p List.mem_cons_self
    have hrestInputs : ∀ q ∈ inputs, IsInput settings d q :=
      fun q hq => hinputs q (List.mem_cons_of_mem _ hq)
    have hwhole : Goes MakesMore (s, []) (u, []) :=
      (hcarries.arguments fun q hq => (hinputs q hq).plain).ok h
    obtain ⟨_, ⟨t, skipped⟩, hargument, hrest⟩ := exists_of_bind_eq_ok h
    have hfirst : Goes MakesMore (s, []) (t, skipped) := (hcarries.argument hp.plain).ok hargument
    have hsecond : Goes MakesMore (t, skipped) (u, []) :=
      (hcarries.arguments fun q hq => (hrestInputs q hq).plain).ok hrest
    obtain rfl : skipped = [] := List.prefix_nil.1 hsecond.skipped
    obtain ⟨-, htstack⟩ := hfirst.session hstack
    -- the input is still a file, so that it is made as such
    obtain ⟨outlines, hdrawn⟩ := hs
    have hsubset : outlines.map Outline.output ⊆ u.made.map Prod.fst := by
      have hmade := (hwhole.session hstack).1.subset
      rw [hdrawn.made] at hmade
      intro output houtput
      obtain ⟨o, ho, rfl⟩ := List.mem_map.1 houtput
      exact List.mem_map.2 ⟨o.entry, hmade (List.mem_map_of_mem ho), rfl⟩
    have hfile := isFile_of_argument hdrawn (hapart.of_subset hsubset) hp.file hargument rfl
    rw [argument_eq_file hfile] at hargument
    obtain ⟨ht, hdistinct', hmade, husable⟩ :=
      drawn_of_file hnames hroot hworking ⟨outlines, hdrawn⟩ hdistinct hp hargument
    obtain ⟨hu, hdistinct'', hall⟩ := ih ht hdistinct' htstack hrestInputs hrest
    refine ⟨hu, hdistinct'', ?_⟩
    rw [List.forall_mem_cons]
    refine ⟨⟨?_, husable⟩, hall⟩
    obtain ⟨entry, hentry, hsource⟩ := hmade
    exact ⟨entry, (hsecond.session htstack).1.subset hentry, hsource⟩

end Drawn

/-! ## Batches of what can be made -/

/-- The files to run are modules of outlines. -/
def RunsAmong (outlines : List Outline) (s : Session) : Prop :=
  ∀ q ∈ s.runSet, ∃ o ∈ outlines, o.output = q

section Feasible

variable {root : Path} {settings : Settings} {d : Disk} {outlines : List Outline}
  (hfeasible : Feasible root settings d outlines)
  (hworking : d.kind? d.workingDirectory = some .directory) (hnames : settings.NamesApart)

include hfeasible hworking hnames

/-- The module of an input that can be made is made, and it is one of those to run. -/
theorem exists_file (hs : IsReplayed root settings d outlines s) (hstack : s.resolving = [])
    (hruns : RunsAmong outlines s) {o : Outline} (ho : o ∈ outlines)
    (hinput : IsInput settings d o.source) (husable : IsUsable d o.source) :
    ∃ t, argument none o.source (s, skipped) = .ok () (t, skipped) ∧
      IsReplayed root settings d outlines t ∧ t.resolving = [] ∧ s.made <+: t.made ∧
      t.HasMade o.source ∧ ∀ q, q ∈ t.runSet ↔ q ∈ s.runSet ∨ q = o.output := by
  obtain ⟨done, hdone⟩ := hs
  obtain ⟨content, hload, husable⟩ := husable
  obtain ⟨t, hmake, hkeeps, hmade⟩ :=
    exists_testcase_eq_ok hfeasible hworking hnames ⟨done, hdone⟩ hstack ho hload
  obtain ⟨done', hdone'⟩ := hkeeps.keeps ⟨done, hdone⟩
  have hload' : Source.load s.disk o.source = .ok content :=
    (hdone.load_iff hworking hinput.normal content).2 hload
  have houtcome : outcome o.source none s = .ok (.run o.output) t :=
    (outcome_eq_run_iff (hdone.settings ▸ hinput.notGenerated)).2 ⟨content, hload', husable, hmake⟩
  have hfile : argument none o.source (s, skipped) = .ok () (t.addToRun o.output, skipped) := by
    rw [argument_eq_file (Source.isFile_of_load hload'), file_eq, houtcome]
  have hsame : ∀ q ∈ t.runSet, q.same o.output → q = o.output := by
    intro q hq hqo
    rw [hkeeps.runSet] at hq
    obtain ⟨r, hr, rfl⟩ := hruns q hq
    rw [hfeasible.outputs r hr o ho hqo]
  have hmem := Session.mem_addToRun hsame
  obtain ⟨runSet, hrunSet⟩ := t.exists_addToRun o.output
  rw [hrunSet] at hfile hmem
  rw [hkeeps.runSet] at hmem
  exact ⟨_, hfile, ⟨done', hdone'.of_runSet runSet⟩, hkeeps.resolving.trans hstack, hkeeps.made, hmade, hmem⟩

/-- Inputs that can be made are all made, in the order in which they are given. -/
theorem exists_arguments {inputs : List Path}
    (hinputs : ∀ p ∈ inputs, IsInput settings d p ∧ IsUsable d p ∧ ∃ o ∈ outlines, o.source = p)
    (hs : IsReplayed root settings d outlines s) (hstack : s.resolving = [])
    (hruns : RunsAmong outlines s) :
    ∃ t, arguments none inputs (s, []) = .ok () (t, []) ∧ IsReplayed root settings d outlines t ∧
      s.made <+: t.made ∧ (∀ p ∈ inputs, t.HasMade p) ∧
      ∀ q, q ∈ t.runSet ↔ q ∈ s.runSet ∨ ∃ o ∈ outlines, o.source ∈ inputs ∧ o.output = q := by
  induction inputs generalizing s with
  | nil => exact ⟨s, rfl, hs, List.prefix_rfl, by simp, by simp⟩
  | cons p inputs ih =>
    obtain ⟨⟨hinput, husable, o, ho, rfl⟩, hrest⟩ := List.forall_mem_cons.1 hinputs
    obtain ⟨t, hfile, ht, htstack, hst, hmade, hrun⟩ :=
      exists_file hfeasible hworking hnames hs hstack hruns ho hinput husable
    have hruns' : RunsAmong outlines t := by
      intro q hq
      rcases (hrun q).1 hq with hq | rfl
      · exact hruns q hq
      · exact ⟨o, ho, rfl⟩
    obtain ⟨u, harguments, hu, htu, hall, hrunAll⟩ := ih hrest ht htstack hruns'
    refine ⟨u, ?_, hu, hst.trans htu, ?_, ?_⟩
    · unfold arguments
      rw [bind_of_ok hfile]
      exact harguments
    · rw [List.forall_mem_cons]
      obtain ⟨entry, hentry, hsource⟩ := hmade
      exact ⟨⟨entry, htu.subset hentry, hsource⟩, hall⟩
    · intro q
      rw [hrunAll, hrun]
      constructor
      · rintro ((hq | rfl) | ⟨r, hr, hmem, rfl⟩)
        · exact .inl hq
        · exact .inr ⟨o, ho, List.mem_cons_self, rfl⟩
        · exact .inr ⟨r, hr, List.mem_cons_of_mem _ hmem, rfl⟩
      · rintro (hq | ⟨r, hr, hmem, rfl⟩)
        · exact .inl (.inl hq)
        · rcases List.mem_cons.1 hmem with hsource | hmem
          · -- of a source there is one outline
            have hro := eq_of_outline?_eq (hfeasible.stands r hr).outlined
              (hfeasible.stands o ho).outlined hsource
            exact .inl (.inr (by rw [hro]))
          · exact .inr ⟨r, hr, hmem, rfl⟩

end Feasible

end Batch

/-! ## Any order -/

/-- A disk on which all operations go through, with a working directory that is there and whose path can be
written. -/
structure Disk.Serves (d : Disk) : Prop where
  working : d.kind? d.workingDirectory = some .directory
  plain : d.currentPath.IsPlain
  reliable : d.IsReliable

section Fresh

variable {settings : Settings} {root : String} {d : Disk} (hd : d.Serves)

include hd

theorem isDrawn_fresh : IsDrawn (.ofString root) settings d (.fresh settings root d) :=
  ⟨[], rfl, hd.reliable, .refl d, rfl, by simp, by simp, by simp, .nil d, rfl⟩

theorem isReplayed_fresh (outlines : List Outline) :
    IsReplayed (.ofString root) settings d outlines (.fresh settings root d) :=
  ⟨[], rfl, hd.reliable, .refl d, by simp, rfl, rfl, by simp, by simp, .nil d, rfl⟩

end Fresh

/-- Sessions in which the same feasible outlines were made have the same files. -/
theorem Replayed.read?_eq {root : Path} {settings : Settings} {d : Disk} {outlines done done' : List Outline}
    {s t : Session} (hfeasible : Feasible root settings d outlines)
    (hs : Replayed root settings d outlines done s) (ht : Replayed root settings d outlines done' t)
    (hmem : ∀ o, o ∈ done ↔ o ∈ done') (p : Path) : s.disk.read? p = t.disk.read? p := by
  have hmodules : ∀ m, m ∈ done.map (Outline.module root settings d) ↔
      m ∈ done'.map (Outline.module root settings d) := by
    simp only [List.mem_map, hmem, implies_true]
  have hdistinct : ∀ m ∈ done.map (Outline.module root settings d),
      ∀ m' ∈ done.map (Outline.module root settings d), d.location m.1 = d.location m'.1 → m = m' := by
    intro m hm m' hm' hlocation
    obtain ⟨o, ho, rfl⟩ := List.mem_map.1 hm
    obtain ⟨q, hq, rfl⟩ := List.mem_map.1 hm'
    have houtput : o.output = q.output := hfeasible.fits.distinct _
      (List.mem_map_of_mem (hs.subset ho)) _ (List.mem_map_of_mem (hs.subset hq)) hlocation
    rw [hfeasible.outputs o (hs.subset ho) q (hs.subset hq) (Path.same_iff.2 (by rw [houtput]))]
  refine Disk.read?_eq_of_kind?_eq ?_ (fun place => ?_) p
  · rw [hs.laid.workingDirectory, ht.laid.workingDirectory]
  · rw [hs.laid.kind?, ht.laid.kind?]
    exact Emission.layout_eq_of_mem_iff hmodules hdistinct place

/-- Outlines that all were made are among those with which a session is replayed. -/
theorem Replayed.mem_of_mem {root : Path} {settings : Settings} {d : Disk}
    {outlines some done : List Outline} {s : Session} (hfeasible : Feasible root settings d outlines)
    (hsome : some ⊆ outlines) (h : Replayed root settings d some done s) {o : Outline} (ho : o ∈ outlines)
    (hmade : o.entry ∈ s.made) : o ∈ done := by
  rw [h.made, List.mem_map] at hmade
  obtain ⟨q, hq, hentry⟩ := hmade
  have houtput : q.output = o.output := congrArg Prod.fst hentry
  rwa [← hfeasible.outputs q (hsome (h.subset hq)) o ho (Path.same_iff.2 (by rw [houtput]))]

namespace Batch

/-- In any order, a batch of files in a fresh session has the same modules, files to run and contents. -/
theorem arguments_in_any_order {settings : Settings} {root : String} {d : Disk}
    (hnames : settings.NamesApart) (hd : d.Serves) {inputs inputs' : List Path}
    (hmem : ∀ p, p ∈ inputs ↔ p ∈ inputs') (hinputs : ∀ p ∈ inputs, IsInput settings d p) {t : Session}
    (h : arguments none inputs (.fresh settings root d, []) = .ok () (t, []))
    (hapart : Emission.Apart d (t.made.map Prod.fst)) :
    ∃ u, arguments none inputs' (.fresh settings root d, []) = .ok () (u, []) ∧
      (∀ p, p ∈ u.made.map Prod.fst ↔ p ∈ t.made.map Prod.fst) ∧
      (∀ p, p ∈ u.runSet ↔ p ∈ t.runSet) ∧ ∀ p, u.disk.read? p = t.disk.read? p := by
  have hempty : ∀ outlines, RunsAmong outlines (.fresh settings root d) := fun _ _ hq =>
    absurd hq List.not_mem_nil
  -- what was made can be made in any order
  obtain ⟨⟨outlines, hdrawn⟩, hdistinct, hmade⟩ := drawn_of_arguments hnames
    (Path.isWritten_ofString root) hd.working (isDrawn_fresh hd) .nil rfl hinputs h hapart
  have houtputs : t.made.map Prod.fst = outlines.map Outline.output := by
    rw [hdrawn.made, List.map_map]
    rfl
  have hfeasible : Feasible (.ofString root) settings d outlines :=
    hdrawn.feasible hdistinct hd.working (houtputs ▸ hapart)
  have hentries : ∀ o ∈ outlines, o.entry ∈ t.made := fun o ho =>
    hdrawn.made ▸ List.mem_map_of_mem ho
  have hready : ∀ p ∈ inputs, IsInput settings d p ∧ IsUsable d p ∧ ∃ o ∈ outlines, o.source = p := by
    intro p hp
    obtain ⟨⟨entry, hentry, hsource⟩, husable⟩ := hmade p hp
    rw [hdrawn.made, List.mem_map] at hentry
    obtain ⟨o, ho, rfl⟩ := hentry
    exact ⟨hinputs p hp, husable, o, ho, hsource⟩
  obtain ⟨_, hagain, ⟨done, hdone⟩, -, -, hruns⟩ := exists_arguments hfeasible hd.working hnames hready
    (isReplayed_fresh hd outlines) rfl (hempty outlines)
  rw [h] at hagain
  cases hagain
  obtain ⟨u, hu, ⟨done', hdone'⟩, -, hmade', hruns'⟩ := exists_arguments hfeasible hd.working hnames
    (fun p hp => hready p ((hmem p).2 hp)) (isReplayed_fresh hd outlines) rfl (hempty outlines)
  -- what the other order makes is enough for the first one, which has made all outlines
  have hclosed : Feasible (.ofString root) settings d done' := hfeasible.of_closed hdone'.subset hdone'.closed
  have hready' : ∀ p ∈ inputs, IsInput settings d p ∧ IsUsable d p ∧ ∃ o ∈ done', o.source = p := by
    intro p hp
    obtain ⟨hinput, husable, o, ho, rfl⟩ := hready p hp
    exact ⟨hinput, husable, o, hdone'.mem_of_hasMade hfeasible ho (hmade' _ ((hmem _).1 hp)), rfl⟩
  obtain ⟨_, hagain', ⟨done'', hdone''⟩, -⟩ := exists_arguments hclosed hd.working hnames hready'
    (isReplayed_fresh hd done') rfl (hempty done')
  rw [h] at hagain'
  cases hagain'
  have hall : ∀ o, o ∈ done' ↔ o ∈ done := fun o =>
    ⟨fun ho => hdone.mem_of_mem hfeasible (fun _ => id) (hdone'.subset ho) (hentries o (hdone'.subset ho)),
      fun ho => hdone''.subset (hdone''.mem_of_mem hfeasible hdone'.subset (hdone.subset ho)
        (hentries o (hdone.subset ho)))⟩
  refine ⟨u, hu, fun p => ?_, fun p => ?_, fun p => hdone'.read?_eq hfeasible hdone hall p⟩
  · simp only [hdone'.made, hdone.made, List.mem_map, hall]
  · simp only [hruns', hruns, hmem]

end Batch

/-- A batch next to its sources, in a fresh session of a project with a fixed root and the default settings. -/
def Batch.inFresh (root : String) (disk : Disk) (inputs : List String) :
    EStateM.Result Fault Session Report :=
  Batch.run (inputs.map .ofString) none none (.fresh {} root disk)

/-- An input that is a file, and not one with the name of a generated module. -/
def Batch.IsSource (disk : Disk) (input : String) : Prop :=
  disk.isFile (absolute disk (.ofString input)) = true ∧
    isGenerated ({} : Settings).generatedSuffix (absolute disk (.ofString input)) = false

instance (disk : Disk) (input : String) : Decidable (Batch.IsSource disk input) :=
  inferInstanceAs (Decidable (_ ∧ _))

/-- **The order of the inputs does not matter.**  If a batch of files in a fresh session skips nothing, and
the modules it makes do not get in each other's way, then in any other order it skips nothing either, makes
the same modules, has the same files to run, and leaves the same content in every file. -/
theorem batch_in_any_order (root : String) (disk : Disk) (hdisk : disk.Serves)
    {inputs inputs' : List String} (hperm : inputs.Perm inputs')
    (hsources : ∀ p ∈ inputs, Batch.IsSource disk p) {report : Report} {t : Session}
    (hrun : Batch.inFresh root disk inputs = .ok report t) (hskipped : report.skipped = [])
    (hapart : Emission.Apart disk report.generated) :
    ∃ report' t', Batch.inFresh root disk inputs' = .ok report' t' ∧ report'.skipped = [] ∧
      (∀ p, p ∈ report'.generated ↔ p ∈ report.generated) ∧
      (∀ p, p ∈ report'.runSet ↔ p ∈ report.runSet) ∧ ∀ p, t'.disk.read? p = t.disk.read? p := by
  by_cases hnil : inputs = []
  · -- a batch without inputs does nothing
    subst hnil
    obtain rfl := hperm.nil_eq
    exact ⟨report, t, hrun, hskipped, fun _ => Iff.rfl, fun _ => Iff.rfl, fun _ => rfl⟩
  have hnil' : inputs' ≠ [] := fun h => hnil (h ▸ hperm).eq_nil
  obtain ⟨mid, skipped, hmid, harguments, rfl⟩ := (Batch.run_eq_ok_iff (by simpa using hnil)).1 hrun
  cases hmid
  obtain rfl : skipped = [] := hskipped
  have hinputs : ∀ p ∈ (inputs.map Path.ofString).map (Batch.absolute disk), Batch.IsInput {} disk p := by
    intro p hp
    obtain ⟨_, hq, rfl⟩ := List.mem_map.1 hp
    obtain ⟨text, htext, rfl⟩ := List.mem_map.1 hq
    have hplain : (Batch.absolute disk (.ofString text)).IsPlain :=
      Batch.isPlain_absolute (s := .fresh {} root disk) hdisk.plain (Path.isPlain_ofString text)
    exact ⟨Path.normalize_normalize _, hplain, (hsources text htext).1, (hsources text htext).2⟩
  obtain ⟨u, hu, hgenerated, hruns, hread⟩ := Batch.arguments_in_any_order Settings.namesApart_default hdisk
    (fun _ => ((hperm.map _).map _).mem_iff) hinputs harguments hapart
  exact ⟨_, u, (Batch.run_eq_ok_iff (by simpa using hnil')).2 ⟨_, [], rfl, hu, rfl⟩, rfl, hgenerated, hruns,
    hread⟩

/-- A project with a testcase that calls another one. -/
def callingProject : Disk :=
  ⟨[("p", .directory [("a.json", .file (callingText "b.json").toUTF8),
    ("b.json", .file (emptyText "b").toUTF8)])], ["p"], []⟩

theorem serves_callingProject : callingProject.Serves :=
  ⟨by decide +kernel, by simp [Path.IsPlain, Disk.currentPath, callingProject], ⟨nofun, rfl⟩⟩

/-- A testcase before and after the one that it calls. -/
theorem batch_in_any_order_callingProject :
    callingProject.Serves ∧ (∀ p ∈ ["a.json", "/p/b.json"], Batch.IsSource callingProject p) ∧
      ∃ report t, Batch.inFresh "/p" callingProject ["a.json", "/p/b.json"] = .ok report t ∧
        report.skipped = [] ∧
        report.generated = [⟨.root, ["p", "b_test.py"]⟩, ⟨.root, ["p", "a_test.py"]⟩] ∧
        Emission.Apart callingProject report.generated ∧
        ∃ report' t', Batch.inFresh "/p" callingProject ["/p/b.json", "a.json"] = .ok report' t' ∧
          report'.skipped = [] ∧ (∀ p, p ∈ report'.generated ↔ p ∈ report.generated) ∧
          (∀ p, p ∈ report'.runSet ↔ p ∈ report.runSet) ∧ ∀ p, t'.disk.read? p = t.disk.read? p := by
  have hsources : ∀ p ∈ ["a.json", "/p/b.json"], Batch.IsSource callingProject p := by decide +kernel
  have hpasses : passes (fun report _ => report.skipped.isEmpty &&
      report.generated == [⟨.root, ["p", "b_test.py"]⟩, ⟨.root, ["p", "a_test.py"]⟩])
      (Batch.inFresh "/p" callingProject ["a.json", "/p/b.json"]) = true := by
    decide +kernel
  obtain ⟨report, t, hrun, hreport⟩ := exists_of_passes hpasses
  rw [Bool.and_eq_true, List.isEmpty_iff, beq_iff_eq] at hreport
  obtain ⟨hskipped, hgenerated⟩ := hreport
  have hapart : Emission.Apart callingProject report.generated := by
    rw [hgenerated]
    exact ⟨by decide +kernel, by decide +kernel⟩
  exact ⟨serves_callingProject, hsources, report, t, hrun, hskipped, hgenerated, hapart,
    batch_in_any_order "/p" callingProject serves_callingProject (.swap _ _ _) hsources hrun hskipped hapart⟩

/-- A project in which the directory of a module has the temporary name of another module. -/
def hiddenDirectory : Disk :=
  ⟨[("p", .directory [("x y", .directory [(".b_test.py.tmp", .directory [("c.json",
      .file (emptyText "c").toUTF8)])]), ("x_y", .directory [(".b.json", .file (emptyText "b").toUTF8)])])],
    ["p"], []⟩

/-- The order shows where modules get in each other's way.  A module cannot be written after another one
whose directory has its temporary name; and where two paths lead to the same file, the last one stays. -/
theorem batch_order_shows :
    (∀ p ∈ ["x_y/.b.json", "x y/.b_test.py.tmp/c.json"], Batch.IsSource hiddenDirectory p) ∧
    (∃ report t, Batch.inFresh "/p" hiddenDirectory ["x_y/.b.json", "x y/.b_test.py.tmp/c.json"]
      = .ok report t ∧ report.skipped = []) ∧
    (¬ ∃ report t, Batch.inFresh "/p" hiddenDirectory ["x y/.b_test.py.tmp/c.json", "x_y/.b.json"]
      = .ok report t) ∧
    (∀ p ∈ ["a.json", "b.json"], Batch.IsSource callingProject p) ∧
    ∃ report t report' t', Batch.inFresh "" callingProject ["a.json", "b.json"] = .ok report t ∧
      report.skipped = [] ∧ Batch.inFresh "" callingProject ["b.json", "a.json"] = .ok report' t' ∧
      t'.disk.read? (.ofString "/p/b_test.py") ≠ t.disk.read? (.ofString "/p/b_test.py") := by
  have hfirst : passes (fun report _ => report.skipped.isEmpty)
      (Batch.inFresh "/p" hiddenDirectory ["x_y/.b.json", "x y/.b_test.py.tmp/c.json"]) = true := by
    decide +kernel
  have hfails : passes (fun _ _ => true)
      (Batch.inFresh "/p" hiddenDirectory ["x y/.b_test.py.tmp/c.json", "x_y/.b.json"]) = false := by
    decide +kernel
  have hdiffers : passes (fun report t => report.skipped.isEmpty && passes
      (fun _ t' => decide (t'.disk.read? (.ofString "/p/b_test.py") ≠ t.disk.read? (.ofString "/p/b_test.py")))
        (Batch.inFresh "" callingProject ["b.json", "a.json"]))
      (Batch.inFresh "" callingProject ["a.json", "b.json"]) = true := by
    decide +kernel
  obtain ⟨report, t, hrun, hreport⟩ := exists_of_passes hdiffers
  rw [Bool.and_eq_true, List.isEmpty_iff] at hreport
  obtain ⟨report', t', hrun', hread⟩ := exists_of_passes hreport.2
  refine ⟨by decide +kernel, ?_, ?_, by decide +kernel,
    report, t, report', t', hrun, hreport.1, hrun', of_decide_eq_true hread⟩
  · obtain ⟨report, t, hrun, hskipped⟩ := exists_of_passes hfirst
    exact ⟨report, t, hrun, List.isEmpty_iff.1 hskipped⟩
  · rintro ⟨report, t, hrun⟩
    rw [hrun] at hfails
    cases hfails

end TestScribe
