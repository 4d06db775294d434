/-
# Cycles of references

The references of documents make a graph.  A run walks it along the stack of the sources that are being
made.  A source that is found on the stack again closes a cycle, and a source whose module is made has all
its references behind it, so that no cycle can be reached from it.

* `Refers` : the graph;
* `Walks` : the stack is a walk, and no cycle can be reached from the sources of the modules made;
* `Observed.walks_testcaseWithin` : this is kept by a run, and its faults report cycles;
* `cycles_detected` : what a report of a cycle says, and what a success says.
-/
import TestScribe.Proofs.Nesting
import TestScribe.Proofs.Once

namespace TestScribe

/-! ## The graph of references -/

/-- The documents of a project before a run: the given one at its source, the others as they can be
loaded. -/
def documentAt (disk : Disk) (source : Path) (raw : Value) (p : Path) : Option Value :=
  if p = source then some raw else (Source.load disk p).toOption

/-- A document has a step that calls the testcase at another path. -/
def Refers (root : Path) (documents : Path → Option Value) (p q : Path) : Prop :=
  ∃ raw document testcase, documents p = some raw ∧ Legacy.normalize raw = .ok document ∧
    Testcase.ofDocument document p = .ok testcase ∧
    ∃ step ∈ testcase.steps, ∃ ref, step.action = .call (.path ref) ∧ q = referenced root ref

/-- No cycle can be reached along references. -/
def Clear (root : Path) (documents : Path → Option Value) (p : Path) : Prop :=
  Acc (fun q p => Refers root documents p q) p

section Graph

variable {root : Path} {documents : Path → Option Value} {p q : Path}

theorem Clear.of_refers (h : Clear root documents p) (hpq : Refers root documents p q) :
    Clear root documents q := h.inv hpq

theorem Clear.of_reflTransGen (h : Clear root documents p)
    (hpq : Relation.ReflTransGen (Refers root documents) p q) : Clear root documents q := by
  induction hpq with
  | refl => exact h
  | tail _ hstep ih => exact ih.of_refers hstep

/-- What is reached from a clear path does not lead back to it. -/
theorem Clear.not_transGen (h : Clear root documents p) :
    ¬ Relation.TransGen (Refers root documents) p p := by
  -- the transitive closure is well-founded below the path as well, so it is not reflexive there
  have hacc : Acc (Relation.TransGen fun q p => Refers root documents p q) p := Acc.transGen h
  rw [← Relation.transGen_swap]
  clear h
  induction hacc with
  | intro p _ ih => exact fun hcycle => ih p hcycle hcycle

/-- A path is clear if all the references of its document are. -/
theorem Clear.of_references {raw : Value} {document : Mapping} {testcase : Testcase}
    (hraw : documents p = some raw) (hdocument : Legacy.normalize raw = .ok document)
    (htestcase : Testcase.ofDocument document p = .ok testcase)
    (h : ∀ step ∈ testcase.steps, ∀ ref, step.action = .call (.path ref) →
      Clear root documents (referenced root ref)) : Clear root documents p := by
  constructor
  rintro q ⟨raw', document', testcase', hraw', hdocument', htestcase', step, hstep, ref, href, rfl⟩
  rw [hraw] at hraw'
  cases hraw'
  rw [hdocument] at hdocument'
  cases hdocument'
  rw [htestcase] at htestcase'
  cases htestcase'
  exact h step hstep ref href

end Graph

/-- A closed walk along references. -/
structure IsCycle (root : Path) (documents : Path → Option Value) (chain : List Path) : Prop where
  length : 2 ≤ chain.length
  closed : chain.head? = chain.getLast?
  walk : chain.IsChain (Refers root documents)

/-! ## Walks -/

section Walks

variable (root : Path) (documents : Path → Option Value) (first : Path)

/-- The stack is a walk that begins with the first source, and the modules made are those of clear
sources. -/
structure Walks (s : Session) : Prop where
  locator : s.locator = .fixed root
  walk : s.resolving.IsChain (Refers root documents)
  normal : ∀ p ∈ s.resolving, p.normalize = p
  first : ∀ p ∈ s.resolving.head?, p = first
  made : ∀ entry ∈ s.made, entry.2.source.normalize = entry.2.source ∧
    Clear root documents entry.2.source

/-- A document can be called: it is the first one, or the last one on the stack refers to it. -/
structure Continues (s : Session) (content : Value) (p : Path) : Prop where
  normal : p.normalize = p
  first : s.resolving = [] → p = first
  refers : ∀ last ∈ s.resolving.getLast?, Refers root documents last p
  document : p ∉ s.resolving → documents p = some content

/-- A session follows another one in the course of a run, with the same stack. -/
structure Advances (s t : Session) : Prop where
  resolving : t.resolving = s.resolving
  walks : Walks root documents first s → Walks root documents first t

/-- A fault that reports a cycle reports one that is there. -/
def ReportsCycle (e : Fault) : Prop := ∀ chain, e = .cycle chain → IsCycle root documents chain

end Walks

section Walks

variable {root : Path} {documents : Path → Option Value} {first : Path} {s t u : Session}

theorem Advances.refl (s : Session) : Advances root documents first s s := ⟨rfl, id⟩

theorem Advances.trans (h : Advances root documents first s t) (h' : Advances root documents first t u) :
    Advances root documents first s u :=
  ⟨h'.resolving.trans h.resolving, fun hs => h'.walks (h.walks hs)⟩

/-- The disk and the classes say nothing about the walk. -/
theorem Walks.of_eq (h : Walks root documents first s) (hlocator : t.locator = s.locator)
    (hresolving : t.resolving = s.resolving) (hmade : t.made = s.made) :
    Walks root documents first t :=
  ⟨hlocator.trans h.locator, hresolving ▸ h.walk, hresolving ▸ h.normal, hresolving ▸ h.first,
    hmade ▸ h.made⟩

theorem Walks.push (h : Walks root documents first s) {content : Value} {p : Path}
    (hp : Continues root documents first s content p) :
    Walks root documents first { s with resolving := s.resolving ++ [p] } where
  locator := h.locator
  walk := by
    refine h.walk.append (.singleton p) ?_
    intro last hlast q hq
    rw [List.head?_cons, Option.mem_some_iff] at hq
    rw [← hq]
    exact hp.refers last hlast
  normal q hq := by
    rcases List.mem_append.1 hq with hq | hq
    · exact h.normal q hq
    · rw [List.mem_singleton.1 hq, hp.normal]
  first q hq := by
    cases hstack : s.resolving with
    | nil =>
      have hqp : p = q := by simpa [hstack] using hq
      rw [← hqp, hp.first hstack]
    | cons r rest =>
      have hqr : r = q := by simpa [hstack] using hq
      exact h.first q (by simp [hstack, hqr])
  made := h.made

theorem Walks.pop (h : Walks root documents first s) :
    Walks root documents first { s with resolving := s.resolving.dropLast } where
  locator := h.locator
  walk := h.walk.prefix (List.dropLast_prefix _)
  normal p hp := h.normal p (List.mem_of_mem_dropLast hp)
  first p hp := by
    refine h.first p ?_
    change p ∈ s.resolving.dropLast.head? at hp
    rw [List.head?_dropLast] at hp
    split at hp
    · exact hp
    · cases hp
  made := h.made

/-- A source that is on the stack already closes a cycle. -/
theorem Walks.isCycle (h : Walks root documents first s) {content : Value} {p : Path}
    (hp : Continues root documents first s content p)
    (hon : (s.resolving.any (·.same p)) = true) :
    IsCycle root documents ((s.resolving.dropWhile fun q => !q.same p) ++ [p]) := by
  -- the part of the stack from the source on begins with the source itself
  obtain ⟨q, hq, hsame⟩ := List.any_eq_true.1 hon
  have hne : (s.resolving.dropWhile fun q => !q.same p) ≠ [] := by
    rw [Ne, List.dropWhile_eq_nil_iff]
    intro hall
    have hnot := hall q hq
    simp [hsame] at hnot
  obtain ⟨r, rest, hrest⟩ := List.exists_cons_of_ne_nil hne
  have hsuffix : (r :: rest) <:+ s.resolving := hrest ▸ List.dropWhile_suffix _
  have hr : r = p := by
    have hhead := List.head?_dropWhile_not (fun q => !q.same p) s.resolving
    rw [hrest] at hhead
    have hrsame : r.same p = true := by simpa using hhead
    exact Path.eq_of_same_of_normal (h.normal r (hsuffix.subset List.mem_cons_self)) hp.normal hrsame
  rw [hrest]
  refine ⟨by simp, by rw [List.getLast?_concat, hr, List.cons_append, List.head?_cons], ?_⟩
  refine (h.walk.suffix hsuffix).append (.singleton p) ?_
  intro last hlast q hq
  rw [List.head?_cons, Option.mem_some_iff] at hq
  rw [← hq]
  refine hp.refers last ?_
  obtain ⟨before, hbefore⟩ := hsuffix
  rw [← hbefore, List.getLast?_append_of_ne_nil _ (by simp)]
  exact hlast

theorem ReportsCycle.of_category {e : Fault} (h : e.category ≠ .cyclicReference) :
    ReportsCycle root documents e := by
  rintro chain rfl
  exact absurd rfl h

end Walks

/-! ## Runs -/

/-- At a moment, what can be loaded is one of the documents; the first one is known without its file. -/
def Shows (documents : Path → Option Value) (first : Path) (m : Moment) : Prop :=
  ∀ p v, p.normalize = p → Source.load m.session.disk p = .ok v → p ≠ first → documents p = some v

namespace Observed

variable {root first : Path} {documents : Path → Option Value} {depth : Nat} {s : Session}

/-- A step that looks something up under a fixed root leaves the session as it is. -/
theorem walks_lookup {α : Type} {step : Make α} {P : α → Prop} (hs : Walks root documents first s)
    (h : Shows documents first ⟨s, depth, none, none⟩ → LooksUp step s P) :
    Runs (Shows documents first) (fun _ => True) (ofMake depth step) s (fun a t => s = t ∧ P a)
      fun e _ => ReportsCycle root documents e :=
  (Runs.lookup_fixed hs.locator (fun _ => trivial) h).mono (fun _ _ h => h) fun _ _ h => .of_category h.2

section Nested

variable {nested : Value → Path → Observed Path}
  (hnested : ∀ (content : Value) (p : Path) (s : Session), Walks root documents first s →
    Continues root documents first s content p →
    Runs (Shows documents first) (fun _ => True) (nested content p) s
      (fun _ t => Advances root documents first s t ∧ Clear root documents p)
      fun e _ => ReportsCycle root documents e)

include hnested

/-- A call leads from the last source on the stack along a reference. -/
theorem walks_called (hs : Walks root documents first s) {source : Path}
    (hlast : s.resolving.getLast? = some source) {step : Step} {raw : String}
    (hrefers : Refers root documents source (referenced root raw)) :
    Runs (Shows documents first) (fun _ => True) (called depth nested source step raw) s
      (fun _ t => Advances root documents first s t ∧ Clear root documents (referenced root raw))
      fun e _ => ReportsCycle root documents e := by
  have hne : s.resolving ≠ [] := by
    intro hnil
    rw [hnil] at hlast
    cases hlast
  have hopened : Runs (Shows documents first) (fun _ => True)
      (ofMake depth (Make.opened source step raw)) s
      (fun found t => s = t ∧ found.2 = referenced root raw ∧
        Continues root documents first s found.1 found.2)
      fun e _ => ReportsCycle root documents e := by
    refine walks_lookup hs fun hshows => ?_
    refine (Make.looksUp_opened source step raw).mono ?_
    rintro ⟨content, p⟩ ⟨hnormal, hload, hp⟩
    replace hp : p = referenced root raw := hp root hs.locator
    refine ⟨hp, hnormal, fun hnil => absurd hnil hne, ?_, fun hnew => ?_⟩
    · intro last hmem
      rw [hlast, Option.mem_some_iff] at hmem
      rw [← hmem, hp]
      exact hrefers
    · -- the first source is on the stack, so this is another one
      refine hshows p content hnormal hload fun hfirst => hnew ?_
      obtain ⟨q, rest, hstack⟩ := List.exists_cons_of_ne_nil hne
      have hq : q = first := hs.first q (by simp [hstack])
      rw [hstack, hfirst, hq]
      exact List.mem_cons_self
  unfold called
  refine .bind hopened ?_
  rintro ⟨content, p⟩ _ ⟨rfl, hp, hcontinues⟩
  refine .bind (hnested content p _ hs hcontinues) ?_
  rintro output t ⟨ht, hclear⟩
  refine (walks_lookup (ht.walks hs) fun _ => Make.looksUp_foundAt output).mono ?_ fun _ _ h => h
  rintro found _ ⟨rfl, -⟩
  exact ⟨ht, hp ▸ hclear⟩

/-- A module whose references are all made is that of a clear source. -/
theorem walks_build (hs : Walks root documents first s) {raw : Value} {document : Mapping}
    {testcase : Testcase} {source : Path} (hsource : Continues root documents first s raw source)
    (hnew : source ∉ s.resolving) (hdocument : Legacy.normalize raw = .ok document)
    (htestcase : Testcase.ofDocument document source = .ok testcase) (output : Path)
    (className : String) :
    Runs (Shows documents first) (fun _ => True) (build depth nested raw testcase output className) s
      (fun _ t => Advances root documents first s t ∧ Clear root documents source)
      fun e _ => ReportsCycle root documents e := by
  have hraw := hsource.document hnew
  have htsource : testcase.config.source = source := Testcase.source_of_ofDocument htestcase
  have hpush := hs.push hsource
  have hresolved : Runs (Shows documents first) (fun _ => True)
      (whileResolving source (resolveSteps depth nested source [] testcase.steps)) s
      (fun _ t => Advances root documents first s t ∧ Clear root documents source)
      fun e _ => ReportsCycle root documents e := by
    apply Runs.whileResolving
    refine (Runs.resolveSteps (R := Advances root documents first)
      (C := fun ref _ => Clear root documents (referenced root ref)) .refl .trans (fun h _ => h) ?_ ?_
      []).mono ?_ fun _ _ h => h
    · intro t ht step hstep ref href
      refine walks_called hnested (ht.walks hpush) ?_
        ⟨raw, document, testcase, hraw, hdocument, htestcase, step, hstep, ref, href, rfl⟩
      rw [ht.resolving]
      exact List.getLast?_concat
    · intro t ht output
      refine (walks_lookup (ht.walks hpush) fun _ => Make.looksUp_moduleName output).mono ?_
        fun _ _ h => h
      rintro name _ ⟨rfl, -⟩
      exact .refl _
    · rintro resolved t ⟨ht, hclear⟩
      refine ⟨⟨?_, fun _ => (ht.walks hpush).pop⟩, .of_references hraw hdocument htestcase hclear⟩
      show t.resolving.dropLast = s.resolving
      rw [ht.resolving]
      exact List.dropLast_concat
  unfold build
  rw [htsource]
  refine .bind hresolved ?_
  rintro ⟨steps, imports⟩ t ⟨ht, hclear⟩
  refine .bind (walks_lookup (ht.walks hs) fun _ => Make.looksUp_scripted _ _ _) ?_
  rintro script _ ⟨rfl, -⟩
  refine .bind (Q := fun _ => Advances root documents first s) (.claimClass (fun _ => trivial) ?_
    fun _ h => .of_category h) ?_
  · exact fun _ _ _ => ⟨ht.resolving, fun hs => (ht.walks hs).of_eq rfl rfl rfl⟩
  intro _ u hu
  refine .bind (Q := fun _ => Advances root documents first s) (.emit u.settings.covers_true
    (fun _ _ => trivial) (fun _ => trivial) ?_ fun _ _ _ h => .of_category h) ?_
  · exact fun _ _ _ _ => ⟨hu.resolving, fun hs => (hu.walks hs).of_eq rfl rfl rfl⟩
  intro _ v hv
  refine .of_eq rfl (fun _ => trivial) fun _ => ⟨⟨hv.resolving, fun hs => ?_⟩, hclear⟩
  have hwalks := hv.walks hs
  refine ⟨hwalks.locator, hwalks.walk, hwalks.normal, hwalks.first, ?_⟩
  intro entry hentry
  rcases Made.mem_put hentry with hentry | ⟨-, hmade⟩
  · exact hwalks.made entry hentry
  · rw [hmade]
    show testcase.config.source.normalize = testcase.config.source ∧ Clear root documents testcase.config.source
    rw [htsource]
    exact ⟨hsource.normal, hclear⟩

theorem walks_testcaseWith (hs : Walks root documents first s) {raw : Value} {source : Path}
    (hsource : Continues root documents first s raw source.normalize) (outputDirectory : Option Path) :
    Runs (Shows documents first) (fun _ => True) (testcaseWith depth nested raw source outputDirectory) s
      (fun _ t => Advances root documents first s t ∧ Clear root documents source.normalize)
      fun e _ => ReportsCycle root documents e := by
  unfold testcaseWith
  refine .bind (walks_lookup hs fun _ => Make.looksUp_drafted _ _ _) ?_
  rintro ⟨testcase, output, className⟩ _ ⟨rfl, ⟨document, hdocument, htestcase⟩, -⟩
  refine .bind (walks_lookup hs fun _ => .get) ?_
  rintro _ _ ⟨rfl, rfl⟩
  cases hmade : s.made? output with
  | some made =>
    dsimp only
    split
    · next hsame =>
      -- the module was made from this very source, which is then clear
      obtain ⟨q, hentry, -⟩ := Session.exists_mem_of_made? hmade
      obtain ⟨hnormal, hclear⟩ := hs.made (q, made) hentry
      rw [Path.eq_of_same_of_normal hnormal hsource.normal hsame] at hclear
      exact .pure ⟨.refl _, hclear⟩
    · exact .of_eq rfl (fun _ => trivial) fun _ => .of_category (by simp [Fault.category])
  | none =>
    dsimp only
    split
    · next hon =>
      refine .of_eq rfl (fun _ => trivial) fun _ => ?_
      rintro chain ⟨⟩
      exact hs.isCycle hsource hon
    · next hnew =>
      have hnot : source.normalize ∉ s.resolving := by
        intro hmem
        exact hnew (List.any_eq_true.2 ⟨_, hmem, Path.same_iff.2 rfl⟩)
      refine .bind (walks_build hnested hs hsource hnot hdocument htestcase output className) ?_
      exact fun _ t ht => .pure ht

end Nested

/-- The stack is a walk along references in a run, faults report cycles, and a success leaves none to be
reached. -/
theorem walks_testcaseWithin {fuel : Nat} (hs : Walks root documents first s) {raw : Value} {source : Path}
    (hsource : Continues root documents first s raw source.normalize) (outputDirectory : Option Path) :
    Runs (Shows documents first) (fun _ => True)
      (testcaseWithin depth fuel raw source outputDirectory) s
      (fun _ t => Advances root documents first s t ∧ Clear root documents source.normalize)
      fun e _ => ReportsCycle root documents e := by
  induction fuel generalizing depth s raw source outputDirectory with
  | zero =>
    refine .of_eq rfl (fun _ => trivial) fun _ => ?_
    rintro chain ⟨⟩
  | succ fuel ih =>
    refine walks_testcaseWith ?_ hs hsource outputDirectory
    intro content p t ht hp
    have hcontinues : Continues root documents first t content p.normalize := hp.normal.symm ▸ hp
    refine (ih ht hcontinues none).mono ?_ fun _ _ h => h
    rintro output u ⟨hu, hclear⟩
    rw [hp.normal] at hclear
    exact ⟨hu, hclear⟩

end Observed

/-! ## What a run reports -/

/-- Where documents do not change, a run that begins in a fresh session reports cycles, and leaves none to
be reached if it succeeds. -/
theorem ends_testcase_of_unchanging {settings : Settings} {root : String} {disk : Disk} {raw : Value}
    {source : Path} {outputDirectory : Option Path}
    (hunchanging : Unchanging disk
      (Observed.testcase raw source outputDirectory (.fresh settings root disk)).2) :
    Ends (fun _ _ => Clear (.ofString root) (documentAt disk source.normalize raw) source.normalize)
      (fun e _ => ReportsCycle (.ofString root) (documentAt disk source.normalize raw) e)
      (Make.testcase raw source outputDirectory (.fresh settings root disk)) := by
  set s : Session := .fresh settings root disk with hs
  set documents := documentAt disk source.normalize raw
  have hwalks : Walks (.ofString root) documents source.normalize s :=
    ⟨rfl, .nil, by simp [hs, Session.fresh], by simp [hs, Session.fresh], by simp [hs, Session.fresh]⟩
  have hcontinues : Continues (.ofString root) documents source.normalize s raw source.normalize :=
    ⟨Path.normalize_normalize source, fun _ => rfl, by simp [hs, Session.fresh], fun _ => if_pos rfl⟩
  have hrun : Runs (Shows documents source.normalize) (fun _ => True)
      (Observed.testcaseWithin 1 (Make.depthBound disk) raw source outputDirectory) s
      (fun _ t => Advances (.ofString root) documents source.normalize s t ∧
        Clear (.ofString root) documents source.normalize)
      fun e _ => ReportsCycle (.ofString root) documents e :=
    Observed.walks_testcaseWithin hwalks hcontinues outputDirectory
  have hends := hrun.ends fun m hm p v hp hload hother => by
    have hbefore := hunchanging m (List.mem_cons_of_mem _ hm) p v hp hload
    show documentAt disk source.normalize raw p = some v
    rw [documentAt, if_neg hother, hbefore]
    rfl
  rw [Observed.testcaseWithin_fst] at hends
  show Ends _ _ (Make.testcaseWithin (Make.depthBound disk) raw source outputDirectory s)
  cases hresult : Make.testcaseWithin (Make.depthBound disk) raw source outputDirectory s with
  | ok output t =>
    rw [hresult] at hends
    exact hends.2
  | error e t =>
    rw [hresult] at hends
    exact hends

/-- **Cycles are detected.**  In a fresh session of a project with a fixed root, where documents do not
change in the course of the run:

* a fault of the category of cyclic references reports a chain of at least two paths whose first and last
  are equal, each with a step that calls the next one;
* a success means that no cycle of references can be reached from the source. -/
theorem cycles_detected (settings : Settings) (root : String) (disk : Disk) (raw : Value) (source : Path)
    (outputDirectory : Option Path)
    (hunchanging : Unchanging disk
      (Observed.testcase raw source outputDirectory (.fresh settings root disk)).2) :
    let refers := Refers (.ofString root) (documentAt disk source.normalize raw)
    (∀ e t, Make.testcase raw source outputDirectory (.fresh settings root disk) = .error e t →
      e.category = .cyclicReference → ∃ chain, e = .cycle chain ∧
        2 ≤ chain.length ∧ chain.head? = chain.getLast? ∧ chain.IsChain refers) ∧
    (∀ output t, Make.testcase raw source outputDirectory (.fresh settings root disk) = .ok output t →
      ∀ p, Relation.ReflTransGen refers source.normalize p → ¬ Relation.TransGen refers p p) := by
  have hends := ends_testcase_of_unchanging hunchanging
  constructor
  · intro e t hresult hcategory
    rw [hresult] at hends
    cases e with
    | cycle chain =>
      obtain ⟨hlength, hclosed, hwalk⟩ := hends chain rfl
      exact ⟨chain, rfl, hlength, hclosed, hwalk⟩
    | tooDeep p =>
      -- the bound on the nesting of calls is not met
      have hterminates := Make.terminatesWithin_of_unchanging rfl hunchanging
      exact absurd hresult ((hterminates _ le_rfl).2 p t)
    | _ => exact absurd hcategory (by simp [Fault.category])
  · intro output t hresult p hreached
    rw [hresult] at hends
    exact (Clear.of_reflTransGen hends hreached).not_transGen

/-- The sources of a cycle that was found. -/
def reportedCycle {α : Type} : EStateM.Result Fault Session α → List String
  | .error (.cycle chain) _ => chain.map Path.text
  | _ => []

/-- Two testcases that call each other, the first of which is made into another directory. -/
theorem cycles_detected_mutualCalls :
    let s := Session.fresh {} "/p" mutualCalls
    let source := Path.ofString "/p/a.json"
    Unchanging mutualCalls
        (Observed.testcase (caller "b.json") source (some (.ofString "/out")) s).2 ∧
      ∃ chain t, Make.testcase (caller "b.json") source (some (.ofString "/out")) s
          = .error (.cycle chain) t ∧
        chain.map Path.text = ["/p/a.json", "/p/b.json", "/p/a.json"] ∧
        chain.IsChain (Refers (.ofString "/p")
          (documentAt mutualCalls source.normalize (caller "b.json"))) := by
  intro s source
  have hunchanging : Unchanging mutualCalls
      (Observed.testcase (caller "b.json") source (some (.ofString "/out")) s).2 :=
    unchanging_of_writesNoDocument rfl Settings.writesNoDocument_default
      (Disk.hasDirectory_iff.1 (by decide)) _ _ _
  have hreported : reportedCycle (Make.testcase (caller "b.json") source (some (.ofString "/out")) s)
      = ["/p/a.json", "/p/b.json", "/p/a.json"] := by decide +kernel
  have hdetected := (cycles_detected {} "/p" mutualCalls (caller "b.json") source (some (.ofString "/out"))
    hunchanging).1
  refine ⟨hunchanging, ?_⟩
  generalize Make.testcase (caller "b.json") source (some (.ofString "/out")) s = result at *
  unfold reportedCycle at hreported
  split at hreported
  · next chain t =>
    obtain ⟨_, hchain, -, -, hwalk⟩ := hdetected (.cycle chain) t rfl rfl
    cases hchain
    exact ⟨chain, t, rfl, hreported, hwalk⟩
  · cases hreported

end TestScribe
