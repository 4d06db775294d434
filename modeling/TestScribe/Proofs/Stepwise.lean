/-
# What a run preserves

A run is made of few steps: something is looked up, the stack or the classes change, a module is written,
and its record is added.  What these steps preserve is preserved by every run, at any depth of nesting and
however it ends, whichever way the project root is found.  The induction is done once, here.

* `Resolves` : steps with their calls resolved, and the imports for these;
* `Answers` : what is known of a module that a call has found;
* `Composed` : all that is known of a module when it is written;
* `Stepwise` : what has to be shown of the steps;
* `Stepwise.tracks_testcase`, `Stepwise.after` : what follows for runs and for orders.
-/
import TestScribe.Proofs.Chronicle
import TestScribe.Proofs.Lookups

namespace TestScribe

/-! ## Looking things up under any locator -/

/-- Where a module goes that would go next to its source. -/
def Naming.sentTo (outputDirectory : Option Path) (placed : Path × String) : Path × String :=
  match outputDirectory, placed.1.fileName? with
  | some directory, some name => (directory.child name, placed.2)
  | _, _ => placed

namespace Make

variable {s : Session}

theorem looksUp_findRoot_eq (p : Path) :
    LooksUp (findRoot p) s fun root => root = (s.locator.find s.disk s.roots p).1 := by
  obtain ⟨hends⟩ := looksUp_findRoot (s := s) p
  have hrun : findRoot p s = .ok (s.locator.find s.disk s.roots p).1
      { s with roots := (s.locator.find s.disk s.roots p).2 } := rfl
  rw [hrun] at hends
  constructor
  rw [hrun]
  exact ⟨hends.1, rfl⟩

section Place

variable {G : Path → Path → Prop}
  (hG : ∀ t, s.Alike t → ∀ p, G p (t.locator.find t.disk t.roots p).1)

include hG

/-- The place of a module comes from a tidied source, by the roots that are found for it. -/
theorem looksUp_place_tidied (source : Path) (outputDirectory : Option Path) :
    LooksUp (place source outputDirectory) s fun placed => ∃ root stemRoot tidied,
      G source root ∧ Naming.tidy root stemRoot source = .ok tidied ∧
        placed = Naming.sentTo outputDirectory (Naming.output tidied s.settings.generatedSuffix) := by
  have htidied : LooksUp (tidied source) s fun tidied => ∃ root stemRoot,
      G source root ∧ Naming.tidy root stemRoot source = .ok tidied := by
    refine .bind (looksUp_findRoot_eq source) ?_
    rintro _ t ht rfl
    refine .bind (looksUp_findRoot _) fun stemRoot _ _ _ => ?_
    exact (LooksUp.ofExcept (by simp [Fault.category])).mono fun _ h => ⟨_, stemRoot, hG s (.refl s) source, h⟩
  have houtput : LooksUp (output source) s fun placed => ∃ root stemRoot tidied,
      G source root ∧ Naming.tidy root stemRoot source = .ok tidied ∧
        placed = Naming.output tidied s.settings.generatedSuffix := by
    refine .bind htidied ?_
    rintro tidied t ht ⟨root, stemRoot, hroot, h⟩
    refine .bind .get ?_
    rintro _ u _ rfl
    obtain ⟨roots, rfl⟩ := ht.roots
    exact .pure ⟨root, stemRoot, tidied, hroot, h, rfl⟩
  have hplace : place source outputDirectory = (do
      let placed ← output source
      return Naming.sentTo outputDirectory placed) := by
    unfold place Naming.sentTo
    congr
    funext placed
    obtain ⟨p, className⟩ := placed
    dsimp only
    cases outputDirectory <;> cases p.fileName? <;> rfl
  rw [hplace]
  refine .bind houtput ?_
  rintro placed t _ ⟨root, stemRoot, tidied, hroot, h, rfl⟩
  exact .pure ⟨root, stemRoot, tidied, hroot, h, rfl⟩

theorem looksUp_drafted_tidied (raw : Value) (source : Path) (outputDirectory : Option Path) :
    LooksUp (drafted raw source outputDirectory) s fun draft => ∃ root stemRoot tidied,
      G source root ∧ Naming.tidy root stemRoot source = .ok tidied ∧
        draft.2 = Naming.sentTo outputDirectory (Naming.output tidied s.settings.generatedSuffix) := by
  refine .bind (.ofExcept (by simp [Fault.category])) fun _ t ht _ => ?_
  refine .bind (.ofExcept (by simp [Fault.category])) fun _ u hu _ => ?_
  have hu := ht.trans hu
  obtain ⟨roots, rfl⟩ := hu.roots
  exact .bind (looksUp_place_tidied (fun t ht => hG t (hu.trans ht)) source outputDirectory)
    fun _ _ _ hplaced => .pure hplaced

end Place

end Make

/-! ## Calls resolved -/

section Resolves

variable (found : String → Made → String → Prop)

/-- A step with its call resolved, where a reference finds what was made and its dotted name. -/
inductive ResolvesTo (imports : List Import) (step : Step) : Step → List Import → Prop
  | keep : (∀ raw, step.action ≠ .call (.path raw)) → ResolvesTo imports step step imports
  | call {raw : String} {made : Made} {name : String} : step.action = .call (.path raw) →
    found raw made name → ResolvesTo imports step
      { step with
        exports := mergeExports step.exports made.exports
        action := .call (.made (Import.choose imports made.className name).1) }
      (Import.choose imports made.className name).2

/-- Steps with their calls resolved one after the other: from the imports there are, to the steps and the
imports in the end. -/
inductive Resolves : List Import → List Step → List Step → List Import → Prop
  | nil (imports : List Import) : Resolves imports [] [] imports
  | cons {first second third : List Import} {step step' : Step} {rest rest' : List Step} :
    ResolvesTo found first step step' second → Resolves second rest rest' third →
    Resolves first (step :: rest) (step' :: rest') third

end Resolves

section Resolves

variable {found found' : String → Made → String → Prop} {imports imports' : List Import} {step step' : Step}
  {steps steps' : List Step}

theorem ResolvesTo.mono (h : ResolvesTo found imports step step' imports')
    (hfound : ∀ raw made name, found raw made name → found' raw made name) :
    ResolvesTo found' imports step step' imports' := by
  cases h with
  | keep hother => exact .keep hother
  | call haction h => exact .call haction (hfound _ _ _ h)

theorem Resolves.mono (h : Resolves found imports steps steps' imports')
    (hfound : ∀ raw made name, found raw made name → found' raw made name) :
    Resolves found' imports steps steps' imports' := by
  induction h with
  | nil imports => exact .nil imports
  | cons hstep _ ih => exact .cons (hstep.mono hfound) ih

/-- What is true of imports and stays true when one is chosen is true of them in the end. -/
theorem Resolves.induct {P : List Import → Prop} (h : Resolves found imports steps steps' imports')
    (hstart : P imports) (hchoose : ∀ imports raw made name, found raw made name → P imports →
      P (Import.choose imports made.className name).2) : P imports' := by
  induction h with
  | nil => exact hstart
  | cons hstep _ ih =>
    cases hstep with
    | keep => exact ih hstart
    | call _ hfound => exact ih (hchoose _ _ _ _ hfound hstart)

theorem Import.choose_ne_nil (imports : List Import) (className moduleName : String) :
    (choose imports className moduleName).2 ≠ [] := by
  unfold choose
  split
  · next i hi => exact List.ne_nil_of_mem (List.mem_of_find?_eq_some hi)
  · exact List.append_ne_nil_of_right_ne_nil _ (List.cons_ne_nil _ _)

/-- A call that is resolved leaves an import. -/
theorem Resolves.ne_nil (h : Resolves found imports steps steps' imports') {raw : String}
    (hstep : step ∈ steps) (haction : step.action = .call (.path raw)) : imports' ≠ [] := by
  induction h with
  | nil => cases hstep
  | cons hfirst hrest ih =>
    rcases List.mem_cons.1 hstep with rfl | hstep
    · cases hfirst with
      | keep hother => exact absurd haction (hother raw)
      | call =>
        exact hrest.induct (P := (· ≠ [])) (Import.choose_ne_nil _ _ _)
          fun _ _ _ _ _ _ => Import.choose_ne_nil _ _ _
    · exact ih hstep

/-- A call that is resolved has found something. -/
theorem Resolves.exists_found (h : Resolves found imports steps steps' imports') {raw : String}
    (hstep : step ∈ steps) (haction : step.action = .call (.path raw)) : ∃ made name, found raw made name := by
  induction h with
  | nil => cases hstep
  | cons hfirst _ ih =>
    rcases List.mem_cons.1 hstep with rfl | hstep
    · cases hfirst with
      | keep hother => exact absurd haction (hother raw)
      | call hother hfound =>
        rw [haction] at hother
        cases hother
        exact ⟨_, _, hfound⟩
    · exact ih hstep

/-- A chosen import is an old one, or that of the module it was chosen for. -/
theorem Import.mem_choose {className moduleName : String} {i : Import}
    (h : i ∈ (choose imports className moduleName).2) :
    i ∈ imports ∨ i.moduleName = moduleName ∧ i.className = className := by
  unfold choose at h
  split at h
  · exact .inl h
  · rcases List.mem_append.1 h with h | h
    · exact .inl h
    · rw [List.mem_singleton.1 h]
      exact .inr ⟨rfl, rfl⟩

/-- An import is an old one, or that of a module that a call has found. -/
theorem Resolves.exists_of_mem (h : Resolves found imports steps steps' imports') {i : Import}
    (hi : i ∈ imports') : i ∈ imports ∨ ∃ step ∈ steps, ∃ raw made, step.action = .call (.path raw) ∧
      found raw made i.moduleName ∧ i.className = made.className := by
  induction h with
  | nil => exact .inl hi
  | cons hstep _ ih =>
    rcases ih hi with hi | ⟨step, hmem, hrest⟩
    · cases hstep with
      | keep => exact .inl hi
      | call haction hfound =>
        refine (Import.mem_choose hi).imp_right fun ⟨hname, hclass⟩ => ?_
        exact ⟨_, List.mem_cons_self, _, _, haction, hname ▸ hfound, hclass⟩
    · exact .inr ⟨step, List.mem_cons_of_mem _ hmem, hrest⟩

end Resolves

/-! ## Modules that are found and built -/

/-- What is known of the module that a call by the text `raw` has found at a path.  Which document it was made
of is known where the root is fixed. -/
structure Answers (s : Session) (raw : String) (output : Path) (made : Made) : Prop where
  found : s.made? output = some made
  generated : Naming.IsGenerated s.settings.generatedSuffix output
  source : ∀ root, s.locator = .fixed root → made.source.same (referenced root raw)
  placed : ∀ root, s.locator = .fixed root → ∃ className,
    Naming.placed root s.settings.generatedSuffix (referenced root raw) = .ok (output, className)

/-- Sessions that differ in remembered roots, claimed classes, files to run and the stack at most. -/
structure Session.Matches (s t : Session) : Prop where
  settings : t.settings = s.settings
  locator : t.locator = s.locator
  disk : t.disk = s.disk
  made : t.made = s.made
  rooted : s.Rooted → t.Rooted

theorem Session.Alike.matches {s t : Session} (h : s.Alike t) : s.Matches t := by
  have hrooted := h.rooted
  obtain ⟨roots, rfl⟩ := h.roots
  exact ⟨rfl, rfl, rfl, rfl, hrooted⟩

/-- What is known of a module that is to be written in the state `c`, where `G` says which root may be found
for a path, and `F` which module may be found by a call, and under which dotted name. -/
structure Composed (G : Path → Path → Prop) (F : String → Made → String → Prop) (c : Chronicle) (r : Record)
    (outputDirectory : Option Path) : Prop where
  read : ∃ document, Legacy.normalize r.document = .ok document ∧
    Testcase.ofDocument document r.source = .ok r.testcase
  generated : Naming.IsGenerated c.session.settings.generatedSuffix r.output
  placed : ∃ root stemRoot tidied, G r.source root ∧ Naming.tidy root stemRoot r.source = .ok tidied ∧
    (r.output, r.className)
      = Naming.sentTo outputDirectory (Naming.output tidied c.session.settings.generatedSuffix)
  fixed : ∀ root, c.session.locator = .fixed root →
    Naming.placedIn root c.session.settings.generatedSuffix r.source outputDirectory = .ok (r.output, r.className)
  resolved : ∃ steps below, Resolves F [] r.testcase.steps steps r.imports ∧
    Make.script c.session.settings { r.testcase with steps } r.className r.imports below = .ok r.script ∧
    (∃ root, Naming.relative root r.source = .ok below) ∧
    ∀ root, c.session.locator = .fixed root → Naming.relative root r.source = .ok below

/-- The state after a module was written and its record added. -/
def Chronicle.added (c : Chronicle) (r : Record) (d : Disk) : Chronicle :=
  ⟨Session.keep { c.session with disk := d } r.output r.entry.2, c.log ++ [r]⟩

/-! ## What has to be shown -/

/-- What is to be shown of the steps of a run whose moments have `U`, for a property `P` of sources and their output
directories that is known of those that are ordered and of those that are opened, an invariant `I`, a relation `R`
between states, roots `G` that may be found for paths, and modules `F` that may be found by calls in a state. -/
structure Stepwise (U : Moment → Prop) (P : Chronicle → Path → Option Path → Prop) (I : Chronicle → Prop)
    (R : Chronicle → Chronicle → Prop) (G : Path → Path → Prop) (F : Chronicle → String → Made → String → Prop) :
    Prop where
  refl : ∀ c, R c c
  trans : ∀ {c c' c''}, R c c' → R c' c'' → R c c''
  source : ∀ {c c' p outputDirectory}, R c c' → P c p outputDirectory → P c' p outputDirectory
  opened : ∀ {c : Chronicle} {p : Path} {content : Value}, I c → p.normalize = p →
    Source.load c.session.disk p = .ok content →
    (∀ root, c.session.locator = .fixed root → ∃ raw, p = referenced root raw) → P c p none
  found : ∀ {c : Chronicle} (p : Path), I c →
    G p (c.session.locator.find c.session.disk c.session.roots p).1
  finds : ∀ {c : Chronicle} {raw : String} {output root : Path} {made : Made} {name : String}, I c →
    Answers c.session raw output made → Naming.moduleName root output = .ok name →
    (∀ other, c.session.locator = .fixed other → root = other) → F c raw made name
  findsLater : ∀ {c c' raw made name}, R c c' → F c raw made name → F c' raw made name
  still : ∀ {c : Chronicle} {t : Session}, I c → c.session.Matches t → I ⟨t, c.log⟩ ∧ R c ⟨t, c.log⟩
  failed : ∀ {c : Chronicle} {r : Record} {outputDirectory : Option Path} {e : DiskFault} {d : Disk} {depth : Nat},
    I c → P c r.source outputDirectory → Composed G (F c) c r outputDirectory →
    U ⟨c.session, depth, some r.output, none⟩ →
    Emission.emit c.session.settings.packageMarker r.script.render r.output.parent r.output c.session.disk
      = .error e d →
    I { c with session := { c.session with disk := d } } ∧
      R c { c with session := { c.session with disk := d } }
  built : ∀ {c : Chronicle} {r : Record} {outputDirectory : Option Path} {d : Disk} {depth : Nat}, I c →
    P c r.source outputDirectory → Composed G (F c) c r outputDirectory →
    U ⟨c.session, depth, some r.output, none⟩ →
    Emission.emit c.session.settings.packageMarker r.script.render r.output.parent r.output c.session.disk
      = .ok () d →
    I (c.added r d) ∧ R c (c.added r d)

/-- From one state to another, what is to be preserved was, and so was what no step changes in the end. -/
structure Onward (I : Chronicle → Prop) (R : Chronicle → Chronicle → Prop) (c c' : Chronicle) : Prop where
  invariant : I c'
  related : R c c'
  settings : c'.session.settings = c.session.settings
  locator : c'.session.locator = c.session.locator
  resolving : c'.session.resolving = c.session.resolving
  runSet : c'.session.runSet = c.session.runSet

/-- What a run has come to: the path of the module of its source, which the session has. -/
structure Arrives (source : Path) (outputDirectory : Option Path) (c : Chronicle) (output : Path)
    (c' : Chronicle) : Prop where
  generated : Naming.IsGenerated c.session.settings.generatedSuffix output
  placed : ∀ root, c.session.locator = .fixed root → ∃ className,
    Naming.placedIn root c.session.settings.generatedSuffix source outputDirectory = .ok (output, className)
  has : c'.session.Has source output

namespace Stepwise

variable {U : Moment → Prop} {P : Chronicle → Path → Option Path → Prop} {I : Chronicle → Prop}
  {R : Chronicle → Chronicle → Prop} {G : Path → Path → Prop} {F : Chronicle → String → Made → String → Prop}
  (h : Stepwise U P I R G F) {c c' c'' : Chronicle} {α : Type} {depth : Nat}

include h

theorem onward_trans (hc : Onward I R c c') (hc' : Onward I R c' c'') : Onward I R c c'' where
  invariant := hc'.invariant
  related := h.trans hc.related hc'.related
  settings := hc'.settings.trans hc.settings
  locator := hc'.locator.trans hc.locator
  resolving := hc'.resolving.trans hc.resolving
  runSet := hc'.runSet.trans hc.runSet

theorem onward_still (hI : I c) {t : Session} (ht : c.session.Matches t)
    (hresolving : t.resolving = c.session.resolving) (hrunSet : t.runSet = c.session.runSet) :
    Onward I R c ⟨t, c.log⟩ :=
  ⟨(h.still hI ht).1, (h.still hI ht).2, ht.settings, ht.locator, hresolving, hrunSet⟩

theorem onward_refl (hI : I c) : Onward I R c c := h.onward_still hI ⟨rfl, rfl, rfl, rfl, id⟩ rfl rfl

/-- What is true of a run from a state that was reached is true of the whole run. -/
theorem tracks_from (hc : Onward I R c c') {step : Observed α} {Q : α → Chronicle → Prop}
    (hstep : Tracks U step c' Q (Onward I R c')) : Tracks U step c' Q (Onward I R c) :=
  hstep.mono (fun _ _ hQ => hQ) fun _ hE => h.onward_trans hc hE

/-- A step that looks something up is a step on the same log. -/
theorem tracks_lookup (hI : I c) {step : Make α} {Q : α → Prop} (hstep : LooksUp step c.session Q) :
    Tracks U (Observed.ofMake depth step) c (fun a c' => (Onward I R c c' ∧
      ∃ t, c' = ⟨t, c.log⟩ ∧ c.session.Matches t) ∧ Q a) (Onward I R c) := by
  have hstill : ∀ t, c.session.Alike t → Onward I R c ⟨t, c.log⟩ := by
    intro t ht
    have hmatches := ht.matches
    obtain ⟨roots, rfl⟩ := ht.roots
    exact h.onward_still hI hmatches rfl rfl
  refine (Tracks.ofMake hstep.ensures).mono ?_ ?_
  · rintro a _ ⟨t, rfl, ht, ha⟩
    exact ⟨⟨hstill t ht, t, rfl, ht.matches⟩, ha⟩
  · rintro _ ⟨t, rfl, ht⟩
    exact hstill t ht

/-- The source is on the stack while a step runs. -/
theorem tracks_whileResolving (hI : I c) (source : Path) {step : Observed α} {Q : α → Chronicle → Prop}
    (hQ : ∀ {a c c'}, R c c' → Q a c → Q a c') (hstep : ∀ c, I c →
      Tracks U step c (fun a c' => Onward I R c c' ∧ Q a c') (Onward I R c)) :
    Tracks U (Observed.whileResolving source step) c (fun a c' => Onward I R c c' ∧ Q a c')
      (Onward I R c) := by
  obtain ⟨hpushed, hpush⟩ := h.still (t := c.session.push source) hI ⟨rfl, rfl, rfl, rfl, id⟩
  have hpop : ∀ c', Onward I R ⟨c.session.push source, c.log⟩ c' → Onward I R c ⟨c'.session.pop, c'.log⟩ ∧
      R c' ⟨c'.session.pop, c'.log⟩ := by
    intro c' hc'
    obtain ⟨hpopped, hpop⟩ := h.still (t := c'.session.pop) hc'.invariant ⟨rfl, rfl, rfl, rfl, id⟩
    refine ⟨⟨hpopped, h.trans (h.trans hpush hc'.related) hpop, hc'.settings, hc'.locator, ?_, hc'.runSet⟩, hpop⟩
    show c'.session.resolving.dropLast = c.session.resolving
    rw [hc'.resolving]
    exact List.dropLast_concat
  refine .whileResolving ((hstep _ hpushed).mono ?_ fun c' hc' => (hpop c' hc').1)
  rintro a c' ⟨hc', ha⟩
  exact ⟨(hpop c' hc').1, hQ (hpop c' hc').2 ha⟩

/-! ## Calls -/

section Nested

variable {nested : Value → Path → Observed Path}
  (hnested : ∀ (content : Value) (p : Path) (c : Chronicle), I c → P c p.normalize none →
    Tracks U (nested content p) c (fun output c' => Onward I R c c' ∧ Arrives p.normalize none c output c')
      (Onward I R c))

include hnested

/-- A call finds the module of the document that it names. -/
theorem tracks_called (hI : I c) (source : Path) (step : Step) (raw : String) :
    Tracks U (Observed.called depth nested source step raw) c
      (fun found c' => Onward I R c c' ∧ Answers c'.session raw found.1 found.2) (Onward I R c) := by
  unfold Observed.called
  refine .bind (h.tracks_lookup hI (Make.looksUp_opened source step raw)) ?_
  rintro ⟨content, p⟩ _ ⟨⟨h₁, t, rfl, ht⟩, hnormal, hload, hfixed⟩
  rw [← ht.disk] at hload
  rw [← ht.locator] at hfixed
  have hsource : P ⟨t, c.log⟩ p.normalize none := by
    rw [hnormal]
    exact h.opened h₁.invariant hnormal hload fun root hroot => ⟨raw, hfixed root hroot⟩
  refine .bind (h.tracks_from h₁ (hnested content p _ h₁.invariant hsource)) ?_
  rintro output c₂ ⟨h₂, harrives⟩
  rw [hnormal] at harrives
  refine (h.tracks_from (h.onward_trans h₁ h₂) (h.tracks_lookup h₂.invariant
    (Make.looksUp_foundAt output))).mono ?_ fun _ => id
  rintro ⟨_, made⟩ _ ⟨⟨h₃, u, rfl, hu⟩, rfl, hmade⟩
  obtain ⟨_, hfound, hfrom⟩ := harrives.has
  rw [hmade] at hfound
  cases hfound
  have h₂₃ := h.onward_trans h₂ h₃
  refine ⟨h.onward_trans h₁ h₂₃, ?_, ?_, ?_, ?_⟩
  · rw [Session.made?, hu.made]
    exact hmade
  · rw [h₂₃.settings]
    exact harrives.generated
  · rw [h₂₃.locator]
    exact fun root hroot => hfixed root hroot ▸ hfrom
  · rw [h₂₃.locator, h₂₃.settings]
    intro root hroot
    rw [← hfixed root hroot, ← Naming.placedIn_none]
    exact harrives.placed root hroot

/-- A step is resolved by what the session has made. -/
theorem tracks_resolveStep (hI : I c) (source : Path) (imports : List Import) (step : Step) :
    Tracks U (Observed.resolveStep depth nested source imports step) c
      (fun resolved c' => Onward I R c c' ∧
        ResolvesTo (F c') imports step resolved.1 resolved.2) (Onward I R c) := by
  unfold Observed.resolveStep
  split
  · next raw haction =>
    refine .bind (h.tracks_called hnested hI source step raw) ?_
    rintro ⟨output, made⟩ c₁ ⟨h₁, hanswers⟩
    refine .bind (h.tracks_from h₁ (h.tracks_lookup h₁.invariant (Make.looksUp_moduleName output))) ?_
    rintro name _ ⟨⟨h₂, t, rfl, ht⟩, root, hname, hroot⟩
    exact .pure ⟨h.onward_trans h₁ h₂, .call haction
      (h.findsLater h₂.related (h.finds h₁.invariant hanswers hname hroot))⟩
  · next hother => exact .pure ⟨h.onward_refl hI, .keep hother⟩

/-- The steps are resolved one after the other. -/
theorem tracks_resolveSteps (source : Path) (steps : List Step) :
    ∀ (imports : List Import) (c : Chronicle), I c →
      Tracks U (Observed.resolveSteps depth nested source imports steps) c
        (fun resolved c' => Onward I R c c' ∧
          Resolves (F c') imports steps resolved.1 resolved.2) (Onward I R c) := by
  induction steps with
  | nil =>
    intro imports c hI
    exact .pure ⟨h.onward_refl hI, .nil imports⟩
  | cons step rest ih =>
    intro imports c hI
    unfold Observed.resolveSteps
    refine .bind (h.tracks_resolveStep hnested hI source imports step) ?_
    rintro ⟨step', second⟩ c₁ ⟨h₁, hstep⟩
    refine .bind (h.tracks_from h₁ (ih second c₁ h₁.invariant)) ?_
    rintro ⟨rest', third⟩ c₂ ⟨h₂, hrest⟩
    exact .pure ⟨h.onward_trans h₁ h₂, .cons (hstep.mono fun _ _ _ => h.findsLater h₂.related) hrest⟩

/-! ## Modules -/

omit hnested in
/-- A module is written, and its record is added. -/
theorem tracks_write (hI : I c) {r : Record} {outputDirectory : Option Path}
    (hr : Composed G (F c) c r outputDirectory) (hsource : P c r.source outputDirectory) :
    Tracks U (do
      Observed.emit depth r.script.render r.output
      Observed.keep depth r) c (fun _ c' => Onward I R c c' ∧ c'.session.Has r.source r.output)
      (Onward I R c) := by
  have hemit : U ⟨c.session, depth, some r.output, none⟩ → Ensures (Emission.emit
      c.session.settings.packageMarker r.script.render r.output.parent r.output) c.session.disk
      (fun _ d => Onward I R c (c.added r d))
      fun d => Onward I R c { c with session := { c.session with disk := d } } := by
    intro hU
    constructor
    · intro _ d hrun
      obtain ⟨hI', hR⟩ := h.built hI hsource hr hU hrun
      exact ⟨hI', hR, rfl, rfl, rfl, rfl⟩
    · intro _ d hrun
      obtain ⟨hI', hR⟩ := h.failed hI hsource hr hU hrun
      exact ⟨hI', hR, rfl, rfl, rfl, rfl⟩
  refine .bind (Q := fun _ c' => ∃ d, c' = { c with session := { c.session with disk := d } } ∧
    Onward I R c (c.added r d))
    ((Tracks.of_eq rfl rfl fun hU => Make.ensures_emit_of (h.onward_refl hI) (hemit hU)).mono ?_ ?_) ?_
  · rintro _ _ ⟨_, rfl, d, rfl, hd⟩
    exact ⟨d, rfl, hd⟩
  · rintro _ ⟨_, rfl, d, rfl, hd⟩
    exact hd
  · rintro _ _ ⟨d, rfl, hd⟩
    exact .keep ⟨hd, _, Session.made?_keep _ r.output _, Path.same_iff.2 rfl⟩

/-- The module of a testcase is written as it was composed. -/
theorem tracks_build (hI : I c) (document : Value) {testcase : Testcase} {output : Path} {className : String}
    {outputDirectory : Option Path} (hsource : P c testcase.config.source outputDirectory)
    (hread : ∃ d, Legacy.normalize document = .ok d ∧
      Testcase.ofDocument d testcase.config.source = .ok testcase)
    (hgenerated : Naming.IsGenerated c.session.settings.generatedSuffix output)
    (hplaced : ∃ root stemRoot tidied, G testcase.config.source root ∧
      Naming.tidy root stemRoot testcase.config.source = .ok tidied ∧ (output, className)
        = Naming.sentTo outputDirectory (Naming.output tidied c.session.settings.generatedSuffix))
    (hfixed : ∀ root, c.session.locator = .fixed root → Naming.placedIn root c.session.settings.generatedSuffix
      testcase.config.source outputDirectory = .ok (output, className)) :
    Tracks U (Observed.build depth nested document testcase output className) c
      (fun _ c' => Onward I R c c' ∧ c'.session.Has testcase.config.source output) (Onward I R c) := by
  unfold Observed.build
  refine .bind (h.tracks_whileResolving hI testcase.config.source
    (Q := fun (resolved : List Step × List Import) c' => Resolves (F c') [] testcase.steps resolved.1 resolved.2)
    (fun hR hresolves => hresolves.mono fun _ _ _ => h.findsLater hR)
    fun c hI => h.tracks_resolveSteps hnested testcase.config.source testcase.steps [] c hI) ?_
  rintro ⟨steps, imports⟩ c₁ ⟨h₁, hresolves⟩
  refine .bind (h.tracks_from h₁ (h.tracks_lookup h₁.invariant (Make.looksUp_scripted _ _ _))) ?_
  rintro script _ ⟨⟨h₂, t, rfl, ht⟩, below, hrelative, hbelow, hscript⟩
  have h₁₂ := h.onward_trans h₁ h₂
  refine .bind ((Tracks.ofMake (Make.ensures_claimClass output className _ _)).mono
    (fun _ _ h => h) ?_) ?_
  · rintro _ ⟨_, rfl, rfl⟩
    exact h₁₂
  rintro _ _ ⟨_, rfl, ⟨more, rfl⟩, -⟩
  have h₃ : Onward I R ⟨t, c₁.log⟩ ⟨{ t with classes := t.classes ++ more }, c₁.log⟩ :=
    h.onward_still h₂.invariant ⟨rfl, rfl, rfl, rfl, id⟩ rfl rfl
  have h₁₃ := h.onward_trans h₁₂ h₃
  have hcomposed : Composed G (F ⟨{ t with classes := t.classes ++ more }, c₁.log⟩)
      ⟨{ t with classes := t.classes ++ more }, c₁.log⟩
      { document, testcase, output, className, imports, script } outputDirectory := by
    refine ⟨hread, ?_, ?_, ?_, steps, below, ?_, ?_, hrelative, ?_⟩
    · rw [h₁₃.settings]
      exact hgenerated
    · rw [h₁₃.settings]
      exact hplaced
    · rw [h₁₃.settings, h₁₃.locator]
      exact hfixed
    · exact hresolves.mono fun _ _ _ => h.findsLater (h.trans h₂.related h₃.related)
    · show Make.script t.settings _ _ _ _ = _
      rw [ht.settings]
      exact hscript
    · show ∀ root, t.locator = .fixed root → _
      rw [ht.locator]
      exact hbelow
  exact (h.tracks_from h₁₃ (h.tracks_write h₃.invariant hcomposed (h.source h₁₃.related hsource))).mono
    (fun _ _ ⟨h₄, hhas⟩ => ⟨h.onward_trans h₁₃ h₄, hhas⟩) fun _ => id

/-- A document is made as its steps allow. -/
theorem tracks_testcaseWith (hI : I c) (raw : Value) {source : Path} (outputDirectory : Option Path)
    (hsource : P c source.normalize outputDirectory) :
    Tracks U (Observed.testcaseWith depth nested raw source outputDirectory) c
      (fun output c' => Onward I R c c' ∧ Arrives source.normalize outputDirectory c output c')
      (Onward I R c) := by
  have hG : ∀ t, c.session.Alike t → ∀ p, G p (t.locator.find t.disk t.roots p).1 := fun t ht p =>
    h.found p (h.still hI ht.matches).1
  unfold Observed.testcaseWith
  refine .bind (h.tracks_lookup hI ((Make.looksUp_drafted raw source.normalize outputDirectory).and
    (Make.looksUp_drafted_tidied hG raw source.normalize outputDirectory))) ?_
  rintro ⟨testcase, output, className⟩ _ ⟨⟨h₁, t, rfl, ht⟩,
    ⟨⟨document, hdocument, htestcase⟩, hgenerated, hfixed⟩, hplaced⟩
  have hsame : testcase.config.source = source.normalize := Testcase.source_of_ofDocument htestcase
  refine .bind (h.tracks_from h₁ (h.tracks_lookup h₁.invariant .get)) ?_
  rintro _ _ ⟨⟨h₂, u, rfl, hu⟩, rfl⟩
  have h₁₂ := h.onward_trans h₁ h₂
  have harrives : ∀ c', c'.session.Has source.normalize output →
      Arrives source.normalize outputDirectory c output c' :=
    fun _ hhas => ⟨hgenerated, fun root hroot => ⟨className, hfixed root hroot⟩, hhas⟩
  cases hmade : t.made? output with
  | some made =>
    dsimp only
    split
    · next hfrom =>
      refine .pure ⟨h₁₂, harrives _ ⟨made, ?_, hfrom⟩⟩
      rw [Session.made?, hu.made]
      exact hmade
    · exact .throw h₁₂
  | none =>
    dsimp only
    split
    · exact .throw h₁₂
    · have hlater := h.source h₁₂.related hsource
      rw [← hsame] at hlater
      refine .bind (h.tracks_from h₁₂ (h.tracks_build hnested h₂.invariant raw hlater ?_ ?_ ?_ ?_)) ?_
      · rw [hsame]
        exact ⟨document, hdocument, htestcase⟩
      · rw [h₁₂.settings]
        exact hgenerated
      · rw [hsame, h₁₂.settings]
        exact hplaced
      · rw [hsame, h₁₂.settings, h₁₂.locator]
        exact hfixed
      · rintro _ c₃ ⟨h₃, hhas⟩
        exact .pure ⟨h.onward_trans h₁₂ h₃, harrives c₃ (hsame ▸ hhas)⟩

end Nested

/-! ## Runs -/

/-- A run preserves what its steps preserve, at any depth of nesting. -/
theorem tracks_testcaseWithin (fuel : Nat) :
    ∀ (depth : Nat) (raw : Value) (source : Path) (outputDirectory : Option Path) (c : Chronicle), I c →
      P c source.normalize outputDirectory →
      Tracks U (Observed.testcaseWithin depth fuel raw source outputDirectory) c
        (fun output c' => Onward I R c c' ∧ Arrives source.normalize outputDirectory c output c')
        (Onward I R c) := by
  induction fuel with
  | zero => exact fun _ _ _ _ _ hI _ => .throw (h.onward_refl hI)
  | succ fuel ih =>
    intro depth raw source outputDirectory c hI hsource
    exact h.tracks_testcaseWith (fun content p c hI hp => ih (depth + 1) content p none c hI hp) hI raw
      outputDirectory hsource

theorem tracks_testcase (hI : I c) (raw : Value) {source : Path} (outputDirectory : Option Path)
    (hsource : P c source.normalize outputDirectory) :
    Tracks U (Observed.testcase raw source outputDirectory) c
      (fun output c' => Onward I R c c' ∧ Arrives source.normalize outputDirectory c output c')
      (Onward I R c) := by
  refine .bind (h.tracks_lookup hI .get) ?_
  rintro _ _ ⟨⟨h₁, t, rfl, ht⟩, rfl⟩
  refine (h.tracks_from h₁ (h.tracks_testcaseWithin _ 1 raw source outputDirectory _ h₁.invariant
    (h.source h₁.related hsource))).mono ?_ fun _ => id
  rintro output c₂ ⟨h₂, harrives⟩
  refine ⟨h.onward_trans h₁ h₂, ?_, ?_, harrives.has⟩
  · rw [← h₁.settings]
    exact harrives.generated
  · rw [← h₁.settings, ← h₁.locator]
    exact harrives.placed

/-- What the steps preserve is preserved by all orders. -/
theorem after (hI : I c) {orders : List Order} (horders : ∀ o ∈ orders, ∀ c', I c' → R c c' →
      (∀ m ∈ (o.observed c'.session).2, U m) ∧
      P c' (Path.ofString o.source).normalize (o.outputDirectory.map .ofString)) :
    Onward I R c (c.after orders) := by
  induction orders generalizing c with
  | nil => exact h.onward_refl hI
  | cons o orders ih =>
    obtain ⟨hmoments, hsource⟩ := horders o List.mem_cons_self c hI (h.refl c)
    have hfirst : Onward I R c (stateAfter o.record c) :=
      ((h.tracks_testcase hI o.document _ hsource hmoments).mono (fun _ _ h' => h'.1) fun _ => id).stateAfter
    exact h.onward_trans hfirst (ih hfirst.invariant fun o' ho' c' hc' hR =>
      horders o' (List.mem_cons_of_mem o ho') c' hc' (h.trans hfirst.related hR))

end Stepwise

/-- Nothing has to be preserved but what no step changes. -/
theorem stepwise_true : Stepwise (fun _ => True) (fun _ _ _ => True) (fun _ => True) (fun _ _ => True)
    (fun _ _ => True) fun _ _ _ _ => True := by
  constructor <;> simp

end TestScribe
