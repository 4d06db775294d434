/-
# Classes are unique

No two modules of a session lie in one directory and have the same class, whatever was ordered and whatever
happened to the files in between.  Two modules of one directory and class were claimed by one source.  The
file name of a module depends on its source only, so that both would lie at the same path, where only one
module is made.

* `Naming.same_of_placedIn` : the modules of one source in one directory lie at the same path;
* `Session.Unambiguous` : no two modules have the same directory and class;
* `Accrues` : what is made at a moment of a run is the beginning of what is made in the end;
* `Event`, `Session.through` : orders, and changes of the files by someone else;
* `Session.Consistent` : what is kept by every event;
* `classes_unique` : a session is unambiguous after any events and at every moment of carrying out an order.
-/
import TestScribe.Proofs.Climbing
import TestScribe.Proofs.Failures
import TestScribe.Proofs.Records

namespace TestScribe

/-! ## File names of modules -/

/-- A path that ends in a name is its parent with the name. -/
theorem Path.EndsIn.components_eq_parent {p : Path} {name : String} (h : p.EndsIn name) :
    p.components = p.parent.components ++ [.name name] := by
  rw [components_parent, h.components_eq, List.dropLast_concat]

namespace Naming

variable {root source beside p p' : Path} {suffix besideClass className className' name name' : String}
  {directory directory' : Option Path}

/-- In any directory, a module has the file name that it would have next to its source. -/
theorem fileName?_of_placedIn (hroot : root.IsPlain) (hsource : source.IsPlain)
    (hbeside : placed root suffix source = .ok (beside, besideClass))
    (h : placedIn root suffix source directory = .ok (p, className)) (hend : p.EndsIn name) :
    beside.fileName? = some name := by
  rw [placedIn, hbeside] at h
  replace h := Except.ok.inj h
  dsimp only at h
  split at h
  · next besideName hname =>
    cases h
    rw [hname, hend.of_child (Path.notMem_of_fileName? (isPlain_placed hroot hsource hbeside) hname)]
  · cases h
    exact hend.fileName?_eq

/-- Modules of one source in one directory lie at the same path. -/
theorem same_of_placedIn (hroot : root.IsPlain) (hsource : source.IsPlain)
    (h : placedIn root suffix source directory = .ok (p, className)) (hend : p.EndsIn name)
    (h' : placedIn root suffix source directory' = .ok (p', className')) (hend' : p'.EndsIn name')
    (hparent : p.parent.same p'.parent) : p.same p' := by
  obtain ⟨⟨beside, besideClass⟩, hbeside, -⟩ := map_eq_ok.1 h
  have hname := fileName?_of_placedIn hroot hsource hbeside h hend
  rw [fileName?_of_placedIn hroot hsource hbeside h' hend', Option.some_inj] at hname
  rw [Path.same_iff, hend.components_eq_parent, hend'.components_eq_parent, Path.same_iff.1 hparent, hname]

end Naming

/-! ## Unambiguous sessions -/

/-- No two modules lie in one directory and have the same class. -/
def Session.Unambiguous (s : Session) : Prop :=
  s.made.Pairwise fun entry other =>
    ¬ (entry.1.parent.same other.1.parent ∧ entry.2.className = other.2.className)

/-- Fewer modules are unambiguous as well. -/
theorem Session.Unambiguous.mono {s t : Session} (h : t.Unambiguous) (hmade : s.made <+: t.made) :
    s.Unambiguous := List.Pairwise.sublist hmade.sublist h

/-- Modules that lie at paths of their own, where their sources go, and whose sources have claimed their
classes, are unambiguous. -/
theorem Logged.unambiguous {settings : Settings} {root : Path} {sent : Path → Option Path → Prop}
    {c : Chronicle} (hroot : root.IsPlain) (h : Logged settings (.fixed root) sent c)
    (hdistinct : c.session.Distinct) (hclaimed : ∀ entry ∈ c.session.made, c.session.Claims entry) :
    c.session.Unambiguous := by
  refine hdistinct.imp_of_mem fun {entry other} hentry hother hapart => ?_
  rintro ⟨hparent, hclass⟩
  obtain ⟨claim, hclaim, hsource⟩ := hclaimed entry hentry
  obtain ⟨claim', hclaim', hsource'⟩ := hclaimed other hother
  -- one class in one directory was claimed by one source
  rw [Session.claim?_of_same hparent, hclass, hclaim', Option.some_inj] at hclaim
  obtain rfl := hclaim
  obtain ⟨r, hr, hmade, hpath⟩ := h.made entry hentry
  obtain ⟨r', hr', hmade', hpath'⟩ := h.made other hother
  rw [← hmade] at hsource
  rw [← hmade'] at hsource'
  have horigin := h.origins r hr
  have horigin' := h.origins r' hr'
  have hsources : r'.source = r.source := by
    refine Path.eq_of_same_of_normal horigin'.normal horigin.normal (Path.same_iff.2 ?_)
    exact (Path.same_iff.1 hsource').symm.trans (Path.same_iff.1 hsource)
  -- the records may spell the two paths in other ways
  have hparents : r.output.parent.same r'.output.parent := by
    rw [Path.same_iff] at hparent ⊢
    rw [Path.same_iff.1 (Path.same_parent hpath), hparent, Path.same_iff.1 (Path.same_parent hpath')]
  obtain ⟨directory, -, hplaced⟩ := horigin.placed
  obtain ⟨directory', -, hplaced'⟩ := horigin'.placed
  obtain ⟨name, hend⟩ := horigin.endsIn
  obtain ⟨name', hend'⟩ := horigin'.endsIn
  replace hplaced' := hplaced' root rfl
  rw [hsources] at hplaced'
  have hsame := Naming.same_of_placedIn hroot (horigin.plain root rfl hroot) (hplaced root rfl) hend hplaced'
    hend' hparents
  rw [Path.same_iff] at hpath hpath' hsame
  exact hapart (Path.same_iff.2 (hpath.symm.trans (hsame.trans hpath')))

/-! ## Moments of a run -/

/-- What is made in `s` and at the given moments is the beginning of what is made in `t`. -/
structure Precedes (s : Session) (moments : List Moment) (t : Session) : Prop where
  start : s.made <+: t.made
  between : ∀ m ∈ moments, m.session.made <+: t.made

/-- Wherever a step begins, it ends after the moments that it passes, if modules are written where there are
none. -/
structure Accrues {α : Type} (step : Observed α) : Prop where
  ends : ∀ s, WritesApart (step s).2 →
    Ends (fun _ => Precedes s (step s).2) (fun _ => Precedes s (step s).2) (step s).1

namespace Accrues

variable {α β : Type}

theorem pure (a : α) : Accrues (Pure.pure a : Observed α) :=
  ⟨fun _ _ => ⟨List.prefix_rfl, fun _ hm => absurd hm List.not_mem_nil⟩⟩

/-- A single step is passed at the moment of its beginning. -/
theorem of_eq {step : Observed α} {plain : Make α} {depth : Nat} {writes : Option Path}
    (hstep : ∀ s, step s = (plain s, [⟨s, depth, writes, none⟩]))
    (hplain : ∀ s, Ends (fun _ t => s.made <+: t.made) (fun _ t => s.made <+: t.made) (plain s)) :
    Accrues step := by
  refine ⟨fun s _ => ?_⟩
  have hends := hplain s
  rw [hstep]
  have hprecedes : ∀ t : Session, s.made <+: t.made → Precedes s [⟨s, depth, writes, none⟩] t := by
    intro t ht
    refine ⟨ht, fun m hm => ?_⟩
    rw [List.mem_singleton.1 hm]
    exact ht
  cases hrun : plain s with
  | ok a t | error e t =>
    rw [hrun] at hends
    exact hprecedes t hends

/-- Looking something up makes nothing. -/
theorem lookup {depth : Nat} {step : Make α} (h : ∀ s, ∃ P, LooksUp step s P) :
    Accrues (Observed.ofMake depth step) := by
  refine of_eq (fun _ => rfl) fun s => ?_
  obtain ⟨P, ⟨hends⟩⟩ := h s
  cases hrun : step s with
  | ok a t | error e t =>
    rw [hrun] at hends
    obtain ⟨roots, rfl⟩ := hends.1.roots
    exact List.prefix_rfl

theorem throw {depth : Nat} (e : Fault) : Accrues (Observed.ofMake depth (throw e : Make α)) :=
  of_eq (fun _ => rfl) fun _ => List.prefix_rfl

theorem bind {step : Observed α} {f : α → Observed β} (h : Accrues step) (hf : ∀ a, Accrues (f a)) :
    Accrues (step >>= f) := by
  refine ⟨fun s hapart => ?_⟩
  have hends := h.ends s
  obtain ⟨⟨result, moments⟩, hstep⟩ : ∃ outcome, step s = outcome := ⟨_, rfl⟩
  rw [hstep] at hends
  cases result with
  | error e t =>
    rw [Observed.bind_eq_of_error hstep] at hapart ⊢
    exact hends hapart
  | ok a t =>
    rw [Observed.bind_eq_of_ok hstep] at hapart ⊢
    replace hends := hends fun m hm => hapart m (List.mem_append_left _ hm)
    have hlater : ∀ u, Precedes t (f a t).2 u → Precedes s (moments ++ (f a t).2) u := by
      intro u hu
      refine ⟨hends.start.trans hu.start, fun m hm => ?_⟩
      rcases List.mem_append.1 hm with hm | hm
      · exact (hends.between m hm).trans hu.start
      · exact hu.between m hm
    have hlast := (hf a).ends t fun m hm => hapart m (List.mem_append_right _ hm)
    cases hrun : (f a t).1 with
    | ok b u | error e u =>
      rw [hrun] at hlast
      exact hlater u hlast

/-- The stack does not matter. -/
theorem whileResolving {step : Observed α} (h : Accrues step) (source : Path) :
    Accrues (Observed.whileResolving source step) := by
  refine ⟨fun s hapart => ?_⟩
  rw [Observed.whileResolving_eq] at hapart ⊢
  have hends := h.ends (s.push source) hapart
  cases hrun : (step (s.push source)).1 with
  | ok a t | error e t =>
    rw [hrun] at hends
    exact ⟨hends.start, hends.between⟩

/-- A module is written where there is none, and kept. -/
theorem emit_keep (depth : Nat) (r : Record) :
    Accrues (do
      Observed.emit depth r.script.render r.output
      Observed.keep depth r) := by
  refine ⟨fun s hapart => ?_⟩
  have hstep : Observed.emit depth r.script.render r.output s
      = (Make.emit r.script.render r.output s, [⟨s, depth, some r.output, none⟩]) := rfl
  have hends : Ends _ _ (Make.emit r.script.render r.output s) :=
    Make.ends_emit s.settings.covers_true (fun _ _ => trivial) r.script.render
  cases hrun : Make.emit r.script.render r.output s with
  | error e t =>
    rw [hrun] at hends hstep
    obtain ⟨⟨d, rfl, -⟩, -⟩ := hends
    rw [Observed.bind_eq_of_error hstep]
    exact ⟨List.prefix_rfl, fun m hm => by rw [List.mem_singleton.1 hm]⟩
  | ok _ t =>
    rw [hrun] at hends hstep
    obtain ⟨⟨d, rfl, -⟩, -⟩ := hends
    rw [Observed.bind_eq_of_ok hstep] at hapart ⊢
    have hnone : s.made? r.output = none := hapart _ List.mem_cons_self r.output rfl
    have hkept : s.made <+: (Session.keep { s with disk := d } r.output r.entry.2).made :=
      Session.prefix_made_keep hnone List.prefix_rfl
    refine ⟨hkept, fun m hm => ?_⟩
    rcases List.mem_cons.1 hm with rfl | hm
    · exact hkept
    · rw [List.mem_singleton.1 hm]
      exact hkept

section Nested

variable {depth : Nat} {nested : Value → Path → Observed Path}
  (hnested : ∀ content p, Accrues (nested content p))

include hnested

theorem resolveStep (source : Path) (imports : List Import) (step : Step) :
    Accrues (Observed.resolveStep depth nested source imports step) := by
  unfold Observed.resolveStep
  split
  · next raw _ =>
    have hcalled : Accrues (Observed.called depth nested source step raw) := by
      unfold Observed.called
      refine .bind (.lookup fun _ => ⟨_, Make.looksUp_opened source step raw⟩) ?_
      rintro ⟨content, p⟩
      exact .bind (hnested content p) fun output => .lookup fun _ => ⟨_, Make.looksUp_foundAt output⟩
    refine .bind hcalled ?_
    rintro ⟨output, made⟩
    exact .bind (.lookup fun _ => ⟨_, Make.looksUp_moduleName output⟩) fun _ => .pure _
  · exact .pure _

theorem resolveSteps (source : Path) (imports : List Import) (steps : List Step) :
    Accrues (Observed.resolveSteps depth nested source imports steps) := by
  induction steps generalizing imports with
  | nil => exact .pure _
  | cons step rest ih =>
    unfold Observed.resolveSteps
    refine .bind (resolveStep hnested source imports step) ?_
    rintro ⟨step, imports⟩
    refine .bind (ih imports) ?_
    rintro ⟨rest, imports⟩
    exact .pure _

theorem build (document : Value) (testcase : Testcase) (output : Path) (className : String) :
    Accrues (Observed.build depth nested document testcase output className) := by
  unfold Observed.build
  refine .bind (.whileResolving (resolveSteps hnested _ _ _) _) ?_
  rintro ⟨steps, imports⟩
  refine .bind (.lookup fun _ => ⟨_, Make.looksUp_scripted _ _ _⟩) fun script => ?_
  refine .bind (.of_eq (fun _ => rfl) fun s => ?_) fun _ => .emit_keep depth
    ⟨document, testcase, output, className, imports, script⟩
  have hends := Make.ends_claimClass output className testcase.config.source s
  cases hrun : Make.claimClass output className testcase.config.source s with
  | ok _ t =>
    rw [hrun] at hends
    obtain ⟨⟨more, rfl⟩, -⟩ := hends
    exact List.prefix_rfl
  | error e t =>
    rw [hrun] at hends
    obtain ⟨rfl, -⟩ := hends
    exact List.prefix_rfl

theorem testcaseWith (raw : Value) (source : Path) (outputDirectory : Option Path) :
    Accrues (Observed.testcaseWith depth nested raw source outputDirectory) := by
  unfold Observed.testcaseWith
  refine .bind (.lookup fun _ => ⟨_, Make.looksUp_drafted raw source.normalize outputDirectory⟩) ?_
  rintro ⟨testcase, output, className⟩
  refine .bind (.lookup fun _ => ⟨_, .get⟩) fun s => ?_
  split
  · split
    · exact .pure _
    · exact .throw _
  · split
    · exact .throw _
    · exact .bind (build hnested _ _ _ _) fun _ => .pure _

end Nested

theorem testcaseWithin (depth fuel : Nat) (raw : Value) (source : Path) (outputDirectory : Option Path) :
    Accrues (Observed.testcaseWithin depth fuel raw source outputDirectory) := by
  induction fuel generalizing depth raw source outputDirectory with
  | zero => exact .throw _
  | succ fuel ih => exact testcaseWith (fun content p => ih (depth + 1) content p none) raw source outputDirectory

end Accrues

/-- At every moment of carrying out an order, the modules are the first ones of those that there are in the
end. -/
theorem Order.made_isPrefix {o : Order} {s : Session} (hapart : WritesApart (o.observed s).2) :
    ∀ m ∈ (o.observed s).2, m.session.made <+: (stateAfter o.make s).made := by
  have haccrues : Accrues o.observed := .bind (.lookup fun _ => ⟨_, .get⟩) fun _ => .testcaseWithin _ _ _ _ _
  have hends := haccrues.ends s hapart
  rw [o.observed_fst] at hends
  rw [stateAfter]
  cases hrun : o.make s with
  | ok a t | error e t =>
    rw [hrun] at hends
    exact hends.between

/-! ## Events -/

/-- What happens to a session: an order is carried out, or someone else changes the files. -/
inductive Event where
  | order (o : Order)
  | edit (disk : Disk)

/-- The session after an event, also after an order that failed. -/
def Session.meet (s : Session) : Event → Session
  | .order o => stateAfter o.make s
  | .edit disk => { s with disk }

/-- The session after some events. -/
def Session.through (s : Session) (events : List Event) : Session := events.foldl Session.meet s

/-- Every module was made where its source goes, at a path of its own, and its class is claimed by its source. -/
structure Session.Consistent (settings : Settings) (root : Path) (s : Session) : Prop where
  logged : ∃ log, Logged settings (.fixed root) (fun _ _ => True) ⟨s, log⟩
  distinct : s.Distinct
  claimed : ∀ entry ∈ s.made, s.Claims entry

section Events

variable {settings : Settings} {root : Path} {s : Session}

/-- An order leaves every class claimed by the source of its module. -/
theorem Order.claims_stateAfter (hroot : s.locator = .fixed root) (h : ∀ entry ∈ s.made, s.Claims entry)
    (o : Order) : ∀ entry ∈ (stateAfter o.make s).made, (stateAfter o.make s).Claims entry := by
  obtain ⟨K, K', hends⟩ := o.ends_make hroot
  rw [stateAfter]
  cases hrun : o.make s with
  | ok output t =>
    rw [hrun] at hends
    exact hends.claimed h
  | error e t =>
    rw [hrun] at hends
    obtain ⟨mid, hproceeds, hstops⟩ := hends
    obtain ⟨more, hmore⟩ : ∃ more, t.classes = mid.classes ++ more := by
      rcases hstops.classes with hsame | ⟨c, hc, -⟩
      · exact ⟨[], by rw [hsame, List.append_nil]⟩
      · exact ⟨[c], hc⟩
    dsimp only
    rw [hstops.made]
    exact fun entry hentry => (hproceeds.claimed h entry hentry).of_append hmore

theorem Session.Consistent.since (h : s.Consistent settings root) :
    Since root settings.generatedSuffix [] s := by
  obtain ⟨log, hlog⟩ := h.logged
  exact ⟨hlog.locator, congrArg Settings.generatedSuffix hlog.settings, List.nil_prefix⟩

/-- An order keeps a session consistent. -/
theorem Session.Consistent.order (hroot : root.IsPlain) (hsuffix : '/' ∉ settings.generatedSuffix.toList)
    (h : s.Consistent settings root) (o : Order) : (stateAfter o.make s).Consistent settings root := by
  obtain ⟨log, hlog⟩ := h.logged
  refine ⟨⟨(stateAfter o.record ⟨s, log⟩).log, ?_⟩, (adds_stateAfter hroot hsuffix h.since o).distinct h.distinct,
    o.claims_stateAfter h.since.locator h.claimed⟩
  have hlogged : Ensures o.record ⟨s, log⟩ _ _ := ((stepwise_logged fun _ => trivial).tracks_testcase hlog
    o.document (o.outputDirectory.map .ofString) ⟨Path.normalize_normalize _, fun _ _ _ =>
      Path.isPlain_normalize (Path.isPlain_ofString o.source), trivial⟩).ensures
  have hsession : (stateAfter o.record ⟨s, log⟩).session = stateAfter o.make s := o.session_stateAfter ⟨s, log⟩
  rw [← hsession]
  exact (hlogged.mono (fun _ _ h => h.1) fun _ => id).stateAfter.invariant

/-- Changes of the files do not matter to the modules and classes. -/
theorem Session.Consistent.edit (h : s.Consistent settings root) (disk : Disk) :
    ({ s with disk } : Session).Consistent settings root := by
  obtain ⟨log, hlog⟩ := h.logged
  exact ⟨⟨log, hlog.origins, hlog.made, hlog.settings, hlog.locator⟩, h.distinct, h.claimed⟩

/-- So does whatever happens. -/
theorem Session.Consistent.through (hroot : root.IsPlain) (hsuffix : '/' ∉ settings.generatedSuffix.toList)
    (h : s.Consistent settings root) (events : List Event) : (s.through events).Consistent settings root := by
  induction events generalizing s with
  | nil => exact h
  | cons event events ih =>
    refine ih ?_
    cases event with
    | order o => exact h.order hroot hsuffix o
    | edit disk => exact h.edit disk

theorem Session.consistent_fresh (settings : Settings) (root : String) (disk : Disk) :
    (Session.fresh settings root disk).Consistent settings (.ofString root) :=
  ⟨⟨[], by simp, by simp [Session.fresh], rfl, rfl⟩, .nil, by simp [Session.fresh]⟩

/-- In a consistent session, a class belongs to one module. -/
theorem Session.Consistent.unambiguous (hroot : root.IsPlain) (h : s.Consistent settings root) :
    s.Unambiguous := by
  obtain ⟨log, hlog⟩ := h.logged
  exact hlog.unambiguous hroot h.distinct h.claimed

end Events

/-- **Classes are unique.**  In a project with a fixed root, after any orders, those that failed among them, and
any changes of the files between them, no two modules of the session lie in one directory and have the same
class.  This is also so at every moment of carrying out one more order, while testcases that it calls are made. -/
theorem classes_unique (settings : Settings) (root : String) (disk : Disk)
    (hsuffix : '/' ∉ settings.generatedSuffix.toList) (events : List Event) :
    let s := (Session.fresh settings root disk).through events
    s.Unambiguous ∧ ∀ o : Order, ∀ m ∈ (o.observed s).2, m.session.Unambiguous := by
  intro s
  have hroot := Path.isPlain_ofString root
  have hs : s.Consistent settings (.ofString root) :=
    (Session.consistent_fresh settings root disk).through hroot hsuffix events
  refine ⟨hs.unambiguous hroot, fun o m hm => ?_⟩
  exact ((hs.order hroot hsuffix o).unambiguous hroot).mono
    (Order.made_isPrefix (o.writesApart hroot hsuffix hs.since) m hm)

/-- A project with a testcase whose name has a character that is rewritten. -/
def similarNames : Disk := ⟨[("p", .directory [("a b.json", .file (emptyText "a").toUTF8)])], [], []⟩

/-- A testcase goes to another directory and calls one that takes the path next to it, so that it cannot go there
afterwards, although the files have been changed. -/
theorem classes_unique_similarNames :
    let o : Order := ⟨caller "a b.json", "/p/a-b.json", some "/out"⟩
    let events : List Event := [.order o, .edit oneTestcase, .order { o with outputDirectory := none }]
    let s := (Session.fresh {} "/p" similarNames).through events
    '/' ∉ ({} : Settings).generatedSuffix.toList ∧
      s.made.map (fun entry => (entry.1.text, entry.2.className))
        = [("/p/a_b_test.py", "AB"), ("/out/a_b_test.py", "AB")] ∧
      s.Unambiguous := by
  intro o events s
  refine ⟨by decide, by decide +kernel, ?_⟩
  exact (classes_unique {} "/p" similarNames (by decide) events).1

end TestScribe
