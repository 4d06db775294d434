/-
# Classes and the modules that define them

A source claims the class of its module before the module is written.  So every module that is there has
claimed its class, and a class that is claimed is defined by a module, unless the writing of the module failed:
then the class stays claimed, and no other source can have it in the same directory.

* `Session.IsDefined` : a module defines a class that was claimed;
* `Session.Abandons` : an order failed because the module of a class it had claimed could not be written;
* `Session.Mirrors` : every module has claimed its class, and every class claimed is defined or abandoned;
* `class_table_mirrors_modules` : the table of classes and the modules, and what a collision says;
* `class_claimed_without_module` : a class that is claimed in vain.
-/
import TestScribe.Proofs.Failures

namespace TestScribe

/-! ## Classes that are defined -/

/-- A module defines a class that was claimed. -/
def Session.IsDefined (s : Session) (c : ClassClaim) : Prop :=
  ∃ p made, s.made? p = some made ∧ Defines (p, made) c

/-- Where the paths of the modules are distinct, a module is found at its path. -/
theorem Session.Distinct.made?_of_mem {s : Session} (h : s.Distinct) {p : Path} {made : Made}
    (hmem : (p, made) ∈ s.made) : s.made? p = some made := by
  obtain ⟨before, after, hsplit⟩ := List.append_of_mem hmem
  rw [Session.Distinct, hsplit, List.pairwise_append] at h
  have hbefore : before.find? (fun entry => entry.1.same p) = none :=
    List.find?_eq_none.2 fun entry hentry => h.2.2 entry hentry (p, made) List.mem_cons_self
  have hself : p.same p = true := Path.same_iff.2 rfl
  rw [Session.made?, hsplit, List.find?_append, hbefore, Option.none_or, List.find?_cons, hself]
  rfl

theorem Session.IsDefined.exists_mem {s : Session} {c : ClassClaim} (h : s.IsDefined c) :
    ∃ entry ∈ s.made, Defines entry c := by
  obtain ⟨p, made, hmade, hdefines⟩ := h
  obtain ⟨output, hmem, hsame⟩ := Session.exists_mem_of_made? hmade
  have hparent := Path.same_iff.1 (Path.same_parent hsame)
  exact ⟨(output, made), hmem, Path.same_iff.2 (hparent.trans (Path.same_iff.1 hdefines.directory)),
    hdefines.className, hdefines.source⟩

theorem Session.Distinct.isDefined {s : Session} (h : s.Distinct) {c : ClassClaim}
    (hdefined : ∃ entry ∈ s.made, Defines entry c) : s.IsDefined c := by
  obtain ⟨⟨p, made⟩, hmem, hdefines⟩ := hdefined
  exact ⟨p, made, h.made?_of_mem hmem, hdefines⟩

/-- A module that defines a class has claimed it. -/
theorem Session.Claims.claim?_ne_none {s : Session} {entry : Path × Made} {c : ClassClaim}
    (h : s.Claims entry) (hdefines : Defines entry c) : s.claim? c.directory c.className ≠ none := by
  obtain ⟨c', hc', -⟩ := h
  rw [Session.claim?_of_same hdefines.directory, hdefines.className] at hc'
  rw [hc']
  exact Option.some_ne_none c'

/-! ## Orders -/

/-- An order failed because the module of a class could not be written, which it was the first to claim, and
left the class without a module. -/
def Session.Abandons (s : Session) (orders : List Order) (c : ClassClaim) : Prop :=
  ∃ done o left e t, orders = done ++ o :: left ∧ o.make (s.after done) = .error e t ∧
    (s.after done).claim? c.directory c.className = none ∧
    UnwrittenIn (o.observed (s.after done)).2 e t.disk c ∧ ¬ t.IsDefined c

theorem Session.Abandons.append {s : Session} {orders : List Order} {c : ClassClaim}
    (h : s.Abandons orders c) (more : List Order) : s.Abandons (orders ++ more) c := by
  obtain ⟨done, o, left, e, t, rfl, h⟩ := h
  exact ⟨done, o, left ++ more, e, t, by simp, h⟩

/-- After some orders, every module has claimed its class, and every class that is claimed is defined by a
module or abandoned. -/
structure Session.Mirrors (start : Session) (orders : List Order) (s : Session) : Prop where
  claimed : ∀ entry ∈ s.made, s.Claims entry
  defined : ∀ c ∈ s.classes, (∃ entry ∈ s.made, Defines entry c) ∨ start.Abandons orders c

section Orders

variable {root : Path} {start s t : Session} {orders : List Order}

/-- A run on the way keeps the two tables in accordance. -/
theorem Session.Mirrors.of_proceeds (h : start.Mirrors orders s) {course : List Moment}
    (hapart : WritesApart course) {K : Path × Made → Prop} (hproceeds : Proceeds course K s t) :
    start.Mirrors orders t := by
  obtain ⟨new, hnew, -⟩ := hproceeds.made
  obtain ⟨more, hmore, hdefined⟩ := hproceeds.classes
  refine ⟨hproceeds.claimed h.claimed, fun c hc => ?_⟩
  rw [hmore] at hc
  rcases List.mem_append.1 hc with hc | hc
  · refine (h.defined c hc).imp_left ?_
    rintro ⟨entry, hentry, hdefines⟩
    exact ⟨entry, by rw [hnew]; exact List.mem_append_left _ hentry, hdefines⟩
  · exact .inl (hdefined hapart c hc)

/-- An order that stops may abandon the class that it has just claimed. -/
theorem Session.Mirrors.of_fails (h : start.Mirrors orders (start.after orders)) {o : Order} {e : Fault}
    (hmake : o.make (start.after orders) = .error e t)
    (hapart : WritesApart (o.observed (start.after orders)).2) {K : Path × Made → Prop}
    (hfails : Fails (o.observed (start.after orders)).2 K e (start.after orders) t) :
    start.Mirrors (orders ++ [o]) t := by
  obtain ⟨mid, hproceeds, hstops⟩ := hfails
  have hmid := h.of_proceeds hapart hproceeds
  have hold : ∀ c ∈ mid.classes, (∃ entry ∈ t.made, Defines entry c) ∨ start.Abandons (orders ++ [o]) c := by
    intro c hc
    rw [hstops.made]
    exact (hmid.defined c hc).imp_right fun habandons => habandons.append [o]
  rcases hstops.classes with hsame | ⟨c, hmore, hnone, hunwritten⟩
  · refine ⟨?_, by rwa [hsame]⟩
    rw [hstops.made]
    exact fun entry hentry => (hmid.claimed entry hentry).of_append (by rw [hsame, List.append_nil])
  · constructor
    · rw [hstops.made]
      exact fun entry hentry => (hmid.claimed entry hentry).of_append hmore
    · intro c' hc'
      rw [hmore] at hc'
      rcases List.mem_append.1 hc' with hc' | hc'
      · exact hold c' hc'
      · obtain rfl := List.mem_singleton.1 hc'
        refine .inr ⟨orders, o, [], e, t, rfl, hmake, ?_, hunwritten, fun hdefined => ?_⟩
        · -- what was claimed before the order would still be claimed
          obtain ⟨more, hmore, -⟩ := hproceeds.classes
          by_contra hclaimed
          obtain ⟨c, hc⟩ := Option.ne_none_iff_exists'.1 hclaimed
          rw [Session.claim?_of_append hmore hc] at hnone
          cases hnone
        · obtain ⟨entry, hentry, hdefines⟩ := hdefined.exists_mem
          rw [hstops.made] at hentry
          exact (hmid.claimed entry hentry).claim?_ne_none hdefines hnone

theorem Session.after_concat (s : Session) (orders : List Order) (o : Order) :
    s.after (orders ++ [o]) = stateAfter o.make (s.after orders) := by
  rw [Session.after, List.foldl_append]
  rfl

/-- From a session without classes and modules, the two tables stay in accordance. -/
theorem Session.mirrors_after {suffix : String} (hplain : root.IsPlain) (hsuffix : '/' ∉ suffix.toList)
    (hs : Since root suffix [] start) (hmade : start.made = []) (hclasses : start.classes = [])
    (orders : List Order) : start.Mirrors orders (start.after orders) := by
  induction orders using List.reverseRecOn with
  | nil =>
    refine ⟨?_, ?_⟩
    · show ∀ entry ∈ start.made, _
      simp [hmade]
    · show ∀ c ∈ start.classes, _
      simp [hclasses]
  | append_singleton orders o ih =>
    have hafter := (adds_after hplain hsuffix hs orders).since hs
    obtain ⟨K, K', hends⟩ := o.ends_make hafter.locator
    have hapart := o.writesApart hplain hsuffix hafter
    rw [Session.after_concat, stateAfter]
    cases hresult : o.make (start.after orders) with
    | ok output t =>
      rw [hresult] at hends
      have hmirrors := ih.of_proceeds hapart hends
      exact ⟨hmirrors.claimed, fun c hc => (hmirrors.defined c hc).imp_right fun h => h.append [o]⟩
    | error e t =>
      rw [hresult] at hends
      exact ih.of_fails hresult hapart hends

end Orders

/-- **The table of classes mirrors the modules, but for modules that could not be written.**  After any orders
in a fresh session of a project with a fixed root, on a disk whose operations may fail at any point:

* the class of every module is claimed by its source, in the directory of the module;
* every class that is claimed is defined by a module, which lies in the directory, has the class and is made
  from the source; or else an order that was the first to claim the class failed with the fault of writing the
  module;
* a collision that an order reports is one with a source that has the module in question, or that has claimed
  the class and has a module that defines it, unless the class was abandoned in this way by an earlier order. -/
theorem class_table_mirrors_modules (settings : Settings) (root : String) (disk : Disk)
    (hsuffix : '/' ∉ settings.generatedSuffix.toList) (orders : List Order) :
    let start := Session.fresh settings root disk
    let s := start.after orders
    (∀ p made, s.made? p = some made →
      ∃ c, s.claim? p.parent made.className = some c ∧ c.source.same made.source) ∧
    (∀ c ∈ s.classes, s.IsDefined c ∨ start.Abandons orders c) ∧
    ∀ (o : Order) (e : Fault) (t : Session), o.make s = .error e t →
      (∀ first second output, e = .collision (.sameFile first second output) →
        ∃ made, t.made? output = some made ∧ made.source = first) ∧
      ∀ first second className directory, e = .collision (.sameClass first second className directory) →
        ∃ c ∈ t.classes, c.source = first ∧ c.className = className ∧ c.directory.same directory ∧
          (t.IsDefined c ∨ c ∈ s.classes ∧ start.Abandons orders c) := by
  intro start s
  have hplain := Path.isPlain_ofString root
  have hfresh : Since (.ofString root) settings.generatedSuffix [] start := ⟨rfl, rfl, List.nil_prefix⟩
  have hadds := adds_after hplain hsuffix hfresh orders
  have hdistinct : s.Distinct := hadds.distinct .nil
  have hs : Since (.ofString root) settings.generatedSuffix [] s := hadds.since hfresh
  have hmirrors : start.Mirrors orders s := Session.mirrors_after hplain hsuffix hfresh rfl rfl orders
  refine ⟨?_, ?_, ?_⟩
  · intro p made hmade
    obtain ⟨output, hmem, hsame⟩ := Session.exists_mem_of_made? hmade
    obtain ⟨c, hc, hsource⟩ := hmirrors.claimed _ hmem
    rw [Session.claim?_of_same (Path.same_parent hsame)] at hc
    exact ⟨c, hc, hsource⟩
  · exact fun c hc => (hmirrors.defined c hc).imp_left hdistinct.isDefined
  · intro o e t hmake
    have htdistinct : t.Distinct := by
      have hstep := adds_stateAfter hplain hsuffix hs o
      rw [stateAfter, hmake] at hstep
      exact hstep.distinct hdistinct
    have hapart := o.writesApart hplain hsuffix hs
    obtain ⟨K, K', hends⟩ := o.ends_make hs.locator
    rw [hmake] at hends
    obtain ⟨mid, hproceeds, hstops⟩ := hends
    constructor
    · intro first second output hfile
      obtain ⟨made, hmade, hsource⟩ := hstops.accuses.file first second output hfile
      refine ⟨made, ?_, hsource⟩
      rw [← hmade, Session.made?, Session.made?, hstops.made]
    · intro first second className directory hclass
      obtain ⟨c, hc, hsource⟩ := hstops.accuses.className first second className directory hclass
      have hmem : c ∈ mid.classes := List.mem_of_find?_eq_some hc
      obtain ⟨hsame, hname⟩ : c.directory.same directory = true ∧ c.className = className := by
        simpa using List.find?_some hc
      refine ⟨c, ?_, hsource, hname, hsame, ?_⟩
      · rcases hstops.classes with h | ⟨_, h, -⟩ <;> simp [h, hmem]
      · obtain ⟨more, hmore, hdefined⟩ := hproceeds.classes
        rw [hmore] at hmem
        rcases List.mem_append.1 hmem with hmem | hmem
        · refine ((hmirrors.defined c hmem).imp ?_ fun h => ⟨hmem, h⟩)
          rintro ⟨entry, hentry, hdefines⟩
          obtain ⟨new, hnew, -⟩ := hproceeds.made
          refine htdistinct.isDefined ⟨entry, ?_, hdefines⟩
          rw [hstops.made, hnew]
          exact List.mem_append_left _ hentry
        · rw [← hstops.made] at hdefined
          exact .inl (htdistinct.isDefined (hdefined hapart c hmem))

/-- A project where a directory has the name of a module. -/
def blockedModule : Disk := ⟨[("p", .directory [("a_test.py", .directory [])])], [], []⟩

/-- A testcase without steps. -/
def withoutSteps : Value := .mapping [("config", .mapping [("name", .text "a")]), ("teststeps", .list [])]

/-- The class that a result reports as claimed by two sources: the sources, the class and the directory. -/
def reportedClass {α : Type} : EStateM.Result Fault Session α → Option (String × String × String × String)
  | .error (.collision (.sameClass first second name directory)) _ =>
    some (first.text, second.text, name, directory.text)
  | _ => none

/-- **A class can be claimed without a module that defines it.**  The module of a testcase cannot be written
since there is a directory in its place.  Its class stays claimed, and another testcase of the same class is then
refused, although no module was made. -/
theorem class_claimed_without_module :
    let s := (Session.fresh {} "/p" blockedModule).after [⟨withoutSteps, "/p/a.json", none⟩]
    s.made = [] ∧ s.classes = [⟨.ofString "/p", "A", .ofString "/p/a.json"⟩] ∧
      reportedClass ((⟨withoutSteps, "/p/a_.json", none⟩ : Order).make s)
        = some ("/p/a.json", "/p/a_.json", "A", "/p") := by
  decide +kernel

/-- The class of a testcase whose module could not be written is abandoned. -/
theorem class_table_mirrors_modules_blocked :
    let start := Session.fresh {} "/p" blockedModule
    let orders : List Order := [⟨withoutSteps, "/p/a.json", none⟩]
    let s := start.after orders
    '/' ∉ ({} : Settings).generatedSuffix.toList ∧ s.made = [] ∧
      ∃ c ∈ s.classes, c.className = "A" ∧ start.Abandons orders c := by
  intro start orders s
  have hmade : s.made = [] := by decide +kernel
  have hclass : s.classes = [⟨.ofString "/p", "A", .ofString "/p/a.json"⟩] := by decide +kernel
  obtain ⟨-, hmirrors, -⟩ := class_table_mirrors_modules {} "/p" blockedModule (by decide) orders
  have hmem : (⟨.ofString "/p", "A", .ofString "/p/a.json"⟩ : ClassClaim) ∈ s.classes := by
    rw [hclass]
    exact List.mem_cons_self
  refine ⟨by decide, hmade, _, hmem, rfl, (hmirrors _ hmem).resolve_left fun hdefined => ?_⟩
  obtain ⟨entry, hentry, -⟩ := hdefined.exists_mem
  change entry ∈ s.made at hentry
  rw [hmade] at hentry
  cases hentry

end TestScribe
