/-
# Modules are made after those they import

The log of a project whose root is fixed, read backwards: each module was made after the modules of the
testcases it calls, and imports nothing else.  What a module that is written adds to this is said once, and the
whole run follows, since modules are written where there are none.

* `Provides`, `ImportedFrom` : a log has the module of a reference, and an import comes from it;
* `Justified` : what a record says about the ones before it;
* `Sound` : every record of a log is justified by those before it;
* `stepwise_sound` : the steps of a run keep the log sound;
* `imports_follow_modules` : every log is sound.
-/
import TestScribe.Proofs.Once
import TestScribe.Proofs.Stepwise
import TestScribe.Proofs.Writing

namespace TestScribe

/-! ## What a log says -/

section Log

variable (root : Path) (suffix : String)

/-- The module that a log has at a path. -/
def recordAt? (log : List Record) (output : Path) : Option Record :=
  log.find? fun r => r.output.same output

/-- A log has the module of a reference: the one at `output`, where the document that the reference names
has its module by itself, was made from that document. -/
structure Provides (log : List Record) (raw : String) (output : Path) (r : Record) : Prop where
  placed : ∃ className, Naming.placed root suffix (referenced root raw) = .ok (output, className)
  found : recordAt? log output = some r
  source : r.source.same (referenced root raw)

/-- An import is that of the module of a reference, by the dotted name of the module and the class that
was written into it. -/
def ImportedFrom (before : List Record) (raw : String) (i : Import) : Prop :=
  ∃ output q, Provides root suffix before raw output q ∧
    Naming.moduleName root q.output = .ok i.moduleName ∧
    q.script.className = "TestCase" ++ i.className

/-- A record is justified by those before it. -/
structure Justified (before : List Record) (r : Record) : Prop where
  /-- the testcase is that of the document -/
  read : ∃ document, Legacy.normalize r.document = .ok document ∧
    Testcase.ofDocument document r.source = .ok r.testcase
  /-- the module of every reference was made before -/
  references : ∀ step ∈ r.testcase.steps, ∀ raw, step.action = .call (.path raw) →
    ∃ output q, Provides root suffix before raw output q
  /-- every import comes from the module of a reference -/
  imports : ∀ i ∈ r.imports, ∃ step ∈ r.testcase.steps, ∃ raw,
    step.action = .call (.path raw) ∧ ImportedFrom root suffix before raw i
  /-- the import lines of the script are those of the imports -/
  lines : ∃ levels, r.script.imports = Make.importLines levels r.imports
  /-- the script has the class of the record -/
  className : r.script.className = "TestCase" ++ r.className
  /-- the module was written to a path that ends in a name -/
  endsIn : ∃ name, r.output.EndsIn name

/-- Every record of a log is justified by those before it, and the session has kept what it keeps of
each; the root is fixed, and the suffix is the given one. -/
structure Sound (c : Chronicle) : Prop where
  locator : c.session.locator = .fixed root
  generatedSuffix : c.session.settings.generatedSuffix = suffix
  mirrors : c.session.made = c.log.map Record.entry
  justified : ∀ before r after, c.log = before ++ r :: after → Justified root suffix before r

end Log

variable {root : Path} {suffix : String} {c c' c'' : Chronicle}

theorem Provides.mem {log : List Record} {raw : String} {output : Path} {r : Record}
    (h : Provides root suffix log raw output r) : r ∈ log := List.mem_of_find?_eq_some h.found

theorem Provides.path {log : List Record} {raw : String} {output : Path} {r : Record}
    (h : Provides root suffix log raw output r) : r.output.same output := by
  have hfound := List.find?_some h.found
  exact hfound

/-- What a log has at a path stays there when the log grows. -/
theorem Provides.mono {log log' : List Record} (h : log <+: log') {raw : String} {output : Path}
    {r : Record} (hr : Provides root suffix log raw output r) :
    Provides root suffix log' raw output r := by
  refine ⟨hr.placed, ?_, hr.source⟩
  obtain ⟨new, rfl⟩ := h
  have hfound := hr.found
  rw [recordAt?] at hfound ⊢
  rw [List.find?_append, hfound, Option.some_or]

/-- A justified record can be added where nothing was made. -/
theorem Sound.add (h : Sound root suffix c) {r : Record} (hr : Justified root suffix c.log r)
    (hnone : c.session.made? r.output = none) :
    Sound root suffix ⟨c.session.keep r.output r.entry.2, c.log ++ [r]⟩ := by
  refine ⟨h.locator, h.generatedSuffix, ?_, ?_⟩
  · rw [Session.made_keep hnone, h.mirrors, List.map_append]
    rfl
  intro before q after hlog
  -- the added record is the last one, or one of the old records is meant
  rcases List.eq_nil_or_concat after with rfl | ⟨front, last, rfl⟩
  · obtain ⟨rfl, hq⟩ := List.append_inj' hlog rfl
    cases hq
    exact hr
  · rw [List.concat_eq_append, ← List.cons_append, ← List.append_assoc] at hlog
    exact h.justified before q front (List.append_inj' hlog rfl).1

theorem Sound.of_mem (h : Sound root suffix c) {r : Record} (hr : r ∈ c.log) :
    ∃ before, Justified root suffix before r := by
  obtain ⟨before, after, hlog⟩ := List.append_of_mem hr
  exact ⟨before, h.justified before r after hlog⟩

/-- The session finds at a path what the log has there. -/
theorem Sound.made?_eq (h : Sound root suffix c) (output : Path) :
    c.session.made? output = (recordAt? c.log output).map fun r => r.entry.2 := by
  rw [Session.made?, h.mirrors, List.find?_map, Option.map_map]
  rfl

/-- A module that a call has found is provided by the log, under its own dotted name. -/
theorem Sound.provides (hroot : root.IsPlain) (hsuffix : '/' ∉ suffix.toList) (h : Sound root suffix c)
    {raw : String} {output other : Path} {made : Made} {name : String} (hanswers : Answers c.session raw output made)
    (hname : Naming.moduleName other output = .ok name)
    (hfixed : ∀ root, c.session.locator = .fixed root → other = root) :
    ∃ q, Provides root suffix c.log raw output q ∧ q.entry.2 = made ∧ Naming.moduleName root q.output = .ok name := by
  obtain rfl := hfixed root h.locator
  have hmade := hanswers.found
  rw [h.made?_eq, Option.map_eq_some_iff] at hmade
  obtain ⟨q, hq, rfl⟩ := hmade
  obtain ⟨className, hplaced⟩ := hanswers.placed other h.locator
  rw [h.generatedSuffix] at hplaced
  have hprovides : Provides other suffix c.log raw output q :=
    ⟨⟨className, hplaced⟩, hq, hanswers.source other h.locator⟩
  -- The dotted name is that of the computed path; the record may spell this path in another way.
  obtain ⟨_, hjustified⟩ := h.of_mem hprovides.mem
  obtain ⟨last, hend⟩ := hjustified.endsIn
  exact ⟨q, hprovides, rfl, Naming.moduleName_of_placed hroot hsuffix (isPlain_referenced hroot raw)
    (normalize_referenced other raw) hplaced hend hprovides.path hname⟩

/-! ## Runs -/

/-- A reference finds a module that the log provides, by its dotted name. -/
def Found (root : Path) (suffix : String) (log : List Record) (raw : String) (made : Made) (name : String) : Prop :=
  ∃ output q, Provides root suffix log raw output q ∧ q.entry.2 = made ∧ Naming.moduleName root q.output = .ok name

/-- A module that is written is justified by the log as it is then. -/
theorem Sound.justify (h : Sound root suffix c) {G : Path → Path → Prop} {r : Record}
    {outputDirectory : Option Path} (hr : Composed G (Found root suffix c.log) c r outputDirectory)
    (hend : ∃ name, r.output.EndsIn name) : Justified root suffix c.log r := by
  obtain ⟨steps, below, hresolves, hscript, -⟩ := hr.resolved
  obtain ⟨hlines, hclass⟩ := Make.script_fields hscript
  refine ⟨hr.read, ?_, ?_, ⟨_, hlines⟩, hclass, hend⟩
  · intro step hstep raw haction
    obtain ⟨made, name, output, q, hprovides, -⟩ := hresolves.exists_found hstep haction
    exact ⟨output, q, hprovides⟩
  · intro i hi
    obtain ⟨step, hstep, raw, made, haction, ⟨output, q, hprovides, rfl, hname⟩, hmade⟩ :=
      (hresolves.exists_of_mem hi).resolve_left List.not_mem_nil
    obtain ⟨_, hjustified⟩ := h.of_mem hprovides.mem
    refine ⟨step, hstep, raw, haction, output, q, hprovides, hname, ?_⟩
    rw [hjustified.className, hmade]
    rfl

/-- Every step of a run keeps the log sound, if modules are written where there are none. -/
theorem stepwise_sound (hroot : root.IsPlain) (hsuffix : '/' ∉ suffix.toList) :
    Stepwise (WritesNew []) (fun _ _ _ => True) (Sound root suffix) (fun c c' => c.log <+: c'.log) (fun _ _ => True)
      fun c => Found root suffix c.log where
  refl _ := List.prefix_rfl
  trans := List.IsPrefix.trans
  source _ _ := trivial
  opened _ _ _ _ := trivial
  found _ _ := trivial
  finds hc hanswers hname hfixed := ⟨_, hc.provides hroot hsuffix hanswers hname hfixed⟩
  findsLater := by
    rintro c c' raw made name hlog ⟨output, q, hprovides, hq⟩
    exact ⟨output, q, hprovides.mono hlog, hq⟩
  still hc ht := ⟨⟨ht.locator.trans hc.locator, ht.settings ▸ hc.generatedSuffix, ht.made.trans hc.mirrors,
    hc.justified⟩, List.prefix_rfl⟩
  failed hc _ _ _ _ := ⟨⟨hc.locator, hc.generatedSuffix, hc.mirrors, hc.justified⟩, List.prefix_rfl⟩
  built {c r _ d _} hc _ hr hnew hrun := by
    have hjustified := hc.justify hr (Emission.file_of_emit_eq_ok hrun).2.1
    have hwritten : Sound root suffix { c with session := { c.session with disk := d } } :=
      ⟨hc.locator, hc.generatedSuffix, hc.mirrors, hc.justified⟩
    exact ⟨hwritten.add hjustified (hnew.fresh _ rfl), List.prefix_append _ _⟩

theorem Sound.after (hroot : root.IsPlain) (hsuffix : '/' ∉ suffix.toList)
    (hc : Sound root suffix c) (orders : List Order) : Sound root suffix (c.after orders) := by
  refine ((stepwise_sound hroot hsuffix).after hc fun o _ c' hc' _ => ⟨?_, trivial⟩).invariant
  have hsince : Since root suffix [] c'.session := ⟨hc'.locator, hc'.generatedSuffix, List.nil_prefix⟩
  exact (adds_order hroot hsuffix hsince o).moments fun _ _ => trivial

theorem sound_fresh (settings : Settings) (root : String) (disk : Disk) :
    Sound (.ofString root) settings.generatedSuffix ⟨.fresh settings root disk, []⟩ :=
  ⟨rfl, rfl, rfl, by simp⟩

/-- **Imports follow modules.**  After any orders, each module in the log was made after the modules of
all the testcases that its document refers to, and each of its imports is the class of such a module,
under the dotted name of its path.  The log has exactly the modules of the session, in their order, and
the session is the one that the orders lead to without a log. -/
theorem imports_follow_modules (settings : Settings) (root : String) (disk : Disk)
    (hsuffix : '/' ∉ settings.generatedSuffix.toList) (orders : List Order) :
    let c := Chronicle.after ⟨.fresh settings root disk, []⟩ orders
    c.session = (Session.fresh settings root disk).after orders ∧
      c.session.made = c.log.map Record.entry ∧
      ∀ i r, c.log[i]? = some r →
        Justified (.ofString root) settings.generatedSuffix (c.log.take i) r := by
  intro c
  have hsound : Sound (.ofString root) settings.generatedSuffix c :=
    (sound_fresh settings root disk).after (Path.isPlain_ofString root) hsuffix orders
  refine ⟨Chronicle.session_after _ orders, hsound.mirrors, ?_⟩
  intro i r hr
  obtain ⟨hi, rfl⟩ := List.getElem?_eq_some_iff.1 hr
  refine hsound.justified _ _ (c.log.drop (i + 1)) ?_
  rw [List.cons_getElem_drop_succ, List.take_append_drop]

/-- An order that refers to a missing file, and one that goes to another directory. -/
theorem imports_follow_modules_caller :
    let c := Chronicle.after ⟨.fresh {} "/p" oneTestcase, []⟩
      [⟨caller "c.json", "/p/a.json", none⟩, ⟨caller "b.json", "/p/a.json", some "/out"⟩]
    '/' ∉ ({} : Settings).generatedSuffix.toList ∧
      c.log.map (fun r => (r.output, r.imports)) =
        [(⟨.root, ["p", "b_test.py"]⟩, []), (⟨.root, ["out", "a_test.py"]⟩, [⟨"b_test", "B", "B"⟩])] ∧
      c.session.made = c.log.map Record.entry ∧
      ∀ i r, c.log[i]? = some r → Justified (.ofString "/p") "_test.py" (c.log.take i) r := by
  intro c
  obtain ⟨-, hmade, hjustified⟩ := imports_follow_modules {} "/p" oneTestcase (by decide)
    [⟨caller "c.json", "/p/a.json", none⟩, ⟨caller "b.json", "/p/a.json", some "/out"⟩]
  refine ⟨by decide, ?_, hmade, hjustified⟩
  decide +kernel

end TestScribe
