/-
# The names of imported classes

A module calls an imported class by a name of its own: that of the class, or one made of the dotted name of
its module.  Such a name hides whatever else has it in the module, and the names that the module needs are
not kept free.  They are hidden exactly by the classes that are called like one of them.

* `Naming.isLower_head_titleCase` : no class name begins with a small letter of ASCII;
* `Naming.exists_moduleName_eq` : the name made of the dotted name of a generated module;
* `Import.Fresh` : imports whose names were chosen one after the other;
* `needed_names_hidden` : which of the names that a module needs are hidden.
-/
import TestScribe.Proofs.Once
import TestScribe.Proofs.Records

namespace TestScribe

/-! ## Title case -/

theorem Text.isLower_iff {c : Char} : c.isLower = true ↔ 0x61 ≤ c.toNat ∧ c.toNat ≤ 0x7A := by
  simp [Char.isLower, UInt32.le_iff_toNat_le, ← Char.toNat_val]

/-- The upper-case form of a character does not begin with a small letter of ASCII. -/
theorem Text.exists_upperOf (c : Char) : ∃ first rest, upperOf c = first :: rest ∧ first.isLower = false := by
  have hlower : ∀ d : Char, d.toNat < 0x61 ∨ 0x7A < d.toNat → d.isLower = false := by
    intro d hd
    rw [← Bool.not_eq_true, isLower_iff]
    omega
  have hcode : ∀ n : Nat, n < 0x61 ∨ 0x7A < n → (Char.ofNat n).isLower = false := by
    intro n hn
    refine hlower _ ?_
    rw [Char.toNat_ofNat]
    split
    · exact hn
    · exact .inl (by decide)
  have hascii : ∀ n < 0x80, (Char.ofNat n).toUpper.isLower = false := by decide
  have hexpansions : Case.upperExpansions.all (fun expansion =>
      expansion.2.head?.any fun code => code < 0x61 || 0x7A < code) := by
    decide +kernel
  have hshifts : Case.upperShifts.all (fun run =>
      (run.last : Int) + run.distance < 0x61 || 0x7A < (run.first : Int) + run.distance) := by
    decide +kernel
  rw [upperOf]
  split
  · next hlow =>
    refine ⟨c.toUpper, [], rfl, ?_⟩
    rw [← Char.ofNat_toNat c]
    exact hascii c.toNat hlow
  · next hhigh =>
    rw [counterpart]
    split
    · next codes hcodes =>
      obtain ⟨before, after, hlist, -⟩ := List.lookup_eq_some_iff.1 hcodes
      have hmem : (c.toNat, codes) ∈ Case.upperExpansions := by
        rw [hlist]
        exact List.mem_append_right _ List.mem_cons_self
      have hany := List.all_eq_true.1 hexpansions _ hmem
      cases codes with
      | nil => cases hany
      | cons code codes =>
        refine ⟨Char.ofNat code, codes.map Char.ofNat, rfl, hcode code ?_⟩
        simpa using hany
    · split
      · next run hrun =>
        refine ⟨_, [], rfl, hcode _ ?_⟩
        have hdistance := List.all_eq_true.1 hshifts run (List.mem_of_find?_eq_some hrun)
        have hholds := List.find?_some hrun
        rw [Case.MovedRun.holds, Bool.and_eq_true, Bool.and_eq_true, decide_eq_true_eq,
          decide_eq_true_eq] at hholds
        rw [Bool.or_eq_true, decide_eq_true_eq, decide_eq_true_eq] at hdistance
        omega
      · exact ⟨c, [], rfl, hlower c (.inr (by omega))⟩

namespace Naming

/-- No class name begins with a small letter of ASCII. -/
theorem isLower_head_titleCase {cs : List Char} {first : Char} {rest : List Char}
    (h : titleCase false cs = first :: rest) : first.isLower = false := by
  induction cs with
  | nil => cases h
  | cons c cs ih =>
    rw [titleCase] at h
    split at h
    · obtain ⟨first', rest', hupper, hlower⟩ := Text.exists_upperOf c
      simp only [Bool.false_eq_true, if_false, hupper, List.cons_append, List.cons.injEq] at h
      rw [← h.1]
      exact hlower
    · next hcase =>
      split at h
      · exact ih h
      · cases h
        rw [← Bool.not_eq_true]
        intro hlower
        obtain ⟨hfirst, hlast⟩ := Text.isLower_iff.1 hlower
        have hcased : Text.isLowercase first = true := by
          rw [Text.isLowercase, if_pos (by omega)]
          simpa [Char.isLower, Char.le_def] using hlower
        rw [hcased, Bool.true_or] at hcase
        exact hcase rfl

theorem titleCase_append_test (after : Bool) (cs : List Char) :
    titleCase after (cs ++ "_test".toList) = titleCase after cs ++ "Test".toList := by
  induction cs generalizing after with
  | nil => cases after <;> decide +kernel
  | cons c cs ih =>
    rw [List.cons_append, titleCase, titleCase]
    split
    · rw [ih, List.append_assoc]
    · split
      · exact ih false
      · rw [ih, List.cons_append]

theorem className_append_test (front : String) : className (front ++ "_test") = className front ++ "Test" := by
  rw [className, className, String.toList_append, titleCase_append_test, String.ofList_append,
    String.ofList_toList]

end Naming

/-! ## Dotted names -/

theorem Text.replaceChar_append (old new : Char) (front text : String) :
    Text.replaceChar old new (front ++ text) = Text.replaceChar old new front ++ Text.replaceChar old new text := by
  simp [Text.replaceChar]

namespace Naming

/-- Without its extension, the file of a module ends in `_test`. -/
theorem components_withoutExtension_of_endsIn_test {p : Path} {front : String}
    (h : p.EndsIn (front ++ "_test.py")) :
    p.withoutExtension.components = p.components.dropLast ++ [.name (front ++ "_test")] := by
  have hname : Path.IsName (front ++ "_test") := Path.isName_append ⟨'_', by decide, by decide⟩ front
  obtain ⟨hne, hdot⟩ := Path.isFiller_eq_false_iff.1 hname.1
  have hbare : Path.bareName (front ++ "_test.py") = front ++ "_test" := by
    have hcut := Path.cutName_append_dot (front ++ "_test") (show '.' ∉ "py".toList by decide)
    rw [if_neg hne, String.append_assoc, String.append_assoc] at hcut
    rw [Path.bareName, show "_test.py" = "_test" ++ ("." ++ "py") from rfl, hcut]
    exact if_neg hdot
  rw [h.components_withoutExtension, hbare, Path.componentOf?_of_name hname.1 hname.2]
  rfl

/-- The dotted name of a generated module ends in `_test`, unless the module is the root. -/
theorem exists_moduleName_eq {root p : Path} {name : String} (hp : IsGenerated "_test.py" p)
    (h : moduleName root p = .ok name) : name = "" ∨ ∃ front, name = front ++ "_test" := by
  obtain ⟨front, hend⟩ := hp.endsIn (by decide) ⟨'_', by decide, by decide⟩
  obtain ⟨below, hbelow, rfl⟩ := map_eq_ok.1 h
  have hcomponents := components_withoutExtension_of_endsIn_test hend
  rw [Path.components_of_after? (relative_eq_ok_iff.1 hbelow)] at hcomponents
  rcases List.eq_nil_or_concat' below.components with hnil | ⟨before, last, hlast⟩
  · left
    rw [Path.segments, hnil]
    rfl
  · right
    rw [hlast, ← List.append_assoc] at hcomponents
    obtain ⟨-, hlast'⟩ := List.append_inj' hcomponents rfl
    cases hlast'
    obtain ⟨lead, hlead⟩ := Text.exists_joinWith_concat "." (before.map Component.text) (front ++ "_test")
    refine ⟨lead ++ front, ?_⟩
    rw [Path.segments, hlast, List.map_append, String.append_assoc, ← hlead]
    rfl

end Naming

/-! ## The names of imports -/

namespace Import

/-- The name made of the dotted name of a module. -/
def qualifiedName (i : Import) : String := Naming.className (Text.replaceChar '.' '_' i.moduleName)

theorem exists_firstFree_eq (imports : List Import) (name : String) (fuel n : Nat) :
    ∃ k, firstFree imports name fuel n = numbered name k := by
  induction fuel generalizing n with
  | zero => exact ⟨n, rfl⟩
  | succ fuel ih =>
    rw [firstFree]
    split
    · exact ih (n + 1)
    · exact ⟨n, rfl⟩

/-- The names of imports were chosen one after the other. -/
def Fresh (imports : List Import) : Prop :=
  ∀ before i after, imports = before ++ i :: after → i.localName = freshName before i.className i.moduleName

theorem Fresh.choose {imports : List Import} (h : Fresh imports) (className moduleName : String) :
    Fresh (choose imports className moduleName).2 := by
  unfold Import.choose
  split
  · exact h
  · intro before i after heq
    rcases List.eq_nil_or_concat' after with rfl | ⟨front, last, rfl⟩
    · obtain ⟨rfl, hlast⟩ := List.append_inj' heq rfl
      cases hlast
      rfl
    · rw [← List.cons_append, ← List.append_assoc] at heq
      exact h before i front (List.append_inj' heq rfl).1

/-- A class is called by its own name, or by a spelling of the name made of its module, where its own name
is taken. -/
theorem Fresh.localName_cases {imports : List Import} (h : Fresh imports) {i : Import} (hi : i ∈ imports) :
    i.localName = i.className ∨
      (∃ j ∈ imports, j.localName = i.className) ∧ ∃ n, i.localName = numbered i.qualifiedName n := by
  obtain ⟨before, after, rfl⟩ := List.append_of_mem hi
  have hname := h before i after rfl
  rw [freshName] at hname
  split at hname
  · next htaken =>
    rw [taken, List.any_eq_true] at htaken
    obtain ⟨j, hj, hsame⟩ := htaken
    obtain ⟨n, hn⟩ := exists_firstFree_eq before i.qualifiedName before.length 0
    exact .inr ⟨⟨j, List.mem_append_left _ hj, of_decide_eq_true hsame⟩, n, hname.trans hn⟩
  · exact .inl hname

end Import

/-! ## Names that are hidden -/

/-- The names that a module needs after its import lines, and the keywords that begin with a capital. -/
def neededNames : List String :=
  ["HttpRunner", "Config", "Step", "RunRequest", "RunTestCase", "Parameters", "pytest", "super", "None",
    "True", "False"]

/-- A spelling with a number is not one of the names that a module needs. -/
theorem numbered_mem_neededNames {name : String} {n : Nat} (h : Import.numbered name n ∈ neededNames) :
    Import.numbered name n = name := by
  have hlast : ∀ needed ∈ neededNames, needed.toList.getLast?.any Char.isDigit = false := by decide
  rw [Import.numbered] at h ⊢
  split at h
  · next hn => rw [if_pos hn]
  · have hdigits := hlast _ h
    rw [String.toList_append, List.getLast?_append, Nat.toList_repr] at hdigits
    obtain ⟨front, digit, hdigit⟩ := (List.eq_nil_or_concat' (Nat.toDigits 10 (n + 1))).resolve_left
      Nat.toDigits_ne_nil
    have hmem : digit ∈ Nat.toDigits 10 (n + 1) := by
      rw [hdigit]
      exact List.mem_append_right front List.mem_cons_self
    have hisDigit : digit.isDigit = true := Nat.isDigit_of_mem_toDigits (by decide) (by decide) hmem
    rw [hdigit, List.getLast?_concat] at hdigits
    simp [hisDigit] at hdigits

/-- The name made of a dotted name with `_test` at its end is not one that a module needs. -/
theorem qualifiedName_notMem_neededNames {i : Import}
    (h : i.moduleName = "" ∨ ∃ front, i.moduleName = front ++ "_test") : i.qualifiedName ∉ neededNames := by
  rw [Import.qualifiedName]
  rcases h with hempty | ⟨front, hfront⟩
  · rw [hempty]
    decide +kernel
  · have hname : Text.replaceChar '.' '_' i.moduleName = Text.replaceChar '.' '_' front ++ "_test" := by
      rw [hfront, Text.replaceChar_append]
      rfl
    have hends : ∀ needed ∈ neededNames, ¬ "Test".toList <:+ needed.toList := by decide
    rw [hname, Naming.className_append_test]
    intro hmem
    refine hends _ hmem ?_
    rw [String.toList_append]
    exact List.suffix_append _ _

/-- No spelling of a class name begins with a small letter of ASCII. -/
theorem isLower_head_numbered (stem : String) (n : Nat) :
    (Import.numbered (Naming.className stem) n).toList.head?.any Char.isLower = false := by
  have hdigit : ∀ c : Char, c.isDigit = true → c.isLower = false := by
    intro c hc
    rw [← Bool.not_eq_true, Text.isLower_iff]
    have hcode : c.toNat ≤ 0x39 := by
      simp only [Char.isDigit, UInt32.le_iff_toNat_le, Bool.and_eq_true, decide_eq_true_eq] at hc
      exact hc.2
    omega
  have hclass : (Naming.className stem).toList = Naming.titleCase false stem.toList := String.toList_ofList
  cases hcs : Naming.titleCase false stem.toList with
  | nil =>
    rw [Import.numbered]
    split
    · rw [hclass, hcs]
      rfl
    · rw [String.toList_append, hclass, hcs, List.nil_append, Nat.toList_repr]
      obtain ⟨digit, digits, hdigits⟩ := List.exists_cons_of_ne_nil (Nat.toDigits_ne_nil (n := n + 1) (b := 10))
      rw [hdigits]
      exact hdigit digit (Nat.isDigit_of_mem_toDigits (by decide) (by decide)
        (hdigits ▸ List.mem_cons_self))
  | cons first rest =>
    have hfirst := Naming.isLower_head_titleCase hcs
    rw [Import.numbered]
    split
    · rw [hclass, hcs]
      exact hfirst
    · rw [String.toList_append, hclass, hcs]
      exact hfirst

/-- **Which needed names are hidden.**  After any orders, and whichever way the project root is found, a name
that a module needs is hidden by one of its imports if and only if an imported class is called so, or a class
whose own name is taken and whose module has a dotted name that makes this name.  The latter does not happen
with the default suffix of generated modules.  The two names that begin with a small letter are never hidden. -/
theorem needed_names_hidden (settings : Settings) (locator : Locator) (disk : Disk) (orders : List Order) :
    ∀ r ∈ (Chronicle.after ⟨{ settings, locator, disk }, []⟩ orders).log,
      (∀ name ∈ neededNames, (∃ i ∈ r.imports, i.localName = name) ↔
        (∃ i ∈ r.imports, i.className = name) ∨ ∃ i ∈ r.imports, i.localName = name ∧
          i.qualifiedName = name ∧ ∃ j ∈ r.imports, j.localName = i.className) ∧
      (settings.generatedSuffix = "_test.py" → ∀ i ∈ r.imports, i.qualifiedName ∉ neededNames) ∧
      ∀ i ∈ r.imports, i.localName ∉ ["pytest", "super"] := by
  intro r hr
  have hlogged := logged_after settings locator disk orders
  obtain ⟨steps, below, hresolves, -⟩ := (hlogged.origins r hr).written
  have hfresh : Import.Fresh r.imports := hresolves.induct (P := Import.Fresh)
    (fun before i after h => by simp at h) fun imports _ made name _ h => h.choose made.className name
  -- every import is one that the log supplies
  have hsupplied : ∀ i ∈ r.imports, ∃ made, made.className = i.className ∧
      Supplied settings (Chronicle.after ⟨{ settings, locator, disk }, []⟩ orders).log made i.moduleName := by
    intro i hi
    obtain ⟨_, -, _, made, -, hfound, hclass⟩ := (hresolves.exists_of_mem hi).resolve_left List.not_mem_nil
    exact ⟨made, hclass.symm, hfound⟩
  refine ⟨fun name hneeded => ⟨?_, ?_⟩, ?_, ?_⟩
  · rintro ⟨i, hi, rfl⟩
    rcases hfresh.localName_cases hi with hclass | ⟨htaken, n, hnumbered⟩
    · exact .inl ⟨i, hi, hclass.symm⟩
    · rw [hnumbered] at hneeded
      exact .inr ⟨i, hi, rfl, by rw [hnumbered, numbered_mem_neededNames hneeded], htaken⟩
  · rintro (⟨i, hi, rfl⟩ | ⟨i, hi, hname, -⟩)
    · exact (hfresh.localName_cases hi).elim (fun hclass => ⟨i, hi, hclass⟩) And.left
    · exact ⟨i, hi, hname⟩
  · intro hsuffix i hi
    obtain ⟨made, -, q, -, -, output, root, -, hgenerated, hname⟩ := hsupplied i hi
    rw [hsuffix] at hgenerated
    exact qualifiedName_notMem_neededNames (Naming.exists_moduleName_eq hgenerated hname)
  · intro i hi hsmall
    have hlower : ∀ name ∈ ["pytest", "super"], name.toList.head?.any Char.isLower = true := by decide
    obtain ⟨made, hclass, q, hq, rfl, -⟩ := hsupplied i hi
    obtain ⟨stem, hstem⟩ := (hlogged.origins q hq).className
    obtain ⟨stem, n, hname⟩ : ∃ stem n, i.localName = Import.numbered (Naming.className stem) n := by
      rcases hfresh.localName_cases hi with hown | ⟨-, n, hnumbered⟩
      · exact ⟨stem, 0, by rw [hown, ← hclass]; exact hstem⟩
      · exact ⟨_, n, hnumbered⟩
    have hhead := hlower _ hsmall
    rw [hname, isLower_head_numbered] at hhead
    cases hhead

/-- A project with a testcase in a file whose class has a name that modules need. -/
def configProject : Disk :=
  ⟨[("p", .directory [("config.json", .file (emptyText "c").toUTF8)])], [], []⟩

/-- A class that hides `Config` and leaves `Step` free. -/
theorem needed_names_hidden_configProject :
    let c := Chronicle.after ⟨{ settings := {}, locator := .fixed (.ofString "/p"), disk := configProject }, []⟩
      [⟨caller "config.json", "/p/a.json", none⟩]
    ∃ r ∈ c.log, r.imports = [⟨"config_test", "Config", "Config"⟩] ∧
      ("Config" ∈ neededNames ∧ ((∃ i ∈ r.imports, i.localName = "Config") ↔
        (∃ i ∈ r.imports, i.className = "Config") ∨ ∃ i ∈ r.imports, i.localName = "Config" ∧
          i.qualifiedName = "Config" ∧ ∃ j ∈ r.imports, j.localName = i.className)) ∧
      ("Step" ∈ neededNames ∧ ¬ ∃ i ∈ r.imports, i.localName = "Step") ∧
      ∀ i ∈ r.imports, i.qualifiedName ∉ neededNames ∧ i.localName ∉ ["pytest", "super"] := by
  intro c
  have himports : c.log.map Record.imports = [[], [⟨"config_test", "Config", "Config"⟩]] := by
    decide +kernel
  have hmem : [⟨"config_test", "Config", "Config"⟩] ∈ c.log.map Record.imports := by
    rw [himports]
    exact List.mem_cons_of_mem _ List.mem_cons_self
  obtain ⟨r, hr, hrecord⟩ := List.mem_map.1 hmem
  obtain ⟨hhidden, hqualified, hsmall⟩ := needed_names_hidden {} (.fixed (.ofString "/p")) configProject
    [⟨caller "config.json", "/p/a.json", none⟩] r hr
  refine ⟨r, hr, hrecord, ⟨by decide, hhidden "Config" (by decide)⟩, ⟨by decide, ?_⟩,
    fun i hi => ⟨hqualified rfl i hi, hsmall i hi⟩⟩
  rw [hrecord]
  decide

/-- An import hides a name that its module needs. -/
theorem config_hidden :
    let c := Chronicle.after ⟨{ settings := {}, locator := .fixed (.ofString "/p"), disk := configProject }, []⟩
      [⟨caller "config.json", "/p/a.json", none⟩]
    ∃ r ∈ c.log, ∃ i ∈ r.imports, i.localName ∈ neededNames := by
  intro c
  have himports : c.log.any (fun r => r.imports.any fun i => neededNames.contains i.localName) = true := by
    decide +kernel
  simpa using himports

end TestScribe
