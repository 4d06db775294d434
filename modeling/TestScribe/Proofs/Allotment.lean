/-
# Names that are allotted to modules

A class is imported under its own name, or else under the first spelling of the name made of its module that is free.
The search for it ends, since the spellings are all different and only so many names are taken.  A module for which
there is an import already gets no other, so that among any classes that are imported one after the other names and
modules belong together, and there is one import for each module, in the order in which the modules come up.

* `Import.Searches` : the search for a free spelling, with the number of its trials;
* `Import.chooseAll` : the names for some classes, chosen one after the other;
* `Import.Allots` : what the names and the imports are like then;
* `names_are_allotted` : the search ends in time, and the references of a module get their names in this way.
-/
import TestScribe.Proofs.Callees
import TestScribe.Proofs.ExportedNames

namespace TestScribe

namespace Import

/-! ## Searching -/

/-- The search for a free spelling of a name, from the `n`-th one on: after a spelling that is taken, the next one is
tried.  It ends after so many trials with the spelling that was tried last. -/
inductive Searches (imports : List Import) (name : String) : (n trials : Nat) → String → Prop
  | free {n : Nat} (hfree : taken imports (numbered name n) = false) :
      Searches imports name n 1 (numbered name n)
  | next {n trials : Nat} {found : String} (htaken : taken imports (numbered name n) = true)
      (hrest : Searches imports name (n + 1) trials found) : Searches imports name n (trials + 1) found

section Searches

variable {imports : List Import} {name found found' : String} {n trials trials' : Nat}

/-- There is one search. -/
theorem Searches.unique (h : Searches imports name n trials found) (h' : Searches imports name n trials' found') :
    trials' = trials ∧ found' = found := by
  induction h generalizing trials' with
  | free hfree =>
    cases h' with
    | free => exact ⟨rfl, rfl⟩
    | next htaken => rw [hfree] at htaken; cases htaken
  | next htaken _ ih =>
    cases h' with
    | free hfree => rw [hfree] at htaken; cases htaken
    | next _ hrest =>
      obtain ⟨rfl, rfl⟩ := ih hrest
      exact ⟨rfl, rfl⟩

/-- All spellings but the last one that were tried are taken. -/
theorem Searches.exists_taken (h : Searches imports name n trials found) :
    ∃ misses, trials = misses + 1 ∧ ∀ k < misses, taken imports (numbered name (n + k)) = true := by
  induction h with
  | free => exact ⟨0, rfl, by simp⟩
  | next htaken _ ih =>
    obtain ⟨misses, rfl, hmisses⟩ := ih
    refine ⟨misses + 1, rfl, fun k hk => ?_⟩
    cases k with
    | zero => exact htaken
    | succ k => rw [← Nat.succ_add_eq_add_succ]; exact hmisses k (Nat.lt_of_succ_lt_succ hk)

/-- There is at most one trial more than there are names that are taken: the spellings are all different. -/
theorem Searches.trials_le (h : Searches imports name n trials found) :
    trials ≤ (imports.map localName).toFinset.card + 1 := by
  obtain ⟨misses, rfl, hmisses⟩ := h.exists_taken
  have hsubset : (Finset.range misses).image (fun k => numbered name (n + k)) ⊆ (imports.map localName).toFinset := by
    intro spelling hspelling
    obtain ⟨k, hk, rfl⟩ := Finset.mem_image.1 hspelling
    exact List.mem_toFinset.2 (taken_iff.1 (hmisses k (Finset.mem_range.1 hk)))
  have hinjective : Function.Injective fun k => numbered name (n + k) :=
    (numbered_injective name).comp (add_right_injective n)
  have hcard := Finset.card_le_card hsubset
  rw [Finset.card_image_of_injective _ hinjective, Finset.card_range] at hcard
  omega

/-- A free spelling that is found with some fuel is found by the search. -/
theorem exists_searches {fuel : Nat} (hfree : taken imports (firstFree imports name fuel n) = false) :
    ∃ trials, Searches imports name n trials (firstFree imports name fuel n) := by
  induction fuel generalizing n with
  | zero => exact ⟨1, .free hfree⟩
  | succ fuel ih =>
    rw [firstFree] at hfree ⊢
    split
    · next htaken =>
      rw [if_pos htaken] at hfree
      obtain ⟨trials, hsearches⟩ := ih hfree
      exact ⟨trials + 1, .next htaken hsearches⟩
    · next hfound => exact ⟨1, .free (by simpa using hfound)⟩

end Searches

/-- Where the name of a class is taken, the name for it is found by one search, and in time. -/
theorem searches_freshName {imports : List Import} {className : String} (h : taken imports className = true)
    (moduleName : String) : ∃ trials ≤ (imports.map localName).toFinset.card + 1, ∀ k found,
      Searches imports (Naming.className (Text.replaceChar '.' '_' moduleName)) 0 k found ↔
        k = trials ∧ found = freshName imports className moduleName := by
  have hfree := not_taken_freshName imports className moduleName
  rw [freshName, if_pos h, Bool.not_eq_true] at hfree
  obtain ⟨trials, hsearches⟩ := exists_searches hfree
  refine ⟨trials, hsearches.trials_le, fun k found => ?_⟩
  rw [freshName, if_pos h]
  constructor
  · exact hsearches.unique
  · rintro ⟨rfl, rfl⟩
    exact hsearches

/-! ## Choosing one after the other -/

/-- The names for some classes of some modules, chosen one after the other, and the imports for them. -/
def chooseAll (imports : List Import) : List (String × String) → List String × List Import
  | [] => ([], imports)
  | (className, moduleName) :: rest =>
    ((choose imports className moduleName).1 :: (chooseAll (choose imports className moduleName).2 rest).1,
      (chooseAll (choose imports className moduleName).2 rest).2)

/-- Names for some classes of some modules: there is one import for each module, in the order in which the modules
come up, and it is that of the class with which the module comes up first; the names of the imports are all
different, and each class gets the name of the import of its module. -/
structure Allots (calls : List (String × String)) (names : List String) (imports : List Import) : Prop where
  modules : imports.map moduleName = (calls.map Prod.snd).eraseDups
  classes : ∀ i ∈ imports, calls.find? (·.2 = i.moduleName) = some (i.className, i.moduleName)
  apart : Apart imports
  named : List.Forall₂ (fun call name => ∃ i ∈ imports, i.moduleName = call.2 ∧ i.localName = name) calls names

theorem map_moduleName_choose (imports : List Import) (className name : String) :
    (choose imports className name).2.map moduleName
      = if (imports.map moduleName).contains name then imports.map moduleName else imports.map moduleName ++ [name] := by
  unfold choose
  split
  · next i hi =>
    have hmodule := List.find?_some hi
    rw [if_pos]
    simpa using ⟨i, List.mem_of_find?_eq_some hi, of_decide_eq_true hmodule⟩
  · next hnone =>
    rw [if_neg, List.map_append]
    · rfl
    · simpa using hnone

/-- Imports for further modules go behind the others, in the order in which the modules come up. -/
theorem map_moduleName_chooseAll (imports : List Import) (calls : List (String × String)) :
    (chooseAll imports calls).2.map moduleName = imports.map moduleName
      ++ ((calls.map Prod.snd).filter (· ∉ imports.map moduleName)).eraseDups := by
  rw [← foldl_addName]
  induction calls generalizing imports with
  | nil => rfl
  | cons call rest ih =>
    show (chooseAll (choose imports call.1 call.2).2 rest).2.map moduleName = _
    rw [ih, map_moduleName_choose, List.map_cons, List.foldl_cons]

theorem prefix_chooseAll (imports : List Import) (calls : List (String × String)) :
    imports <+: (chooseAll imports calls).2 := by
  induction calls generalizing imports with
  | nil => exact List.prefix_rfl
  | cons call rest ih => exact (prefix_choose imports call.1 call.2).trans (ih _)

theorem Apart.chooseAll {imports : List Import} (h : Apart imports) (calls : List (String × String)) :
    Apart (chooseAll imports calls).2 := by
  induction calls generalizing imports with
  | nil => exact h
  | cons call rest ih => exact ih (h.choose call.1 call.2)

/-- Each class gets the name of the import of its module. -/
theorem named_chooseAll (imports : List Import) (calls : List (String × String)) :
    List.Forall₂ (fun call name => ∃ i ∈ (chooseAll imports calls).2, i.moduleName = call.2 ∧ i.localName = name)
      calls (chooseAll imports calls).1 := by
  induction calls generalizing imports with
  | nil => exact .nil
  | cons call rest ih =>
    refine .cons ?_ (ih _)
    obtain ⟨i, hi, hnamed⟩ := exists_choose imports call.1 call.2
    exact ⟨i, (prefix_chooseAll _ rest).subset hi, hnamed⟩

/-- An import that is new is that of the class with which its module comes up first. -/
theorem find?_of_mem_chooseAll {imports : List Import} (h : Apart imports) {calls : List (String × String)}
    {i : Import} (hi : i ∈ (chooseAll imports calls).2) :
    i ∈ imports ∨ calls.find? (·.2 = i.moduleName) = some (i.className, i.moduleName) := by
  induction calls generalizing imports with
  | nil => exact .inl hi
  | cons call rest ih =>
    have hnext := h.choose call.1 call.2
    by_cases hmem : i ∈ (choose imports call.1 call.2).2
    · rcases mem_choose hmem with hold | ⟨hmodule, hclass⟩
      · exact .inl hold
      · right
        rw [List.find?_cons_of_pos (by simp [hmodule]), hmodule, hclass]
    · -- the module of the import did not come up before
      have hother : call.2 ≠ i.moduleName := by
        intro hmodule
        obtain ⟨j, hj, hsame, -⟩ := exists_choose imports call.1 call.2
        have hequal := List.inj_on_of_nodup_map (hnext.chooseAll rest).modules hi
          ((prefix_chooseAll _ rest).subset hj) (hmodule.symm.trans hsame.symm)
        exact hmem (hequal ▸ hj)
      rw [List.find?_cons_of_neg (by simpa using hother)]
      exact .inr ((ih hnext hi).resolve_left hmem)

theorem allots_chooseAll (calls : List (String × String)) :
    Allots calls (chooseAll [] calls).1 (chooseAll [] calls).2 where
  modules := by
    rw [map_moduleName_chooseAll]
    simp
  classes i hi := (find?_of_mem_chooseAll apart_nil hi).resolve_left List.not_mem_nil
  apart := apart_nil.chooseAll calls
  named := named_chooseAll [] calls

/-- Two classes get the same name exactly if they are of the same module. -/
theorem Allots.localName_eq_iff {calls : List (String × String)} {names : List String} {imports : List Import}
    (h : Allots calls names imports) {x y : (String × String) × String} (hx : x ∈ calls.zip names)
    (hy : y ∈ calls.zip names) : x.2 = y.2 ↔ x.1.2 = y.1.2 := by
  obtain ⟨i, hi, himodule, hiname⟩ := (List.forall₂_iff_zip.1 h.named).2 hx
  obtain ⟨j, hj, hjmodule, hjname⟩ := (List.forall₂_iff_zip.1 h.named).2 hy
  rw [← hiname, ← hjname, ← himodule, ← hjmodule]
  constructor
  · intro hname
    rw [List.inj_on_of_nodup_map h.apart.names hi hj hname]
  · intro hmodule
    rw [List.inj_on_of_nodup_map h.apart.modules hi hj hmodule]

end Import

/-! ## References of a module -/

/-- The class that a reference calls, and the dotted name of its module. -/
def Callee.call (c : Callee) : String × String := (c.made.className, c.name)

namespace Step

/-- The path by which a step refers to another document. -/
def reference? (step : Step) : Option String :=
  match step.action with
  | .call (.path raw) => some raw
  | _ => none

/-- The name of the class that a step calls. -/
def calledName? (step : Step) : Option String :=
  match step.action with
  | .call (.made localName) => some localName
  | _ => none

end Step

/-- The names that some steps call after their references are resolved. -/
def calledNames (steps resolved : List Step) : List String :=
  (steps.zip resolved).filterMap fun x => x.1.reference?.bind fun _ => x.2.calledName?

section CalledNames

variable {step step' : Step} {steps resolved : List Step}

theorem calledNames_cons_of_none (h : step.reference? = none) :
    calledNames (step :: steps) (step' :: resolved) = calledNames steps resolved :=
  List.filterMap_cons_none (by rw [h]; rfl)

theorem calledNames_cons_of_some {raw name : String} (h : step.reference? = some raw)
    (h' : step'.calledName? = some name) :
    calledNames (step :: steps) (step' :: resolved) = name :: calledNames steps resolved :=
  List.filterMap_cons_some (by rw [h, Option.bind_some, h'])

end CalledNames

/-- There is a callee for each reference. -/
theorem Make.isSome_of_callees {nested : Value → Path → Make Path} {source : Path} {steps : List Step}
    {callees : List (Option Callee)} {s t : Session} (h : Make.callees nested source steps s = .ok callees t) :
    List.Forall₂ (fun step (callee : Option Callee) => callee.isSome = step.reference?.isSome) steps callees := by
  have hone : ∀ {step : Step} {found : Option Callee} {s t : Session},
      callee nested source step s = .ok found t → found.isSome = step.reference?.isSome := by
    intro step found s t h
    unfold callee at h
    rw [Step.reference?]
    cases haction : step.action with
    | request r =>
      rw [haction] at h
      cases h
      rfl
    | call target =>
      rw [haction] at h
      cases target with
      | made localName =>
        cases h
        rfl
      | path raw =>
        obtain ⟨_, _, -, h⟩ := exists_of_bind_eq_ok h
        obtain ⟨_, _, -, h⟩ := exists_of_bind_eq_ok h
        obtain ⟨_, _, -, h⟩ := exists_of_bind_eq_ok h
        cases h
        rfl
  induction steps generalizing s callees with
  | nil =>
    cases h
    exact .nil
  | cons step rest ih =>
    obtain ⟨first, u, hfirst, h⟩ := exists_of_bind_eq_ok h
    obtain ⟨more, v, hmore, h⟩ := exists_of_bind_eq_ok h
    cases h
    exact .cons (hone hfirst) (ih hmore)

/-- The names of callees are chosen one after the other. -/
theorem boundSteps_eq_chooseAll {steps : List Step} {callees : List (Option Callee)} (before : List Import)
    (h : List.Forall₂ (fun step (callee : Option Callee) => callee.isSome = step.reference?.isSome) steps callees) :
    Import.chooseAll before (callees.reduceOption.map Callee.call)
      = (calledNames steps (boundSteps before steps callees).1, (boundSteps before steps callees).2) := by
  induction h generalizing before with
  | nil => rfl
  | @cons step callee steps callees hsome _ ih =>
    cases callee with
    | none =>
      have hnone : step.reference? = none := by simpa using hsome
      rw [List.reduceOption_cons_of_none, ih, boundSteps, calledNames_cons_of_none hnone]
      rfl
    | some c =>
      obtain ⟨raw, hraw⟩ := Option.isSome_iff_exists.1 hsome.symm
      have hname : (step.bound before (some c)).1.calledName?
          = some (Import.choose before c.made.className c.name).1 := rfl
      rw [List.reduceOption_cons_of_some, List.map_cons, Callee.call, Import.chooseAll, ih, boundSteps,
        calledNames_cons_of_some hraw hname]
      rfl

/-! ## Lines of imports -/

/-- The import lines of a module: those by which it finds the root, if it has imports and its source lies below the
root, and then one for each import. -/
theorem Make.importLines_eq (levels : List Component) (imports : List Import) :
    importLines levels.length imports = (if imports = [] ∨ levels = [] then [] else [climb levels.length])
      ++ imports.map Import.line := by
  unfold importLines
  cases imports with
  | nil => rfl
  | cons i rest =>
    cases levels with
    | nil => rfl
    | cons c more => rfl

/-- The import lines stand in front of the class. -/
theorem Script.exists_render_eq (s : Script) :
    ∃ front back, s.render = front ++ String.join (s.imports.map (· ++ "\n")) ++ "\n\nclass " ++ back := by
  have hlines : ∀ items : List String, lines id items = String.join (items.map (· ++ "\n")) := by
    intro items
    induction items with
    | nil => rfl
    | cons item rest ih =>
      rw [lines, ih, List.map_cons, String.join_cons]
      rfl
  obtain ⟨front, hfront⟩ : ∃ front, s.importLines = front ++ lines id s.imports := ⟨_, rfl⟩
  rw [← hlines]
  unfold render
  rw [hfront]
  simp only [String.append_assoc]
  exact ⟨s.header ++ front, _, String.append_assoc.symm⟩

/-- **Names that are allotted.**

* The name for a class is one that is not taken: its own, or the one that the search for a free spelling finds, which
  there is one of, and which ends after at most one trial more than there are names that are taken.
* For any classes of any modules, one after the other, names and modules belong together, and there is one import
  for each module, in the order in which the modules come up.
* The references of a module get their names in this way, for the classes and the modules that they call.  The module
  has one line for each import, in order and after the lines by which it finds the root, and these lines stand in its
  text in front of its class. -/
theorem names_are_allotted :
    (∀ (imports : List Import) (className moduleName : String),
      Import.taken imports (Import.freshName imports className moduleName) = false ∧
      (Import.taken imports className = false → Import.freshName imports className moduleName = className) ∧
      (Import.taken imports className = true → ∃ trials ≤ (imports.map Import.localName).toFinset.card + 1,
        ∀ k found, Import.Searches imports (Naming.className (Text.replaceChar '.' '_' moduleName)) 0 k found ↔
          k = trials ∧ found = Import.freshName imports className moduleName)) ∧
    (∀ (calls : List (String × String)) (names : List String) (imports : List Import),
      Import.chooseAll [] calls = (names, imports) → Import.Allots calls names imports ∧
        ∀ x ∈ calls.zip names, ∀ y ∈ calls.zip names, x.2 = y.2 ↔ x.1.2 = y.1.2) ∧
    ∀ (nested : Value → Path → Make Path) (source : Path) (steps resolved : List Step) (imports : List Import)
      (s t : Session), Make.resolveSteps nested source [] steps s = .ok (resolved, imports) t →
      (∃ callees, Make.callees nested source steps s = .ok callees t ∧
        Import.chooseAll [] (callees.reduceOption.map Callee.call) = (calledNames steps resolved, imports)) ∧
      ∀ (settings : Settings) (config : Config) (className : String) (below : Path) (script : Script),
        Make.script settings ⟨config, resolved⟩ className imports below = .ok script →
        script.imports = (if imports = [] ∨ below.components = [] then [] else
            ["import sys\nfrom pathlib import Path\nsys.path.insert(0, str(Path(__file__)"
              ++ String.join (List.replicate below.components.length ".parent") ++ "))\n"])
          ++ imports.map (fun i => "from " ++ i.moduleName ++ " import TestCase" ++ i.className ++ " as " ++ i.localName) ∧
        ∃ front back, script.render
          = front ++ String.join (script.imports.map (· ++ "\n")) ++ "\n\nclass " ++ back := by
  refine ⟨fun imports className moduleName => ⟨?_, ?_, ?_⟩, ?_, ?_⟩
  · exact Bool.eq_false_iff.2 (Import.not_taken_freshName imports className moduleName)
  · intro hfree
    rw [Import.freshName, hfree, if_neg Bool.false_ne_true]
  · exact fun htaken => Import.searches_freshName htaken moduleName
  · intro calls names imports hchosen
    have hallots := Import.allots_chooseAll calls
    rw [hchosen] at hallots
    exact ⟨hallots, fun x hx y hy => hallots.localName_eq_iff hx hy⟩
  · intro nested source steps resolved imports s t h
    rw [Make.resolveSteps_eq] at h
    obtain ⟨callees, u, hcallees, hbound⟩ := exists_of_bind_eq_ok h
    change EStateM.Result.ok _ u = _ at hbound
    injection hbound with hpair ht
    subst ht
    refine ⟨⟨callees, hcallees, ?_⟩, fun settings config className below script hscript => ⟨?_, ?_⟩⟩
    · rw [boundSteps_eq_chooseAll [] (Make.isSome_of_callees hcallees), hpair]
    · rw [(Make.script_fields hscript).1]
      exact Make.importLines_eq below.components imports
    · exact script.exists_render_eq

/-- A third class of one name, for which the name made of its module is taken as well, and references to two
testcases of one name, one of them twice, with the lines of the module that has them. -/
theorem names_are_allotted_twins :
    let imports : List Import := [⟨"a.login_test", "Login", "Login"⟩, ⟨"b.login_test", "Login", "BLoginTest"⟩]
    (Import.taken imports "Login" = true ∧ Import.freshName imports "Login" "b_login_test" = "BLoginTest2" ∧
      ∃ trials ≤ 3, Import.Searches imports "BLoginTest" 0 trials "BLoginTest2") ∧
    ∃ resolved imports t, Make.resolveSteps (fun content p => Make.testcaseWithin 1 content p none)
        (.ofString "/p/a.json") [] twinSteps (twinSession false) = .ok (resolved, imports) t ∧
      calledNames twinSteps resolved = ["Login", "SubLoginTest", "Login"] ∧
      Import.Allots [("Login", "login_test"), ("Login", "sub.login_test"), ("Login", "login_test")]
        (calledNames twinSteps resolved) imports ∧
      ∃ script, Make.script {} ⟨⟨"twins", [], none, none, none, none, none, none, .ofString "/p/a.json"⟩, resolved⟩ "A"
          imports (.ofString "a.json") = .ok script ∧
        script.imports = ["import sys\nfrom pathlib import Path\nsys.path.insert(0, str(Path(__file__).parent))\n",
          "from login_test import TestCaseLogin as Login",
          "from sub.login_test import TestCaseLogin as SubLoginTest"] := by
  intro imports
  obtain ⟨hfresh, hallots, hreferences⟩ := names_are_allotted
  refine ⟨?_, ?_⟩
  · have htaken : Import.taken imports "Login" = true := by decide +kernel
    have hname : Import.freshName imports "Login" "b_login_test" = "BLoginTest2" := by decide +kernel
    have hqualified : Naming.className (Text.replaceChar '.' '_' "b_login_test") = "BLoginTest" := by decide +kernel
    obtain ⟨trials, hle, hsearches⟩ := (hfresh imports "Login" "b_login_test").2.2 htaken
    rw [hname, hqualified] at hsearches
    exact ⟨htaken, hname, trials, hle.trans (by decide +kernel), (hsearches _ _).2 ⟨rfl, rfl⟩⟩
  · obtain ⟨t, ht⟩ := exists_callees_twins false
    have hrun := Make.resolveSteps_of_callees [] ht
    obtain ⟨⟨callees, hcallees, hchosen⟩, hscript⟩ := hreferences _ _ _ _ _ _ _ hrun
    rw [ht] at hcallees
    cases hcallees
    refine ⟨_, _, t, hrun, by decide +kernel, (hallots _ _ _ hchosen).1, _, rfl, ?_⟩
    exact (hscript {} _ "A" (.ofString "a.json") _ rfl).1.trans (by decide +kernel)

end TestScribe
