/-
# The modules that references call

Resolving the references of a module takes two things: the called documents are made one after the other,
and each call gets the name under which its class is imported.  The names are chosen by the dotted names of
the called modules, and nothing else tells these apart.  So a reference calls the file that was made for it
exactly as far as dotted names and files go together, which they do for visible files below one root.

* `Callee`, `Make.callees` : what the references of some steps call;
* `Make.resolveSteps_eq` : making what is called, then choosing names;
* `Import.Apart` : imports that are told apart by their modules as well as by their names;
* `references_faithful` : when all references call what was made for them.
-/
import TestScribe.Proofs.Aliases

namespace TestScribe

/-! ## Callees -/

/-- What a reference calls: the file of a module, what it was made from, and the dotted name of the file below
the root that was found for it. -/
structure Callee where
  output : Path
  made : Made
  root : Path
  name : String
deriving DecidableEq, Repr

namespace Make

/-- What a step calls by its path, made by `nested` if it has not been made. -/
def callee (nested : Value → Path → Make Path) (source : Path) (step : Step) : Make (Option Callee) :=
  match step.action with
  | .call (.path raw) => do
    let (output, made) ← called nested source step raw
    let root ← findRoot output.withoutExtension
    let name ← ofExcept .path (Naming.moduleName root output)
    return some ⟨output, made, root, name⟩
  | _ => return none

/-- What some steps call, one after the other. -/
def callees (nested : Value → Path → Make Path) (source : Path) : List Step → Make (List (Option Callee))
  | [] => return []
  | step :: rest => do
    let first ← callee nested source step
    return first :: (← callees nested source rest)

end Make

/-- A step with the class of what it calls, imported under a name that may be new. -/
def Step.bound (imports : List Import) (step : Step) : Option Callee → Step × List Import
  | none => (step, imports)
  | some c =>
    ({ step with
      exports := mergeExports step.exports c.made.exports
      action := .call (.made (Import.choose imports c.made.className c.name).1) },
      (Import.choose imports c.made.className c.name).2)

/-- The steps with the classes of what they call, and the imports for these. -/
def boundSteps (imports : List Import) : List Step → List (Option Callee) → List Step × List Import
  | step :: steps, callee :: callees =>
    ((step.bound imports callee).1 :: (boundSteps (step.bound imports callee).2 steps callees).1,
      (boundSteps (step.bound imports callee).2 steps callees).2)
  | _, _ => ([], imports)

theorem Make.resolveStep_eq (nested : Value → Path → Make Path) (source : Path) (imports : List Import)
    (step : Step) : resolveStep nested source imports step = (do
      let callee ← callee nested source step
      return step.bound imports callee) := by
  unfold resolveStep callee
  cases step.action with
  | request r => exact (pure_bind _ _).symm
  | call target =>
    cases target with
    | made localName => exact (pure_bind _ _).symm
    | path raw =>
      dsimp only
      rw [bind_assoc]
      congr
      funext ⟨output, made⟩
      simp only [moduleName, bind_assoc, pure_bind]
      rfl

/-- References are resolved by making what they call and choosing names for it. -/
theorem Make.resolveSteps_eq (nested : Value → Path → Make Path) (source : Path) (imports : List Import)
    (steps : List Step) : resolveSteps nested source imports steps = (do
      let callees ← callees nested source steps
      return boundSteps imports steps callees) := by
  induction steps generalizing imports with
  | nil => rfl
  | cons step rest ih =>
    unfold resolveSteps callees
    simp only [resolveStep_eq, ih, bind_assoc, pure_bind]
    rfl

theorem Make.resolveSteps_of_callees {nested : Value → Path → Make Path} {source : Path} {steps : List Step}
    {callees : List (Option Callee)} {s t : Session} (imports : List Import)
    (h : Make.callees nested source steps s = .ok callees t) :
    resolveSteps nested source imports steps s = .ok (boundSteps imports steps callees) t := by
  rw [resolveSteps_eq, bind_of_ok h]
  rfl

/-! ## Names that are free -/

namespace Import

theorem numbered_injective (name : String) : Function.Injective (numbered name) := by
  have hlong : ∀ n, name ++ Nat.repr (n + 1) ≠ name := by
    intro n h
    have hlength := congrArg String.length h
    rw [String.length_append] at hlength
    have hpos : 0 < (Nat.repr (n + 1)).length := Nat.length_repr_pos
    omega
  intro a b h
  rw [numbered, numbered] at h
  split at h
  · next ha =>
    split at h
    · next hb => rw [ha, hb]
    · exact absurd h.symm (hlong b)
  · split at h
    · exact absurd h (hlong a)
    · have hrepr := Nat.repr_injective (String.append_right_inj name |>.1 h)
      omega

/-- A spelling that is taken after all was tried as often as there was fuel. -/
theorem taken_of_taken_firstFree {imports : List Import} {name : String} {fuel n : Nat}
    (h : taken imports (firstFree imports name fuel n)) :
    ∀ k, n ≤ k → k ≤ n + fuel → taken imports (numbered name k) := by
  induction fuel generalizing n with
  | zero =>
    intro k hn hk
    obtain rfl : k = n := by omega
    exact h
  | succ fuel ih =>
    intro k hn hk
    rw [firstFree] at h
    split at h
    · next htaken =>
      rcases Nat.eq_or_lt_of_le hn with rfl | hlt
      · exact htaken
      · exact ih h k hlt (by omega)
    · next hfree => exact absurd h hfree

theorem taken_iff {imports : List Import} {localName : String} :
    taken imports localName ↔ localName ∈ imports.map Import.localName := by
  simp [taken]

/-- The name of a new import is free: there are more spellings than imports. -/
theorem not_taken_freshName (imports : List Import) (className moduleName : String) :
    ¬ taken imports (freshName imports className moduleName) := by
  rw [freshName]
  split
  · intro htaken
    set name := Naming.className (Text.replaceChar '.' '_' moduleName)
    have hall := taken_of_taken_firstFree htaken
    have hsubset : (List.range (imports.length + 1)).map (numbered name) ⊆ imports.map Import.localName := by
      intro spelling hspelling
      obtain ⟨k, hk, rfl⟩ := List.mem_map.1 hspelling
      exact taken_iff.1 (hall k (Nat.zero_le k) (by rw [List.mem_range] at hk; omega))
    have hlength := (List.nodup_range.map (numbered_injective name)).length_le_of_subset hsubset
    simp at hlength
  · next hfree => exact hfree

/-- Imports are told apart by their modules, and also by their names. -/
structure Apart (imports : List Import) : Prop where
  modules : (imports.map Import.moduleName).Nodup
  names : (imports.map Import.localName).Nodup

theorem apart_nil : Apart [] := ⟨List.nodup_nil, List.nodup_nil⟩

theorem Apart.choose {imports : List Import} (h : Apart imports) (className moduleName : String) :
    Apart (choose imports className moduleName).2 := by
  unfold Import.choose
  split
  · exact h
  · next hnone =>
    have hmodule : moduleName ∉ imports.map Import.moduleName := by
      rw [List.find?_eq_none] at hnone
      rintro hmem
      obtain ⟨i, hi, hname⟩ := List.mem_map.1 hmem
      exact hnone i hi (decide_eq_true hname)
    have hname : freshName imports className moduleName ∉ imports.map Import.localName := fun hmem =>
      not_taken_freshName imports className moduleName (taken_iff.2 hmem)
    constructor
    · rw [List.map_append, List.map_singleton, ← List.concat_eq_append]
      exact h.modules.concat hmodule
    · rw [List.map_append, List.map_singleton, ← List.concat_eq_append]
      exact h.names.concat hname

/-- What is chosen for a module is the name of its import. -/
theorem exists_choose (imports : List Import) (className moduleName : String) :
    ∃ i ∈ (choose imports className moduleName).2, i.moduleName = moduleName ∧
      i.localName = (choose imports className moduleName).1 := by
  unfold choose
  split
  · next i hi =>
    have hmodule := List.find?_some hi
    exact ⟨i, List.mem_of_find?_eq_some hi, of_decide_eq_true hmodule, rfl⟩
  · exact ⟨_, List.mem_append_right _ List.mem_cons_self, rfl, rfl⟩

theorem prefix_choose (imports : List Import) (className moduleName : String) :
    imports <+: (choose imports className moduleName).2 := by
  unfold choose
  split
  · exact List.prefix_rfl
  · exact List.prefix_append _ _

end Import

/-! ## Steps that are bound -/

/-- What steps and imports are like after some callees have been bound, from the imports before. -/
structure Binds (before : List Import) (callees : List (Option Callee)) (steps : List Step)
    (imports : List Import) : Prop where
  apart : Import.Apart imports
  kept : before <+: imports
  called : ∀ {i : Nat} {c : Callee} {step : Step}, callees[i]? = some (some c) → steps[i]? = some step →
    ∃ im ∈ imports, im.moduleName = c.name ∧ step.action = .call (.made im.localName)
  origin : ∀ im ∈ imports, im ∈ before ∨
    ∃ c, some c ∈ callees ∧ im.moduleName = c.name ∧ im.className = c.made.className

/-- One more step is bound. -/
theorem binds_bound {before : List Import} (h : Import.Apart before) (step : Step) (callee : Option Callee) :
    Binds before [callee] [(step.bound before callee).1] (step.bound before callee).2 := by
  cases callee with
  | none => exact ⟨h, List.prefix_rfl, by simp [List.getElem?_singleton], fun im him => .inl him⟩
  | some c =>
    refine ⟨h.choose c.made.className c.name, Import.prefix_choose _ _ _, ?_, ?_⟩
    · intro i c' step' hc hstep
      obtain ⟨-, rfl⟩ : i = 0 ∧ c = c' := by simpa [List.getElem?_singleton] using hc
      obtain ⟨-, rfl⟩ : i = 0 ∧ _ := by simpa [List.getElem?_singleton] using hstep
      obtain ⟨im, him, hmodule, hname⟩ := Import.exists_choose before c.made.className c.name
      exact ⟨im, him, hmodule, by rw [hname]; rfl⟩
    · intro im him
      exact (Import.mem_choose him).imp_right fun horigin => ⟨c, List.mem_singleton_self _, horigin⟩

/-- Steps that are bound one after the other. -/
theorem Binds.cons {first second third : List Import} {callee : Option Callee}
    {callees : List (Option Callee)} {step : Step} {steps : List Step}
    (h : Binds first [callee] [step] second) (h' : Binds second callees steps third) :
    Binds first (callee :: callees) (step :: steps) third where
  apart := h'.apart
  kept := h.kept.trans h'.kept
  called := by
    intro i c step' hc hstep
    cases i with
    | zero =>
      obtain ⟨im, him, hcalled⟩ := h.called (i := 0) hc hstep
      exact ⟨im, h'.kept.subset him, hcalled⟩
    | succ i => exact h'.called hc hstep
  origin := by
    intro im him
    rcases h'.origin im him with him | ⟨c, hc, horigin⟩
    · rcases h.origin im him with him | ⟨c, hc, horigin⟩
      · exact .inl him
      · exact .inr ⟨c, List.mem_cons.2 (.inl (List.mem_singleton.1 hc)), horigin⟩
    · exact .inr ⟨c, List.mem_cons_of_mem _ hc, horigin⟩

theorem binds_boundSteps {before : List Import} (h : Import.Apart before) (steps : List Step)
    (callees : List (Option Callee)) :
    Binds before callees (boundSteps before steps callees).1 (boundSteps before steps callees).2 := by
  induction steps generalizing before callees with
  | nil => exact ⟨h, List.prefix_rfl, by simp [boundSteps], fun im him => .inl (by simpa [boundSteps] using him)⟩
  | cons step steps ih =>
    cases callees with
    | nil => exact ⟨h, List.prefix_rfl, by simp, fun im him => .inl him⟩
    | cons callee callees =>
      have hfirst := binds_bound h step callee
      exact hfirst.cons (ih hfirst.apart callees)

theorem length_boundSteps (before : List Import) {steps : List Step} {callees : List (Option Callee)}
    (h : steps.length = callees.length) : (boundSteps before steps callees).1.length = steps.length := by
  induction steps generalizing before callees with
  | nil => rfl
  | cons step steps ih =>
    cases callees with
    | nil => cases h
    | cons callee callees =>
      rw [boundSteps, List.length_cons, List.length_cons, ih _ (Nat.succ_inj.1 h)]

/-! ## Callees that are found -/

/-- A later session: more may have been made. -/
structure Session.Grown (s t : Session) : Prop where
  locator : t.locator = s.locator
  made : s.made <+: t.made

namespace Session.Grown

variable {s t u : Session}

theorem refl (s : Session) : s.Grown s := ⟨rfl, List.prefix_rfl⟩

theorem trans (h : s.Grown t) (h' : t.Grown u) : s.Grown u :=
  ⟨h'.locator.trans h.locator, h.made.trans h'.made⟩

theorem of_alike (h : s.Alike t) : s.Grown t := by
  obtain ⟨roots, rfl⟩ := h.roots
  exact ⟨rfl, List.prefix_rfl⟩

end Session.Grown

theorem LooksUp.finds {α : Type} {step : Make α} {s : Session} {P : α → Prop} (h : LooksUp step s P) :
    Ensures step s (fun a t => s.Alike t ∧ P a) fun _ => True :=
  h.ensures.mono (fun _ _ hfound => hfound) fun _ _ => trivial

/-- What is known of a callee in the session that found it. -/
structure Callee.KnownIn (c : Callee) (t : Session) : Prop where
  made : t.made? c.output = some c.made
  named : Naming.moduleName c.root c.output = .ok c.name
  rooted : ∀ root, t.locator = .fixed root → c.root = root

theorem Callee.KnownIn.mono {c : Callee} {s t : Session} (h : c.KnownIn s) (hgrown : s.Grown t) :
    c.KnownIn t where
  made := Session.made?_of_prefix hgrown.made h.made
  named := h.named
  rooted root hroot := h.rooted root (hgrown.locator ▸ hroot)

/-- A step refers to another document by its path. -/
def Step.Refers (step : Step) : Prop := ∃ raw, step.action = .call (.path raw)

namespace Make

section Nested

variable {nested : Value → Path → Make Path}
  (hnested : ∀ content p s, Ensures (nested content p) s (fun _ => s.Grown) fun _ => True)

include hnested

theorem ensures_callee (source : Path) (step : Step) (s : Session) :
    Ensures (callee nested source step) s
      (fun found t => s.Grown t ∧ (found.isSome ↔ step.Refers) ∧ ∀ c, found = some c → c.KnownIn t)
      fun _ => True := by
  unfold callee
  split
  · next raw haction =>
    rw [called_eq, bind_assoc]
    refine .bind (looksUp_opened source step raw).finds ?_
    rintro ⟨content, p⟩ s₁ ⟨h₁, -⟩
    rw [bind_assoc]
    refine .bind (hnested content p s₁) ?_
    intro output s₂ h₂
    refine .bind (looksUp_foundAt output).finds ?_
    rintro ⟨_, made⟩ s₃ ⟨h₃, rfl, hmade⟩
    refine .bind (looksUp_findRoot _).finds ?_
    rintro root s₄ ⟨h₄, hroot⟩
    refine .bind (LooksUp.ofExcept (by simp [Fault.category])).finds ?_
    rintro name s₅ ⟨h₅, hname⟩
    have hlater : s₂.Grown s₅ := .of_alike ((h₃.trans h₄).trans h₅)
    refine .pure ⟨(Session.Grown.of_alike h₁).trans (h₂.trans hlater), ?_, ?_⟩
    · exact ⟨fun _ => ⟨raw, haction⟩, fun _ => rfl⟩
    · rintro _ ⟨⟩
      refine ⟨Session.made?_of_prefix hlater.made hmade, hname, fun root' hfixed => hroot root' ?_⟩
      rw [← hfixed, (Session.Grown.of_alike (h₄.trans h₅)).locator]
  · next hother =>
    refine .pure ⟨.refl s, ⟨?_, ?_⟩, ?_⟩
    · rintro ⟨⟩
    · rintro ⟨raw, haction⟩
      exact (hother raw haction).elim
    · rintro _ ⟨⟩

/-- Every reference has a callee, and the session knows them all in the end. -/
theorem ensures_callees (source : Path) (steps : List Step) (s : Session) :
    Ensures (callees nested source steps) s
      (fun found t => s.Grown t ∧
        List.Forall₂ (fun step (callee : Option Callee) => callee.isSome ↔ step.Refers) steps found ∧
        ∀ c, some c ∈ found → c.KnownIn t) fun _ => True := by
  induction steps generalizing s with
  | nil => exact .pure ⟨.refl s, .nil, nofun⟩
  | cons step rest ih =>
    unfold callees
    refine .bind (ensures_callee hnested source step s) ?_
    rintro first s₁ ⟨h₁, hsome, hknown⟩
    refine .bind (ih s₁) ?_
    rintro more s₂ ⟨h₂, hall, hmore⟩
    refine .pure ⟨h₁.trans h₂, .cons hsome hall, ?_⟩
    intro c hc
    rcases List.mem_cons.1 hc with hfirst | hc
    · exact (hknown c hfirst.symm).mono h₂
    · exact hmore c hc

/-- A module is kept after what it calls was made, where there was none before. -/
theorem ensures_grown_build (testcase : Testcase) {output : Path} (className : String) {s : Session}
    (hnone : s.made? output = none) :
    Ensures (build nested testcase output className) s (fun _ => s.Grown) fun _ => True := by
  have hresolved : Ensures (whileResolving testcase.config.source
      (resolveSteps nested testcase.config.source [] testcase.steps)) s (fun _ => s.Grown) fun _ => True := by
    refine ⟨fun {resolved t} hrun => ?_, fun _ => trivial⟩
    rw [resolveSteps_eq] at hrun
    unfold whileResolving at hrun
    split at hrun
    · next hstep =>
      cases hrun
      obtain ⟨_, _, hcallees, hbound⟩ := exists_of_bind_eq_ok hstep
      cases hbound
      obtain ⟨hlocator, hmade⟩ := ((ensures_callees hnested _ _ _).ok hcallees).1
      exact ⟨hlocator, hmade⟩
    · cases hrun
  rw [build_eq]
  refine .bind hresolved ?_
  rintro ⟨steps, imports⟩ t ht
  refine .bind (looksUp_scripted _ className imports).finds ?_
  rintro script u ⟨hu, -⟩
  refine .bind ((ensures_claimClass output className _ u).mono (fun _ _ h => h) fun _ _ => trivial) ?_
  rintro _ _ ⟨⟨more, rfl⟩, -⟩
  refine .bind ((ensures_emit script.render output _).mono (fun _ _ h => h) fun _ _ => trivial) ?_
  rintro _ _ ⟨⟨d, rfl⟩, -⟩
  have hgrown := ht.trans (.of_alike hu)
  exact .of_eq_ok rfl ⟨hgrown.locator, Session.prefix_made_keep hnone hgrown.made⟩

end Nested

/-- Whatever a run makes is added to what had been made. -/
theorem ensures_grown_testcaseWithin (fuel : Nat) :
    ∀ (raw : Value) (source : Path) (outputDirectory : Option Path) (s : Session),
      Ensures (testcaseWithin fuel raw source outputDirectory) s (fun _ => s.Grown) fun _ => True := by
  induction fuel with
  | zero => exact fun _ _ _ _ => .throw trivial
  | succ fuel ih =>
    intro raw source outputDirectory s
    show Ensures (testcaseWith _ raw source outputDirectory) s _ _
    rw [testcaseWith_eq]
    refine .bind (looksUp_drafted raw source.normalize outputDirectory).finds ?_
    rintro ⟨testcase, output, className⟩ t ⟨ht, -⟩
    have hgrown : s.Grown t := .of_alike ht
    refine .bind .get ?_
    rintro t _ ⟨rfl, rfl⟩
    cases hnone : t.made? output with
    | some made =>
      dsimp only
      split
      · exact .pure hgrown
      · exact .throw trivial
    | none =>
      dsimp only
      split
      · exact .throw trivial
      · exact .bind (ensures_grown_build (fun content p s => ih content p none s) testcase className hnone)
          fun _ u hu => .pure (hgrown.trans hu)

end Make

/-! ## Files that are told apart -/

/-- The file of a callee lies below its root under names without dots, but for the dot of its extension. -/
def Callee.Visible (extension : String) (c : Callee) : Prop :=
  ∃ names last, c.output.components
      = c.root.components ++ (names ++ [last ++ "." ++ extension]).map Component.name ∧
    last ≠ "" ∧ ∀ name ∈ names ++ [last], '.' ∉ name.toList

/-- The dotted names of some callees are different where their files are. -/
def TellsApart (callees : List (Option Callee)) : Prop :=
  ∀ c c', some c ∈ callees → some c' ∈ callees → (c.name = c'.name ↔ c.output.same c'.output)

/-- The path without the extension of a name in it that is cut before the extension. -/
theorem Path.components_withoutExtension_of_visible {p : Path} {front : List Component}
    {last extension : String} (hp : p.components = front ++ [.name (last ++ "." ++ extension)])
    (hne : last ≠ "") (hdot : '.' ∉ last.toList) (hextension : '.' ∉ extension.toList) :
    p.withoutExtension.components = front ++ [.name last] := by
  have hname : p.fileName? = some (last ++ "." ++ extension) := by
    rw [fileName?_eq_some_iff, hp, List.getLast?_concat]
  have hcut : cutName (last ++ "." ++ extension) = (last, some extension) := by
    rw [cutName_append_dot last hextension, if_neg hne]
  have hsingle : last ≠ "." := fun h => hdot (by rw [h]; decide)
  have hdouble : last ≠ ".." := fun h => hdot (by rw [h]; decide)
  have hbare : bareName (last ++ "." ++ extension) = last := by
    rw [bareName, hcut]
    exact if_neg hsingle
  obtain ⟨-, before, htrim, hcomponents⟩ := exists_trimEnd_of_fileName? hname
  rw [hp] at hcomponents
  have hfront : front = components ⟨p.anchor, before⟩ := List.append_inj_left' hcomponents rfl
  have hlast : componentOf? last = some (.name last) :=
    componentOf?_of_name (isFiller_eq_false_iff.2 ⟨hne, hsingle⟩) hdouble
  rw [withoutExtension, hname, hfront]
  simp only [hcut, hbare, ite_self, htrim, List.dropLast_concat]
  simp [components, hlast]

/-- The dotted name of a visible file has its names between the dots. -/
theorem Callee.Visible.exists_pieces {c : Callee} {extension : String} (h : c.Visible extension)
    (hextension : '.' ∉ extension.toList) (hname : Naming.moduleName c.root c.output = .ok c.name) :
    ∃ names last, Text.pieces '.' c.name = names ++ [last] ∧ c.output.components
      = c.root.components ++ (names ++ [last ++ "." ++ extension]).map Component.name := by
  obtain ⟨names, last, hcomponents, hne, hdots⟩ := h
  refine ⟨names, last, ?_, hcomponents⟩
  obtain ⟨below, hbelow, hjoined⟩ := map_eq_ok.1 hname
  have hbare : c.output.withoutExtension.components
      = c.root.components ++ (names ++ [last]).map Component.name := by
    rw [List.map_append, ← List.append_assoc] at hcomponents ⊢
    exact Path.components_withoutExtension_of_visible hcomponents hne
      (hdots last (List.mem_append_right _ List.mem_cons_self)) hextension
  rw [Path.components_of_after? (Naming.relative_eq_ok_iff.1 hbelow)] at hbare
  have hsegments : below.segments = names ++ [last] := by
    rw [Path.segments, List.append_cancel_left hbare, List.map_map]
    exact List.map_id _
  rw [← hjoined, hsegments]
  exact Text.pieces_joinWith (by simp) hdots

/-- Visible files below one root have different dotted names. -/
theorem tellsApart_of_visible {callees : List (Option Callee)} {extension : String} {root : Path}
    (hextension : '.' ∉ extension.toList)
    (hname : ∀ c, some c ∈ callees → Naming.moduleName c.root c.output = .ok c.name)
    (hvisible : ∀ c, some c ∈ callees → c.Visible extension)
    (hroot : ∀ c, some c ∈ callees → c.root = root) : TellsApart callees := by
  intro c c' hc hc'
  obtain ⟨names, last, hpieces, hcomponents⟩ := (hvisible c hc).exists_pieces hextension (hname c hc)
  obtain ⟨names', last', hpieces', hcomponents'⟩ := (hvisible c' hc').exists_pieces hextension (hname c' hc')
  have hnames : c.name = c'.name ↔ names ++ [last] = names' ++ [last'] := by
    rw [← hpieces, ← hpieces']
    refine ⟨congrArg _, fun h => ?_⟩
    rw [← Text.joinWith_pieces '.' c.name, h, Text.joinWith_pieces]
  have hfiles : names ++ [last] = names' ++ [last'] ↔
      names ++ [last ++ "." ++ extension] = names' ++ [last' ++ "." ++ extension] := by
    simp only [← List.concat_eq_append, List.concat_inj, String.append_left_inj]
  have hinjective : Function.Injective Component.name := fun _ _ h => by injection h
  rw [hnames, hfiles, Path.same_iff, hcomponents, hcomponents', hroot c hc, hroot c' hc',
    List.append_cancel_left_eq, (List.map_injective_iff.2 hinjective).eq_iff]

/-! ## Faithful references -/

/-- The step at a place calls the class of `c` under a local name. -/
def CallsAt (callees : List (Option Callee)) (steps : List Step) (i : Nat) (c : Callee) (localName : String) :
    Prop :=
  callees[i]? = some (some c) ∧ (steps[i]?).map Step.action = some (.call (.made localName))

/-- Steps call one name where they call one file, and the only import of this name is that of the class that
was made for the file. -/
structure Faithful (callees : List (Option Callee)) (steps : List Step) (imports : List Import) : Prop where
  names : ∀ {i j : Nat} {c c' : Callee} {localName localName' : String},
    CallsAt callees steps i c localName → CallsAt callees steps j c' localName' →
      (localName = localName' ↔ c.output.same c'.output)
  imports : ∀ {i : Nat} {c : Callee} {localName : String}, CallsAt callees steps i c localName →
    ∀ im, (im ∈ imports ∧ im.localName = localName) ↔ im = ⟨c.name, c.made.className, localName⟩

theorem Session.made?_of_same (s : Session) {p q : Path} (h : p.same q) : s.made? p = s.made? q := by
  simp only [made?, Path.same, Path.same_iff.1 h]

section Binds

variable {callees : List (Option Callee)} {steps : List Step} {imports : List Import}
  (h : Binds [] callees steps imports)

include h

/-- The name that a step calls is that of the import of its module. -/
theorem Binds.exists_import {i : Nat} {c : Callee} {localName : String}
    (hcalls : CallsAt callees steps i c localName) :
    ∃ im ∈ imports, im.moduleName = c.name ∧ im.localName = localName := by
  obtain ⟨hc, haction⟩ := hcalls
  obtain ⟨step, hstep, haction⟩ := Option.map_eq_some_iff.1 haction
  obtain ⟨im, him, hmodule, hcalled⟩ := h.called hc hstep
  rw [haction] at hcalled
  cases hcalled
  exact ⟨im, him, hmodule, rfl⟩

/-- Steps call one name where their callees have one dotted name. -/
theorem Binds.localName_eq_iff {i j : Nat} {c c' : Callee} {localName localName' : String}
    (hcalls : CallsAt callees steps i c localName) (hcalls' : CallsAt callees steps j c' localName') :
    localName = localName' ↔ c.name = c'.name := by
  obtain ⟨im, him, hmodule, rfl⟩ := h.exists_import hcalls
  obtain ⟨im', him', hmodule', rfl⟩ := h.exists_import hcalls'
  rw [← hmodule, ← hmodule']
  constructor
  · intro hname
    rw [List.inj_on_of_nodup_map h.apart.names him him' hname]
  · intro hname
    rw [List.inj_on_of_nodup_map h.apart.modules him him' hname]

/-- Where dotted names tell files apart, and one file has one class, references are faithful. -/
theorem Binds.faithful {t : Session} (hapart : TellsApart callees)
    (hmade : ∀ c, some c ∈ callees → t.made? c.output = some c.made) : Faithful callees steps imports where
  names {i j c c' _ _} hcalls hcalls' := by
    rw [h.localName_eq_iff hcalls hcalls']
    exact hapart c c' (List.mem_of_getElem? hcalls.1) (List.mem_of_getElem? hcalls'.1)
  imports {i c localName} hcalls im := by
    have hc := List.mem_of_getElem? hcalls.1
    -- the import of a module was chosen for a callee with the same name, so with the same file
    have hclass : ∀ im ∈ imports, im.moduleName = c.name → im.className = c.made.className := by
      intro im him hmodule
      rcases h.origin im him with hnone | ⟨c', hc', hmodule', hclass⟩
      · cases hnone
      · have hsame := (hapart c c' hc hc').1 (hmodule.symm.trans hmodule')
        have hentry := hmade c hc
        rw [t.made?_of_same hsame, hmade c' hc', Option.some_inj] at hentry
        rw [hclass, hentry]
    obtain ⟨own, hown, hmodule, hname⟩ := h.exists_import hcalls
    have howned : own = ⟨c.name, c.made.className, localName⟩ := by
      rw [← hmodule, ← hname, ← hclass own hown hmodule]
    constructor
    · rintro ⟨him, hlocal⟩
      rw [List.inj_on_of_nodup_map h.apart.names him hown (hlocal.trans hname.symm), howned]
    · rintro rfl
      exact ⟨howned ▸ hown, rfl⟩

/-- Every callee is called by some step. -/
theorem Binds.exists_callsAt (hlength : steps.length = callees.length) {i : Nat} {c : Callee}
    (hc : callees[i]? = some (some c)) : ∃ localName, CallsAt callees steps i c localName := by
  obtain ⟨hi, -⟩ := List.getElem?_eq_some_iff.1 hc
  rw [← hlength] at hi
  obtain ⟨im, -, -, haction⟩ := h.called hc (List.getElem?_eq_getElem hi)
  refine ⟨im.localName, hc, ?_⟩
  rw [List.getElem?_eq_getElem hi, Option.map_some, haction]

theorem Binds.tellsApart (hlength : steps.length = callees.length) (hfaithful : Faithful callees steps imports) :
    TellsApart callees := by
  intro c c' hc hc'
  obtain ⟨i, hi⟩ := List.getElem?_of_mem hc
  obtain ⟨j, hj⟩ := List.getElem?_of_mem hc'
  obtain ⟨localName, hcalls⟩ := h.exists_callsAt hlength hi
  obtain ⟨localName', hcalls'⟩ := h.exists_callsAt hlength hj
  rw [← h.localName_eq_iff hcalls hcalls', hfaithful.names hcalls hcalls']

end Binds

/-- Each reference calls, under one local name, what was made for it.  One name is called where one dotted name
is, so references are faithful exactly if dotted names tell the files apart.  They do for visible files below
one root, and there is one root if the root is fixed. -/
theorem references_faithful (fuel : Nat) {source : Path} {steps steps' : List Step} {imports : List Import}
    {s t : Session} (h : Make.resolveSteps (fun content p => Make.testcaseWithin fuel content p none) source []
      steps s = .ok (steps', imports) t) :
    ∃ callees, Make.callees (fun content p => Make.testcaseWithin fuel content p none) source steps s
        = .ok callees t ∧
      (∀ {i : Nat} {step : Step}, steps[i]? = some step → step.Refers → ∃ c localName,
        CallsAt callees steps' i c localName ∧ t.made? c.output = some c.made ∧
          Naming.moduleName c.root c.output = .ok c.name) ∧
      (∀ {i j : Nat} {c c' : Callee} {localName localName' : String}, CallsAt callees steps' i c localName →
        CallsAt callees steps' j c' localName' → (localName = localName' ↔ c.name = c'.name)) ∧
      (Faithful callees steps' imports ↔ TellsApart callees) ∧
      (∀ extension root, '.' ∉ extension.toList →
        (∀ c, some c ∈ callees → c.root = root ∧ c.Visible extension) → TellsApart callees) ∧
      ∀ root, s.locator = .fixed root → ∀ c, some c ∈ callees → c.root = root := by
  rw [Make.resolveSteps_eq] at h
  obtain ⟨callees, u, hcallees, hbound⟩ := exists_of_bind_eq_ok h
  change EStateM.Result.ok _ u = _ at hbound
  injection hbound with hpair ht
  subst ht
  obtain ⟨hgrown, haligned, hknown⟩ := (Make.ensures_callees (fun content p s =>
    Make.ensures_grown_testcaseWithin fuel content p none s)
    source steps s).ok hcallees
  have hbinds := binds_boundSteps Import.apart_nil steps callees
  have hlength := length_boundSteps [] haligned.length_eq
  rw [hpair] at hbinds hlength
  rw [haligned.length_eq] at hlength
  refine ⟨callees, hcallees, ?_, hbinds.localName_eq_iff, ?_, ?_, ?_⟩
  · intro i step hstep hrefers
    obtain ⟨hi, rfl⟩ := List.getElem?_eq_some_iff.1 hstep
    have hi' : i < callees.length := haligned.length_eq ▸ hi
    obtain ⟨c, hc⟩ := Option.isSome_iff_exists.1 ((haligned.get hi hi').2 hrefers)
    have hat : callees[i]? = some (some c) := List.getElem?_eq_some_iff.2 ⟨hi', hc⟩
    obtain ⟨localName, hcalls⟩ := hbinds.exists_callsAt hlength hat
    have hc := hknown c (List.mem_of_getElem? hat)
    exact ⟨c, localName, hcalls, hc.made, hc.named⟩
  · exact ⟨hbinds.tellsApart hlength, fun hapart => hbinds.faithful hapart fun c hc => (hknown c hc).made⟩
  · intro extension root hextension hvisible
    exact tellsApart_of_visible hextension (fun c hc => (hknown c hc).named) (fun c hc => (hvisible c hc).2)
      fun c hc => (hvisible c hc).1
  · intro root hroot c hc
    exact (hknown c hc).rooted root (hgrown.locator ▸ hroot)

/-! Two testcases of one name, with the second in a directory of the project or in a project of its own. -/

/-- The session of a project that may have another one inside. -/
def twinSession (inside : Bool) : Session where
  settings := {}
  locator := .marker "debugtalk.py" (.ofString "/")
  disk := ⟨[("p", .directory [
    ("debugtalk.py", .file "".toUTF8),
    ("login.json", .file (emptyText "outer").toUTF8),
    ("sub", .directory (("login.json", .file (emptyText "inner").toUTF8) ::
      if inside then [("debugtalk.py", .file "".toUTF8)] else []))])], [], []⟩

def twinSteps : List Step :=
  ["login.json", "sub/login.json", "login.json"].map fun raw =>
    ⟨raw, none, none, none, none, none, none, .call (.path raw)⟩

def twinCallees (inside : Bool) : List (Option Callee) :=
  let outer : Callee := {
    output := .ofString "/p/login_test.py"
    made := ⟨.ofString "/p/login.json", "Login", []⟩
    root := .ofString "/p"
    name := "login_test" }
  let inner : Callee := {
    output := .ofString "/p/sub/login_test.py"
    made := ⟨.ofString "/p/sub/login.json", "Login", []⟩
    root := .ofString (if inside then "/p/sub" else "/p")
    name := if inside then "login_test" else "sub.login_test" }
  [some outer, some inner, some outer]

theorem exists_callees_twins (inside : Bool) :
    ∃ t, Make.callees (fun content p => Make.testcaseWithin 1 content p none) (.ofString "/p/a.json") twinSteps
      (twinSession inside) = .ok (twinCallees inside) t := by
  have hpasses : passes (fun callees _ => decide (callees = twinCallees inside))
      (Make.callees (fun content p => Make.testcaseWithin 1 content p none) (.ofString "/p/a.json") twinSteps
        (twinSession inside)) = true := by
    cases inside <;> decide +kernel
  obtain ⟨callees, t, hrun, hcallees⟩ := exists_of_passes hpasses
  exact ⟨t, of_decide_eq_true hcallees ▸ hrun⟩

/-- Testcases of one name in different directories are called by different names. -/
theorem references_faithful_twins :
    ∃ steps imports t, Make.resolveSteps (fun content p => Make.testcaseWithin 1 content p none)
        (.ofString "/p/a.json") [] twinSteps (twinSession false) = .ok (steps, imports) t ∧
      steps.map Step.action = ["Login", "SubLoginTest", "Login"].map (.call ∘ .made) ∧
      imports = [⟨"login_test", "Login", "Login"⟩, ⟨"sub.login_test", "Login", "SubLoginTest"⟩] ∧
      Faithful (twinCallees false) steps imports := by
  obtain ⟨t, ht⟩ := exists_callees_twins false
  have hrun := Make.resolveSteps_of_callees [] ht
  obtain ⟨callees, hcallees, -, -, hfaithful, hvisible, -⟩ := references_faithful 1 hrun
  rw [ht] at hcallees
  cases hcallees
  refine ⟨_, _, t, hrun, by decide +kernel, by decide +kernel,
    hfaithful.2 (hvisible "py" (.ofString "/p") (by decide) ?_)⟩
  intro c hc
  simp only [twinCallees, List.mem_cons, Option.some_inj, List.not_mem_nil, or_false] at hc
  rcases hc with rfl | rfl | rfl
  · exact ⟨rfl, [], "login_test", by decide, by decide, by decide⟩
  · exact ⟨rfl, ["sub"], "login_test", by decide, by decide, by decide⟩
  · exact ⟨rfl, [], "login_test", by decide, by decide, by decide⟩

/-- If the second testcase is in a project of its own, both are called by one name. -/
theorem references_not_faithful :
    ∃ steps imports t, Make.resolveSteps (fun content p => Make.testcaseWithin 1 content p none)
        (.ofString "/p/a.json") [] twinSteps (twinSession true) = .ok (steps, imports) t ∧
      imports = [⟨"login_test", "Login", "Login"⟩] ∧
      Make.callees (fun content p => Make.testcaseWithin 1 content p none) (.ofString "/p/a.json") twinSteps
        (twinSession true) = .ok (twinCallees true) t ∧
      ¬ Faithful (twinCallees true) steps imports := by
  obtain ⟨t, ht⟩ := exists_callees_twins true
  refine ⟨_, _, t, Make.resolveSteps_of_callees [] ht, by decide +kernel, ht, ?_⟩
  intro hfaithful
  have hlogin : ∀ i < 2, ((boundSteps [] twinSteps (twinCallees true)).1[i]?).map Step.action
      = some (.call (.made "Login")) := by
    decide +kernel
  have hsame := (hfaithful.names (i := 0) (j := 1) ⟨rfl, hlogin 0 (by decide)⟩ ⟨rfl, hlogin 1 (by decide)⟩).1 rfl
  revert hsame
  decide

end TestScribe
