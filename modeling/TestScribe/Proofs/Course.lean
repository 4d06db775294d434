/-
# The course of a run

Making modules, with the moments that a run passes: the session before each of its steps, how deep the
calls are nested there, the module that is about to be written, and what is to be recorded of it when it has
been.  Every step here is the step of the same name in `Make` with the moments beside the result.

* `Record` : a module with the document that it comes from, the testcase read from it, and its script;
* `Moment`, `Observed` : a moment, and a step with the moments it passes;
* `Observed.testcase` : `Make.testcase` with its moments;
* `Follows`, `Observed.follows_testcaseWithin` : the moments make no difference to the result, and neither
  does a greater bound on the nesting of calls, unless the bound was met;
* `Runs` : what a run guarantees of its moments and of its result, with a rule for each way to combine steps.
-/
import TestScribe.Making
import TestScribe.Proofs.Outcome

namespace TestScribe

/-- A module that was made: where it comes from, and what was written. -/
structure Record where
  /-- the document as it was given or loaded -/
  document : Value
  /-- the testcase of the document, its calls still by their paths -/
  testcase : Testcase
  output : Path
  /-- the class without its common beginning -/
  className : String
  imports : List Import
  script : Script

/-- The source of the document. -/
def Record.source (r : Record) : Path := r.testcase.config.source

/-- What the session keeps of a module. -/
def Record.entry (r : Record) : Path × Made :=
  (r.output, ⟨r.source, r.className, r.testcase.config.exports.getD []⟩)

/-- A moment of a run, before one of its steps. -/
structure Moment where
  session : Session
  /-- how deep calls are nested; the outermost one is at depth 1 -/
  depth : Nat
  /-- the path of the module that is about to be written -/
  writes : Option Path
  /-- the module that has been written and is about to be kept -/
  keeps : Option Record

/-- A step on a session, with the moments that it passes. -/
def Observed (α : Type) : Type := Session → EStateM.Result Fault Session α × List Moment

/-! ## Parts of the steps -/

namespace Make

/-- The document that a step calls, and its path. -/
def opened (source : Path) (step : Step) (raw : String) : Make (Value × Path) := do
  let p ← reference source raw
  let content ← ofExcept id (Source.load (← get).disk p)
  if content.mapping?.isNone then throw (.schema (.referenceNotMapping step.name p))
  else return (content, p)

/-- The module that was made at a path. -/
def foundAt (output : Path) : Make (Path × Made) := do
  match (← get).made? output with
  | some made => return (output, made)
  | none => throw (.path (.notGenerated output))

/-- The testcase of a document, with the place of its module and its class. -/
def drafted (raw : Value) (source : Path) (outputDirectory : Option Path) :
    Make (Testcase × Path × String) := do
  let document ← ofExcept .schema (Legacy.normalize raw)
  let testcase ← ofExcept .schema (Testcase.ofDocument document source)
  let placed ← place source outputDirectory
  return (testcase, placed)

/-- The script of the module of a testcase. -/
def scripted (testcase : Testcase) (className : String) (imports : List Import) : Make Script := do
  let below ← relative testcase.config.source
  ofExcept .schema (script (← get).settings testcase className imports below)

/-- The text of a module is that of its script. -/
theorem compile_eq (testcase : Testcase) (className : String) (imports : List Import) :
    compile testcase className imports = (do
      let script ← scripted testcase className imports
      return script.render) := by
  unfold compile scripted
  simp only [bind_assoc]

theorem called_eq (nested : Value → Path → Make Path) (source : Path) (step : Step) (raw : String) :
    called nested source step raw = (do
      let (content, p) ← opened source step raw
      let output ← nested content p
      foundAt output) := by
  unfold called opened foundAt
  simp only [bind_assoc]
  congr
  funext p
  congr
  funext s
  congr
  funext content
  split
  · rfl
  · rfl

/-- A module is made in five steps: its calls, its script, its class, its file, and its entry. -/
theorem build_eq (nested : Value → Path → Make Path) (testcase : Testcase) (output : Path) (className : String) :
    build nested testcase output className = (do
      let (steps, imports) ← whileResolving testcase.config.source
        (resolveSteps nested testcase.config.source [] testcase.steps)
      let script ← scripted { testcase with steps } className imports
      claimClass output className testcase.config.source
      emit script.render output
      modify (·.keep output ⟨testcase.config.source, className, testcase.config.exports.getD []⟩)) := by
  unfold build
  simp only [compile_eq, bind_assoc, pure_bind]

theorem testcaseWith_eq (nested : Value → Path → Make Path) (raw : Value) (source : Path)
    (outputDirectory : Option Path) :
    testcaseWith nested raw source outputDirectory = (do
      let (testcase, output, className) ← drafted raw source.normalize outputDirectory
      let s ← get
      match s.made? output with
      | some made =>
        if made.source.same source.normalize then return output
        else throw (.collision (.sameFile made.source source.normalize output))
      | none =>
        if s.resolving.any (·.same source.normalize) then
          throw (.cycle ((s.resolving.dropWhile fun p => !p.same source.normalize)
            ++ [source.normalize]))
        else
          build nested testcase output className
          return output) := by
  unfold testcaseWith drafted
  rw [bind_assoc]
  refine bind_congr fun document => ?_
  rw [bind_assoc]
  refine bind_congr fun testcase => ?_
  rw [bind_assoc]
  refine bind_congr fun placed => ?_
  symm
  exact pure_bind (testcase, placed) _

end Make

/-! ## Steps with their moments -/

namespace Observed

variable {α β : Type}

instance : Monad Observed where
  pure a := fun s => (.ok a s, [])
  bind step f := fun s =>
    match step s with
    | (.ok a t, moments) => ((f a t).1, moments ++ (f a t).2)
    | (.error e t, moments) => (.error e t, moments)

/-- After a success, the next step goes on from its state and adds its moments. -/
theorem bind_eq_of_ok {step : Observed α} {f : α → Observed β} {s t : Session} {a : α} {moments : List Moment}
    (h : step s = (.ok a t, moments)) : (step >>= f) s = ((f a t).1, moments ++ (f a t).2) := by
  simp only [bind, h]

/-- A failure ends a chain. -/
theorem bind_eq_of_error {step : Observed α} {f : α → Observed β} {s t : Session} {e : Fault}
    {moments : List Moment} (h : step s = (.error e t, moments)) : (step >>= f) s = (.error e t, moments) := by
  simp only [bind, h]

/-- A single step, which is passed at one moment. -/
def ofMake (depth : Nat) (step : Make α) : Observed α := fun s => (step s, [⟨s, depth, none, none⟩])

/-- The text of a module is written. -/
def emit (depth : Nat) (text : String) (output : Path) : Observed Unit := fun s =>
  (Make.emit text output s, [⟨s, depth, some output, none⟩])

/-- A module that has been written is kept. -/
def keep (depth : Nat) (r : Record) : Observed Unit := fun s =>
  ((modify (·.keep r.output r.entry.2) : Make Unit) s, [⟨s, depth, none, some r⟩])

/-- The module of the testcase that a step calls, made by `nested` if it has not been made. -/
def called (depth : Nat) (nested : Value → Path → Observed Path) (source : Path) (step : Step)
    (raw : String) : Observed (Path × Made) := do
  let (content, p) ← ofMake depth (Make.opened source step raw)
  let output ← nested content p
  ofMake depth (Make.foundAt output)

/-- A step with the testcase it calls, if it calls one by its path. -/
def resolveStep (depth : Nat) (nested : Value → Path → Observed Path) (source : Path)
    (imports : List Import) (step : Step) : Observed (Step × List Import) := do
  match step.action with
  | .call (.path raw) =>
    let (output, made) ← called depth nested source step raw
    let name ← ofMake depth (Make.moduleName output)
    let (localName, imports) := Import.choose imports made.className name
    return ({ step with
      exports := mergeExports step.exports made.exports
      action := .call (.made localName) }, imports)
  | _ => return (step, imports)

/-- The steps with the testcases they call, and the imports for these. -/
def resolveSteps (depth : Nat) (nested : Value → Path → Observed Path) (source : Path) :
    List Import → List Step → Observed (List Step × List Import)
  | imports, [] => return ([], imports)
  | imports, step :: rest => do
    let (step, imports) ← resolveStep depth nested source imports step
    let (rest, imports) ← resolveSteps depth nested source imports rest
    return (step :: rest, imports)

/-- A step with a source on the stack of those that are being made. -/
def whileResolving (source : Path) (step : Observed α) : Observed α := fun s =>
  let restore (t : Session) : Session := { t with resolving := t.resolving.dropLast }
  match step { s with resolving := s.resolving ++ [source] } with
  | (.ok a t, moments) => (.ok a (restore t), moments)
  | (.error e t, moments) => (.error e (restore t), moments)

/-- A module that has not been made is made, with the testcases it calls made by `nested`. -/
def build (depth : Nat) (nested : Value → Path → Observed Path) (document : Value) (testcase : Testcase)
    (output : Path) (className : String) : Observed Unit := do
  let source := testcase.config.source
  let (steps, imports) ←
    whileResolving source (resolveSteps depth nested source [] testcase.steps)
  let script ← ofMake depth (Make.scripted { testcase with steps } className imports)
  ofMake depth (Make.claimClass output className source)
  emit depth script.render output
  keep depth { document, testcase, output, className, imports, script }

/-- The module of a document, with the testcases it calls made by `nested`. -/
def testcaseWith (depth : Nat) (nested : Value → Path → Observed Path) (raw : Value) (source : Path)
    (outputDirectory : Option Path) : Observed Path := do
  let source := source.normalize
  let (testcase, output, className) ← ofMake depth (Make.drafted raw source outputDirectory)
  let s ← ofMake depth get
  match s.made? output with
  | some made =>
    if made.source.same source then return output
    else ofMake depth (throw (.collision (.sameFile made.source source output)))
  | none =>
    if s.resolving.any (·.same source) then
      ofMake depth (throw (.cycle ((s.resolving.dropWhile fun p => !p.same source) ++ [source])))
    else
      build depth nested raw testcase output className
      return output

/-- The module of a document, at a depth from which calls can be nested `fuel` deep. -/
def testcaseWithin : (depth fuel : Nat) → Value → Path → Option Path → Observed Path
  | depth, 0, _, source, _ => ofMake depth (throw (.tooDeep source))
  | depth, fuel + 1, raw, source, outputDirectory =>
    testcaseWith depth (fun content p => testcaseWithin (depth + 1) fuel content p none) raw source
      outputDirectory

/-- The module of a document that was read from `source`. -/
def testcase (raw : Value) (source : Path) (outputDirectory : Option Path) : Observed Path := do
  let s ← ofMake 1 get
  testcaseWithin 1 (Make.depthBound s.disk) raw source outputDirectory

end Observed

/-! ## Forgetting the moments -/

/-- A step has the result of `plain`; where it may fall `short`, it may also end because calls were nested
too deep for it. -/
def Follows {α : Type} (short : Prop) (step : Observed α) (plain : Make α) : Prop :=
  ∀ s, (step s).1 = plain s ∨ short ∧ ∃ p t, (step s).1 = .error (.tooDeep p) t

namespace Follows

variable {α β : Type} {short : Prop}

theorem ofMake (depth : Nat) (step : Make α) : Follows short (Observed.ofMake depth step) step :=
  fun _ => .inl rfl

theorem pure (a : α) : Follows short (Pure.pure a) (Pure.pure a) := fun _ => .inl rfl

theorem bind {step : Observed α} {plain : Make α} {f : α → Observed β} {g : α → Make β}
    (h : Follows short step plain) (hf : ∀ a, Follows short (f a) (g a)) :
    Follows short (step >>= f) (plain >>= g) := by
  intro s
  have houtcome := h s
  obtain ⟨⟨result, moments⟩, hstep⟩ : ∃ outcome, step s = outcome := ⟨_, rfl⟩
  rw [hstep] at houtcome
  cases result with
  | ok a t =>
    rw [Observed.bind_eq_of_ok hstep]
    rcases houtcome with hplain | ⟨-, _, _, hdeep⟩
    · rw [bind_of_ok hplain.symm]
      exact hf a t
    · cases hdeep
  | error e t =>
    rw [Observed.bind_eq_of_error hstep]
    rcases houtcome with hplain | ⟨hshort, p, u, hdeep⟩
    · exact .inl (bind_of_error hplain.symm).symm
    · cases hdeep
      exact .inr ⟨hshort, p, t, rfl⟩

theorem whileResolving {step : Observed α} {plain : Make α} (h : Follows short step plain)
    (source : Path) :
    Follows short (Observed.whileResolving source step) (Make.whileResolving source plain) := by
  intro s
  have houtcome := h { s with resolving := s.resolving ++ [source] }
  unfold Observed.whileResolving Make.whileResolving
  generalize step { s with resolving := s.resolving ++ [source] } = outcome at houtcome ⊢
  obtain ⟨result, moments⟩ := outcome
  rcases houtcome with hplain | ⟨hshort, p, t, hdeep⟩
  · rw [← hplain]
    left
    cases result <;> rfl
  · cases hdeep
    exact .inr ⟨hshort, p, _, rfl⟩

end Follows

namespace Observed

variable {short : Prop}

section Nested

variable {depth : Nat} {nested : Value → Path → Observed Path} {plain : Value → Path → Make Path}
  (hnested : ∀ content p, Follows short (nested content p) (plain content p))

include hnested

theorem follows_called (source : Path) (step : Step) (raw : String) :
    Follows short (called depth nested source step raw) (Make.called plain source step raw) := by
  rw [Make.called_eq]
  refine .bind (.ofMake _ _) ?_
  rintro ⟨content, p⟩
  exact .bind (hnested content p) fun output => .ofMake _ _

theorem follows_resolveStep (source : Path) (imports : List Import) (step : Step) :
    Follows short (resolveStep depth nested source imports step)
      (Make.resolveStep plain source imports step) := by
  unfold resolveStep Make.resolveStep
  cases step.action with
  | request r => exact .pure _
  | call target =>
    cases target with
    | made localName => exact .pure _
    | path raw =>
      refine .bind (follows_called hnested source step raw) ?_
      rintro ⟨output, made⟩
      exact .bind (.ofMake _ _) fun name => .pure _

theorem follows_resolveSteps (source : Path) (imports : List Import) (steps : List Step) :
    Follows short (resolveSteps depth nested source imports steps)
      (Make.resolveSteps plain source imports steps) := by
  induction steps generalizing imports with
  | nil => exact .pure _
  | cons step rest ih =>
    unfold resolveSteps Make.resolveSteps
    refine .bind (follows_resolveStep hnested source imports step) ?_
    rintro ⟨step, imports⟩
    refine .bind (ih imports) ?_
    rintro ⟨rest, imports⟩
    exact .pure _

theorem follows_build (document : Value) (testcase : Testcase) (output : Path) (className : String) :
    Follows short (build depth nested document testcase output className)
      (Make.build plain testcase output className) := by
  rw [Make.build_eq]
  unfold build
  refine .bind (.whileResolving (follows_resolveSteps hnested _ _ _) _) ?_
  rintro ⟨steps, imports⟩
  refine .bind (.ofMake _ _) fun script => .bind (.ofMake _ _) fun _ => ?_
  exact .bind (fun _ => .inl rfl) fun _ => fun _ => .inl rfl

theorem follows_testcaseWith (raw : Value) (source : Path) (outputDirectory : Option Path) :
    Follows short (testcaseWith depth nested raw source outputDirectory)
      (Make.testcaseWith plain raw source outputDirectory) := by
  rw [Make.testcaseWith_eq]
  unfold testcaseWith
  refine .bind (.ofMake _ _) ?_
  rintro ⟨testcase, output, className⟩
  refine .bind (.ofMake _ _) fun s => ?_
  cases s.made? output with
  | some made =>
    dsimp only
    split
    · exact .pure _
    · exact .ofMake _ _
  | none =>
    dsimp only
    split
    · exact .ofMake _ _
    · exact .bind (follows_build hnested _ _ _ _) fun _ => .pure _

end Nested

/-- The moments make no difference to the result, and neither does a greater bound on the nesting, unless
the bound was met. -/
theorem follows_testcaseWithin {depth fuel fuel' : Nat} (h : fuel = fuel' ∨ short ∧ fuel ≤ fuel')
    (raw : Value) (source : Path) (outputDirectory : Option Path) :
    Follows short (testcaseWithin depth fuel raw source outputDirectory)
      (Make.testcaseWithin fuel' raw source outputDirectory) := by
  induction fuel generalizing depth fuel' raw source outputDirectory with
  | zero =>
    rcases h with rfl | ⟨hshort, -⟩
    · exact .ofMake _ _
    · exact fun s => .inr ⟨hshort, source, s, rfl⟩
  | succ fuel ih =>
    cases fuel' with
    | zero => omega
    | succ fuel' =>
      have hless : fuel = fuel' ∨ short ∧ fuel ≤ fuel' := by
        rcases h with h | ⟨hshort, h⟩
        · exact .inl (by omega)
        · exact .inr ⟨hshort, by omega⟩
      exact follows_testcaseWith (fun content p => ih hless content p none) _ _ _

theorem testcaseWithin_fst (depth fuel : Nat) (raw : Value) (source : Path)
    (outputDirectory : Option Path) (s : Session) :
    (testcaseWithin depth fuel raw source outputDirectory s).1
      = Make.testcaseWithin fuel raw source outputDirectory s := by
  have hfollows : Follows False (testcaseWithin depth fuel raw source outputDirectory)
      (Make.testcaseWithin fuel raw source outputDirectory) :=
    follows_testcaseWithin (.inl rfl) raw source outputDirectory
  exact (hfollows s).resolve_right fun h => h.1

theorem testcase_fst (raw : Value) (source : Path) (outputDirectory : Option Path) (s : Session) :
    (testcase raw source outputDirectory s).1 = Make.testcase raw source outputDirectory s :=
  testcaseWithin_fst 1 (Make.depthBound s.disk) raw source outputDirectory s

theorem testcase_eq (raw : Value) (source : Path) (outputDirectory : Option Path) (s : Session) :
    testcase raw source outputDirectory s =
      ((testcaseWithin 1 (Make.depthBound s.disk) raw source outputDirectory s).1,
        ⟨s, 1, none, none⟩ :: (testcaseWithin 1 (Make.depthBound s.disk) raw source outputDirectory s).2) :=
  rfl

end Observed

/-! ## The stack -/

/-- A source is put on the stack. -/
def Session.push (s : Session) (source : Path) : Session :=
  { s with resolving := s.resolving ++ [source] }

/-- The last source is taken off the stack. -/
def Session.pop (s : Session) : Session := { s with resolving := s.resolving.dropLast }

/-- A result with the last source taken off the stack. -/
def popped {α : Type} : EStateM.Result Fault Session α → EStateM.Result Fault Session α
  | .ok a t => .ok a t.pop
  | .error e t => .error e t.pop

theorem Observed.whileResolving_eq {α : Type} (source : Path) (step : Observed α) (s : Session) :
    whileResolving source step s = (popped (step (s.push source)).1, (step (s.push source)).2) := by
  unfold whileResolving Session.push
  obtain ⟨result, moments⟩ := step { s with resolving := s.resolving ++ [source] }
  cases result <;> rfl

/-! ## Claims about runs -/

/-- A result is a success with `Q` or a failure with `E`. -/
def Ends {α : Type} (Q : α → Session → Prop) (E : Fault → Session → Prop) :
    EStateM.Result Fault Session α → Prop
  | .ok a t => Q a t
  | .error e t => E e t

/-- From the session `s`, and if all its moments have `U`, a step passes only moments with `V`, and it
succeeds with `Q` or fails with `E`. -/
structure Runs {α : Type} (U V : Moment → Prop) (step : Observed α) (s : Session)
    (Q : α → Session → Prop) (E : Fault → Session → Prop) : Prop where
  moments : (∀ m ∈ (step s).2, U m) → ∀ m ∈ (step s).2, V m
  ends : (∀ m ∈ (step s).2, U m) → Ends Q E (step s).1

namespace Runs

variable {α β : Type} {U V : Moment → Prop} {step : Observed α} {s : Session}
  {Q : α → Session → Prop} {E : Fault → Session → Prop}

theorem pure {a : α} (h : Q a s) : Runs U V (Pure.pure a) s Q E :=
  ⟨fun _ _ hm => absurd hm List.not_mem_nil, fun _ => h⟩

/-- A single step is claimed at the moment at which it is passed. -/
theorem of_eq {plain : Make α} {m : Moment} (hstep : step s = (plain s, [m])) (hV : U m → V m)
    (hends : U m → Ends Q E (plain s)) : Runs U V step s Q E := by
  constructor
  · intro hU other hother
    rw [hstep] at hU hother
    rw [List.mem_singleton.1 hother]
    exact hV (hU m List.mem_cons_self)
  · intro hU
    rw [hstep] at hU ⊢
    exact hends (hU m List.mem_cons_self)

theorem bind {f : α → Observed β} {Q' : β → Session → Prop} (h : Runs U V step s Q E)
    (hf : ∀ a t, Q a t → Runs U V (f a) t Q' E) : Runs U V (step >>= f) s Q' E := by
  have hbind : (step >>= f) s = match step s with
      | (.ok a t, moments) => ((f a t).1, moments ++ (f a t).2)
      | (.error e t, moments) => (.error e t, moments) := rfl
  obtain ⟨hmoments, hends⟩ := h
  cases hstep : step s with
  | mk result before =>
    rw [hstep] at hbind hmoments hends
    cases result with
    | ok a t =>
      constructor
      · rw [hbind]
        intro hU m hm
        have hbefore : ∀ m ∈ before, U m := fun m hm => hU m (List.mem_append_left _ hm)
        have hafter : ∀ m ∈ (f a t).2, U m := fun m hm => hU m (List.mem_append_right _ hm)
        rcases List.mem_append.1 hm with hm | hm
        · exact hmoments hbefore m hm
        · exact (hf a t (hends hbefore)).moments hafter m hm
      · rw [hbind]
        intro hU
        have hbefore : ∀ m ∈ before, U m := fun m hm => hU m (List.mem_append_left _ hm)
        have hafter : ∀ m ∈ (f a t).2, U m := fun m hm => hU m (List.mem_append_right _ hm)
        exact (hf a t (hends hbefore)).ends hafter
    | error e t =>
      constructor
      · rw [hbind]
        exact hmoments
      · rw [hbind]
        exact hends

theorem mono {Q' : α → Session → Prop} {E' : Fault → Session → Prop} (h : Runs U V step s Q E)
    (hQ : ∀ a t, Q a t → Q' a t) (hE : ∀ e t, E e t → E' e t) : Runs U V step s Q' E' := by
  refine ⟨h.moments, fun hU => ?_⟩
  have hends := h.ends hU
  cases hstep : (step s).1 with
  | ok a t =>
    rw [hstep] at hends
    exact hQ a t hends
  | error e t =>
    rw [hstep] at hends
    exact hE e t hends

/-- Two claims about the same step. -/
theorem and {V' : Moment → Prop} {Q' : α → Session → Prop} {E' : Fault → Session → Prop}
    (h : Runs U V step s Q E) (h' : Runs U V' step s Q' E') :
    Runs U V step s (fun a t => Q a t ∧ Q' a t) fun e t => E e t ∧ E' e t := by
  refine ⟨h.moments, fun hU => ?_⟩
  have hends := h.ends hU
  have hends' := h'.ends hU
  cases hstep : (step s).1 with
  | ok a t =>
    rw [hstep] at hends hends'
    exact ⟨hends, hends'⟩
  | error e t =>
    rw [hstep] at hends hends'
    exact ⟨hends, hends'⟩

/-- The source is on the stack while the step runs, and off it afterwards. -/
theorem whileResolving {source : Path} (h : Runs U V step (s.push source) (fun a t => Q a t.pop)
      fun e t => E e t.pop) :
    Runs U V (Observed.whileResolving source step) s Q E := by
  have hrun := Observed.whileResolving_eq source step s
  refine ⟨?_, fun hU => ?_⟩
  · rw [hrun]
    exact h.moments
  · rw [hrun] at hU ⊢
    have hends := h.ends hU
    cases hstep : (step (s.push source)).1 with
    | ok a t | error e t =>
      rw [hstep] at hends
      exact hends

end Runs

end TestScribe
