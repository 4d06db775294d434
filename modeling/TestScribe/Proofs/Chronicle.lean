/-
# Sessions with a log

A log of the modules made stands beside a session: the document each one comes from, the testcase read from it,
and the script that was written.  The session does not keep these, but a run passes the moments at which they
are known, so that the log is read off its moments and makes no difference to the session.

* `Chronicle`, `Observed.recorded` : a session with its log, and a step on it;
* `Tracks` : what a step guarantees of the session and its log if the moments that it passes are as they should
  be, with a rule for each way to combine steps;
* `Session.after`, `Chronicle.after` : the state after a list of orders, `Chronicle.session_after` : the
  log makes no difference to it.
-/
import TestScribe.Proofs.Course

namespace TestScribe

/-- A session with the log of the modules made, in the order in which they were made. -/
structure Chronicle where
  session : Session
  log : List Record

/-- A step on a session with its log. -/
abbrev Recorded := EStateM Fault Chronicle

/-- A result without the log. -/
def unrecorded {α : Type} : EStateM.Result Fault Chronicle α → EStateM.Result Fault Session α
  | .ok a c => .ok a c.session
  | .error e c => .error e c.session

/-! ## Reading the log off the moments -/

namespace Observed

variable {α β : Type}

/-- A step with the log, to which the modules are added that are kept at its moments. -/
def recorded (step : Observed α) : Recorded α := fun c =>
  match step c.session with
  | (.ok a t, moments) => .ok a ⟨t, c.log ++ moments.filterMap Moment.keeps⟩
  | (.error e t, moments) => .error e ⟨t, c.log ++ moments.filterMap Moment.keeps⟩

theorem recorded_of_eq_ok {step : Observed α} {c : Chronicle} {a : α} {t : Session} {moments : List Moment}
    (h : step c.session = (.ok a t, moments)) :
    step.recorded c = .ok a ⟨t, c.log ++ moments.filterMap Moment.keeps⟩ := by
  rw [recorded, h]

theorem recorded_of_eq_error {step : Observed α} {c : Chronicle} {e : Fault} {t : Session}
    {moments : List Moment} (h : step c.session = (.error e t, moments)) :
    step.recorded c = .error e ⟨t, c.log ++ moments.filterMap Moment.keeps⟩ := by
  rw [recorded, h]

theorem recorded_pure (a : α) : (pure a : Observed α).recorded = pure a := by
  funext c
  show EStateM.Result.ok a ⟨c.session, c.log ++ []⟩ = .ok a c
  rw [List.append_nil]

theorem recorded_bind (step : Observed α) (f : α → Observed β) :
    (step >>= f).recorded = step.recorded >>= fun a => (f a).recorded := by
  funext c
  obtain ⟨⟨result, moments⟩, hstep⟩ : ∃ outcome, step c.session = outcome := ⟨_, rfl⟩
  cases result with
  | error e t =>
    rw [bind_of_error (recorded_of_eq_error hstep), recorded_of_eq_error (bind_eq_of_error hstep)]
  | ok a t =>
    rw [bind_of_ok (recorded_of_eq_ok hstep)]
    obtain ⟨⟨next, more⟩, hnext⟩ : ∃ outcome, f a t = outcome := ⟨_, rfl⟩
    have hboth : (step >>= f) c.session = (next, moments ++ more) := by rw [bind_eq_of_ok hstep, hnext]
    cases next with
    | ok b u =>
      rw [recorded_of_eq_ok hboth, recorded_of_eq_ok (c := ⟨t, _⟩) hnext, List.filterMap_append,
        List.append_assoc]
    | error e u =>
      rw [recorded_of_eq_error hboth, recorded_of_eq_error (c := ⟨t, _⟩) hnext, List.filterMap_append,
        List.append_assoc]

/-- The log makes no difference to where a step leads. -/
theorem session_recorded (step : Observed α) (c : Chronicle) :
    unrecorded (step.recorded c) = (step c.session).1 := by
  unfold recorded
  obtain ⟨result, moments⟩ := step c.session
  cases result <;> rfl

/-- What a step with the log guarantees of the session is true of where the step leads. -/
theorem ends_of_recorded {step : Observed α} {c : Chronicle} {Q : α → Chronicle → Prop} {E : Chronicle → Prop}
    (h : Ensures step.recorded c Q E) :
    Ends (fun a t => ∃ log, Q a ⟨t, log⟩) (fun _ t => ∃ log, E ⟨t, log⟩) (step c.session).1 := by
  rw [← session_recorded step c]
  cases hstep : step.recorded c with
  | ok a c' => exact ⟨c'.log, h.ok hstep⟩
  | error e c' => exact ⟨c'.log, h.error hstep⟩

theorem session_stateAfter {step : Observed α} {plain : Make α} {c : Chronicle}
    (h : (step c.session).1 = plain c.session) :
    (stateAfter step.recorded c).session = stateAfter plain c.session := by
  rw [stateAfter, stateAfter, ← h, ← session_recorded step c]
  cases step.recorded c <;> rfl

end Observed

/-! ## Claims about steps with the log -/

/-- From `c`, and if all moments of the step have `U`, the step with the log succeeds with `Q` or fails
with `E`. -/
def Tracks {α : Type} (U : Moment → Prop) (step : Observed α) (c : Chronicle) (Q : α → Chronicle → Prop)
    (E : Chronicle → Prop) : Prop :=
  (∀ m ∈ (step c.session).2, U m) → Ensures step.recorded c Q E

namespace Tracks

variable {α β : Type} {U : Moment → Prop} {step : Observed α} {c : Chronicle} {depth : Nat}
  {Q : α → Chronicle → Prop} {E : Chronicle → Prop}

/-- Where nothing is asked of the moments, a step is as it is tracked. -/
theorem ensures (h : Tracks (fun _ => True) step c Q E) : Ensures step.recorded c Q E := h fun _ _ => trivial

theorem pure {a : α} (h : Q a c) : Tracks U (Pure.pure a) c Q E := by
  intro _
  rw [Observed.recorded_pure]
  exact .pure h

theorem mono {Q' : α → Chronicle → Prop} {E' : Chronicle → Prop} (h : Tracks U step c Q E)
    (hQ : ∀ a c', Q a c' → Q' a c') (hE : ∀ c', E c' → E' c') : Tracks U step c Q' E' :=
  fun hU => (h hU).mono hQ hE

theorem bind {f : α → Observed β} {Q' : β → Chronicle → Prop} (h : Tracks U step c Q E)
    (hf : ∀ a c', Q a c' → Tracks U (f a) c' Q' E) : Tracks U (step >>= f) c Q' E := by
  intro hU
  rw [Observed.recorded_bind]
  obtain ⟨⟨result, moments⟩, hstep⟩ : ∃ outcome, step c.session = outcome := ⟨_, rfl⟩
  rw [Tracks, hstep] at h
  cases result with
  | ok a t =>
    rw [Observed.bind_eq_of_ok hstep] at hU
    have hfirst := h fun m hm => hU m (List.mem_append_left _ hm)
    have hrun := Observed.recorded_of_eq_ok hstep
    exact .of_eq (bind_of_ok hrun)
      (hf a _ (hfirst.ok hrun) fun m hm => hU m (List.mem_append_right _ hm))
  | error e t =>
    rw [Observed.bind_eq_of_error hstep] at hU
    have hrun := Observed.recorded_of_eq_error hstep
    exact .of_eq_error (bind_of_error hrun) ((h hU).error hrun)

/-- A single step that keeps no module is claimed at the moment at which it is passed. -/
theorem of_eq {plain : Make α} {m : Moment} (hstep : step c.session = (plain c.session, [m]))
    (hkeeps : m.keeps = none) {Q : α → Session → Prop} {E : Session → Prop}
    (h : U m → Ensures plain c.session Q E) :
    Tracks U step c (fun a c' => ∃ t, c' = ⟨t, c.log⟩ ∧ Q a t) fun c' => ∃ t, c' = ⟨t, c.log⟩ ∧ E t := by
  intro hU
  rw [hstep] at hU
  have hends := h (hU m List.mem_cons_self)
  have hlog : c.log ++ [m].filterMap Moment.keeps = c.log := by simp [hkeeps]
  cases hplain : plain c.session with
  | ok a t =>
    refine .of_eq_ok (a := a) (t := ⟨t, c.log⟩) ?_ ⟨t, rfl, hends.ok hplain⟩
    rw [Observed.recorded_of_eq_ok (hplain ▸ hstep), hlog]
  | error e t =>
    refine .of_eq_error (e := e) (t := ⟨t, c.log⟩) ?_ ⟨t, rfl, hends.error hplain⟩
    rw [Observed.recorded_of_eq_error (hplain ▸ hstep), hlog]

theorem ofMake {plain : Make α} {Q : α → Session → Prop} {E : Session → Prop}
    (h : Ensures plain c.session Q E) :
    Tracks U (Observed.ofMake depth plain) c (fun a c' => ∃ t, c' = ⟨t, c.log⟩ ∧ Q a t)
      fun c' => ∃ t, c' = ⟨t, c.log⟩ ∧ E t :=
  of_eq rfl rfl fun _ => h

theorem throw {e : Fault} (h : E c) : Tracks U (Observed.ofMake depth (throw e)) c Q E := by
  refine (ofMake (Q := fun _ _ => False) (E := (· = c.session)) (.throw rfl)).mono ?_ ?_
  · rintro _ _ ⟨_, -, hfalse⟩
    exact hfalse.elim
  · rintro _ ⟨_, rfl, rfl⟩
    exact h

/-- A module that is kept is added to the session and to the log. -/
theorem keep {r : Record} {Q : Unit → Chronicle → Prop}
    (h : Q () ⟨c.session.keep r.output r.entry.2, c.log ++ [r]⟩) :
    Tracks U (Observed.keep depth r) c Q E :=
  fun _ => .of_eq_ok rfl h

/-- The source is on the stack while the step runs, and off it afterwards. -/
theorem whileResolving {source : Path}
    (h : Tracks U step ⟨c.session.push source, c.log⟩ (fun a t => Q a ⟨t.session.pop, t.log⟩)
      fun t => E ⟨t.session.pop, t.log⟩) :
    Tracks U (Observed.whileResolving source step) c Q E := by
  intro hU
  have hrun := Observed.whileResolving_eq source step c.session
  rw [hrun] at hU
  have hends := h hU
  obtain ⟨⟨result, moments⟩, hstep⟩ : ∃ outcome, step (c.session.push source) = outcome := ⟨_, rfl⟩
  rw [hstep] at hrun
  cases result with
  | ok a t =>
    exact .of_eq_ok (Observed.recorded_of_eq_ok hrun)
      (hends.ok (Observed.recorded_of_eq_ok (c := ⟨_, c.log⟩) hstep))
  | error e t =>
    exact .of_eq_error (Observed.recorded_of_eq_error hrun)
      (hends.error (Observed.recorded_of_eq_error (c := ⟨_, c.log⟩) hstep))

end Tracks

/-! ## Orders -/

/-- A document to make a module of: with the text of the path that it comes from, and that of the
directory that the module shall go to. -/
structure Order where
  document : Value
  source : String
  outputDirectory : Option String

/-- A session in which nothing has been made, of a project with a fixed root. -/
def Session.fresh (settings : Settings) (root : String) (disk : Disk) : Session :=
  { settings, locator := .fixed (.ofString root), disk }

/-- An order is carried out. -/
def Order.make (o : Order) : Make Path :=
  Make.testcase o.document (.ofString o.source) (o.outputDirectory.map .ofString)

/-- An order is carried out, with the moments that it passes. -/
def Order.observed (o : Order) : Observed Path :=
  Observed.testcase o.document (.ofString o.source) (o.outputDirectory.map .ofString)

theorem Order.observed_fst (o : Order) (s : Session) : (o.observed s).1 = o.make s :=
  Observed.testcase_fst o.document _ _ s

/-- An order is carried out and recorded. -/
def Order.record (o : Order) : Recorded Path := o.observed.recorded

/-- The session after some orders, those that failed among them. -/
def Session.after (s : Session) (orders : List Order) : Session :=
  orders.foldl (fun s o => stateAfter o.make s) s

/-- The session and its log after some orders, those that failed among them. -/
def Chronicle.after (c : Chronicle) (orders : List Order) : Chronicle :=
  orders.foldl (fun c o => stateAfter o.record c) c

theorem Order.session_stateAfter (o : Order) (c : Chronicle) :
    (stateAfter o.record c).session = stateAfter o.make c.session :=
  Observed.session_stateAfter (o.observed_fst c.session)

/-- The log makes no difference to the session. -/
theorem Chronicle.session_after (c : Chronicle) (orders : List Order) :
    (c.after orders).session = c.session.after orders := by
  induction orders generalizing c with
  | nil => rfl
  | cons o orders ih =>
    calc (c.after (o :: orders)).session = ((stateAfter o.record c).after orders).session := rfl
      _ = (stateAfter o.record c).session.after orders := ih _
      _ = (stateAfter o.make c.session).after orders := congrArg (·.after orders) (o.session_stateAfter c)
      _ = c.session.after (o :: orders) := rfl

end TestScribe
