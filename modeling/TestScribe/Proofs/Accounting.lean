/-
# How a batch accounts for its files

A batch gives each file its turn, one after the other.  A file that is a module already is run, a document that
is made has its module run, and a document that cannot be loaded or is refused is skipped; any other failure ends
the batch.  What is run and what is skipped can be read off the turns, since making a document adds nothing to
the files to run.

* `Spares`, `Make.spares_testcase` : making a document leaves the settings and the files to run as they are;
* `Batch.testcase_of_unusable?` : a document that shows at once that it cannot be used is refused when it is made;
* `Batch.Turn`, `Batch.Accounted` : the turn of a file, and what becomes of the file in it;
* `Batch.batch_accounts_for_files` : the turns of an argument, and how it ends.
-/
import TestScribe.Proofs.Batches
import TestScribe.Proofs.Stepwise

namespace TestScribe

/-! ## What making leaves alone -/

/-- The settings and the files to run are the same. -/
structure Spares (s t : Session) : Prop where
  settings : t.settings = s.settings
  runSet : t.runSet = s.runSet

/-- Making a document leaves the settings and the files to run as they are. -/
theorem Make.spares_testcase (raw : Value) (source : Path) (outputDirectory : Option Path) (s : Session) :
    Ends (fun _ => Spares s) (fun _ => Spares s) (testcase raw source outputDirectory s) := by
  have hrun : Ensures (Observed.testcase raw source outputDirectory).recorded ⟨s, []⟩ _ _ :=
    (stepwise_true.tracks_testcase trivial raw outputDirectory trivial).ensures
  have hends := Observed.ends_of_recorded hrun
  rw [Observed.testcase_fst] at hends
  cases hrun : testcase raw source outputDirectory s with
  | ok output t =>
    rw [hrun] at hends
    obtain ⟨log, honward, -⟩ := hends
    exact ⟨honward.settings, honward.runSet⟩
  | error e t =>
    rw [hrun] at hends
    obtain ⟨log, honward⟩ := hends
    exact ⟨honward.settings, honward.runSet⟩

namespace Batch

/-! ## Documents that are refused -/

/-- A document that shows at once that it cannot be used cannot be brought into the current shape. -/
theorem exists_normalize_eq_error {content : Value} {reason : String}
    (h : unusable? content = some reason) : ∃ fault, Legacy.normalize content = .error fault := by
  cases content with
  | mapping m =>
    rw [unusable?] at h
    split at h
    · cases h
    · next hapi =>
      rw [Legacy.normalize, if_neg hapi]
      cases hconfig : Mapping.get? "config" m with
      | none => exact ⟨.missingConfig, by simp [hconfig, bind, Except.bind]⟩
      | some v =>
        rw [hconfig] at h
        cases v with
        | mapping entries => cases h
        | _ => exact ⟨.configNotMapping _, by simp only [hconfig, bind, Except.bind]; rfl⟩
  | _ => exact ⟨_, rfl⟩

/-- A document that shows at once that it cannot be used is refused when it is made, and nothing changes. -/
theorem testcase_of_unusable? {content : Value} {reason : String} (h : unusable? content = some reason)
    (p : Path) (outputDirectory : Option Path) (s : Session) :
    ∃ fault, Make.testcase content p outputDirectory s = .error (.schema fault) s := by
  obtain ⟨fault, hfault⟩ := exists_normalize_eq_error h
  refine ⟨fault, ?_⟩
  show Make.testcaseWith _ content p outputDirectory s = _
  unfold Make.testcaseWith
  rw [hfault]
  rfl

/-! ## Turns -/

/-- The turn of a file: the session before it, what becomes of the file, and the session after that. -/
structure Turn where
  file : Path
  before : Session
  outcome : Outcome
  after : Session

namespace Turn

/-- The path that is run for a file. -/
def runs? (turn : Turn) : Option Path :=
  match turn.outcome with
  | .run q => some q
  | .skip _ => none

/-- What is reported of a file that is skipped. -/
def skips? (turn : Turn) : Option Skip :=
  match turn.outcome with
  | .run _ => none
  | .skip reason => some ⟨turn.file, reason⟩

/-- The session with which the next turn begins. -/
def next (turn : Turn) : Session :=
  match turn.outcome with
  | .run q => turn.after.addToRun q
  | .skip _ => turn.after

end Turn

/-- Turns lead from one session to another. -/
def Leads (s : Session) : List Turn → Session → Prop
  | [], t => s = t
  | turn :: rest, t => turn.before = s ∧ Leads turn.next rest t

section Turns

variable (outputDirectory : Option Path)

/-- A file gives a fault for which it is skipped: it cannot be loaded, or making its content in this session is
refused. -/
def Refuses (s : Session) (p : Path) (e : Fault) (t : Session) : Prop :=
  (Source.load s.disk p = .error e ∧ e.isLoadFault = true ∧ t = s) ∨
    ∃ content, Source.load s.disk p = .ok content ∧
      Make.testcase content p outputDirectory s = .error e t ∧ e.isRecoverable = true

/-- What becomes of a file in its turn: it is a module and is run, its module is made and is run, or it is
skipped for its fault or for what shows at once. -/
inductive Accounted : Turn → Prop
  | listed {s : Session} {p : Path} : isGenerated s.settings.generatedSuffix p = true →
    Accounted ⟨p, s, .run p, s⟩
  | made {s t : Session} {p q : Path} {content : Value} :
    isGenerated s.settings.generatedSuffix p = false → Source.load s.disk p = .ok content →
    Make.testcase content p outputDirectory s = .ok q t → Accounted ⟨p, s, .run q, t⟩
  | skipped {s t : Session} {p : Path} {e : Fault} {reason : String} :
    isGenerated s.settings.generatedSuffix p = false → Refuses outputDirectory s p e t →
    (reason = e.message ∨
      ∃ content, Source.load s.disk p = .ok content ∧ unusable? content = some reason) →
    Accounted ⟨p, s, .skip reason, t⟩

/-- A file ends the batch: loading it or making it fails, and not with a fault for which it is skipped. -/
def EndsBatch (s : Session) (p : Path) (e : Fault) (t : Session) : Prop :=
  isGenerated s.settings.generatedSuffix p = false ∧
    ((Source.load s.disk p = .error e ∧ e.isLoadFault = false ∧ t = s) ∨
      ∃ content, Source.load s.disk p = .ok content ∧
        Make.testcase content p outputDirectory s = .error e t ∧ e.isRecoverable = false)

end Turns

section Turns

variable {outputDirectory : Option Path} {s t u : Session} {turn : Turn} {turns : List Turn}

/-- A file is accounted for in its turn, or ends the batch. -/
theorem accounted_outcome (outputDirectory : Option Path) (p : Path) (s : Session) :
    Ends (fun o t => Accounted outputDirectory ⟨p, s, o, t⟩) (EndsBatch outputDirectory s p)
      (outcome p outputDirectory s) := by
  cases hgenerated : isGenerated s.settings.generatedSuffix p with
  | true =>
    rw [outcome_of_isGenerated hgenerated]
    exact .listed hgenerated
  | false =>
    rw [outcome_eq hgenerated]
    cases hload : Source.load s.disk p with
    | error e =>
      dsimp only
      split
      · next hfault => exact .skipped hgenerated (.inl ⟨hload, hfault, rfl⟩) (.inl rfl)
      · next hfatal => exact ⟨hgenerated, .inl ⟨hload, by simpa using hfatal, rfl⟩⟩
    | ok content =>
      dsimp only
      cases hunusable : unusable? content with
      | some reason =>
        obtain ⟨fault, hfault⟩ := testcase_of_unusable? hunusable p outputDirectory s
        exact .skipped hgenerated (.inr ⟨content, hload, hfault, rfl⟩) (.inr ⟨content, hload, hunusable⟩)
      | none =>
        dsimp only
        cases hmake : Make.testcase content p outputDirectory s with
        | ok q t => exact .made hgenerated hload hmake
        | error e t =>
          dsimp only
          split
          · next hrecoverable =>
            exact .skipped hgenerated (.inr ⟨content, hload, hmake, hrecoverable⟩) (.inl rfl)
          · next hfatal => exact ⟨hgenerated, .inr ⟨content, hload, hmake, by simpa using hfatal⟩⟩

/-- A file is skipped exactly when it is no module and cannot be loaded or is refused. -/
theorem Accounted.skips_iff (h : Accounted outputDirectory turn) :
    (∃ reason, turn.outcome = .skip reason) ↔
      isGenerated turn.before.settings.generatedSuffix turn.file = false ∧
      ∃ e t, Refuses outputDirectory turn.before turn.file e t := by
  constructor
  · rintro ⟨reason, hskip⟩
    cases h with
    | listed | made => cases hskip
    | skipped hgenerated hrefuses _ => exact ⟨hgenerated, _, _, hrefuses⟩
  · rintro ⟨hother, e, t, hrefuses⟩
    cases h with
    | listed hgenerated =>
      rw [hgenerated] at hother
      cases hother
    | made _ hload hmake =>
      rcases hrefuses with ⟨hfault, -⟩ | ⟨content, hload', hfault, -⟩
      · rw [hload] at hfault
        cases hfault
      · rw [hload] at hload'
        cases hload'
        rw [hmake] at hfault
        cases hfault
    | skipped => exact ⟨_, rfl⟩

/-- Before it adds to them, a turn leaves the settings and the files to run as they are. -/
theorem Accounted.spares (h : Accounted outputDirectory turn) : Spares turn.before turn.after := by
  cases h with
  | listed => exact ⟨rfl, rfl⟩
  | @made s t p q content _ _ hmake =>
    have hspares := Make.spares_testcase content p outputDirectory s
    rw [hmake] at hspares
    exact hspares
  | @skipped s t p e reason _ hrefuses _ =>
    rcases hrefuses with ⟨-, -, rfl⟩ | ⟨content, -, hmake, -⟩
    · exact ⟨rfl, rfl⟩
    · have hspares := Make.spares_testcase content p outputDirectory s
      rw [hmake] at hspares
      exact hspares

/-- One more path, unless it is there already. -/
def addNew (paths : List Path) (p : Path) : List Path := if paths.any (·.same p) then paths else paths ++ [p]

theorem runSet_addToRun (s : Session) (p : Path) : (s.addToRun p).runSet = addNew s.runSet p := by
  unfold Session.addToRun addNew
  split <;> rfl

theorem settings_addToRun (s : Session) (p : Path) : (s.addToRun p).settings = s.settings := by
  obtain ⟨runSet, hrun⟩ := s.exists_addToRun p
  rw [hrun]

theorem Accounted.next (h : Accounted outputDirectory turn) :
    turn.next.settings = turn.before.settings ∧
      turn.next.runSet = turn.runs?.toList.foldl addNew turn.before.runSet := by
  have hspares := h.spares
  unfold Turn.next Turn.runs?
  cases turn.outcome with
  | run q =>
    dsimp only
    rw [settings_addToRun, runSet_addToRun, hspares.settings, hspares.runSet]
    exact ⟨rfl, rfl⟩
  | skip reason => exact ⟨hspares.settings, hspares.runSet⟩

/-- What is added to the files to run can be read off the turns. -/
theorem Leads.runSet_eq (h : Leads s turns t) (hturns : ∀ turn ∈ turns, Accounted outputDirectory turn) :
    (∀ turn ∈ turns, turn.before.settings = s.settings) ∧
      t.runSet = (turns.filterMap Turn.runs?).foldl addNew s.runSet := by
  induction turns generalizing s with
  | nil =>
    obtain rfl : s = t := h
    exact ⟨by simp, rfl⟩
  | cons turn rest ih =>
    obtain ⟨rfl, hrest⟩ := h
    obtain ⟨hfirst, hturns⟩ := List.forall_mem_cons.1 hturns
    obtain ⟨hsettings, hrunSet⟩ := hfirst.next
    obtain ⟨hall, hlast⟩ := ih hrest hturns
    rw [hsettings] at hall
    refine ⟨List.forall_mem_cons.2 ⟨rfl, hall⟩, ?_⟩
    rw [hlast, hrunSet, List.filterMap_cons]
    cases turn.runs? <;> rfl

/-- One file after the other is accounted for, until one ends the batch. -/
theorem exists_turns (outputDirectory : Option Path) (found : List Path) (s : Session) (skipped : List Skip) :
    ∃ turns u, Leads s turns u ∧ (∀ turn ∈ turns, Accounted outputDirectory turn) ∧
      ((turns.map Turn.file = found ∧
        files outputDirectory found (s, skipped) = .ok () (u, skipped ++ turns.filterMap Turn.skips?)) ∨
      ∃ p rest e t, found = turns.map Turn.file ++ p :: rest ∧ EndsBatch outputDirectory u p e t ∧
        files outputDirectory found (s, skipped) = .error e (t, skipped ++ turns.filterMap Turn.skips?)) := by
  induction found generalizing s skipped with
  | nil => exact ⟨[], s, rfl, by simp, .inl ⟨rfl, by simp [files]; rfl⟩⟩
  | cons p found ih =>
    have haccounted := accounted_outcome outputDirectory p s
    have hfile := file_eq outputDirectory p s skipped
    cases houtcome : outcome p outputDirectory s with
    | error e t =>
      rw [houtcome] at haccounted hfile
      refine ⟨[], s, rfl, by simp, .inr ⟨p, found, e, t, rfl, haccounted, ?_⟩⟩
      rw [files, bind_of_error hfile]
      simp
    | ok o t =>
      rw [houtcome] at haccounted hfile
      set turn : Turn := ⟨p, s, o, t⟩ with hturn
      -- the turn of the file leads to where the others begin
      have hstep : file outputDirectory p (s, skipped)
          = .ok () (turn.next, skipped ++ turn.skips?.toList) := by
        rw [hfile]
        cases o with
        | run q =>
          show EStateM.Result.ok () (t.addToRun q, skipped) = .ok () (t.addToRun q, skipped ++ [])
          rw [List.append_nil]
        | skip reason => rfl
      obtain ⟨turns, u, hleads, hturns, hrest⟩ := ih turn.next (skipped ++ turn.skips?.toList)
      have hskips : skipped ++ turn.skips?.toList ++ turns.filterMap Turn.skips?
          = skipped ++ (turn :: turns).filterMap Turn.skips? := by
        rw [List.append_assoc, List.filterMap_cons]
        cases turn.skips? <;> rfl
      rw [hskips] at hrest
      refine ⟨turn :: turns, u, ⟨rfl, hleads⟩, List.forall_mem_cons.2 ⟨haccounted, hturns⟩, ?_⟩
      rw [files, bind_of_ok hstep]
      rcases hrest with ⟨rfl, hfiles⟩ | ⟨q, rest, e, v, rfl, hends, hfiles⟩
      · exact .inl ⟨rfl, hfiles⟩
      · exact .inr ⟨q, rest, e, v, rfl, hends, hfiles⟩

end Turns

/-- **A batch accounts for every file.**  For every session and every argument of a batch, with what was skipped
before it:

* An argument that is neither a file nor a folder is a fault, and nothing changes.
* Otherwise its files have their turns in order.  In its turn, a file that ends in the suffix of modules is run as
  it is, and another one is made and its module is run, or it is skipped; it is skipped exactly when it cannot be
  loaded or when making its content in the session of its turn is refused.
* The files to run are those from before, with the paths that are run for the turns, and no others; what was
  skipped is added in order, each file once.
* Either all files have had their turns, and the argument succeeds; or the next file is one whose loading or making
  fails for another reason, such as a disk that does not give its content, and the argument fails with that
  fault. -/
theorem batch_accounts_for_files (outputDirectory : Option Path) (p : Path) (s : Session)
    (skipped : List Skip) :
    (filesOf? s p = none →
      argument outputDirectory p (s, skipped) = .error (.missing (.argument p)) (s, skipped)) ∧
    ∀ found, filesOf? s p = some found →
      ∃ turns u, Leads s turns u ∧
        (∀ turn ∈ turns, turn.before.settings = s.settings ∧ Accounted outputDirectory turn ∧
          ((∃ reason, turn.outcome = .skip reason) ↔
            isGenerated s.settings.generatedSuffix turn.file = false ∧
            ∃ e t, Refuses outputDirectory turn.before turn.file e t)) ∧
        u.runSet = (turns.filterMap Turn.runs?).foldl addNew s.runSet ∧
        ((turns.map Turn.file = found ∧ argument outputDirectory p (s, skipped)
            = .ok () (u, skipped ++ turns.filterMap Turn.skips?)) ∨
          ∃ q rest e t, found = turns.map Turn.file ++ q :: rest ∧ EndsBatch outputDirectory u q e t ∧
            t.runSet = u.runSet ∧ argument outputDirectory p (s, skipped)
              = .error e (t, skipped ++ turns.filterMap Turn.skips?)) := by
  constructor
  · intro hnone
    unfold argument
    rw [bind_get, hnone]
    rfl
  · intro found hfound
    have hargument : argument outputDirectory p (s, skipped) = files outputDirectory found (s, skipped) := by
      unfold argument
      rw [bind_get, hfound]
    rw [hargument]
    obtain ⟨turns, u, hleads, hturns, hends⟩ := exists_turns outputDirectory found s skipped
    obtain ⟨hsettings, hrunSet⟩ := hleads.runSet_eq hturns
    refine ⟨turns, u, hleads, fun turn hturn => ⟨hsettings turn hturn, hturns turn hturn, ?_⟩, hrunSet, ?_⟩
    · rw [← hsettings turn hturn]
      exact (hturns turn hturn).skips_iff
    · refine hends.imp_right ?_
      rintro ⟨q, rest, e, t, hfound, hfatal, hfiles⟩
      refine ⟨q, rest, e, t, hfound, hfatal, ?_, hfiles⟩
      obtain ⟨-, ⟨-, -, rfl⟩ | ⟨content, -, hmake, -⟩⟩ := hfatal
      · rfl
      · have hspares := Make.spares_testcase content q outputDirectory u
        rw [hmake] at hspares
        exact hspares.runSet

/-- A project with a folder that has a testcase, a document that is no testcase, and a module; the testcase calls
one outside the folder. -/
def mixedFolder : Disk :=
  ⟨[("p", .directory [
    ("c.json", .file "\x7b\"config\": \x7b\"name\": \"c\"\x7d, \"teststeps\": []\x7d".toUTF8),
    ("t", .directory [
      ("a.json", .file ("\x7b\"config\": \x7b\"name\": \"a\"\x7d, \"teststeps\": " ++
        "[\x7b\"name\": \"call\", \"testcase\": \"c.json\"\x7d]\x7d").toUTF8),
      ("b.json", .file "[1]".toUTF8),
      ("d_test.py", .file "".toUTF8)])])], [], []⟩

/-- A document is skipped and a module run; where the document cannot be read, the batch ends with it. -/
theorem batch_accounts_for_files_mixed :
    let s : Session := { settings := {}, locator := .fixed (.ofString "/p"), disk := mixedFolder }
    let hidden := { s with disk := { mixedFolder with outages := [.unreadable ["p", "t", "b.json"]] } }
    (∃ t, argument none (.ofString "/p/t") (hidden, []) = .error (.disk (.device (.ofString "/p/t/b.json"))) t ∧
      t.1.runSet.map Path.text = ["/p/t/a_test.py"] ∧ t.2 = []) ∧
    ∃ found turns u, filesOf? s (.ofString "/p/t") = some found ∧
      found.map Path.text = ["/p/t/a.json", "/p/t/b.json", "/p/t/d_test.py"] ∧ Leads s turns u ∧
      (∀ turn ∈ turns, Accounted none turn) ∧ turns.map Turn.file = found ∧
      argument none (.ofString "/p/t") (s, []) = .ok () (u, turns.filterMap Turn.skips?) ∧
      u.runSet.map Path.text = ["/p/t/a_test.py", "/p/t/d_test.py"] ∧
      (turns.filterMap Turn.skips?).map (fun skip => (skip.file.text, skip.reason))
        = [("/p/t/b.json", "Invalid content, should be a mapping")] := by
  intro s hidden
  have hhidden : fails (fun e t => decide (e = .disk (.device (.ofString "/p/t/b.json")) ∧
      t.1.runSet.map Path.text = ["/p/t/a_test.py"] ∧ t.2 = []))
      (argument none (.ofString "/p/t") (hidden, [])) = true := by
    decide +kernel
  obtain ⟨_, t', hfails, htest'⟩ := exists_of_fails hhidden
  obtain ⟨rfl, hbefore⟩ := of_decide_eq_true htest'
  refine ⟨⟨t', hfails, hbefore⟩, ?_⟩
  have hrun : passes (fun _ t => decide (t.1.runSet.map Path.text = ["/p/t/a_test.py", "/p/t/d_test.py"] ∧
      t.2.map (fun skip => (skip.file.text, skip.reason))
        = [("/p/t/b.json", "Invalid content, should be a mapping")]))
      (argument none (.ofString "/p/t") (s, [])) = true := by
    decide +kernel
  obtain ⟨_, t, hargument, htest⟩ := exists_of_passes hrun
  obtain ⟨hrunSet, hskips⟩ := of_decide_eq_true htest
  have hfiles : (filesOf? s (.ofString "/p/t")).map (List.map Path.text)
      = some ["/p/t/a.json", "/p/t/b.json", "/p/t/d_test.py"] := by
    decide +kernel
  obtain ⟨found, hfound, htexts⟩ := Option.map_eq_some_iff.1 hfiles
  obtain ⟨turns, u, hleads, hturns, -, hends⟩ :=
    (batch_accounts_for_files none (.ofString "/p/t") s []).2 found hfound
  rcases hends with ⟨hall, hok⟩ | ⟨_, _, e, _, -, -, -, herror⟩
  · rw [List.nil_append] at hok
    obtain rfl : (u, turns.filterMap Turn.skips?) = t := by
      rw [hargument] at hok
      cases hok
      rfl
    exact ⟨found, turns, u, hfound, htexts, hleads, fun turn hturn => (hturns turn hturn).2.1, hall, hok,
      hrunSet, hskips⟩
  · rw [hargument] at herror
    cases herror

end Batch

end TestScribe
