/-
# What batches do

A batch goes through its arguments, and through the files of those that are folders.  Whatever making one
document extends, and adding one file to those to run, is extended by the whole batch, whether it succeeds
or fails.

* `Batch.file_eq`, `Batch.outcome_eq` : what becomes of a file;
* `Batch.Carries` : a relation between sessions that each step of a batch extends;
* `Batch.Carries.arguments`, `Batch.Carries.gathered` : so does going through all arguments;
* `Batch.run_eq`, `Batch.ensures_run` : a batch by its parts.
-/
import TestScribe.Batch
import TestScribe.Proofs.Course
import TestScribe.Proofs.Path

namespace TestScribe

/-! ## Files to run -/

namespace Session

variable {s : Session} {p : Path}

theorem exists_addToRun (s : Session) (p : Path) : ∃ runSet, s.addToRun p = { s with runSet } := by
  unfold addToRun
  split
  · exact ⟨s.runSet, rfl⟩
  · exact ⟨_, rfl⟩

/-- Where no other path is the same, a path is added to those to run. -/
theorem mem_addToRun (h : ∀ q ∈ s.runSet, q.same p → q = p) (q : Path) :
    q ∈ (s.addToRun p).runSet ↔ q ∈ s.runSet ∨ q = p := by
  unfold addToRun
  split
  · next hany =>
    obtain ⟨r, hr, hsame⟩ := List.any_eq_true.1 hany
    obtain rfl := h r hr hsame
    exact ⟨.inl, fun hq => hq.elim id fun hq => hq ▸ hr⟩
  · rw [List.mem_append, List.mem_singleton]

end Session

/-! ## Files of a folder -/

namespace Entry

mutual

theorem isPlain_of_mem_files {path p : Path} (hpath : path.IsPlain) :
    ∀ e : Entry, p ∈ files path e → p.IsPlain
  | .file _, h => by
    rw [files, List.mem_singleton] at h
    exact h ▸ hpath
  | .directory entries, h => by
    rw [files] at h
    exact isPlain_of_mem_filesOf hpath entries h

theorem isPlain_of_mem_filesOf {path p : Path} (hpath : path.IsPlain) :
    ∀ entries : List (String × Entry), p ∈ filesOf path entries → p.IsPlain
  | [], h => by
    rw [filesOf] at h
    cases h
  | (name, e) :: rest, h => by
    rw [filesOf, List.mem_append] at h
    rcases h with h | h
    · exact isPlain_of_mem_files (Path.isPlain_child hpath name) e h
    · exact isPlain_of_mem_filesOf hpath rest h

end

end Entry

namespace Batch

variable {s t : Session} {p q : Path} {outputDirectory : Option Path} {skipped : List Skip}

/-- The files of an argument have no slash in their pieces. -/
theorem isPlain_of_mem_filesOf? {found : List Path} (hp : p.IsPlain) (h : filesOf? s p = some found)
    (hq : q ∈ found) : q.IsPlain := by
  unfold filesOf? at h
  split at h
  · obtain rfl := Option.some.inj h
    have hbelow : q ∈ s.disk.filesBelow p := List.mem_of_mem_filter hq
    unfold Disk.filesBelow at hbelow
    split at hbelow
    · exact Entry.isPlain_of_mem_files hp _ hbelow
    · cases hbelow
  · split at h
    · obtain rfl := Option.some.inj h
      rw [List.mem_singleton.1 hq]
      exact hp
    · cases h

theorem isPlain_absolute (hworking : s.disk.currentPath.IsPlain) (hp : p.IsPlain) :
    (absolute s.disk p).IsPlain :=
  Path.isPlain_normalize (Path.isPlain_join hworking hp)

/-! ## What becomes of a file -/

/-- What becomes of a file, by its outcome. -/
theorem file_eq (outputDirectory : Option Path) (p : Path) (s : Session) (skipped : List Skip) :
    file outputDirectory p (s, skipped) = match outcome p outputDirectory s with
      | .ok (.run q) t => .ok () (t.addToRun q, skipped)
      | .ok (.skip reason) t => .ok () (t, skipped ++ [⟨p, reason⟩])
      | .error e t => .error e (t, skipped) := by
  unfold file
  cases houtcome : outcome p outputDirectory s with
  | ok o t =>
    have hlift : lift (outcome p outputDirectory) (s, skipped) = .ok o (t, skipped) := by
      rw [lift, houtcome]
    rw [bind_of_ok hlift]
    cases o <;> rfl
  | error e t =>
    have hlift : lift (outcome p outputDirectory) (s, skipped) = .error e (t, skipped) := by
      rw [lift, houtcome]
    rw [bind_of_error hlift]

/-- A generated module is run as it is. -/
theorem outcome_of_isGenerated (h : isGenerated s.settings.generatedSuffix p = true) :
    outcome p outputDirectory s = .ok (.run p) s := by
  unfold outcome
  rw [bind_get, if_pos h]
  rfl

/-- What becomes of a file that is no generated module: nothing, or what comes of making it. -/
theorem outcome_eq (h : isGenerated s.settings.generatedSuffix p = false) :
    outcome p outputDirectory s = match Source.load s.disk p with
      | .error fault => if fault.isLoadFault then .ok (.skip fault.message) s else .error fault s
      | .ok content => match unusable? content with
        | some reason => .ok (.skip reason) s
        | none => match Make.testcase content p outputDirectory s with
          | .ok q t => .ok (.run q) t
          | .error fault t => if fault.isRecoverable then .ok (.skip fault.message) t else .error fault t := by
  unfold outcome
  rw [bind_get, if_neg (by simp [h])]
  cases Source.load s.disk p with
  | error fault =>
    dsimp only
    split <;> rfl
  | ok content =>
    dsimp only
    rw [documentOutcome]
    cases unusable? content with
    | some reason => rfl
    | none =>
      dsimp only
      rw [orSkip]
      cases hmake : Make.testcase content p outputDirectory s with
      | ok q t =>
        have hrun : (do return Outcome.run (← Make.testcase content p outputDirectory) : Make Outcome) s
            = .ok (.run q) t := by
          rw [bind_of_ok hmake]
          rfl
        rw [hrun]
      | error fault t =>
        have hrun : (do return Outcome.run (← Make.testcase content p outputDirectory) : Make Outcome) s
            = .error fault t := by
          rw [bind_of_error hmake]
        rw [hrun]

/-! ## What a batch extends -/

/-- A relation between sessions that each step of a batch extends, where the arguments have `A`: making a
file and adding its module to those to run, and adding a generated module that is listed for an argument. -/
structure Carries (outputDirectory : Option Path) (A : Path → Prop) (R : Session → Session → Prop) :
    Prop where
  plain : ∀ {p}, A p → p.IsPlain
  refl : ∀ s, R s s
  trans : ∀ {s t u}, R s t → R t u → R s u
  make : ∀ (s : Session) (content : Value) (p : Path), p.IsPlain →
    Ends (fun q t => R s (t.addToRun q)) (fun _ => R s) (Make.testcase content p outputDirectory s)
  listed : ∀ {s t : Session} {p : Path} {found : List Path} {q : Path}, A p → filesOf? s p = some found →
    q ∈ found → R s t → isGenerated t.settings.generatedSuffix q = true → R s (t.addToRun q)

/-- From one state of a batch to another: the relation holds of the sessions, and what was skipped stays
so. -/
structure Goes (R : Session → Session → Prop) (x y : Session × List Skip) : Prop where
  session : R x.1 y.1
  skipped : x.2 <+: y.2

namespace Carries

variable {A : Path → Prop} {R : Session → Session → Prop} (h : Carries outputDirectory A R)
  {w x y z : Session × List Skip}

include h

theorem goes_refl (x : Session × List Skip) : Goes R x x := ⟨h.refl x.1, List.prefix_rfl⟩

theorem goes_trans (hxy : Goes R x y) (hyz : Goes R y z) : Goes R x z :=
  ⟨h.trans hxy.session hyz.session, hxy.skipped.trans hyz.skipped⟩

/-- What becomes of a file that is no generated module extends the relation. -/
theorem outcome (hp : p.IsPlain) (hgenerated : isGenerated s.settings.generatedSuffix p = false) :
    Ends (fun o t => match o with
      | .run q => R s (t.addToRun q)
      | .skip _ => R s t) (fun _ => R s) (Batch.outcome p outputDirectory s) := by
  rw [outcome_eq hgenerated]
  cases Source.load s.disk p with
  | error fault =>
    dsimp only
    split
    · exact h.refl s
    · exact h.refl s
  | ok content =>
    dsimp only
    cases unusable? content with
    | some reason => exact h.refl s
    | none =>
      have hmake := h.make s content p hp
      dsimp only
      cases hresult : Make.testcase content p outputDirectory s with
      | ok q t =>
        rw [hresult] at hmake
        exact hmake
      | error fault t =>
        rw [hresult] at hmake
        dsimp only
        split
        · exact hmake
        · exact hmake

theorem file (hp : p.IsPlain) (hgoes : Goes R w x)
    (hlisted : isGenerated x.1.settings.generatedSuffix p = true → R w.1 (x.1.addToRun p)) :
    Ensures (Batch.file outputDirectory p) x (fun _ => Goes R w) (Goes R w) := by
  obtain ⟨s, skipped⟩ := x
  have hfile := file_eq outputDirectory p s skipped
  cases hgenerated : isGenerated s.settings.generatedSuffix p with
  | true =>
    rw [outcome_of_isGenerated hgenerated] at hfile
    exact .of_eq_ok hfile ⟨hlisted hgenerated, hgoes.skipped⟩
  | false =>
    have houtcome := h.outcome hp hgenerated
    cases hresult : Batch.outcome p outputDirectory s with
    | ok o t =>
      rw [hresult] at houtcome hfile
      cases o with
      | run q => exact .of_eq_ok hfile ⟨h.trans hgoes.session houtcome, hgoes.skipped⟩
      | skip reason =>
        exact .of_eq_ok hfile ⟨h.trans hgoes.session houtcome,
          hgoes.skipped.trans (List.prefix_append _ _)⟩
    | error e t =>
      rw [hresult] at houtcome hfile
      exact .of_eq_error hfile ⟨h.trans hgoes.session houtcome, hgoes.skipped⟩

/-- Files that are gone through one after the other keep to what each does. -/
theorem files {found : List Path} (hplain : ∀ q ∈ found, q.IsPlain)
    (hlisted : ∀ q ∈ found, ∀ t, R w.1 t → isGenerated t.settings.generatedSuffix q = true →
      R w.1 (t.addToRun q)) (hgoes : Goes R w x) :
    Ensures (Batch.files outputDirectory found) x (fun _ => Goes R w) (Goes R w) := by
  induction found generalizing x with
  | nil => exact .pure hgoes
  | cons q found ih =>
    obtain ⟨hq, hplain⟩ := List.forall_mem_cons.1 hplain
    obtain ⟨hlistedq, hlisted⟩ := List.forall_mem_cons.1 hlisted
    exact .bind (h.file hq hgoes (hlistedq x.1 hgoes.session)) fun _ y hy => ih hplain hlisted hy

/-- An argument keeps to what its files do. -/
theorem argument (hp : A p) :
    Ensures (Batch.argument outputDirectory p) x (fun _ => Goes R x) (Goes R x) := by
  refine .bind .get ?_
  rintro _ _ ⟨rfl, rfl⟩
  split
  · next found hfound =>
    exact h.files (fun q hq => isPlain_of_mem_filesOf? (h.plain hp) hfound hq)
      (fun q hq t => h.listed hp hfound hq) (h.goes_refl _)
  · exact .throw (h.goes_refl _)

/-- What each step of a batch extends is extended by the whole batch. -/
theorem arguments {inputs : List Path} (hinputs : ∀ p ∈ inputs, A p) :
    Ensures (Batch.arguments outputDirectory inputs) x (fun _ => Goes R x) (Goes R x) := by
  induction inputs generalizing x with
  | nil => exact .pure (h.goes_refl x)
  | cons p inputs ih =>
    refine .bind (h.argument (hinputs p List.mem_cons_self)) ?_
    intro _ y hxy
    exact (ih fun r hr => hinputs r (List.mem_cons_of_mem _ hr)).mono
      (fun _ _ hyz => h.goes_trans hxy hyz) fun _ hyz => h.goes_trans hxy hyz

end Carries

/-! ## A batch by its parts -/

/-- The arguments of a batch are gone through; the result is what was skipped. -/
def gathered (outputDirectory : Option Path) (inputs : List Path) : Make (List Skip) := fun s =>
  match arguments outputDirectory inputs (s, []) with
  | .ok _ (t, skipped) => .ok skipped t
  | .error e (t, _) => .error e t

/-- A batch prepares the output directory, goes through its arguments and formats what it has made. -/
theorem run_eq {inputs : List Path} (h : inputs ≠ []) (outputDirectory : Option Path)
    (formatter : Option Formatter) (s : Session) :
    run inputs outputDirectory formatter s = (do
      (outputDirectory.map (absolute s.disk)).forM (prepare (inputs.map (absolute s.disk)))
      let skipped ← gathered (outputDirectory.map (absolute s.disk)) (inputs.map (absolute s.disk))
      let generated := (← get).made.map Prod.fst
      formatter.forM (Make.format · generated)
      return { runSet := (← get).runSet, generated, skipped } : Make Report) s := by
  unfold run
  rw [if_neg (by simpa using h)]
  cases outputDirectory <;> cases formatter <;> rfl

theorem gathered_eq_ok_iff {inputs : List Path} :
    gathered outputDirectory inputs s = .ok skipped t ↔
      arguments outputDirectory inputs (s, []) = .ok () (t, skipped) := by
  unfold gathered
  constructor
  · intro h
    split at h
    · next harguments =>
      cases h
      exact harguments
    · cases h
  · intro h
    rw [h]

/-- What each step of a batch extends is extended by going through its arguments. -/
theorem Carries.gathered {A : Path → Prop} {R : Session → Session → Prop}
    (h : Carries outputDirectory A R) {inputs : List Path} (hinputs : ∀ p ∈ inputs, A p)
    (s : Session) : Ensures (Batch.gathered outputDirectory inputs) s (fun _ => R s) (R s) := by
  have harguments := h.arguments (x := (s, [])) hinputs
  cases hresult : Batch.arguments outputDirectory inputs (s, []) with
  | ok a y =>
    refine .of_eq_ok (a := y.2) (t := y.1) ?_ (harguments.ok hresult).session
    rw [Batch.gathered, hresult]
  | error e y =>
    refine .of_eq_error (e := e) (t := y.1) ?_ (harguments.error hresult).session
    rw [Batch.gathered, hresult]

/-- What a batch ensures, by its parts: the preparations, its arguments, and the formatter. -/
theorem ensures_run {inputs : List Path} (h : inputs ≠ []) {formatter : Option Formatter}
    {P : Session → Prop} {G : List Skip → Session → Prop} {Q : Report → Session → Prop}
    {E : Session → Prop}
    (hprepare : Ensures ((outputDirectory.map (absolute s.disk)).forM
      (prepare (inputs.map (absolute s.disk)))) s (fun _ => P) E)
    (hgather : ∀ t, P t → Ensures (gathered (outputDirectory.map (absolute s.disk))
      (inputs.map (absolute s.disk))) t G E)
    (hformat : ∀ skipped u, G skipped u →
      Ensures (formatter.forM (Make.format · (u.made.map Prod.fst))) u
        (fun _ v => Q ⟨v.runSet, u.made.map Prod.fst, skipped⟩ v) E) :
    Ensures (run inputs outputDirectory formatter) s Q E := by
  refine .of_eq (run_eq h outputDirectory formatter s) ?_
  refine .bind hprepare fun _ t ht => .bind (hgather t ht) fun skipped u hu => ?_
  refine .bind .get ?_
  rintro _ _ ⟨rfl, rfl⟩
  refine .bind (hformat skipped _ hu) fun _ v hv => .bind .get ?_
  rintro _ _ ⟨rfl, rfl⟩
  exact .pure hv

/-- A batch without a formatter succeeds if its output directory can be prepared and its arguments can be
gone through; the report then says what the session has. -/
theorem run_eq_ok_iff {inputs : List Path} (h : inputs ≠ []) {report : Report} :
    run inputs outputDirectory none s = .ok report t ↔ ∃ mid skipped,
      (outputDirectory.map (absolute s.disk)).forM (prepare (inputs.map (absolute s.disk))) s = .ok () mid ∧
      arguments (outputDirectory.map (absolute s.disk)) (inputs.map (absolute s.disk)) (mid, [])
        = .ok () (t, skipped) ∧
      report = ⟨t.runSet, t.made.map Prod.fst, skipped⟩ := by
  rw [run_eq h]
  constructor
  · intro hrun
    obtain ⟨_, mid, hprepare, hrun⟩ := exists_of_bind_eq_ok hrun
    obtain ⟨skipped, u, hgathered, hrun⟩ := exists_of_bind_eq_ok hrun
    cases hrun
    exact ⟨mid, skipped, hprepare, gathered_eq_ok_iff.1 hgathered, rfl⟩
  · rintro ⟨mid, skipped, hprepare, harguments, rfl⟩
    rw [bind_of_ok hprepare, bind_of_ok (gathered_eq_ok_iff.2 harguments)]
    rfl

end Batch

end TestScribe
