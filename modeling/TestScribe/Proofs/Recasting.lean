/-
# Older shapes and the current ones

An older shape of a document says the same as the current one.  Variables may be a list of mappings with one
key each, extractors may be a list of mappings, and a reference may be written under `api`.  A document is
recast at one such place after the other, in its config and in any of its steps, and it gives the same
testcase all the way, or none.

* `Agree` : two pure steps have the same value, or both have none;
* `Legacy.RecastsStep`, `Legacy.Recasts` : one place of a step, or of a document, is recast;
* `Legacy.testcaseOf` : the testcase of a document of any shape.
-/
import TestScribe.Proofs.Renormalizing
import TestScribe.Testcase.Schema

namespace TestScribe

/-! ## Steps that agree -/

section Agree

variable {ε α β : Type}

/-- Two pure steps have the same value, or both fail. -/
def Agree (x y : Except ε α) : Prop := ∀ a, x = .ok a ↔ y = .ok a

namespace Agree

variable {x y : Except ε α}

theorem refl (x : Except ε α) : Agree x x := fun _ => Iff.rfl

theorem of_eq (h : x = y) : Agree x y := h ▸ refl x

theorem trans {z : Except ε α} (h : Agree x y) (h' : Agree y z) : Agree x z :=
  fun a => (h a).trans (h' a)

theorem bind {f g : α → Except ε β} (h : Agree x y) (hf : ∀ a, Agree (f a) (g a)) :
    Agree (x >>= f) (y >>= g) := by
  intro b
  rw [bind_eq_ok, bind_eq_ok]
  exact exists_congr fun a => and_congr (h a) (hf a b)

/-- Lists of steps agree where their members do. -/
theorem mapM {f : α → Except ε β} {xs ys : List α}
    (h : List.Forall₂ (fun x y => Agree (f x) (f y)) xs ys) : Agree (xs.mapM f) (ys.mapM f) := by
  induction h with
  | nil => exact refl _
  | cons hhead _ ih =>
    rw [List.mapM_cons, List.mapM_cons]
    exact hhead.bind fun _ => ih.bind fun _ => refl _

/-- Both have the same value, or both fail. -/
theorem cases (h : Agree x y) : (∃ a, x = .ok a ∧ y = .ok a) ∨ ∃ e e', x = .error e ∧ y = .error e' := by
  cases hx : x with
  | ok a => exact .inl ⟨a, rfl, (h a).1 hx⟩
  | error e =>
    cases hy : y with
    | ok a => cases hx.symm.trans ((h a).2 hy)
    | error e' => exact .inr ⟨e, e', rfl, rfl⟩

end Agree

end Agree

/-! ## Testcases from what look-ups find -/

section Schema

open Mapping

/-- What is read of a config are its look-ups, and of its variables only what they bind. -/
theorem Config.ofMapping_congr {m n : Mapping} (source : Path)
    (h : ∀ key, key ≠ "variables" → get? key m = get? key n)
    (hvariables : Legacy.bindings ((get? "variables" m).getD .null)
      = Legacy.bindings ((get? "variables" n).getD .null)) :
    Config.ofMapping m source = Config.ofMapping n source := by
  simp only [Config.ofMapping, Config.marksOf, Field.text, Field.text?, Field.bool?, Field.texts?,
    hvariables, h "name" (by decide), h "skip" (by decide), h "parameters" (by decide),
    h "marks" (by decide), h "base_url" (by decide), h "verify" (by decide), h "export" (by decide)]

/-- What a step does is found under two keys. -/
theorem Step.actionOf_agree {m n : Mapping} (place : Place) (hrequest : get? "request" m = get? "request" n)
    (htestcase : get? "testcase" m = get? "testcase" n) : Agree (actionOf place m) (actionOf place n) := by
  intro action
  simp only [actionOf, hrequest, htestcase]
  -- Only a step without an action is named whole in its fault.
  cases get? "testcase" n with
  | none => cases get? "request" n with
    | none => simp
    | some request => cases request <;> simp
  | some v => cases v <;> exact Iff.rfl

/-- What is read of a step are its look-ups, and of its variables only what they bind. -/
theorem Step.ofValue_agree {m n : Mapping} (h : ∀ key, key ≠ "variables" → get? key m = get? key n)
    (hvariables : variablesOf (get? "variables" m) = variablesOf (get? "variables" n)) :
    Agree (ofValue (.mapping m)) (ofValue (.mapping n)) := by
  simp only [ofValue, Field.text, Field.texts?, hvariables, h "name" (by decide), h "extract" (by decide),
    h "validate" (by decide), h "setup_hooks" (by decide), h "teardown_hooks" (by decide),
    h "export" (by decide)]
  refine .bind (.refl _) fun name => .bind ?_ fun action => .refl _
  exact actionOf_agree _ (h _ (by decide)) (h _ (by decide))

end Schema

namespace Legacy

open Mapping

/-! ## One place is recast -/

/-- The variables of a mapping go from a list of mappings with one key each to the merged mapping. -/
def MergesVariables (m m' : Mapping) : Prop :=
  ∃ entries merged, get? "variables" m = some (.list (entries.map fun entry => .mapping [entry])) ∧
    Collects entries merged ∧ m' = Mapping.set "variables" (.mapping merged) m

/-- A mapping with one of its keys renamed. -/
def renameKey (key newKey : String) (m : Mapping) : Mapping :=
  m.map fun entry => if entry.1 = key then (newKey, entry.2) else entry

/-- One place of a step is recast: its variables, its extractors, or its reference. -/
inductive RecastsStep : Mapping → Mapping → Prop
  | bindings {m m' : Mapping} (h : MergesVariables m m') : RecastsStep m m'
  | extract {m merged : Mapping} {items : List Mapping}
      (hlist : get? "extract" m = some (.list (items.map .mapping)))
      (hmerged : Collects items.flatten merged) :
      RecastsStep m (Mapping.set "extract" (.mapping merged) m)
  | reference {m : Mapping} (hrequest : has "request" m = false) (htestcase : has "testcase" m = false) :
      RecastsStep m (renameKey "api" "testcase" m)

/-- One place of a document is recast: in its config, in one of its steps, or, if it is a single request, in
the request. -/
inductive Recasts : Mapping → Mapping → Prop
  | config {d config config' : Mapping} (hconfig : get? "config" d = some (.mapping config))
      (h : MergesVariables config config') : Recasts d (Mapping.set "config" (.mapping config') d)
  | step {d m m' : Mapping} {before after : List Value}
      (hsteps : get? "teststeps" d = some (.list (before ++ .mapping m :: after)))
      (h : RecastsStep m m') :
      Recasts d (Mapping.set "teststeps" (.list (before ++ .mapping m' :: after)) d)
  | request {d d' : Mapping} (hrequest : isApi d) (h : RecastsStep d d') : Recasts d d'

/-! ## What was merged -/

theorem mergeVariables_eq (done entries : Mapping) :
    mergeVariables done (entries.map fun entry => .mapping [entry]) = .ok (merge done entries) := by
  induction entries generalizing done with
  | nil => rfl
  | cons entry entries ih => exact ih (Mapping.set entry.1 entry.2 done)

theorem mergeExtractors_eq (done : Mapping) (items : List Mapping) :
    mergeExtractors done (items.map .mapping) = .ok (merge done items.flatten) := by
  induction items generalizing done with
  | nil => rfl
  | cons item items ih =>
    rw [List.flatten_cons, merge_append]
    exact ih (merge done item)

/-- Variables bind the same once they are merged. -/
theorem bindings_of_collects {entries merged : Mapping} (h : Collects entries merged) :
    bindings (.mapping merged) = bindings (.list (entries.map fun entry => .mapping [entry])) := by
  rw [bindings, bindings, mergeVariables_eq, h.eq_merge]

/-- Extractors are the same once they are merged. -/
theorem extractors_of_collects {items : List Mapping} {merged : Mapping}
    (h : Collects items.flatten merged) :
    extractors (.mapping merged) = extractors (.list (items.map .mapping)) := by
  rw [extractors_eq, extractors_eq, mergedExtractors, mergedExtractors, mergeExtractors_eq,
    merge_nil h.nodup_keys, h.eq_merge]

/-! ## Attachments -/

/-- Attachments come from the look-ups of their keys, and of the extractors only what they convert to. -/
theorem attachments_congr {m n : Mapping}
    (h : ∀ key ∈ attachmentKeys, key ≠ "extract" → get? key m = get? key n)
    (hextract : (get? "extract" m).map extractors = (get? "extract" n).map extractors) :
    attachments m = attachments n := by
  have hconverted : convertedEntry "extract" (fun v => (extractors v).map .mapping) m
      = convertedEntry "extract" (fun v => (extractors v).map .mapping) n := by
    rw [convertedEntry, convertedEntry]
    cases hm : get? "extract" m <;> cases hn : get? "extract" n <;> simp_all
  have hvalidate : convertedEntry "validate" stepValidators m = convertedEntry "validate" stepValidators n := by
    rw [convertedEntry, convertedEntry, h "validate" (by decide) (by decide)]
  have hplain : ∀ key ∈ ["variables", "setup_hooks", "teardown_hooks"], get? key m = get? key n := by
    intro key hkey
    refine h key (by simp [attachmentKeys] at hkey ⊢; tauto) ?_
    rintro rfl
    exact absurd hkey (by decide)
  have hexport : ∀ key ∈ ["export"], get? key m = get? key n := by
    intro key hkey
    rw [List.mem_singleton.1 hkey]
    exact h "export" (by decide) (by decide)
  rw [attachments, attachments, h "name" (by decide) (by decide), hconverted, hvalidate,
    entriesOf_congr hplain, entriesOf_congr hexport]

/-- Extractors that are merged leave the attachments as they are. -/
theorem attachments_set_extract {m merged : Mapping} {items : List Mapping}
    (hlist : get? "extract" m = some (.list (items.map .mapping))) (hmerged : Collects items.flatten merged) :
    attachments (Mapping.set "extract" (.mapping merged) m) = attachments m := by
  refine attachments_congr (fun key _ hkey => get?_set_of_ne hkey _ m) ?_
  rw [hlist, get?_set_self, Option.map_some, Option.map_some, extractors_of_collects hmerged]

theorem entriesOf_cons {key : String} {keys : List String} {m : Mapping} {v : Value}
    (h : get? key m = some v) : entriesOf (key :: keys) m = (key, v) :: entriesOf keys m := by
  rw [entriesOf, List.filterMap_cons, h]
  rfl

/-- Other variables are other variables of the attachments, and nothing else. -/
theorem attachments_set_variables {m : Mapping} {v : Value} (h : get? "variables" m = some v) (w : Value) :
    attachments (Mapping.set "variables" w m) = (attachments m).map (Mapping.set "variables" w) := by
  have hget : ∀ key, key ≠ "variables" → get? key (Mapping.set "variables" w m) = get? key m :=
    fun key hkey => get?_set_of_ne hkey w m
  have hentries : ∀ keys, "variables" ∉ keys →
      entriesOf keys (Mapping.set "variables" w m) = entriesOf keys m :=
    fun keys hkeys => entriesOf_congr fun key hkey => hget key (ne_of_mem_of_not_mem hkey hkeys)
  rw [attachments, attachments, hget "name" (by decide), convertedEntry, convertedEntry,
    hget "extract" (by decide), hget "validate" (by decide), ← convertedEntry, ← convertedEntry,
    entriesOf_cons h, entriesOf_cons (get?_set_self "variables" w m), hentries _ (by decide),
    hentries _ (by decide)]
  cases get? "name" m with
  | none => rfl
  | some name =>
    cases convertedEntry "extract" (fun v => (extractors v).map .mapping) m with
    | error fault => rfl
    | ok extract => cases convertedEntry "validate" stepValidators m <;> rfl

/-! ## Steps -/

/-- The step that a value of any shape describes. -/
def stepOf (v : Value) : Except SchemaFault Step := step v >>= Step.ofValue

theorem stepOf_eq_ok {m : Mapping} {s : Step} : stepOf (.mapping m) = .ok s ↔
    ∃ action attached, action? m = some action ∧ attachments m = .ok attached ∧
      Step.ofValue (.mapping (action :: attached)) = .ok s := by
  rw [stepOf, bind_eq_ok]
  constructor
  · rintro ⟨w, hw, hs⟩
    obtain ⟨m, action, attached, hm, haction, hattached, rfl⟩ := step_eq_ok.1 hw
    cases hm
    exact ⟨action, attached, haction, hattached, hs⟩
  · rintro ⟨action, attached, haction, hattached, hs⟩
    exact ⟨_, step_eq_ok.2 ⟨m, action, attached, rfl, haction, hattached, rfl⟩, hs⟩

theorem stepOf_agree {m n : Mapping} (haction : action? m = action? n)
    (hattachments : attachments m = attachments n) :
    Agree (stepOf (.mapping m)) (stepOf (.mapping n)) := by
  intro s
  rw [stepOf_eq_ok, stepOf_eq_ok, haction, hattachments]

/-- What a step does is found under three keys. -/
theorem action?_set {key : String} (hkey : key ∉ ["request", "api", "testcase"]) (v : Value) (m : Mapping) :
    action? (Mapping.set key v m) = action? m := by
  have hget : ∀ other ∈ ["request", "api", "testcase"], get? other (Mapping.set key v m) = get? other m :=
    fun other hother => get?_set_of_ne (ne_of_mem_of_not_mem hother hkey) v m
  rw [action?, action?, hget "request" (by decide), hget "api" (by decide), hget "testcase" (by decide)]

theorem get?_renameKey_of_ne {key newKey other : String} (hkey : other ≠ key) (hnew : other ≠ newKey)
    (m : Mapping) : get? other (renameKey key newKey m) = get? other m := by
  induction m with
  | nil => rfl
  | cons entry m ih =>
    obtain ⟨k, v⟩ := entry
    rw [renameKey, List.map_cons, ← renameKey]
    split
    · next hk =>
      change k = key at hk
      rw [get?, get?, if_neg hnew.symm, if_neg (by rw [hk]; exact hkey.symm), ih]
    · rw [get?, get?, ih]

/-- A new key has what the old one had, and the old one is gone. -/
theorem get?_renameKey {key newKey : String} {m : Mapping} (hnew : get? newKey m = none)
    (hne : newKey ≠ key) :
    get? newKey (renameKey key newKey m) = get? key m ∧ get? key (renameKey key newKey m) = none := by
  induction m with
  | nil => exact ⟨rfl, rfl⟩
  | cons entry m ih =>
    obtain ⟨k, v⟩ := entry
    rw [get?] at hnew
    split at hnew
    · cases hnew
    · next hk =>
      obtain ⟨hfound, hgone⟩ := ih hnew
      rw [renameKey, List.map_cons, ← renameKey]
      by_cases hkey : k = key
      · simp [get?, hkey, hne, hgone]
      · simp [get?, hkey, hk, hfound, hgone]

/-- With other variables that bind the same, a step in the current shape describes the same step. -/
theorem ofValue_set_variables {c : Mapping} {v w : Value} (hv : get? "variables" c = some v)
    (hsame : bindings v = bindings w) :
    Agree (Step.ofValue (.mapping c)) (Step.ofValue (.mapping (Mapping.set "variables" w c))) := by
  refine Step.ofValue_agree (fun key hkey => (get?_set_of_ne hkey w c).symm) ?_
  rw [hv, get?_set_self, Step.variablesOf, Step.variablesOf, hsame]

/-- What a step has besides its name, its extractors and its validators is attached as it is. -/
theorem get?_attachments_of_mem {m attached : Mapping} (h : attachments m = .ok attached) {key : String}
    (hkey : key ∈ ["variables", "setup_hooks", "teardown_hooks", "export"]) :
    get? key attached = get? key m := by
  obtain ⟨name, extract, validate, -, hextract, hvalidate, rfl⟩ := attachments_eq_ok.1 h
  have hne : key ≠ "name" ∧ key ≠ "extract" ∧ key ≠ "validate" := by
    simp only [List.mem_cons, List.not_mem_nil, or_false] at hkey
    rcases hkey with rfl | rfl | rfl | rfl <;> decide
  rw [get?_attachedTo hne.1, get?_convertedEntry_of_ne hextract hne.2.1,
    get?_convertedEntry_of_ne hvalidate hne.2.2, get?_entriesOf, get?_entriesOf]
  simp only [List.mem_cons, List.not_mem_nil, or_false] at hkey
  rcases hkey with rfl | rfl | rfl | rfl <;> simp

/-- A step that is recast at one place describes the same step. -/
theorem stepOf_recast {m m' : Mapping} (h : RecastsStep m m') :
    Agree (stepOf (.mapping m)) (stepOf (.mapping m')) := by
  cases h with
  | bindings h =>
    obtain ⟨entries, merged, hlist, hmerged, rfl⟩ := h
    intro s
    rw [stepOf_eq_ok, stepOf_eq_ok, attachments_set_variables hlist, action?_set (by decide)]
    -- the two steps in the current shape differ in their variables, and these bind the same
    have hsame : ∀ action attached, action? m = some action → attachments m = .ok attached →
        Agree (Step.ofValue (.mapping (action :: attached)))
          (Step.ofValue (.mapping (action :: Mapping.set "variables" (.mapping merged) attached))) := by
      intro action attached haction hattached
      have hkey : action.1 ≠ "variables" := by
        rcases action?_key haction with h | h <;> rw [h] <;> decide
      have hget : get? "variables" (action :: attached)
          = some (.list (entries.map fun entry => .mapping [entry])) := by
        rw [get?, if_neg hkey, get?_attachments_of_mem hattached (by decide), hlist]
      have hset : Mapping.set "variables" (.mapping merged) (action :: attached)
          = action :: Mapping.set "variables" (.mapping merged) attached := by
        rw [Mapping.set, if_neg hkey]
      rw [← hset]
      exact ofValue_set_variables hget (bindings_of_collects hmerged).symm
    constructor
    · rintro ⟨action, attached, haction, hattached, hs⟩
      exact ⟨action, _, haction, map_eq_ok.2 ⟨attached, hattached, rfl⟩,
        (hsame action attached haction hattached s).1 hs⟩
    · rintro ⟨action, _, haction, hattached', hs⟩
      obtain ⟨attached, hattached, rfl⟩ := map_eq_ok.1 hattached'
      exact ⟨action, attached, haction, hattached, (hsame action attached haction hattached s).2 hs⟩
  | extract hlist hmerged =>
    refine stepOf_agree (action?_set ?_ _ m).symm (attachments_set_extract hlist hmerged).symm
    decide
  | reference hrequest htestcase =>
    rw [has, Option.isSome_eq_false_iff, Option.isNone_iff_eq_none] at hrequest htestcase
    obtain ⟨hfound, hgone⟩ := get?_renameKey htestcase (show "testcase" ≠ "api" by decide)
    have hget : ∀ key, key ≠ "api" → key ≠ "testcase" → get? key m = get? key (renameKey "api" "testcase" m) :=
      fun key hapi htest => (get?_renameKey_of_ne hapi htest m).symm
    refine stepOf_agree ?_ (attachments_congr (fun key hkey _ => hget key ?_ ?_) ?_)
    · rw [action?, action?, hfound, hgone, ← hget "request" (by decide) (by decide), hrequest, htestcase]
      cases get? "api" m <;> rfl
    · rintro rfl
      exact absurd hkey (by decide)
    · rintro rfl
      exact absurd hkey (by decide)
    · rw [hget "extract" (by decide) (by decide)]

/-! ## Documents -/

/-- The testcase of a document of any shape. -/
def testcaseOf (document : Value) (source : Path) : Except SchemaFault Testcase := do
  Testcase.ofDocument (← normalize document) source

/-- A document that is no single request has the testcase of its config and of its steps. -/
theorem testcaseOf_eq_ok_of_not_isApi {m : Mapping} (hapi : ¬ isApi m) {source : Path} {t : Testcase} :
    testcaseOf (.mapping m) source = .ok t ↔
      ∃ config raw, get? "config" m = some (.mapping config) ∧ get? "teststeps" m = some (.list raw) ∧
        Config.ofMapping config source = .ok t.config ∧ raw.mapM stepOf = .ok t.steps := by
  have hread : ∀ config steps, Testcase.ofDocument (document config steps) source = .ok t ↔
      Config.ofMapping config source = .ok t.config ∧ steps.mapM Step.ofValue = .ok t.steps := by
    intro config steps
    change (Config.ofMapping config source >>= fun c => steps.mapM Step.ofValue >>= fun read =>
      .ok (Testcase.mk c read)) = _ ↔ _
    simp only [bind_eq_ok]
    constructor
    · rintro ⟨c, hc, read, hread, h⟩
      cases h
      exact ⟨hc, hread⟩
    · exact fun h => ⟨t.config, h.1, t.steps, h.2, rfl⟩
  rw [testcaseOf, bind_eq_ok]
  constructor
  · rintro ⟨d, hd, ht⟩
    obtain ⟨config, raw, steps, hconfig, hraw, hsteps, rfl⟩ := (normalize_eq_ok_of_not_isApi hapi).1 hd
    obtain ⟨hc, hs⟩ := (hread config steps).1 ht
    exact ⟨config, raw, hconfig, hraw, hc, mapM_bind_eq_ok.2 ⟨steps, hsteps, hs⟩⟩
  · rintro ⟨config, raw, hconfig, hraw, hc, hs⟩
    obtain ⟨steps, hsteps, hs⟩ := mapM_bind_eq_ok.1 hs
    exact ⟨_, (normalize_eq_ok_of_not_isApi hapi).2 ⟨config, raw, steps, hconfig, hraw, hsteps, rfl⟩,
      (hread config steps).2 ⟨hc, hs⟩⟩

theorem isApi_set {key : String} (hrequest : "request" ≠ key) (hname : "name" ≠ key) (v : Value)
    (m : Mapping) : isApi (Mapping.set key v m) = isApi m := by
  rw [isApi, isApi, has, has, has, has, get?_set_of_ne hrequest, get?_set_of_ne hname]

/-- A single request is normalized from its request, its name and its attachments. -/
theorem normalize_congr_of_isApi {d d' : Mapping} (hapi : isApi d)
    (hrequest : get? "request" d = get? "request" d') (hname : get? "name" d = get? "name" d')
    (hattachments : attachments d = attachments d') :
    normalize (.mapping d) = normalize (.mapping d') := by
  have hapi' : isApi d' := by rwa [isApi, has, has, ← hrequest, ← hname]
  have hpromote : promote d = promote d' := by rw [promote, promote, hrequest, hname, hattachments]
  rw [normalize, normalize, if_pos hapi, if_pos hapi', hpromote]

/-- What stands under a key that a single request does not use makes no difference to it. -/
theorem testcaseOf_set_of_isApi {d : Mapping} (hapi : isApi d) {key : String}
    (hkey : key ∉ "request" :: attachmentKeys) (v : Value) (source : Path) :
    testcaseOf (.mapping d) source = testcaseOf (.mapping (Mapping.set key v d)) source := by
  have hget : ∀ other ∈ "request" :: attachmentKeys, get? other d = get? other (Mapping.set key v d) :=
    fun other hother => (get?_set_of_ne (ne_of_mem_of_not_mem hother hkey) v d).symm
  have hattachments : attachments d = attachments (Mapping.set key v d) :=
    attachments_congr (fun other hother _ => hget other (List.mem_cons_of_mem _ hother))
      (by rw [hget "extract" (by decide)])
  rw [testcaseOf, testcaseOf,
    normalize_congr_of_isApi hapi (hget _ (by decide)) (hget _ (by decide)) hattachments]

/-- A step may be recast in a testcase. -/
theorem testcaseOf_recast_step {d m m' : Mapping} {before after : List Value} (hapi : ¬ isApi d)
    (hsteps : get? "teststeps" d = some (.list (before ++ .mapping m :: after))) (h : RecastsStep m m')
    (source : Path) :
    Agree (testcaseOf (.mapping d) source)
      (testcaseOf (.mapping (Mapping.set "teststeps" (.list (before ++ .mapping m' :: after)) d)) source) := by
  have hread : Agree ((before ++ .mapping m :: after).mapM stepOf)
      ((before ++ .mapping m' :: after).mapM stepOf) := by
    refine .mapM (List.rel_append ?_ (.cons (stepOf_recast h) ?_))
    · exact List.forall₂_same.2 fun _ _ => .refl _
    · exact List.forall₂_same.2 fun _ _ => .refl _
  intro t
  rw [testcaseOf_eq_ok_of_not_isApi hapi,
    testcaseOf_eq_ok_of_not_isApi (by rwa [isApi_set (by decide) (by decide)]), hsteps, get?_set_self,
    get?_set_of_ne (by decide)]
  constructor
  · rintro ⟨config, _, hconfig, hraw, hc, hs⟩
    cases hraw
    exact ⟨config, _, hconfig, rfl, hc, (hread _).1 hs⟩
  · rintro ⟨config, _, hconfig, hraw, hc, hs⟩
    cases hraw
    exact ⟨config, _, hconfig, rfl, hc, (hread _).2 hs⟩

/-- The variables of the config may be recast in a testcase. -/
theorem testcaseOf_recast_config {d config config' : Mapping} (hapi : ¬ isApi d)
    (hconfig : get? "config" d = some (.mapping config)) (h : MergesVariables config config') (source : Path) :
    Agree (testcaseOf (.mapping d) source)
      (testcaseOf (.mapping (Mapping.set "config" (.mapping config') d)) source) := by
  have hread : Config.ofMapping config source = Config.ofMapping config' source := by
    obtain ⟨entries, merged, hlist, hmerged, rfl⟩ := h
    refine Config.ofMapping_congr source (fun key hkey => (get?_set_of_ne hkey _ config).symm) ?_
    rw [hlist, get?_set_self]
    exact (bindings_of_collects hmerged).symm
  intro t
  rw [testcaseOf_eq_ok_of_not_isApi hapi,
    testcaseOf_eq_ok_of_not_isApi (by rwa [isApi_set (by decide) (by decide)]), hconfig, get?_set_self,
    get?_set_of_ne (by decide)]
  constructor
  · rintro ⟨_, raw, hc, hraw, hcfg, hs⟩
    cases hc
    exact ⟨config', raw, rfl, hraw, hread ▸ hcfg, hs⟩
  · rintro ⟨_, raw, hc, hraw, hcfg, hs⟩
    cases hc
    exact ⟨config, raw, rfl, hraw, hread ▸ hcfg, hs⟩

/-- A single request may be recast as a step may. -/
theorem testcaseOf_recast_request {d d' : Mapping} (hapi : isApi d) (h : RecastsStep d d') (source : Path) :
    Agree (testcaseOf (.mapping d) source) (testcaseOf (.mapping d') source) := by
  obtain ⟨hrequest, hname⟩ := Bool.and_eq_true_iff.1 hapi
  obtain ⟨request, hget⟩ := Option.isSome_iff_exists.1 hrequest
  cases h with
  | bindings h =>
    obtain ⟨entries, merged, hlist, hmerged, rfl⟩ := h
    set d' := Mapping.set "variables" (.mapping merged) d with hd'
    have hget' : ∀ key, key ≠ "variables" → get? key d' = get? key d :=
      fun key hkey => get?_set_of_ne hkey _ d
    have hconfig : configByHand d' = configByHand d := by
      rw [configByHand, configByHand, exportedNames, exportedNames, hget' "name" (by decide),
        hget' "extract" (by decide)]
    rw [testcaseOf, testcaseOf, normalize_of_isApi hname hget,
      normalize_of_isApi (by rwa [has, hget' _ (by decide)]) (by rw [hget' _ (by decide), hget]),
      hd', attachments_set_variables hlist, ← hd', hconfig]
    cases hattached : attachments d with
    | error fault => exact .refl _
    | ok attached =>
      -- the step of the promoted testcase is recast in its turn
      have hfound : get? "variables" (("request", request) :: attached)
          = some (.list (entries.map fun entry => .mapping [entry])) := by
        rw [get?, if_neg (by decide), get?_attachments_of_mem hattached (by decide), hlist]
      have hstep := RecastsStep.bindings ⟨entries, merged, hfound, hmerged, rfl⟩
      have hnot : ¬ isApi (single (configByHand d) (("request", request) :: attached)) := by
        simp [isApi, single, has, get?]
      have hsteps : get? "teststeps" (single (configByHand d) (("request", request) :: attached))
        = some (.list ([] ++ .mapping (("request", request) :: attached) :: [])) := rfl
      exact testcaseOf_recast_step hnot hsteps hstep source
  | extract hlist hmerged =>
    refine .of_eq ?_
    rw [testcaseOf, testcaseOf, normalize_congr_of_isApi hapi (get?_set_of_ne (by decide) _ d).symm
      (get?_set_of_ne (by decide) _ d).symm (attachments_set_extract hlist hmerged).symm]
  | reference hno =>
    rw [hrequest] at hno
    cases hno

/-- A document that is recast at one place has the same testcase. -/
theorem testcaseOf_recast {d d' : Mapping} (h : Recasts d d') (source : Path) :
    Agree (testcaseOf (.mapping d) source) (testcaseOf (.mapping d') source) := by
  cases h with
  | config hconfig h =>
    by_cases hapi : isApi d
    · exact .of_eq (testcaseOf_set_of_isApi hapi (by decide) _ source)
    · exact testcaseOf_recast_config hapi hconfig h source
  | step hsteps h =>
    by_cases hapi : isApi d
    · exact .of_eq (testcaseOf_set_of_isApi hapi (by decide) _ source)
    · exact testcaseOf_recast_step hapi hsteps h source
  | request hrequest h => exact testcaseOf_recast_request hrequest h source

/-- **Older shapes.**  A document that is recast at any places, in its config and in any of its steps, has the
same testcase as before, or none as before. -/
theorem recast_same_testcase {d d' : Mapping} (h : Relation.ReflTransGen Recasts d d') (source : Path) :
    (∃ t, testcaseOf (.mapping d) source = .ok t ∧ testcaseOf (.mapping d') source = .ok t) ∨
      ∃ fault fault', testcaseOf (.mapping d) source = .error fault ∧
        testcaseOf (.mapping d') source = .error fault' := by
  have hagree : Agree (testcaseOf (.mapping d) source) (testcaseOf (.mapping d') source) := by
    induction h with
    | refl => exact .refl _
    | tail _ hrecast ih => exact ih.trans (testcaseOf_recast hrecast source)
  exact hagree.cases

/-- A testcase in older shapes: variables and extractors in lists, and a reference under `api`. -/
def olderTestcase : Mapping :=
  document [("name", .text "items"), ("variables", .list [.mapping [("a", .text "1")],
      .mapping [("b", .text "2")], .mapping [("a", .text "3")]])]
    [.mapping [("name", .text "login"), ("api", .text "login.json"),
        ("variables", .list [.mapping [("user", .text "u")]])],
      .mapping [("name", .text "item"), ("request", .mapping [("method", .text "get"), ("url", .text "/")]),
        ("extract", .list [.mapping [("id", .text "content.id"), ("no", .text "content.0")],
          .mapping [("id", .text "headers.X-Id")]])]]

/-- The same testcase with the merged mappings, and the reference under its current name. -/
def currentTestcase : Mapping :=
  document [("name", .text "items"), ("variables", .mapping [("a", .text "3"), ("b", .text "2")])]
    [.mapping [("name", .text "login"), ("testcase", .text "login.json"),
        ("variables", .mapping [("user", .text "u")])],
      .mapping [("name", .text "item"), ("request", .mapping [("method", .text "get"), ("url", .text "/")]),
        ("extract", .mapping [("id", .text "headers.X-Id"), ("no", .text "content.0")])]]

/-- Each of the four older shapes is recast in its turn. -/
theorem recasts_olderTestcase : Relation.ReflTransGen Recasts olderTestcase currentTestcase := by
  refine .head (.config rfl ⟨[("a", .text "1"), ("b", .text "2"), ("a", .text "3")], _, rfl,
    collects_merge _, rfl⟩) ?_
  refine .head (@Recasts.step _ _ _ [] _ rfl (.reference rfl rfl)) ?_
  refine .head (@Recasts.step _ _ _ [] _ rfl (.bindings ⟨[("user", .text "u")], _, rfl,
    collects_merge _, rfl⟩)) ?_
  refine .head (@Recasts.step _ _ _ [_] [] rfl (@RecastsStep.extract _ _
    [[("id", .text "content.id"), ("no", .text "content.0")], [("id", .text "headers.X-Id")]]
    rfl (collects_merge _))) ?_
  exact .refl

theorem recast_same_testcase_older :
    Relation.ReflTransGen Recasts olderTestcase currentTestcase ∧
      ∃ t, testcaseOf (.mapping olderTestcase) (.ofString "/a.json") = .ok t ∧
        testcaseOf (.mapping currentTestcase) (.ofString "/a.json") = .ok t := by
  refine ⟨recasts_olderTestcase, ?_⟩
  rcases recast_same_testcase recasts_olderTestcase (.ofString "/a.json") with h | ⟨fault, -, hfault, -⟩
  · exact h
  · have hok : (testcaseOf (.mapping olderTestcase) (.ofString "/a.json")).isOk := by decide +kernel
    rw [hfault] at hok
    cases hok

end Legacy

end TestScribe
