/-
# Documents that are normalized again

A normalized document is in the current shape, so normalizing it once more only modernizes its expressions
again.  This leaves the document as it is exactly if no expression of its steps had an index right behind a
segment with a hyphen, or if the document was a single request, whose expressions have been modernized twice
already.  From the second run on nothing changes.

* `Legacy.stepExpressions`, `Legacy.testcaseExpressions` : the expressions of a step and of all steps;
* `Legacy.settles_step` : which steps a second run leaves alone;
* `Legacy.document` : a document in the current shape, with the equation for normalizing it.
-/
import TestScribe.Proofs.Promotion

namespace TestScribe.Legacy

open Expression Mapping

/-! ## Converted expressions -/

/-- An extractor that was converted has its indices in brackets. -/
theorem extractorExpression?_of_extractor {entry converted : String × Value}
    (h : extractor entry = .ok converted) :
    ∀ e ∈ extractorExpression? converted, indexAfterHyphen e = false := by
  obtain ⟨name, v⟩ := entry
  cases v with
  | text raw =>
    rw [extractor] at h
    split at h
    · next hregex =>
      cases h
      simp [extractorExpression?, hregex]
    · obtain ⟨e, he, rfl⟩ := map_eq_ok.1 h
      intro e' he'
      rw [extractorExpression?] at he'
      split at he'
      · cases he'
      · cases he'
        exact indexAfterHyphen_of_modernize he
  | null | bool | number | list | mapping => simp [extractor] at h

theorem extractExpressions_of_extractors {v w : Value}
    (h : (extractors v).map Value.mapping = .ok w) :
    ∀ e ∈ extractExpressions w, indexAfterHyphen e = false := by
  obtain ⟨converted, hconverted, rfl⟩ := map_eq_ok.1 h
  rw [extractors_eq, bind_eq_ok] at hconverted
  obtain ⟨m, hm, hmapM⟩ := hconverted
  have hnodup : (keys converted).Nodup := by
    rw [keys_of_mapM_extractor hmapM]
    exact nodup_keys_mergedExtractors hm
  intro e he
  rw [extractExpressions, mergedExtractors, merge_nil hnodup] at he
  obtain ⟨entry, hentry, hexpression⟩ := List.mem_filterMap.1 he
  obtain ⟨raw, -, hraw⟩ := exists_of_mem_mapM hmapM hentry
  exact extractorExpression?_of_extractor hraw e hexpression

/-- A validator that was converted has the indices of its check in brackets. -/
theorem check?_of_validator {v w : Value} (h : validator v = .ok w) :
    ∀ e ∈ check? w, indexAfterHyphen e = false := by
  intro e he
  cases hcheck : check? v with
  | none =>
    rw [validator_of_check?_eq_none hcheck] at h
    cases h
    rw [hcheck] at he
    cases he
  | some check =>
    rcases check?_cases hcheck with ⟨m, rfl, hget, hexpect⟩ | ⟨comparator, rest, rfl⟩
    · rw [(validator_full hget hexpect).2, map_eq_ok] at h
      obtain ⟨e', he', rfl⟩ := h
      have hexpect' : has "expect" (Mapping.set "check" (.text e') m) := by
        rwa [has, get?_set_of_ne (by decide)]
      rw [(validator_full (get?_set_self _ _ _) hexpect').1] at he
      cases he
      exact indexAfterHyphen_of_modernize he'
    · rw [validator_short, map_eq_ok] at h
      obtain ⟨e', he', rfl⟩ := h
      rw [check?_short] at he
      cases he
      exact indexAfterHyphen_of_modernize he'

theorem checkExpressions_of_stepValidators {v w : Value} (h : stepValidators v = .ok w) :
    ∀ e ∈ checkExpressions w, indexAfterHyphen e = false := by
  cases v with
  | list vs =>
    obtain ⟨ws, hws, rfl⟩ := map_eq_ok.1 h
    intro e he
    obtain ⟨converted, hmem, hcheck⟩ := List.mem_filterMap.1 he
    obtain ⟨raw, -, hraw⟩ := exists_of_mem_mapM hws hmem
    exact check?_of_validator hraw e hcheck
  | null | bool | number | text | mapping => simp [stepValidators] at h

/-- What a converted entry holds was converted. -/
theorem exists_of_get?_convertedEntry {key : String} {convert : Value → Except SchemaFault Value}
    {m entry : Mapping} {w : Value} (h : convertedEntry key convert m = .ok entry)
    (hw : get? key entry = some w) : ∃ v, convert v = .ok w := by
  rw [convertedEntry] at h
  split at h
  · cases h
    cases hw
  · next v _ =>
    obtain ⟨w', hw', rfl⟩ := map_eq_ok.1 h
    rw [get?, if_pos rfl] at hw
    cases hw
    exact ⟨v, hw'⟩

/-- Behind an action, attachments have the expressions that were converted. -/
theorem indexAfterHyphen_of_attachments {step attached : Mapping} (h : attachments step = .ok attached)
    {action : String} (haction : action ∉ attachmentKeys) (value : Value) :
    ∀ e ∈ expressions ((action, value) :: attached), indexAfterHyphen e = false := by
  obtain ⟨name, extract, validate, -, hextract, hvalidate, rfl⟩ := attachments_eq_ok.1 h
  have hget : ∀ key ∈ attachmentKeys, get? key ((action, value) :: attachedTo step name extract validate)
      = get? key (attachedTo step name extract validate) := by
    intro key hkey
    rw [get?, if_neg (ne_of_mem_of_not_mem hkey haction).symm]
  intro e he
  rw [expressions, hget _ (by decide), hget _ (by decide), get?_extract_attachedTo hvalidate,
    get?_validate_attachedTo hextract] at he
  rcases List.mem_append.1 he with he | he
  · cases hv : get? "extract" extract with
    | none => simp [hv] at he
    | some w =>
      obtain ⟨v, hconverted⟩ := exists_of_get?_convertedEntry hextract hv
      rw [hv] at he
      exact extractExpressions_of_extractors hconverted e he
  · cases hv : get? "validate" validate with
    | none => simp [hv] at he
    | some w =>
      obtain ⟨v, hconverted⟩ := exists_of_get?_convertedEntry hvalidate hv
      rw [hv] at he
      exact checkExpressions_of_stepValidators hconverted e he

/-! ## Steps -/

/-- What a step does is entered under one of two keys. -/
theorem action?_key {m : Mapping} {action : String × Value} (h : action? m = some action) :
    action.1 = "request" ∨ action.1 = "testcase" := by
  rw [action?] at h
  split at h
  · cases h
    exact .inl rfl
  split at h
  · cases h
    exact .inr rfl
  · obtain ⟨v, -, rfl⟩ := Option.map_eq_some_iff.1 h
    exact .inr rfl

theorem step_eq_ok {v w : Value} : step v = .ok w ↔ ∃ m action attached,
    v = .mapping m ∧ action? m = some action ∧ attachments m = .ok attached ∧
      w = .mapping (action :: attached) := by
  constructor
  · intro h
    cases v with
    | mapping m =>
      rw [step] at h
      split at h
      · next action haction =>
        obtain ⟨attached, hattached, rfl⟩ := map_eq_ok.1 h
        exact ⟨m, action, attached, rfl, haction, hattached, rfl⟩
      · cases h
    | null | bool | number | text | list => simp [step] at h
  · rintro ⟨m, action, attached, rfl, haction, hattached, rfl⟩
    rw [step, haction, hattached]
    rfl

theorem get?_attachments_of_notMem {step attached : Mapping} (h : attachments step = .ok attached)
    {key : String} (hkey : key ∉ attachmentKeys) : get? key attached = none := by
  obtain ⟨name, extract, validate, -, hextract, hvalidate, rfl⟩ := attachments_eq_ok.1 h
  have hne : ∀ k ∈ attachmentKeys, key ≠ k := fun k hk => (ne_of_mem_of_not_mem hk hkey).symm
  rw [get?_attachedTo (hne _ (by decide)), get?_convertedEntry_of_ne hextract (hne _ (by decide)),
    get?_convertedEntry_of_ne hvalidate (hne _ (by decide)), get?_entriesOf, get?_entriesOf, if_neg, if_neg]
  · rfl
  · exact fun hmem => hkey (by simp [attachmentKeys] at hmem ⊢; tauto)
  · exact fun hmem => hkey (by simp [attachmentKeys] at hmem ⊢; tauto)

/-- A step in the current shape does what it did. -/
theorem action?_attachments {m attached : Mapping} {action : String × Value}
    (haction : action? m = some action) (h : attachments m = .ok attached) :
    action? (action :: attached) = some action := by
  obtain ⟨key, value⟩ := action
  have hrequest := get?_attachments_of_notMem h (show "request" ∉ attachmentKeys by decide)
  have hapi := get?_attachments_of_notMem h (show "api" ∉ attachmentKeys by decide)
  rcases action?_key haction with rfl | rfl
  · simp [action?, get?]
  · simp [action?, get?, hrequest, hapi]

/-- The expressions of a step. -/
def stepExpressions (v : Value) : List String := v.mapping?.elim [] expressions

theorem settles_step :
    Settles step fun v => ∀ e ∈ stepExpressions v, indexAfterHyphen e = false := by
  intro v w hw
  obtain ⟨m, action, attached, rfl, haction, hattached, rfl⟩ := step_eq_ok.1 hw
  have hkey : action.1 ∉ attachmentKeys := by
    rcases action?_key haction with h | h <;> rw [h] <;> decide
  obtain ⟨again, hagain, hiff⟩ := attachments_again_behind hattached hkey action.2
  have hstep := step_eq_ok.2
    ⟨action :: attached, action, again, rfl, action?_attachments haction hattached, hagain, rfl⟩
  exact ⟨_, hstep, by simpa [stepExpressions, Value.mapping?] using hiff⟩

/-- A step in the current shape has the expressions that were converted. -/
theorem stepExpressions_of_step {v w : Value} (h : step v = .ok w) :
    ∀ e ∈ stepExpressions w, indexAfterHyphen e = false := by
  obtain ⟨m, action, attached, rfl, haction, hattached, rfl⟩ := step_eq_ok.1 h
  have hkey : action.1 ∉ attachmentKeys := by
    rcases action?_key haction with h | h <;> rw [h] <;> decide
  exact indexAfterHyphen_of_attachments hattached hkey action.2

/-! ## Documents -/

/-- A document in the current shape. -/
def document (config : Mapping) (steps : List Value) : Mapping :=
  [("config", .mapping config), ("teststeps", .list steps)]

/-- A document in the current shape is normalized step by step. -/
theorem normalize_document (config : Mapping) (steps : List Value) :
    normalize (.mapping (document config steps)) = (steps.mapM step).map (document config) := by
  cases h : steps.mapM step <;>
    simp [normalize, document, isApi, has, get?, current, h, bind, Except.bind, Except.map, pure,
      Except.pure]

/-- A document that is no single request is normalized where it has a config and a list of steps in one of
the known shapes. -/
theorem normalize_eq_ok_of_not_isApi {m d : Mapping} (hapi : ¬ isApi m) :
    normalize (.mapping m) = .ok d ↔ ∃ config raw steps, get? "config" m = some (.mapping config) ∧
      get? "teststeps" m = some (.list raw) ∧ raw.mapM step = .ok steps ∧ d = document config steps := by
  constructor
  · intro h
    rw [normalize, if_neg hapi] at h
    obtain ⟨_, hdocument, h⟩ := bind_eq_ok.1 h
    cases hdocument
    dsimp only at h
    split at h
    · cases h
    · next config hconfig =>
      simp only [current, hconfig] at h
      split at h
      · next raw hraw =>
        obtain ⟨steps, hsteps, h⟩ := bind_eq_ok.1 h
        cases h
        exact ⟨config, raw, steps, hconfig, hraw, hsteps, rfl⟩
      · cases h
      · cases h
    · cases h
  · rintro ⟨config, raw, steps, hconfig, hraw, hsteps, rfl⟩
    rw [normalize, if_neg hapi]
    refine bind_eq_ok.2 ⟨m, rfl, ?_⟩
    simp only [hconfig, current, hraw]
    exact bind_eq_ok.2 ⟨steps, hsteps, rfl⟩

/-- The expressions of all steps of a testcase. -/
def testcaseExpressions (testcase : Mapping) : List String :=
  match get? "teststeps" testcase with
  | some (.list steps) => steps.flatMap stepExpressions
  | _ => []

/-- A document that is normalized is a mapping.  Its normalized steps come from its own ones, or, where it is
a single request, from one step whose expressions have been converted before. -/
theorem exists_steps_of_normalize {v : Value} {d : Mapping} (h : normalize v = .ok d) :
    ∃ m config raw steps, v = .mapping m ∧ raw.mapM step = .ok steps ∧ d = document config steps ∧
      if isApi m then ∀ s ∈ raw, ∀ e ∈ stepExpressions s, indexAfterHyphen e = false
      else get? "teststeps" m = some (.list raw) := by
  cases v with
  | mapping m =>
    by_cases hapi : isApi m
    · obtain ⟨hrequest, hname⟩ := Bool.and_eq_true_iff.1 hapi
      obtain ⟨request, hget⟩ := Option.isSome_iff_exists.1 hrequest
      rw [normalize_of_isApi hname hget, bind_eq_ok] at h
      obtain ⟨attached, hattached, h⟩ := h
      change normalize (.mapping (document (configByHand m) [.mapping (("request", request) :: attached)]))
        = _ at h
      rw [normalize_document, map_eq_ok] at h
      obtain ⟨steps, hsteps, rfl⟩ := h
      refine ⟨m, configByHand m, _, steps, rfl, hsteps, rfl, ?_⟩
      rw [if_pos hapi]
      simpa [stepExpressions, Value.mapping?] using
        indexAfterHyphen_of_attachments hattached (by decide) request
    · obtain ⟨config, raw, steps, -, hraw, hsteps, rfl⟩ := (normalize_eq_ok_of_not_isApi hapi).1 h
      exact ⟨m, config, raw, steps, rfl, hsteps, rfl, by rw [if_neg hapi, hraw]⟩
  | null | bool | number | text | list => simp [normalize] at h

/-- **Normalizing again.**  A normalized document can be normalized again, and from then on it stays as it
is.  The second run changes nothing exactly if the document was a single request or if no expression of its
steps has an index right behind a segment with a hyphen. -/
theorem normalize_again {v : Value} {d : Mapping} (h : normalize v = .ok d) :
    ∃ m d', v = .mapping m ∧ normalize (.mapping d) = .ok d' ∧ normalize (.mapping d') = .ok d' ∧
      (d' = d ↔ isApi m ∨ ∀ e ∈ testcaseExpressions m, indexAfterHyphen e = false) := by
  obtain ⟨m, config, raw, steps, rfl, hsteps, rfl, hraw⟩ := exists_steps_of_normalize h
  obtain ⟨again, hagain, hiff⟩ := settles_step.mapM hsteps
  obtain ⟨third, hthird, hthirdIff⟩ := settles_step.mapM hagain
  have hsettled : third = again := by
    refine hthirdIff.2 fun s hs => ?_
    obtain ⟨r, -, hr⟩ := exists_of_mem_mapM hsteps hs
    exact stepExpressions_of_step hr
  refine ⟨m, document config again, rfl, ?_, ?_, ?_⟩
  · rw [normalize_document]
    exact map_eq_ok.2 ⟨again, hagain, rfl⟩
  · rw [normalize_document]
    exact map_eq_ok.2 ⟨third, hthird, by rw [hsettled]⟩
  · have hsame : document config again = document config steps ↔ again = steps := by
      simp [document]
    rw [hsame, hiff]
    split at hraw
    · next hapi => simpa [hapi] using hraw
    · next hapi =>
      simp only [hapi, Bool.false_eq_true, false_or, testcaseExpressions, hraw, List.mem_flatMap]
      constructor
      · rintro hall e ⟨s, hs, he⟩
        exact hall s hs e he
      · exact fun hall s hs e he => hall e ⟨s, hs, he⟩

/-- A testcase whose first step is an older reference and whose second one extracts by the given expression. -/
def referringTestcase (e : String) : Mapping :=
  document [("name", .text "item")]
    [.mapping [("name", .text "login"), ("api", .text "login.json")], .mapping (extracting e)]

/-- The normalized testcase of a reference and a request that extracts by the given expression. -/
def referredTestcase (e : String) : Mapping :=
  document [("name", .text "item")]
    [.mapping [("testcase", .text "login.json"), ("name", .text "login")],
      .mapping [("request", .mapping []), ("name", .text "item"), ("extract", .mapping [("v", .text e)])]]

theorem normalize_again_referring :
    normalize (.mapping (referringTestcase "content.items.0.X-Id"))
        = .ok (referredTestcase "body.items[0].\"X-Id\"") ∧
      normalize (.mapping (referredTestcase "body.items[0].\"X-Id\""))
        = .ok (referredTestcase "body.items[0].\"X-Id\"") := by
  have hfirst : normalize (.mapping (referringTestcase "content.items.0.X-Id"))
      = .ok (referredTestcase "body.items[0].\"X-Id\"") := rfl
  refine ⟨hfirst, ?_⟩
  obtain ⟨m, d', hm, hagain, -, hiff⟩ := normalize_again hfirst
  cases hm
  rw [hagain, hiff.2]
  right
  simp only [show testcaseExpressions (referringTestcase "content.items.0.X-Id")
    = ["content.items.0.X-Id"] from rfl, List.mem_singleton, forall_eq]
  decide

/-- An item of a header with a hyphen gets one quote more in the second run. -/
theorem normalize_ne_again :
    normalize (.mapping (referringTestcase "headers.X-List.0"))
        = .ok (referredTestcase "headers.\"X-List\"[0]") ∧
      normalize (.mapping (referredTestcase "headers.\"X-List\"[0]"))
        = .ok (referredTestcase "headers.\"X-List\"[0]\"") ∧
      normalize (.mapping (referredTestcase "headers.\"X-List\"[0]"))
        ≠ .ok (referredTestcase "headers.\"X-List\"[0]") := by
  have hagain : normalize (.mapping (referredTestcase "headers.\"X-List\"[0]"))
      = .ok (referredTestcase "headers.\"X-List\"[0]\"") := rfl
  refine ⟨rfl, hagain, ?_⟩
  rw [hagain]
  simp [referredTestcase, document]

end TestScribe.Legacy
