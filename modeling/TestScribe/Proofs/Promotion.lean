/-
# A single request and its testcase of one step

A document that is a single request is promoted to a testcase of one step, whose expressions have then
been modernized twice.  Here it is compared with the same testcase written by hand, whose expressions are
modernized once: both fail with the same fault, or both succeed, and then the two documents are equal
exactly if no expression of the request has an index right behind a segment with a hyphen.

* `Legacy.Settles` : which inputs of a conversion a second run leaves alone;
* `Legacy.byHand` : the testcase of one step around a request;
* `Legacy.expressions` : the expressions that a request extracts or checks.
-/
import TestScribe.Legacy
import TestScribe.Proofs.Expression
import TestScribe.Proofs.Mapping
import TestScribe.Proofs.Outcome

namespace TestScribe.Legacy

open Expression Mapping

/-! ## Conversions that settle -/

section Settles

variable {ε α : Type}

/-- A conversion can always be run on its own results, and `P` tells the inputs that the second run
leaves as the first one made them. -/
def Settles (f : α → Except ε α) (P : α → Prop) : Prop :=
  ∀ ⦃x y⦄, f x = .ok y → ∃ z, f y = .ok z ∧ (z = y ↔ P x)

/-- A list that is converted item by item settles where all its items do. -/
theorem Settles.mapM {f : α → Except ε α} {P : α → Prop} (h : Settles f P) :
    Settles (fun xs : List α => xs.mapM f) fun xs => ∀ x ∈ xs, P x := by
  intro xs
  induction xs with
  | nil =>
    intro ys hys
    cases hys
    exact ⟨[], rfl, by simp⟩
  | cons x xs ih =>
    intro ys hys
    simp only [List.mapM_cons, bind_eq_ok] at hys
    obtain ⟨y, hy, ys, htail, hys⟩ := hys
    cases hys
    obtain ⟨z, hz, hzy⟩ := h hy
    obtain ⟨zs, hzs, hzsys⟩ := ih htail
    refine ⟨z :: zs, ?_, ?_⟩
    · simp only [List.mapM_cons, bind_eq_ok]
      exact ⟨z, hz, zs, hzs, rfl⟩
    · rw [List.cons_eq_cons, hzy, hzsys]
      exact List.forall_mem_cons.symm

end Settles

/-! ## Extractors -/

/-- The expression of an extractor, unless it is a regular expression. -/
def extractorExpression? : String × Value → Option String
  | (_, .text raw) => if Text.beginsWith regexMark raw then none else some raw
  | _ => none

theorem settles_extractor :
    Settles extractor fun entry => ∀ e ∈ extractorExpression? entry, indexAfterHyphen e = false := by
  rintro ⟨name, v⟩ y hy
  cases v with
  | text raw =>
    rw [extractor] at hy
    by_cases hregex : Text.beginsWith regexMark raw
    · rw [if_pos hregex] at hy
      cases hy
      exact ⟨_, if_pos hregex, by simp [extractorExpression?, hregex]⟩
    · rw [if_neg hregex, map_eq_ok] at hy
      obtain ⟨e, he, rfl⟩ := hy
      obtain ⟨e', he', hsame⟩ := modernize_again he
      -- A converted expression does not turn into a regular one, so the second run converts it again.
      have hnot : ¬ Text.beginsWith regexMark e :=
        fun hagain => hregex (beginsWith_regex_of_modernize he hagain)
      refine ⟨(name, .text e'), ?_, by simpa [extractorExpression?, hregex] using hsame⟩
      rw [extractor, if_neg hnot, he']
      rfl
  | null | bool | number | list | mapping => simp [extractor] at hy

/-- An extractor keeps its name. -/
theorem fst_of_extractor {entry converted : String × Value} (h : extractor entry = .ok converted) :
    converted.1 = entry.1 := by
  obtain ⟨name, v⟩ := entry
  cases v with
  | text raw =>
    rw [extractor] at h
    split at h
    · cases h
      rfl
    · obtain ⟨e, -, rfl⟩ := map_eq_ok.1 h
      rfl
  | null | bool | number | list | mapping => simp [extractor] at h

theorem keys_of_mapM_extractor {m converted : Mapping} (h : m.mapM extractor = .ok converted) :
    keys converted = keys m := by
  induction m generalizing converted with
  | nil =>
    cases h
    rfl
  | cons entry m ih =>
    simp only [List.mapM_cons, bind_eq_ok] at h
    obtain ⟨y, hy, ys, hys, h⟩ := h
    cases h
    have htail := ih hys
    simp only [keys, List.map_cons] at htail ⊢
    rw [fst_of_extractor hy, htail]

/-- The extractors of a value as one mapping, before their expressions are converted. -/
def mergedExtractors : Value → Except SchemaFault Mapping
  | .mapping m => .ok (Mapping.merge [] m)
  | .list items => mergeExtractors [] items
  | v => .error (.badExtractors v)

theorem extractors_eq (v : Value) :
    extractors v = mergedExtractors v >>= fun m => m.mapM extractor := by
  cases v <;> rfl

theorem nodup_keys_mergeExtractors {done m : Mapping} {items : List Value}
    (hdone : (keys done).Nodup) (h : mergeExtractors done items = .ok m) : (keys m).Nodup := by
  induction items generalizing done with
  | nil =>
    cases h
    exact hdone
  | cons item items ih =>
    cases item with
    | mapping more => exact ih (nodup_keys_merge hdone more) h
    | null | bool | number | text | list => simp [mergeExtractors] at h

theorem nodup_keys_mergedExtractors {v : Value} {m : Mapping} (h : mergedExtractors v = .ok m) :
    (keys m).Nodup := by
  cases v with
  | mapping entries =>
    cases h
    exact nodup_keys_merge (by simp [keys]) entries
  | list items => exact nodup_keys_mergeExtractors (by simp [keys]) h
  | null | bool | number | text => simp [mergedExtractors] at h

/-- The expressions of the extractors of a value. -/
def extractExpressions (v : Value) : List String :=
  match mergedExtractors v with
  | .ok m => m.filterMap extractorExpression?
  | .error _ => []

theorem settles_extractors : Settles (fun v => (extractors v).map .mapping) fun v =>
    ∀ e ∈ extractExpressions v, indexAfterHyphen e = false := by
  intro v w hw
  obtain ⟨converted, hconverted, rfl⟩ := map_eq_ok.1 hw
  rw [extractors_eq, bind_eq_ok] at hconverted
  obtain ⟨m, hm, hmapM⟩ := hconverted
  obtain ⟨again, hagain, hsame⟩ := settles_extractor.mapM hmapM
  -- the converted extractors have distinct keys, so merging them once more changes nothing
  have hnodup : (keys converted).Nodup := by
    rw [keys_of_mapM_extractor hmapM]
    exact nodup_keys_mergedExtractors hm
  refine ⟨.mapping again, ?_, ?_⟩
  · refine map_eq_ok.2 ⟨again, ?_, rfl⟩
    rw [extractors_eq, mergedExtractors, merge_nil hnodup]
    exact hagain
  · have hexpressions : extractExpressions v = m.filterMap extractorExpression? := by
      rw [extractExpressions, hm]
    rw [Value.mapping.injEq, hsame]
    simp only [hexpressions, List.mem_filterMap]
    constructor
    · rintro h e ⟨entry, hentry, he⟩
      exact h entry hentry e he
    · exact fun h entry hentry e he => h e ⟨entry, hentry, he⟩

/-! ## Validators -/

/-- The check of a validator that is named by its comparator alone, where it is a text. -/
def shortCheck? : Mapping → Option String
  | [(_, .list (.text check :: _))] => some check
  | _ => none

/-- The check of a validator in either notation, where it is a text. -/
def check? : Value → Option String
  | .mapping m =>
    if Mapping.has "check" m && Mapping.has "expect" m then
      (Mapping.get? "check" m).bind Value.text?
    else shortCheck? m
  | _ => none

/-- A validator that has a check is in one of the two notations. -/
theorem check?_cases {v : Value} {check : String} (h : check? v = some check) :
    (∃ m, v = .mapping m ∧ get? "check" m = some (.text check) ∧ has "expect" m) ∨
      ∃ comparator rest, v = .mapping [(comparator, .list (.text check :: rest))] := by
  cases v with
  | mapping m =>
    rw [check?] at h
    split at h
    · next hfull =>
      rw [Bool.and_eq_true] at hfull
      obtain ⟨v, hv, htext⟩ := Option.bind_eq_some_iff.1 h
      cases v with
      | text s =>
        cases htext
        exact .inl ⟨m, rfl, hv, hfull.2⟩
      | null | bool | number | list | mapping => simp [Value.text?] at htext
    · unfold shortCheck? at h
      split at h
      · cases h
        exact .inr ⟨_, _, rfl⟩
      · simp at h
  | null | bool | number | text | list => simp [check?] at h

theorem validator_full {m : Mapping} {check : String} (hcheck : get? "check" m = some (.text check))
    (hexpect : has "expect" m) :
    check? (.mapping m) = some check ∧ validator (.mapping m)
      = (modernize check).map fun e => .mapping (Mapping.set "check" (.text e) m) := by
  have hboth : (has "check" m && has "expect" m) = true := by
    simp [has, hcheck, show (get? "expect" m).isSome from hexpect]
  constructor
  · simp [check?, hboth, hcheck, Value.text?]
  · simp [validator, hboth, hcheck]

/-- A single entry is not both the check and the expected value. -/
theorem not_full_single (comparator : String) (v : Value) :
    (has "check" [(comparator, v)] && has "expect" [(comparator, v)]) = false := by
  by_cases hc : comparator = "check"
  · simp [has, get?, hc]
  · simp [has, get?, hc]

theorem check?_short (comparator check : String) (rest : List Value) :
    check? (.mapping [(comparator, .list (.text check :: rest))]) = some check := by
  simp [check?, not_full_single, shortCheck?]

theorem validator_short (comparator check : String) (rest : List Value) :
    validator (.mapping [(comparator, .list (.text check :: rest))])
      = (modernize check).map fun e => .mapping [(comparator, .list (.text e :: rest))] := by
  simp [validator, not_full_single]

theorem validator_of_check?_eq_none {v : Value} (h : check? v = none) : validator v = .ok v := by
  cases v with
  | mapping m =>
    rw [check?] at h
    simp only [validator]
    split
    · next hfull =>
      rw [if_pos hfull] at h
      split
      · next s hs => simp [hs, Value.text?] at h
      · rfl
    · next hnot =>
      rw [if_neg hnot] at h
      split
      · simp [shortCheck?] at h
      · rfl
  | null | bool | number | text | list => rfl

theorem settles_validator :
    Settles validator fun v => ∀ e ∈ check? v, indexAfterHyphen e = false := by
  intro v w hw
  cases hcheck : check? v with
  | none =>
    have hv := validator_of_check?_eq_none hcheck
    rw [hv] at hw
    cases hw
    exact ⟨v, hv, by simp [hcheck]⟩
  | some check =>
    -- The check is the only part that changes, in either notation.
    rcases check?_cases hcheck with ⟨m, rfl, hget, hexpect⟩ | ⟨comparator, rest, rfl⟩
    · rw [(validator_full hget hexpect).2, map_eq_ok] at hw
      obtain ⟨e, he, rfl⟩ := hw
      obtain ⟨e', he', hsame⟩ := modernize_again he
      have hexpect' : has "expect" (Mapping.set "check" (.text e) m) := by
        rw [has, get?_set_of_ne (by decide)]
        exact hexpect
      refine ⟨.mapping (Mapping.set "check" (.text e') m), ?_, ?_⟩
      · rw [(validator_full (get?_set_self _ _ _) hexpect').2, he', Except.map, set_set]
      · simpa [set_inj, hcheck] using hsame
    · rw [validator_short, map_eq_ok] at hw
      obtain ⟨e, he, rfl⟩ := hw
      obtain ⟨e', he', hsame⟩ := modernize_again he
      refine ⟨.mapping [(comparator, .list (.text e' :: rest))], ?_, by simpa [hcheck] using hsame⟩
      rw [validator_short, he', Except.map]

/-- The checks of a list of validators. -/
def checkExpressions : Value → List String
  | .list vs => vs.filterMap check?
  | _ => []

theorem settles_stepValidators : Settles stepValidators fun v =>
    ∀ e ∈ checkExpressions v, indexAfterHyphen e = false := by
  intro v w hw
  cases v with
  | list vs =>
    obtain ⟨ws, hws, rfl⟩ := map_eq_ok.1 hw
    obtain ⟨again, hagain, hsame⟩ := settles_validator.mapM hws
    refine ⟨.list again, map_eq_ok.2 ⟨again, hagain, rfl⟩, ?_⟩
    rw [Value.list.injEq, hsame]
    simp only [checkExpressions, List.mem_filterMap]
    constructor
    · rintro h e ⟨entry, hentry, he⟩
      exact h entry hentry e he
    · exact fun h entry hentry e he => h e ⟨entry, hentry, he⟩
  | null | bool | number | text | mapping => simp [stepValidators] at hw

/-! ## Attachments -/

theorem get?_entriesOf (key : String) (ks : List String) (m : Mapping) :
    get? key (entriesOf ks m) = if key ∈ ks then get? key m else none := by
  induction ks with
  | nil => rfl
  | cons k ks ih =>
    rw [entriesOf, List.filterMap_cons]
    cases hk : get? k m with
    | none =>
      rw [Option.map_none, ← entriesOf, ih]
      by_cases hkey : key = k
      · simp [hkey, hk]
      · simp [hkey]
    | some v =>
      rw [Option.map_some, ← entriesOf, get?, ih]
      by_cases hkey : k = key
      · simp [hkey, ← hk]
      · simp [hkey, Ne.symm hkey]

/-- Only what the keys have counts. -/
theorem entriesOf_congr {ks : List String} {m n : Mapping} (h : ∀ k ∈ ks, get? k m = get? k n) :
    entriesOf ks m = entriesOf ks n :=
  List.filterMap_congr fun k hk => by rw [h k hk]

theorem get?_convertedEntry_of_ne {key other : String} {convert : Value → Except SchemaFault Value}
    {m entry : Mapping} (h : convertedEntry key convert m = .ok entry) (hne : other ≠ key) :
    get? other entry = none := by
  rw [convertedEntry] at h
  split at h
  · cases h
    rfl
  · obtain ⟨w, -, rfl⟩ := map_eq_ok.1 h
    simp [get?, hne.symm]

/-- An entry that was converted can be converted again, and the settled ones stay. -/
theorem convertedEntry_again {key : String} {convert : Value → Except SchemaFault Value}
    {P : Value → Prop} (hconvert : Settles convert P) {m n entry : Mapping}
    (h : convertedEntry key convert m = .ok entry) (hn : get? key n = get? key entry) :
    ∃ again, convertedEntry key convert n = .ok again ∧ again.length = entry.length ∧
      (again = entry ↔ ∀ v ∈ get? key m, P v) := by
  rw [convertedEntry] at h
  cases hv : get? key m with
  | none =>
    rw [hv] at h
    cases h
    exact ⟨[], by rw [convertedEntry, hn]; rfl, rfl, by simp⟩
  | some v =>
    rw [hv, map_eq_ok] at h
    obtain ⟨w, hw, rfl⟩ := h
    obtain ⟨z, hz, hsame⟩ := hconvert hw
    refine ⟨[(key, z)], ?_, rfl, by simpa using hsame⟩
    have hget : get? key n = some w := by simp [hn, get?]
    rw [convertedEntry, hget]
    exact map_eq_ok.2 ⟨z, hz, rfl⟩

/-- The attachments of a step from the two entries that are converted. -/
def attachedTo (step : Mapping) (name : Value) (extract validate : Mapping) : Mapping :=
  ("name", name) :: entriesOf ["variables", "setup_hooks", "teardown_hooks"] step
    ++ extract ++ entriesOf ["export"] step ++ validate

theorem attachments_eq_ok {step attached : Mapping} :
    attachments step = .ok attached ↔ ∃ name extract validate, get? "name" step = some name ∧
      convertedEntry "extract" (fun v => (extractors v).map .mapping) step = .ok extract ∧
      convertedEntry "validate" stepValidators step = .ok validate ∧
      attachedTo step name extract validate = attached := by
  rw [attachments]
  cases get? "name" step with
  | none => simp
  | some name =>
    simp only [bind_eq_ok]
    constructor
    · rintro ⟨extract, hextract, validate, hvalidate, h⟩
      cases h
      exact ⟨name, extract, validate, rfl, hextract, hvalidate, rfl⟩
    · rintro ⟨_, extract, validate, hname, hextract, hvalidate, rfl⟩
      cases hname
      exact ⟨extract, hextract, validate, hvalidate, rfl⟩

/-- The expressions of a step, in its extractors and in its checks. -/
def expressions (step : Mapping) : List String :=
  ((get? "extract" step).elim [] extractExpressions)
    ++ (get? "validate" step).elim [] checkExpressions

theorem get?_attachedTo {key : String} (hkey : key ≠ "name") (step : Mapping) (name : Value)
    (extract validate : Mapping) : get? key (attachedTo step name extract validate)
      = (((get? key (entriesOf ["variables", "setup_hooks", "teardown_hooks"] step)).or
        (get? key extract)).or (get? key (entriesOf ["export"] step))).or (get? key validate) := by
  rw [attachedTo, get?_append, get?_append, get?_append, get?, if_neg hkey.symm]

/-- The extractors of attachments are those that were converted. -/
theorem get?_extract_attachedTo {step validate : Mapping}
    (hvalidate : convertedEntry "validate" stepValidators step = .ok validate) (name : Value)
    (extract : Mapping) :
    get? "extract" (attachedTo step name extract validate) = get? "extract" extract := by
  rw [get?_attachedTo (by decide), get?_convertedEntry_of_ne hvalidate (by decide)]
  simp [get?_entriesOf]

/-- The validators of attachments are those that were converted. -/
theorem get?_validate_attachedTo {step extract : Mapping}
    (hextract : convertedEntry "extract" (fun v => (extractors v).map .mapping) step = .ok extract)
    (name : Value) (validate : Mapping) :
    get? "validate" (attachedTo step name extract validate) = get? "validate" validate := by
  rw [get?_attachedTo (by decide), get?_convertedEntry_of_ne hextract (by decide)]
  simp [get?_entriesOf]

theorem attachedTo_inj {step : Mapping} {name : Value} {extract extract' validate validate' : Mapping}
    (hlength : extract'.length = extract.length) :
    attachedTo step name extract' validate' = attachedTo step name extract validate ↔
      extract' = extract ∧ validate' = validate := by
  refine ⟨fun h => ?_, fun h => by rw [h.1, h.2]⟩
  rw [attachedTo, attachedTo] at h
  obtain ⟨hfront, hvalidate⟩ := List.append_inj h (by simp [hlength])
  have hextract := List.append_cancel_left (List.append_cancel_right hfront)
  exact ⟨hextract, hvalidate⟩

/-- The keys of what a step has besides its action. -/
def attachmentKeys : List String :=
  ["name", "variables", "setup_hooks", "teardown_hooks", "extract", "export", "validate"]

/-- Attachments behind an entry of another key can be attached to again, and stay as they are exactly where
no expression has an index right behind a hyphen. -/
theorem attachments_again_behind {step attached : Mapping} (h : attachments step = .ok attached)
    {action : String} (haction : action ∉ attachmentKeys) (value : Value) :
    ∃ again, attachments ((action, value) :: attached) = .ok again ∧
      (again = attached ↔ ∀ e ∈ expressions step, indexAfterHyphen e = false) := by
  obtain ⟨name, extract, validate, hname, hextract, hvalidate, rfl⟩ := attachments_eq_ok.1 h
  set whole := (action, value) :: attachedTo step name extract validate with hwhole
  have hget : ∀ key ∈ attachmentKeys,
      get? key whole = get? key (attachedTo step name extract validate) := by
    intro key hkey
    rw [hwhole, get?, if_neg (ne_of_mem_of_not_mem hkey haction).symm]
  -- the second run finds its own two entries converted and all the others unchanged
  have hsame : ∀ key ∈ ["variables", "setup_hooks", "teardown_hooks", "export"],
      get? key whole = get? key step := by
    intro key hkey
    simp only [List.mem_cons, List.not_mem_nil, or_false] at hkey
    rcases hkey with rfl | rfl | rfl | rfl
    all_goals
      rw [hget _ (by decide), get?_attachedTo (by decide),
        get?_convertedEntry_of_ne hextract (by decide),
        get?_convertedEntry_of_ne hvalidate (by decide)]
      simp [get?_entriesOf]
  have hfoundExtract : get? "extract" whole = get? "extract" extract := by
    rw [hget _ (by decide), get?_extract_attachedTo hvalidate]
  have hfoundValidate : get? "validate" whole = get? "validate" validate := by
    rw [hget _ (by decide), get?_validate_attachedTo hextract]
  -- Each of the two converted entries settles on its own.
  obtain ⟨extract', hextract', hlength, hextractIff⟩ :=
    convertedEntry_again settles_extractors hextract hfoundExtract
  obtain ⟨validate', hvalidate', -, hvalidateIff⟩ :=
    convertedEntry_again settles_stepValidators hvalidate hfoundValidate
  have hfoundName : get? "name" whole = some name := by
    rw [hget _ (by decide)]
    simp [attachedTo, get?]
  refine ⟨attachedTo whole name extract' validate', attachments_eq_ok.2
    ⟨name, extract', validate', hfoundName, hextract', hvalidate', rfl⟩, ?_⟩
  have hwholeEq : attachedTo whole name extract' validate'
      = attachedTo step name extract' validate' := by
    rw [attachedTo, attachedTo, entriesOf_congr fun k hk => hsame k (by simp at hk ⊢; tauto),
      entriesOf_congr fun k hk => hsame k (by simp at hk ⊢; tauto)]
  rw [hwholeEq, attachedTo_inj hlength, hextractIff, hvalidateIff, expressions]
  cases get? "extract" step <;> cases get? "validate" step <;>
    simp [or_imp, forall_and]

/-- A request with its attachments can be attached to again. -/
theorem attachments_again {step attached : Mapping} (h : attachments step = .ok attached)
    (request : Value) :
    ∃ again, attachments (("request", request) :: attached) = .ok again ∧
      (again = attached ↔ ∀ e ∈ expressions step, indexAfterHyphen e = false) :=
  attachments_again_behind h (by decide) request

/-! ## One step, promoted and by hand -/

/-- A testcase of one step. -/
def single (config step : Mapping) : Mapping :=
  [("config", .mapping config), ("teststeps", .list [.mapping step])]

/-- A testcase of one step is normalized by its step. -/
theorem normalize_single (config s : Mapping) :
    normalize (.mapping (single config s)) = (step (.mapping s)).map fun converted =>
      [("config", .mapping config), ("teststeps", .list [converted])] := by
  cases h : step (.mapping s) <;>
    simp [normalize, single, isApi, has, get?, current, h, bind, Except.bind, Except.map, pure,
      Except.pure]

theorem step_of_request {s : Mapping} {request : Value} (h : get? "request" s = some request) :
    step (.mapping s) = (attachments s).map fun rest => .mapping (("request", request) :: rest) := by
  simp [step, action?, h]

/-- The names that a request extracts, once its extractors are converted. -/
def exportedNames (api : Mapping) : List String :=
  match get? "extract" api with
  | some v => (extractors v).toOption.elim [] keys
  | none => []

/-- The config of a testcase around a request: its name, and what it extracts if there is any. -/
def configByHand (api : Mapping) : Mapping :=
  ("name", (get? "name" api).getD .null) ::
    if (exportedNames api).isEmpty then []
    else [("export", .list ((exportedNames api).map .text))]

/-- The testcase of one step that one would write around a request. -/
def byHand (api : Mapping) : Mapping := single (configByHand api) api

theorem extractedNames_of_attachments {api attached : Mapping} (h : attachments api = .ok attached) :
    extractedNames attached = (exportedNames api).map .text := by
  obtain ⟨name, extract, validate, -, hextract, hvalidate, rfl⟩ := attachments_eq_ok.1 h
  rw [extractedNames, get?_extract_attachedTo hvalidate, exportedNames]
  rw [convertedEntry] at hextract
  cases hv : get? "extract" api with
  | none =>
    rw [hv] at hextract
    cases hextract
    rfl
  | some v =>
    rw [hv] at hextract
    obtain ⟨w, hw, rfl⟩ := map_eq_ok.1 hextract
    obtain ⟨m, hm, rfl⟩ := map_eq_ok.1 hw
    simp [get?, hm, Except.toOption]

/-- A request is normalized as the testcase of one step that has its attachments already. -/
theorem normalize_of_isApi {api : Mapping} {request : Value} (hname : has "name" api)
    (hrequest : get? "request" api = some request) :
    normalize (.mapping api) = attachments api >>= fun attached =>
      normalize (.mapping (single (configByHand api) (("request", request) :: attached))) := by
  have hapi : isApi api := by
    rw [isApi, has, hrequest, hname]
    rfl
  cases h : attachments api with
  | error fault => simp [normalize, hapi, promote, hrequest, h, bind, Except.bind]
  | ok attached =>
    have hnames := extractedNames_of_attachments h
    -- What is promoted is a testcase, so it is not promoted again.
    have hpromote : promote api
        = .ok (single (configByHand api) (("request", request) :: attached)) := by
      simp [promote, hrequest, h, hnames, bind, Except.bind, pure, Except.pure, single, configByHand]
    have hnot : isApi (single (configByHand api) (("request", request) :: attached)) = false := by
      simp [isApi, single, has, get?]
    simp [normalize, hapi, hpromote, hnot, bind, Except.bind]

/-- **A request and its testcase by hand.**  Both are refused with the same fault, or both have a
normalized document; the two documents are equal exactly if no expression of the request has an index
right behind a segment with a hyphen. -/
theorem normalize_request_byHand (api : Mapping) (hname : has "name" api)
    (hrequest : has "request" api) :
    (∀ fault, normalize (.mapping (byHand api)) = .error fault →
      normalize (.mapping api) = .error fault) ∧
    ∀ document, normalize (.mapping (byHand api)) = .ok document →
      ∃ promoted, normalize (.mapping api) = .ok promoted ∧
        (promoted = document ↔ ∀ e ∈ expressions api, indexAfterHyphen e = false) := by
  obtain ⟨request, hget⟩ := Option.isSome_iff_exists.1 hrequest
  rw [normalize_of_isApi hname hget, byHand, normalize_single, step_of_request hget]
  cases h : attachments api with
  | error fault => simp [Except.map, bind, Except.bind]
  | ok attached =>
    refine ⟨by simp [Except.map], fun document hdocument => ?_⟩
    cases hdocument
    obtain ⟨again, hagain, hiff⟩ := attachments_again h request
    refine ⟨[("config", .mapping (configByHand api)),
      ("teststeps", .list [.mapping (("request", request) :: again)])], ?_, by simpa using hiff⟩
    show normalize (.mapping (single _ _)) = _
    have hwhole : get? "request" (("request", request) :: attached) = some request := by
      simp [get?]
    rw [normalize_single, step_of_request hwhole, hagain]
    rfl

/-- A request that extracts by the given expression. -/
def extracting (e : String) : Mapping :=
  [("name", .text "item"), ("request", .mapping []), ("extract", .mapping [("v", .text e)])]

/-- The normalized testcase of one step that extracts by the given expression. -/
def extractingTestcase (e : String) : Mapping :=
  [("config", .mapping [("name", .text "item"), ("export", .list [.text "v"])]),
    ("teststeps", .list [.mapping [("request", .mapping []), ("name", .text "item"),
      ("extract", .mapping [("v", .text e)])]])]

theorem normalize_request_byHand_quoted :
    has "name" (extracting "content.items.0.X-Id") ∧
      has "request" (extracting "content.items.0.X-Id") ∧
      normalize (.mapping (extracting "content.items.0.X-Id"))
        = .ok (extractingTestcase "body.items[0].\"X-Id\"") := by
  refine ⟨rfl, rfl, ?_⟩
  have hhand : normalize (.mapping (byHand (extracting "content.items.0.X-Id")))
      = .ok (extractingTestcase "body.items[0].\"X-Id\"") := rfl
  obtain ⟨promoted, hpromoted, hiff⟩ :=
    (normalize_request_byHand (extracting "content.items.0.X-Id") rfl rfl).2 _ hhand
  rw [hpromoted, hiff.2]
  simp only [show expressions (extracting "content.items.0.X-Id") = ["content.items.0.X-Id"] from rfl,
    List.mem_singleton, forall_eq]
  decide

/-- An item of a header with a hyphen gets one quote more in the promoted testcase. -/
theorem normalize_request_ne_byHand :
    has "name" (extracting "headers.X-List.0") ∧ has "request" (extracting "headers.X-List.0") ∧
      normalize (.mapping (extracting "headers.X-List.0"))
        = .ok (extractingTestcase "headers.\"X-List\"[0]\"") ∧
      normalize (.mapping (byHand (extracting "headers.X-List.0")))
        = .ok (extractingTestcase "headers.\"X-List\"[0]") ∧
      normalize (.mapping (extracting "headers.X-List.0"))
        ≠ normalize (.mapping (byHand (extracting "headers.X-List.0"))) := by
  have hpromoted : normalize (.mapping (extracting "headers.X-List.0"))
      = .ok (extractingTestcase "headers.\"X-List\"[0]\"") := rfl
  have hhand : normalize (.mapping (byHand (extracting "headers.X-List.0")))
      = .ok (extractingTestcase "headers.\"X-List\"[0]") := rfl
  refine ⟨rfl, rfl, hpromoted, hhand, ?_⟩
  rw [hpromoted, hhand]
  simp [extractingTestcase]

end TestScribe.Legacy
