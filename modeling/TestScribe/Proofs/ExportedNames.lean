/-
# The names that documents export

A testcase exports the names that the config of its document lists.  A single request exports the names that it
extracts: it is promoted to a testcase whose config lists these.  A step that calls a testcase exports its own names
and then those of the testcase, each once.  Both a merge of exports and a merge of extractors add names that are new
behind the others, so that names stand in the order of their first occurrences.

* `foldl_addName` : names that are added where they are new;
* `MergesExports` : the exports of a step with those of what it calls;
* `Legacy.declaredExports` : the names that a document exports;
* `Testcase.exports_of_normalize` : a testcase exports what its document declares.
-/
import TestScribe.Making
import TestScribe.Proofs.Spelling

namespace TestScribe

/-! ## Names without repetition -/

/-- Names that are added one after the other, where they are new, go behind the others in the order of their first
occurrences. -/
theorem foldl_addName (names more : List String) :
    more.foldl (fun names x => if names.contains x then names else names ++ [x]) names
      = names ++ (more.filter (· ∉ names)).eraseDups := by
  induction more generalizing names with
  | nil => simp
  | cons x more ih =>
    rw [List.foldl_cons, ih]
    by_cases hx : x ∈ names
    · simp [hx]
    · have hrest : more.filter (· ∉ names ++ [x]) = (more.filter (· ∉ names)).filter (fun y => !y == x) := by
        rw [List.filter_filter]
        congr
        funext y
        by_cases hy : y = x <;> simp [hy]
      rw [if_neg (by simpa using hx), hrest, List.filter_cons_of_pos (by simpa using hx), List.eraseDups_cons,
        List.append_assoc, List.singleton_append]

/-- The exports of a step and of what it calls are put together: its own names come first, then the others in the
order of their first occurrences.  They are absent only if the step has none of its own and there are no others. -/
structure MergesExports (own : Option (List String)) (called : List String) (merged : Option (List String)) :
    Prop where
  names : merged.getD [] = own.getD [] ++ (called.filter (· ∉ own.getD [])).eraseDups
  absent : merged = none ↔ own = none ∧ called = []

theorem mergesExports_mergeExports (own : Option (List String)) (called : List String) :
    MergesExports own called (mergeExports own called) := by
  unfold mergeExports
  split
  · next hempty =>
    rw [List.isEmpty_iff] at hempty
    subst hempty
    exact ⟨by simp, by simp⟩
  · next hempty =>
    rw [List.isEmpty_iff] at hempty
    exact ⟨foldl_addName _ _, by simp [hempty]⟩

/-! ## What a document exports -/

theorem Mapping.keys_merge (m more : Mapping) :
    keys (merge m more) = keys m ++ ((keys more).filter (· ∉ keys m)).eraseDups := by
  rw [← foldl_addName]
  induction more generalizing m with
  | nil => rfl
  | cons entry more ih =>
    show keys (merge (set entry.1 entry.2 m) more) = (keys more).foldl _ _
    rw [ih, keys_set]
    by_cases hkey : entry.1 ∈ keys m <;> simp [hkey]

namespace Legacy

open Mapping

/-- The names for which a value lists extractors, in one mapping or in several. -/
def listedNames : Value → List String
  | .mapping m => keys m
  | .list items => items.flatMap fun item => keys (item.mapping?.getD [])
  | _ => []

/-- The texts that a mapping lists under a key. -/
def listedTexts (key : String) (m : Mapping) : List String :=
  match get? key m with
  | some (.list items) => items.filterMap Value.text?
  | _ => []

/-- The names that a document exports: those that its config lists, or those that it extracts if it is a single
request. -/
def declaredExports (raw : Value) : List String :=
  let document := raw.mapping?.getD []
  if isApi document then (((get? "extract" document).map listedNames).getD []).eraseDups
  else listedTexts "export" (((get? "config" document).bind Value.mapping?).getD [])

theorem keys_mergeExtractors {done m : Mapping} {items : List Value} (h : mergeExtractors done items = .ok m) :
    keys m = keys done ++ ((listedNames (.list items)).filter (· ∉ keys done)).eraseDups := by
  rw [← foldl_addName]
  induction items generalizing done with
  | nil =>
    cases h
    rfl
  | cons item items ih =>
    cases item with
    | mapping more =>
      rw [ih h, keys_merge, ← foldl_addName]
      simp [listedNames, Value.mapping?]
    | null | bool | number | text | list => simp [mergeExtractors] at h

/-- Extractors have the names that are listed, each once. -/
theorem keys_of_extractors {v : Value} {m : Mapping} (h : extractors v = .ok m) :
    keys m = (listedNames v).eraseDups := by
  rw [extractors_eq] at h
  obtain ⟨merged, hmerged, h⟩ := bind_eq_ok.1 h
  rw [keys_of_mapM_extractor h]
  cases v with
  | mapping entries =>
    cases hmerged
    rw [keys_merge]
    simp [listedNames, keys]
  | list items =>
    rw [keys_mergeExtractors hmerged]
    simp [keys]
  | null | bool | number | text => cases hmerged

theorem exportedNames_eq {api attached : Mapping} (h : attachments api = .ok attached) :
    exportedNames api = (((get? "extract" api).map listedNames).getD []).eraseDups := by
  obtain ⟨name, extract, validate, -, hextract, -⟩ := attachments_eq_ok.1 h
  rw [exportedNames]
  rw [convertedEntry] at hextract
  cases hv : get? "extract" api with
  | none => rfl
  | some v =>
    rw [hv] at hextract
    obtain ⟨w, hw, -⟩ := map_eq_ok.1 hextract
    obtain ⟨m, hm, -⟩ := map_eq_ok.1 hw
    simp [hm, Except.toOption, keys_of_extractors hm]

/-- A testcase around a request lists what the request extracts. -/
theorem listedTexts_configByHand (api : Mapping) : listedTexts "export" (configByHand api) = exportedNames api := by
  cases hnames : exportedNames api with
  | nil => simp [listedTexts, configByHand, hnames, get?]
  | cons name names => simp [listedTexts, configByHand, hnames, get?, Value.text?, Function.comp_def]

/-- The config of a normalized document lists what the document exports. -/
theorem exists_config_of_normalize {raw : Value} {d : Mapping} (h : normalize raw = .ok d) :
    ∃ config steps, d = document config steps ∧ listedTexts "export" config = declaredExports raw := by
  cases raw with
  | mapping m =>
    rw [declaredExports, Value.mapping?, Option.getD_some]
    by_cases hapi : isApi m
    · obtain ⟨hrequest, hname⟩ := Bool.and_eq_true_iff.1 hapi
      obtain ⟨request, hget⟩ := Option.isSome_iff_exists.1 hrequest
      rw [normalize_of_isApi hname hget, bind_eq_ok] at h
      obtain ⟨attached, hattached, h⟩ := h
      change normalize (.mapping (document (configByHand m) [.mapping (("request", request) :: attached)]))
        = _ at h
      rw [normalize_document, map_eq_ok] at h
      obtain ⟨steps, -, rfl⟩ := h
      refine ⟨configByHand m, steps, rfl, ?_⟩
      rw [listedTexts_configByHand, exportedNames_eq hattached, if_pos hapi]
    · obtain ⟨config, -, steps, hconfig, -, -, rfl⟩ := (normalize_eq_ok_of_not_isApi hapi).1 h
      exact ⟨config, steps, rfl, by rw [if_neg hapi, hconfig]; rfl⟩
  | null | bool | number | text | list => simp [normalize] at h

end Legacy

theorem Field.getD_of_texts? {place : Place} {key : String} {m : Mapping} {texts : Option (List String)}
    (h : texts? place key m = .ok texts) : texts.getD [] = Legacy.listedTexts key m := by
  rw [texts?] at h
  rw [Legacy.listedTexts]
  split at h
  · next items hkey =>
    obtain ⟨names, hnames, rfl⟩ := map_eq_ok.1 h
    rw [hkey, Spelling.eq_map_text_of_mapM_item hnames]
    simp [Value.text?, Function.comp_def]
  · cases h
  · next hkey =>
    cases h
    rw [hkey]
    rfl

theorem Config.exports_of_ofMapping {m : Mapping} {source : Path} {config : Config}
    (h : ofMapping m source = .ok config) : config.exports.getD [] = Legacy.listedTexts "export" m := by
  simp only [ofMapping, bind_eq_ok] at h
  -- the exports are the last of the eight fields that are read
  obtain ⟨_, -, _, -, _, -, _, -, _, -, _, -, _, -, _, hexports, h⟩ := h
  cases h
  exact Field.getD_of_texts? hexports

/-- A testcase exports what its document declares. -/
theorem Testcase.exports_of_normalize {raw : Value} {document : Mapping} {source : Path} {testcase : Testcase}
    (hdocument : Legacy.normalize raw = .ok document) (htestcase : ofDocument document source = .ok testcase) :
    testcase.config.exports.getD [] = Legacy.declaredExports raw := by
  obtain ⟨config, steps, rfl, hdeclared⟩ := Legacy.exists_config_of_normalize hdocument
  obtain ⟨read, hread, h⟩ := bind_eq_ok.1 htestcase
  obtain ⟨_, -, h⟩ := bind_eq_ok.1 h
  cases h
  rw [← hdeclared, ← Config.exports_of_ofMapping hread]

end TestScribe
