/-
# Request steps, call by call

A step that sends a request becomes one chain of calls.  The chain is compared here with the step as its
document has it, before any older shape is brought up to date: a key that is present gives its calls, with
its value as their arguments, a key that is left out gives none, and the calls stand in one order.

* `Spelling.Given` : the calls that a key gives, by a rule for its value;
* `Spelling.rules` : what the keys of a step and of its request give, in order;
* `Spelling.SpelledOut` : a step that sends a request is the chain of calls that the rules give.
-/
import TestScribe.Chain
import TestScribe.Proofs.Recasting

namespace TestScribe.Spelling

open Expression Legacy Mapping

/-! ## Rules -/

/-- A rule says which calls a value gives. -/
abbrev Rule := Value → List Call → Prop

/-- The calls that a key gives: none where it is left out, and else those of its value. -/
def Given (key : String) (m : Mapping) (rule : Rule) (calls : List Call) : Prop :=
  match get? key m with
  | none => calls = []
  | some v => rule v calls

/-- One call, with the value as its argument. -/
def One (method : String) (spell : Value → String) : Rule := fun v calls => calls = [⟨method, spell v⟩]

/-- One call for each item of a list. -/
def Each (spells : Value → Call → Prop) : Rule :=
  fun v calls => ∃ items, v = .list items ∧ List.Forall₂ spells items calls

/-- A call without arguments, and then the calls of another rule. -/
def Announced (method : String) (rule : Rule) : Rule :=
  fun v calls => ∃ rest, rule v rest ∧ calls = ⟨method, ""⟩ :: rest

/-- Calls are what some rules give, one after the other and nothing else. -/
inductive Follows : List (List Call → Prop) → List Call → Prop
  | nil : Follows [] []
  | cons {rule : List Call → Prop} {rules : List (List Call → Prop)} {calls rest : List Call}
      (h : rule calls) (hrest : Follows rules rest) : Follows (rule :: rules) (calls ++ rest)

/-! ## Values -/

/-- A mapping as keyword arguments. -/
def keywords (v : Value) : String := "**" ++ Literal.write v

/-- A list as positional arguments. -/
def positionals (v : Value) : String := "*" ++ Literal.write v

/-- What variables bind: nothing, a mapping, or a list of mappings with one key each. -/
inductive Binds : Value → Mapping → Prop
  | null : Binds .null []
  | mapping (m : Mapping) : Binds (.mapping m) m
  | list {entries m : Mapping} (h : Collects entries m) :
      Binds (.list (entries.map fun entry => .mapping [entry])) m

/-- One call binds all variables. -/
def Variables : Rule :=
  fun v calls => ∃ m, Binds v m ∧ calls = [⟨"with_variables", keywords (.mapping m)⟩]

/-- The call of a hook, whose result may be bound to a variable. -/
inductive IsHook (method : String) : Value → Call → Prop
  | expression (e : String) : IsHook method (.text e) ⟨method, Literal.double e⟩
  | binding (var e : String) :
      IsHook method (.mapping [(var, .text e)]) ⟨method, Literal.double e ++ ", " ++ Literal.double var⟩

/-- The call of one extractor: a mark at the beginning tells a regular expression, and any other expression
is brought to the current syntax. -/
inductive IsExtractor : String × Value → Call → Prop
  | regex (name pattern : String) : IsExtractor (name, .text ("regex:" ++ pattern))
      ⟨"with_regex", Literal.single pattern ++ ", " ++ Literal.single name⟩
  | path {name raw e : String} (hraw : Text.beginsWith "regex:" raw = false) (he : modernize raw = .ok e) :
      IsExtractor (name, .text raw)
        ⟨"with_jmespath", Literal.single e ++ ", " ++ Literal.single name⟩

/-- The entries of extractors, which are a mapping or a list of mappings. -/
inductive HasEntries : Value → Mapping → Prop
  | mapping (m : Mapping) : HasEntries (.mapping m) m
  | list (items : List Mapping) : HasEntries (.list (items.map .mapping)) items.flatten

/-- One call for each name that is extracted, where it first appears and with the value it has last. -/
def Extractors : Rule :=
  fun v calls => ∃ entries m, HasEntries v entries ∧ Collects entries m ∧ List.Forall₂ IsExtractor m calls

/-- The call of one validator in either notation, with its check brought to the current syntax. -/
inductive IsValidator : Value → Call → Prop
  | intro {m : Mapping} {d : Validator.Draft} {check e : String} (hd : Validator.draft m = .ok d)
      (hcheck : d.check = .text check) (he : modernize check = .ok e) :
      IsValidator (.mapping m) ⟨"assert_" ++ Comparator.longName d.comparator,
        Validator.quotedCheck e ++ ", " ++ Literal.body d.expected
          ++ if d.message = "" then "" else ", " ++ Literal.single d.message⟩

/-- The methods of requests, in capitals and as calls. -/
def methods : List (String × String) :=
  [("GET", "get"), ("POST", "post"), ("PUT", "put"), ("DELETE", "delete"), ("HEAD", "head"),
    ("OPTIONS", "options"), ("PATCH", "patch")]

/-- The call that sends a request, by its method and with its address. -/
def Sends (request : Mapping) (calls : List Call) : Prop :=
  ∃ name call url, get? "method" request = some (.text name) ∧ (Text.upper name, call) ∈ methods ∧
    get? "url" request = some (.text url) ∧ calls = [⟨call, Literal.double url⟩]

/-! ## Steps -/

/-- What a step has before its request. -/
def rulesBefore (step : Mapping) : List (List Call → Prop) :=
  [Given "variables" step Variables,
    Given "setup_hooks" step (Each (IsHook "setup_hook"))]

/-- What a request has. -/
def requestRules (request : Mapping) : List (List Call → Prop) :=
  [Sends request,
    Given "params" request (One "with_params" keywords),
    Given "headers" request (One "with_headers" keywords),
    Given "cookies" request (One "with_cookies" keywords),
    Given "data" request (One "with_data" Literal.body),
    Given "json" request (One "with_json" Literal.body),
    Given "timeout" request (One "set_timeout" Literal.write),
    Given "verify" request (One "set_verify" Literal.write),
    Given "allow_redirects" request (One "set_allow_redirects" Literal.write),
    Given "upload" request (One "upload" keywords)]

/-- What a step has after its request. -/
def rulesAfter (step : Mapping) : List (List Call → Prop) :=
  [Given "teardown_hooks" step (Each (IsHook "teardown_hook")),
    Given "extract" step (Announced "extract" Extractors),
    Given "export" step (One "export" positionals),
    Given "validate" step (Announced "validate" (Each IsValidator))]

/-- What the keys of a step and of its request give, in order. -/
def rules (step request : Mapping) : List (List Call → Prop) :=
  rulesBefore step ++ requestRules request ++ rulesAfter step

/-- The text of calls one after the other: each is a dot, the name of its method, and its arguments in
parentheses. -/
def written (calls : List Call) : String :=
  String.join (calls.map fun c => "." ++ c.method ++ "(" ++ c.arguments ++ ")")

/-- A step of a document has a name, and if it has a request, it is the text of the calls that the rules
give. -/
def SpelledOut (v : Value) (s : Step) : Prop :=
  ∃ step name, v = .mapping step ∧ get? "name" step = some (.text name) ∧
    (has "request" step → ∃ request calls, get? "request" step = some (.mapping request) ∧
      Follows (rules step request) calls ∧
      s.chain = .ok ("Step(RunRequest(" ++ Literal.double name ++ ")" ++ written calls ++ ")"))

/-! ## Following rules -/

theorem Follows.append {rules others : List (List Call → Prop)} {calls rest : List Call}
    (h : Follows rules calls) (hrest : Follows others rest) : Follows (rules ++ others) (calls ++ rest) := by
  induction h with
  | nil => exact hrest
  | cons hrule _ ih =>
    rw [List.append_assoc]
    exact .cons hrule ih

theorem Follows.snoc {rules : List (List Call → Prop)} {rule : List Call → Prop} {calls last : List Call}
    (h : Follows rules calls) (hlast : rule last) : Follows (rules ++ [rule]) (calls ++ last) := by
  have hone : Follows [rule] (last ++ []) := .cons hlast .nil
  rw [List.append_nil] at hone
  exact h.append hone

section Given

variable {key : String} {m n : Mapping} {rule : Rule} {calls : List Call}

theorem given_none (h : get? key m = none) : Given key m rule [] := by
  rw [Given, h]

theorem given_some {v : Value} (h : get? key m = some v) (hrule : rule v calls) :
    Given key m rule calls := by
  rwa [Given, h]

theorem Given.of_eq (h : Given key m rule calls) (heq : get? key m = get? key n) :
    Given key n rule calls := by
  rwa [Given, ← heq]

/-- Where a value was converted, its calls are those of the converted value. -/
theorem Given.of_convertedEntry {convert : Value → Except SchemaFault Value} {rule' : Rule} {entry : Mapping}
    (h : Given key entry rule calls) (hentry : convertedEntry key convert m = .ok entry)
    (hrule : ∀ v w, convert v = .ok w → rule w calls → rule' v calls) : Given key m rule' calls := by
  rw [convertedEntry] at hentry
  split at hentry
  · next hkey =>
    cases hentry
    rw [Given, hkey]
    exact h
  · next v hkey =>
    obtain ⟨w, hw, rfl⟩ := map_eq_ok.1 hentry
    rw [Given, get?, if_pos rfl] at h
    exact given_some hkey (hrule v w hw h)

end Given

/-! ## Fields -/

section Fields

variable {place : Place} {key : String} {m : Mapping}

theorem get?_of_text {s : String} (h : Field.text place key m = .ok s) : get? key m = some (.text s) := by
  rw [Field.text] at h
  split at h
  · next hkey =>
    cases h
    exact hkey
  · cases h
  · cases h

theorem given_value (method : String) (spell : Value → String) :
    Given key m (One method spell) (Call.given method spell (get? key m)) := by
  cases h : get? key m with
  | none => exact given_none h
  | some v => exact given_some h rfl

theorem given_mapping {o : Option Mapping} (h : Field.mapping? place key m = .ok o) (method : String) :
    Given key m (One method keywords) (Call.given method Call.keywords o) := by
  rw [Field.mapping?] at h
  split at h
  · next hkey =>
    cases h
    exact given_some hkey rfl
  · cases h
  · next hkey =>
    cases h
    exact given_none hkey

theorem given_bool {o : Option Bool} (h : Field.bool? place key m = .ok o) (method : String) :
    Given key m (One method Literal.write) (Call.given method Literal.bool o) := by
  rw [Field.bool?] at h
  split at h
  · next hkey =>
    cases h
    exact given_some hkey (by rw [One, Literal.write]; rfl)
  · cases h
  · next hkey =>
    cases h
    exact given_none hkey

theorem given_timeout {o : Option Number} (h : Request.timeoutOf place (get? key m) = .ok o)
    (method : String) : Given key m (One method Literal.write) (Call.given method Literal.number o) := by
  rw [Request.timeoutOf.eq_def] at h
  split at h
  · next hkey =>
    cases h
    exact given_none hkey
  · next hkey =>
    cases h
    exact given_some hkey (by rw [One, Literal.write]; rfl)
  · cases h

/-- The items of a list of texts are the texts. -/
theorem eq_map_text_of_mapM_item {items : List Value} {texts : List String}
    (h : items.mapM (Field.item place key) = .ok texts) : items = texts.map .text := by
  have hall := mapM_eq_ok.1 h
  induction hall with
  | nil => rfl
  | @cons v s _ _ hv hrest ih =>
    rw [List.map_cons, ← ih (mapM_eq_ok.2 hrest)]
    cases v with
    | text t =>
      cases hv
      rfl
    | null | bool | number | list | mapping => cases hv

theorem given_texts {o : Option (List String)} (h : Field.texts? place key m = .ok o) (method : String) :
    Given key m (One method positionals) (Call.given method Call.positionals o) := by
  rw [Field.texts?] at h
  split at h
  · next items hkey =>
    obtain ⟨texts, htexts, rfl⟩ := map_eq_ok.1 h
    rw [eq_map_text_of_mapM_item htexts] at hkey
    exact given_some hkey rfl
  · cases h
  · next hkey =>
    cases h
    exact given_none hkey

end Fields

/-! ## Requests -/

theorem mem_methods (method : Method) : (method.name, method.call) ∈ methods := by
  cases method <;> decide

/-- The method of a request is one of those that there are calls for. -/
theorem methodOf_eq_ok {place : Place} {m : Mapping} {method : Method}
    (h : Request.methodOf place m = .ok method) :
    ∃ name, get? "method" m = some (.text name) ∧ (Text.upper name, method.call) ∈ methods := by
  obtain ⟨name, hname, h⟩ := bind_eq_ok.1 h
  refine ⟨name, get?_of_text hname, ?_⟩
  dsimp only at h
  split at h
  · next hfound =>
    cases h
    rw [Method.ofName?] at hfound
    have hfits := List.find?_some hfound
    rw [← of_decide_eq_true hfits]
    exact mem_methods _
  · cases h

/-- A request has the calls of its keys. -/
theorem follows_request {place : Place} {m : Mapping} {r : Request}
    (h : Request.ofValue place (.mapping m) = .ok r) : Follows (requestRules m) r.calls := by
  simp only [Request.ofValue, bind_eq_ok] at h
  obtain ⟨method, hmethod, timeout, htimeout, url, hurl, params, hparams, headers, hheaders, cookies,
    hcookies, verify, hverify, redirects, hredirects, upload, hupload, h⟩ := h
  cases h
  obtain ⟨name, hname, hcall⟩ := methodOf_eq_ok hmethod
  have hsends : Sends m [⟨method.call, Literal.double url⟩] :=
    ⟨name, method.call, url, hname, hcall, get?_of_text hurl, rfl⟩
  exact Follows.nil.snoc hsends |>.snoc (given_mapping hparams _) |>.snoc (given_mapping hheaders _)
    |>.snoc (given_mapping hcookies _) |>.snoc (given_value _ _) |>.snoc (given_value _ _)
    |>.snoc (given_timeout htimeout _) |>.snoc (given_bool hverify _) |>.snoc (given_bool hredirects _)
    |>.snoc (given_mapping hupload _)

/-! ## Variables and hooks -/

theorem exists_of_mergeVariables {items : List Value} {done m : Mapping}
    (h : mergeVariables done items = .ok m) :
    ∃ entries, items = entries.map (fun entry => .mapping [entry]) ∧ m = merge done entries := by
  fun_induction mergeVariables done items with
  | case1 done =>
    cases h
    exact ⟨[], rfl, rfl⟩
  | case2 done name v rest ih =>
    obtain ⟨entries, rfl, rfl⟩ := ih h
    exact ⟨(name, v) :: entries, rfl, rfl⟩
  | case3 => cases h

theorem binds_of_bindings {v : Value} {m : Mapping} (h : bindings v = .ok m) : Binds v m := by
  cases v with
  | null =>
    cases h
    exact .null
  | mapping entries =>
    cases h
    exact .mapping _
  | list items =>
    obtain ⟨entries, rfl, rfl⟩ := exists_of_mergeVariables h
    exact .list (collects_merge entries)
  | bool | number | text => cases h

theorem given_variables {key : String} {m : Mapping} {o : Option Mapping}
    (h : Step.variablesOf (get? key m) = .ok o) :
    Given key m Variables (Call.given "with_variables" Call.keywords o) := by
  rw [Step.variablesOf.eq_def] at h
  split at h
  · next hkey =>
    cases h
    exact given_none hkey
  · next v hkey =>
    obtain ⟨bound, hbound, rfl⟩ := map_eq_ok.1 h
    exact given_some hkey ⟨bound, binds_of_bindings hbound, rfl⟩

/-- What is read item by item gives its calls item by item. -/
theorem forall₂_of_mapM {ε α β : Type} {read : α → Except ε β} {call : β → Call} {spells : α → Call → Prop}
    {items : List α} {parts : List β} (h : items.mapM read = .ok parts)
    (hspells : ∀ item part, read item = .ok part → spells item (call part)) :
    List.Forall₂ spells items (parts.map call) :=
  List.forall₂_map_right_iff.2 ((mapM_eq_ok.1 h).imp hspells)

theorem isHook_of_ofValue {time : HookTime} {v : Value} {hook : Hook} (h : Hook.ofValue time v = .ok hook) :
    IsHook (time.text ++ "_hook") v (hook.call time) := by
  rw [Hook.ofValue.eq_def] at h
  split at h
  · cases h
    exact .expression _
  · cases h
    exact .binding _ _
  · cases h

theorem given_hooks {time : HookTime} {key : String} {m : Mapping} {hooks : Option (List Hook)}
    (h : Hook.listOf time (get? key m) = .ok hooks) :
    Given key m (Each (IsHook (time.text ++ "_hook"))) (Hook.calls time hooks) := by
  rw [Hook.listOf.eq_def] at h
  split at h
  · next hkey =>
    cases h
    exact given_none hkey
  · next items hkey =>
    obtain ⟨parts, hparts, rfl⟩ := map_eq_ok.1 h
    exact given_some hkey ⟨items, rfl, forall₂_of_mapM hparts fun _ _ => isHook_of_ofValue⟩
  · cases h

/-! ## Extractors -/

theorem exists_of_mergeExtractors {items : List Value} {done m : Mapping}
    (h : mergeExtractors done items = .ok m) :
    ∃ parts : List Mapping, items = parts.map .mapping ∧ m = merge done parts.flatten := by
  fun_induction mergeExtractors done items with
  | case1 done =>
    cases h
    exact ⟨[], rfl, rfl⟩
  | case2 done part rest ih =>
    obtain ⟨parts, rfl, rfl⟩ := ih h
    exact ⟨part :: parts, rfl, by rw [List.flatten_cons, merge_append]⟩
  | case3 => cases h

/-- Merged extractors have each name of the entries once. -/
theorem collects_of_mergedExtractors {v : Value} {m : Mapping} (h : mergedExtractors v = .ok m) :
    ∃ entries, HasEntries v entries ∧ Collects entries m := by
  cases v with
  | mapping entries =>
    cases h
    exact ⟨entries, .mapping entries, collects_merge entries⟩
  | list items =>
    obtain ⟨parts, rfl, rfl⟩ := exists_of_mergeExtractors h
    exact ⟨parts.flatten, .list parts, collects_merge _⟩
  | null | bool | number | text => cases h

/-- An extractor that is converted and read has the call of its value: no conversion puts the mark of a
regular expression on it or takes it away. -/
theorem isExtractor_of_read {place : Place} {entry : String × Value} {x : String × Extraction}
    (h : (extractor entry >>= Step.extractorOf place) = .ok x) : IsExtractor entry (Extraction.call x) := by
  obtain ⟨converted, hconverted, hx⟩ := bind_eq_ok.1 h
  obtain ⟨name, v⟩ := entry
  cases v with
  | text raw =>
    rw [extractor] at hconverted
    split at hconverted
    · next hregex =>
      cases hconverted
      cases hx
      obtain ⟨pattern, hpattern⟩ : ∃ pattern, Text.afterPrefix? "regex:" raw = some pattern := by
        rw [← Option.ne_none_iff_exists', ne_eq, Text.afterPrefix?_eq_none_iff, not_not]
        exact Text.beginsWith_iff.1 hregex
      rw [Extraction.ofText, hpattern, ← Text.afterPrefix?_eq_some_iff.1 hpattern]
      exact .regex name pattern
    · next hplain =>
      obtain ⟨e, he, rfl⟩ := map_eq_ok.1 hconverted
      cases hx
      have hnone : Text.afterPrefix? "regex:" e = none := by
        rw [Text.afterPrefix?_eq_none_iff, ← Text.beginsWith_iff]
        exact fun hmark => hplain (beginsWith_regex_of_modernize he hmark)
      rw [Extraction.ofText, hnone]
      exact .path (Bool.eq_false_iff.2 hplain) he
  | null | bool | number | list | mapping => cases hconverted

/-- The calls of converted extractors, once they are read. -/
def ReadExtractors (place : Place) : Rule :=
  fun w calls => ∃ m parts, w = .mapping m ∧ m.mapM (Step.extractorOf place) = .ok parts ∧
    calls = ⟨"extract", ""⟩ :: parts.map Extraction.call

theorem given_extractOf {place : Place} {key : String} {m : Mapping}
    {o : Option (List (String × Extraction))} (h : Step.extractOf place (get? key m) = .ok o) :
    Given key m (ReadExtractors place) (Step.extractCalls o) := by
  rw [Step.extractOf.eq_def] at h
  split at h
  · next hkey =>
    cases h
    exact given_none hkey
  · next entries hkey =>
    obtain ⟨parts, hparts, rfl⟩ := map_eq_ok.1 h
    exact given_some hkey ⟨entries, parts, rfl, hparts, rfl⟩
  · cases h

theorem announced_of_extractors {place : Place} {v w : Value} {calls : List Call}
    (hv : (extractors v).map .mapping = .ok w) (hw : ReadExtractors place w calls) :
    Announced "extract" Extractors v calls := by
  obtain ⟨converted, hconverted, rfl⟩ := map_eq_ok.1 hv
  obtain ⟨_, parts, hm, hparts, rfl⟩ := hw
  cases hm
  rw [extractors_eq, bind_eq_ok] at hconverted
  obtain ⟨m, hm, hconverted⟩ := hconverted
  obtain ⟨entries, hentries, hcollects⟩ := collects_of_mergedExtractors hm
  have hread := mapM_bind_eq_ok.2 ⟨converted, hconverted, hparts⟩
  exact ⟨_, ⟨entries, m, hentries, hcollects, forall₂_of_mapM hread fun _ _ => isExtractor_of_read⟩, rfl⟩

/-! ## Validators -/

/-- A validator that is read from a mapping has the parts of its draft. -/
theorem ofMapping_eq_ok {m : Mapping} {x : Validator} (h : Validator.ofMapping m = .ok x) :
    ∃ d check, Validator.draft m = .ok d ∧ d.check = .text check ∧
      x = ⟨Comparator.longName d.comparator, check, d.expected, d.message⟩ := by
  obtain ⟨d, hd, h⟩ := bind_eq_ok.1 h
  rw [Validator.ofDraft] at h
  split at h
  · next check hcheck =>
    dsimp only at h
    split at h
    · cases h
      exact ⟨d, check, hd, hcheck, rfl⟩
    · cases h
  · cases h

theorem eq_text_of_text? {v : Value} {s : String} (h : v.text? = some s) : v = .text s := by
  cases v with
  | text t =>
    cases h
    rfl
  | null | bool | number | list | mapping => cases h

/-- A draft is in the short notation where a check or an expected value is missing. -/
theorem not_full {m : Mapping}
    (h : ∀ check expected, get? "check" m = some check → get? "expect" m = some expected → False) :
    (has "check" m && has "expect" m) = false := by
  rw [has, has]
  cases hcheck : get? "check" m with
  | none => rfl
  | some check =>
    cases hexpect : get? "expect" m with
    | none => rfl
    | some expected => exact (h check expected hcheck hexpect).elim

/-- What a draft checks is the check of its validator. -/
theorem text?_of_draft {m : Mapping} {d : Validator.Draft} (h : Validator.draft m = .ok d) :
    d.check.text? = check? (.mapping m) := by
  unfold Validator.draft at h
  split at h
  · next check expected hcheck hexpect =>
    split at h
    · cases h
      simp [check?, has, hcheck, hexpect]
    · cases h
  · next hnot =>
    rw [check?, not_full hnot]
    split at h
    · next check _ =>
      cases h
      cases check <;> rfl
    · next check _ _ =>
      cases h
      cases check <;> rfl
    · cases h
    · cases h

/-- A draft with another check. -/
def withCheck (d : Validator.Draft) (e : String) : Validator.Draft := { d with check := .text e }

theorem draft_set_check {m : Mapping} {check : Value} (hcheck : get? "check" m = some check)
    (hexpect : has "expect" m) (e : String) :
    Validator.draft (Mapping.set "check" (.text e) m) = (Validator.draft m).map (withCheck · e) := by
  obtain ⟨expected, hexpected⟩ := Option.isSome_iff_exists.1 hexpect
  have hget : ∀ key, key ≠ "check" → get? key (Mapping.set "check" (.text e) m) = get? key m :=
    fun key hkey => get?_set_of_ne hkey _ m
  simp only [Validator.draft, Validator.comparatorOf, get?_set_self, hget "expect" (by decide), hcheck,
    hexpected, hget "assert" (by decide), hget "comparator" (by decide), hget "message" (by decide)]
  split <;> rfl

theorem draft_short (comparator check e : String) (rest : List Value) :
    Validator.draft [(comparator, .list (.text e :: rest))]
      = (Validator.draft [(comparator, .list (.text check :: rest))]).map (withCheck · e) := by
  -- Alone, an entry is not in the long notation, whichever of its two keys the comparator is named like.
  by_cases hc : comparator = "check"
  · rcases rest with _ | ⟨_, _ | ⟨_, _ | _⟩⟩ <;> simp [Validator.draft, get?, hc, Except.map, withCheck]
  · rcases rest with _ | ⟨_, _ | ⟨_, _ | _⟩⟩ <;> simp [Validator.draft, get?, hc, Except.map, withCheck]

/-- The check is the only part of a validator that is converted. -/
theorem exists_draft_of_validator {m w : Mapping} {d : Validator.Draft} {e : String}
    (h : validator (.mapping m) = .ok (.mapping w)) (hd : Validator.draft w = .ok d)
    (he : d.check = .text e) :
    ∃ d' check, Validator.draft m = .ok d' ∧ d'.check = .text check ∧ modernize check = .ok e ∧
      d = withCheck d' e := by
  cases hcheck : check? (.mapping m) with
  | none =>
    rw [validator_of_check?_eq_none hcheck] at h
    cases h
    rw [← text?_of_draft hd, he] at hcheck
    cases hcheck
  | some check =>
    -- In either notation the converted validator has the draft of the raw one but for its check.
    have hsame : ∃ e', modernize check = .ok e' ∧
        Validator.draft w = (Validator.draft m).map (withCheck · e') := by
      rcases check?_cases hcheck with ⟨_, hm, hget, hexpect⟩ | ⟨comparator, rest, hm⟩
      · cases hm
        rw [(validator_full hget hexpect).2, map_eq_ok] at h
        obtain ⟨e', he', hw⟩ := h
        cases hw
        exact ⟨e', he', draft_set_check hget hexpect e'⟩
      · cases hm
        rw [validator_short, map_eq_ok] at h
        obtain ⟨e', he', hw⟩ := h
        cases hw
        exact ⟨e', he', draft_short comparator check e' rest⟩
    obtain ⟨e', he', hdraft⟩ := hsame
    rw [hdraft, map_eq_ok] at hd
    obtain ⟨d', hd', rfl⟩ := hd
    cases he
    have htext : d'.check = .text check := eq_text_of_text? ((text?_of_draft hd').trans hcheck)
    exact ⟨d', check, hd', htext, he', rfl⟩

theorem isValidator_of_read {v : Value} {x : Validator}
    (h : (validator v >>= Validator.ofValue) = .ok x) : IsValidator v (Validator.call x) := by
  obtain ⟨w, hw, hx⟩ := bind_eq_ok.1 h
  cases v with
  | mapping m =>
    cases w with
    | mapping converted =>
      obtain ⟨d, e, hd, he, rfl⟩ := ofMapping_eq_ok (mapError_eq_ok.1 hx)
      obtain ⟨d', check, hd', hcheck, hmodern, rfl⟩ := exists_draft_of_validator hw hd he
      have hcall := IsValidator.intro hd' hcheck hmodern
      exact hcall
    | null | bool | number | text | list => cases hx
  | null | bool | number | text | list =>
    cases hw
    cases hx

/-- The calls of converted validators, once they are read. -/
def ReadValidators : Rule :=
  fun w calls => ∃ items parts, w = .list items ∧ items.mapM Validator.ofValue = .ok parts ∧
    calls = ⟨"validate", ""⟩ :: parts.map Validator.call

theorem given_validateOf {place : Place} {key : String} {m : Mapping} {o : Option (List Validator)}
    (h : Step.validateOf place (get? key m) = .ok o) :
    Given key m ReadValidators (Step.validateCalls o) := by
  rw [Step.validateOf.eq_def] at h
  split at h
  · next hkey =>
    cases h
    exact given_none hkey
  · next items hkey =>
    obtain ⟨parts, hparts, rfl⟩ := map_eq_ok.1 h
    exact given_some hkey ⟨items, parts, rfl, hparts, rfl⟩
  · cases h

theorem announced_of_stepValidators {v w : Value} {calls : List Call} (hv : stepValidators v = .ok w)
    (hw : ReadValidators w calls) : Announced "validate" (Each IsValidator) v calls := by
  obtain ⟨converted, parts, rfl, hparts, rfl⟩ := hw
  cases v with
  | list items =>
    obtain ⟨_, hconverted, hitems⟩ := map_eq_ok.1 hv
    cases hitems
    have hread := mapM_bind_eq_ok.2 ⟨converted, hconverted, hparts⟩
    exact ⟨_, ⟨items, rfl, forall₂_of_mapM hread fun _ _ => isValidator_of_read⟩, rfl⟩
  | null | bool | number | text | mapping => cases hv

/-! ## Whole steps -/

section Attached

variable {step attached read : Mapping} {s : Step} {place : Place}

theorem get?_name_of_attachments (h : attachments step = .ok attached) :
    get? "name" attached = get? "name" step := by
  obtain ⟨name, extract, validate, hname, -, -, rfl⟩ := attachments_eq_ok.1 h
  rw [hname]
  rfl

/-- The calls before a request, of a step that is read with its attachments. -/
theorem follows_before (hattached : attachments step = .ok attached)
    (hget : ∀ key ∈ attachmentKeys, get? key read = get? key attached)
    (hvariables : Step.variablesOf (get? "variables" read) = .ok s.bindings)
    (hsetup : Hook.listOf .setup (get? "setup_hooks" read) = .ok s.setup) :
    Follows (rulesBefore step) s.callsBefore := by
  rw [hget _ (by decide), get?_attachments_of_mem hattached (by decide)] at hvariables hsetup
  exact Follows.nil.snoc (given_variables hvariables) |>.snoc (given_hooks hsetup)

/-- The calls after a request, of a step that is read with its attachments. -/
theorem follows_after (hattached : attachments step = .ok attached)
    (hget : ∀ key ∈ attachmentKeys, get? key read = get? key attached)
    (hteardown : Hook.listOf .teardown (get? "teardown_hooks" read) = .ok s.teardown)
    (hextract : Step.extractOf place (get? "extract" read) = .ok s.extract)
    (hexports : Field.texts? place "export" read = .ok s.exports)
    (hvalidate : Step.validateOf place (get? "validate" read) = .ok s.validate) :
    Follows (rulesAfter step) s.callsAfter := by
  have hexport := (given_texts hexports "export").of_eq
    ((hget _ (by decide)).trans (get?_attachments_of_mem hattached (by decide)))
  rw [hget _ (by decide), get?_attachments_of_mem hattached (by decide)] at hteardown
  rw [hget _ (by decide)] at hextract hvalidate
  obtain ⟨name, extract, validate, -, hextracted, hvalidated, rfl⟩ := attachments_eq_ok.1 hattached
  have hextractors := (given_extractOf hextract).of_eq (get?_extract_attachedTo hvalidated name extract)
    |>.of_convertedEntry hextracted fun _ _ => announced_of_extractors
  have hvalidators := (given_validateOf hvalidate).of_eq (get?_validate_attachedTo hextracted name validate)
    |>.of_convertedEntry hvalidated fun _ _ => announced_of_stepValidators
  exact Follows.nil.snoc (given_hooks hteardown) |>.snoc hextractors |>.snoc hexport |>.snoc hvalidators

/-- A step that has a request sends it: a null in its place is no request, and no other action is left. -/
theorem exists_request_of_actionOf {request : Value} {action : Action}
    (hattached : attachments step = .ok attached)
    (h : Step.actionOf place (("request", request) :: attached) = .ok action) :
    ∃ m r, request = .mapping m ∧ action = .request r ∧ Request.ofValue place (.mapping m) = .ok r := by
  have hrequest : get? "request" (("request", request) :: attached) = some request := by
    rw [get?, if_pos rfl]
  have htestcase : get? "testcase" (("request", request) :: attached) = none := by
    rw [get?, if_neg (by decide), get?_attachments_of_notMem hattached (by decide)]
  simp only [Step.actionOf, hrequest, htestcase] at h
  cases request with
  | mapping m =>
    obtain ⟨r, hr, rfl⟩ := map_eq_ok.1 h
    exact ⟨m, r, rfl, rfl, hr⟩
  | null | bool | number | text | list => cases h

end Attached

/-- A chain is the text of its calls. -/
theorem chain_eq_written (calls : List Call) : Call.chain calls = written calls := by
  induction calls with
  | nil => rfl
  | cons c rest ih =>
    rw [Call.chain, ih, written, written, List.map_cons, String.join_cons]
    rfl

/-- The chain of a step that sends a request. -/
theorem chain_of_request {s : Step} {r : Request} (h : s.action = .request r) :
    s.chain = .ok ("Step(RunRequest(" ++ Literal.double s.name ++ ")"
      ++ written (s.callsBefore ++ r.calls ++ s.callsAfter) ++ ")") := by
  have hcalls : s.calls = .ok (s.callsBefore ++ r.calls ++ s.callsAfter) := by
    rw [Step.calls, Step.actionCalls, h]
    rfl
  have hrunner : "Step(" ++ s.runner = "Step(RunRequest(" ++ Literal.double s.name ++ ")" := by
    simp [Step.runner, Step.isCall, h, ← String.append_assoc]
  rw [Step.chain, hcalls, ← hrunner, ← chain_eq_written]
  rfl

/-- A step that is converted and read is spelled out. -/
theorem spelledOut_of_stepOf {v : Value} {s : Step} (h : stepOf v = .ok s) : SpelledOut v s := by
  obtain ⟨w, hw, hs⟩ := bind_eq_ok.1 h
  obtain ⟨step, action, attached, rfl, haction, hattached, rfl⟩ := step_eq_ok.1 hw
  have hget : ∀ key ∈ attachmentKeys, get? key (action :: attached) = get? key attached := by
    intro key hkey
    have hne : action.1 ≠ key := by
      rintro rfl
      rcases action?_key haction with heq | heq <;> rw [heq] at hkey <;> exact absurd hkey (by decide)
    rw [get?, if_neg hne]
  simp only [Step.ofValue, bind_eq_ok] at hs
  obtain ⟨name, hname, does, hdoes, bound, hbound, extract, hextract, validate, hvalidate, setup,
    hsetup, teardown, hteardown, exports, hexports, hs⟩ := hs
  cases hs
  have hnamed := get?_of_text hname
  rw [hget _ (by decide), get?_name_of_attachments hattached] at hnamed
  refine ⟨step, name, rfl, hnamed, fun hrequest => ?_⟩
  obtain ⟨request, hrequest⟩ := Option.isSome_iff_exists.1 hrequest
  rw [action?, hrequest] at haction
  cases haction
  obtain ⟨m, r, rfl, rfl, hr⟩ := exists_request_of_actionOf hattached hdoes
  refine ⟨m, _, hrequest, ?_, chain_of_request rfl⟩
  exact (follows_before hattached hget hbound hsetup).append (follows_request hr)
    |>.append (follows_after hattached hget hteardown hextract hexports hvalidate)

/-- **Steps as their documents have them.**  Where a document that is no single request has a testcase, the
steps of the testcase are those of the document in order, and each one with a request is the chain of exactly
the calls that the keys of the step and of its request give. -/
theorem request_steps_are_spelled_out {document : Mapping} {source : Path} {t : Testcase}
    (hapi : ¬ isApi document) (h : testcaseOf (.mapping document) source = .ok t) :
    ∃ steps, get? "teststeps" document = some (.list steps) ∧ List.Forall₂ SpelledOut steps t.steps := by
  obtain ⟨_, steps, -, hsteps, -, hread⟩ := (testcaseOf_eq_ok_of_not_isApi hapi).1 h
  exact ⟨steps, hsteps, (mapM_eq_ok.1 hread).imp fun _ _ => spelledOut_of_stepOf⟩

/-- A testcase that refers to a login and then sends an order.  The keys of the order stand in no order of
their own, some of them with nothing in them, and one name is extracted twice. -/
def orderTestcase : Mapping :=
  document [("name", .text "orders")]
    [.mapping [("name", .text "login"), ("api", .text "login.json")],
      .mapping [("validate", .list [.mapping [("eq", .list [.text "json.items.0", .number (.int 7)])]]),
        ("name", .text "order"), ("variables", .null),
        ("setup_hooks", .list [.text "open_shop", .mapping [("token", .text "sign_in")]]),
        ("extract", .list [.mapping [("no", .text "content.no"), ("tag", .text "regex:t=(.*)")],
          .mapping [("no", .text "content.items.0")]]),
        ("request", .mapping [("upload", .mapping []), ("url", .text "/orders"), ("json", .null),
          ("method", .text "Post"), ("verify", .bool false)])]]

/-- The order in full. -/
theorem request_steps_are_spelled_out_order :
    let text := "Step(RunRequest(\"order\").with_variables(**\x7b\x7d).setup_hook(\"open_shop\")"
      ++ ".setup_hook(\"sign_in\", \"token\").post(\"/orders\").with_json(None).set_verify(False)"
      ++ ".upload(**\x7b\x7d).extract().with_jmespath('body.items[0]', 'no').with_regex('t=(.*)', 'tag')"
      ++ ".validate().assert_equal(\"body.items[0]\", 7))"
    ¬ isApi orderTestcase ∧ ∃ t steps, testcaseOf (.mapping orderTestcase) (.ofString "/orders.json") = .ok t ∧
      get? "teststeps" orderTestcase = some (.list steps) ∧ List.Forall₂ SpelledOut steps t.steps ∧
      t.steps.getLast?.map Step.chain = some (.ok text) := by
  intro text
  have hapi : ¬ isApi orderTestcase := by decide
  have horder : (testcaseOf (.mapping orderTestcase) (.ofString "/orders.json")).map
      (fun t => t.steps.getLast?.map Step.chain) = .ok (some (.ok text)) := by decide +kernel
  obtain ⟨t, ht, htext⟩ := map_eq_ok.1 horder
  obtain ⟨steps, hsteps, hspelled⟩ := request_steps_are_spelled_out hapi ht
  exact ⟨hapi, t, steps, ht, hsteps, hspelled, htext⟩

end TestScribe.Spelling
