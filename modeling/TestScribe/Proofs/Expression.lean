/-
# Expressions in the current syntax

What `Expression.modernize` does, segment by segment, and what happens to an expression that is
modernized again.  An expression in the current syntax stays as it is, with one exception: a part that
was quoted for its hyphen and then got an index behind its closing quote is quoted once more.

* `Expression.convert` : the parts of an expression from its segments;
* `Expression.indexAfterHyphen` : a segment with a hyphen right before an index;
* `Expression.modernize_again` : a second run changes nothing exactly where there is no such pair.
-/
import TestScribe.Expression
import TestScribe.Proofs.Splitting

namespace TestScribe.Expression

open Text

/-! ## Segment by segment -/

/-- Whether a segment has a hyphen, for which it is quoted. -/
def hasHyphen (segment : String) : Bool := segment.toList.contains '-'

/-- The parts from a part that is already converted and the segments after it. -/
def convertAfter (last : String) : List String → List String
  | [] => [last]
  | segment :: rest =>
    if hasHyphen segment then last :: convertAfter (quoteSegment segment) rest
    else if isIndex segment then convertAfter (last ++ "[" ++ segment ++ "]") rest
    else last :: convertAfter segment rest

/-- The parts of an expression from its segments, none where an index comes first. -/
def convert : List String → Option (List String)
  | [] => some []
  | segment :: rest =>
    if hasHyphen segment then some (convertAfter (quoteSegment segment) rest)
    else if isIndex segment then none
    else some (convertAfter segment rest)

theorem foldlM_addSegment (done : List String) (last : String) (rest : List String) :
    rest.foldlM addSegment (last :: done) = some ((convertAfter last rest).reverse ++ done) := by
  induction rest generalizing last done with
  | nil => simp [convertAfter]
  | cons segment rest ih =>
    rw [List.foldlM_cons, addSegment, convertAfter, hasHyphen]
    split
    · simpa using ih (last :: done) (quoteSegment segment)
    · split
      · simpa using ih done (last ++ "[" ++ segment ++ "]")
      · simpa using ih (last :: done) segment

/-- The parts of an expression are those of its segments. -/
theorem segments?_eq_convert (raw : String) : segments? raw = convert (pieces '.' raw) := by
  rw [segments?]
  cases pieces '.' raw with
  | nil => rfl
  | cons segment rest =>
    rw [List.foldlM_cons, addSegment, convert, hasHyphen]
    split
    · simp [foldlM_addSegment]
    · split
      · rfl
      · simp [foldlM_addSegment]

/-- An expression is modernized exactly when its segments can be converted. -/
theorem modernize_eq_ok {raw e : String} :
    modernize raw = .ok e ↔
      ∃ parts, convert (pieces '.' (renameBody raw)) = some parts ∧ joinWith "." parts = e := by
  unfold modernize
  rw [segments?_eq_convert]
  cases convert (pieces '.' (renameBody raw)) <;> simp

/-! ## Parts -/

/-- What every part is: free of dots, and no index. -/
def IsPart (p : String) : Prop := '.' ∉ p.toList ∧ isIndex p = false

theorem isIndex_eq_false_of_mem {p : String} {c : Char} (hc : c ∈ p.toList)
    (hd : isDigit c = false) : isIndex p = false := by
  rw [isIndex, Bool.and_eq_false_iff]
  right
  rw [List.all_eq_false]
  exact ⟨c, hc, by simp [hd]⟩

theorem mem_trimChar {c d : Char} {s : String} (h : c ∈ (trimChar d s).toList) : c ∈ s.toList := by
  rw [trimChar, String.toList_ofList, List.mem_reverse] at h
  have hdrop := (List.dropWhile_sublist _).mem h
  rw [List.mem_reverse] at hdrop
  exact (List.dropWhile_sublist _).mem hdrop

theorem mem_trimChar_of_ne {c d : Char} {s : String} (hne : c ≠ d) (h : c ∈ s.toList) :
    c ∈ (trimChar d s).toList := by
  have hdrop : ∀ {cs : List Char}, c ∈ cs → c ∈ cs.dropWhile (· == d) := by
    intro cs hc
    rw [← List.takeWhile_append_dropWhile (p := (· == d)) (l := cs), List.mem_append] at hc
    refine hc.resolve_left fun htake => hne ?_
    simpa using List.mem_takeWhile_imp htake
  rw [trimChar, String.toList_ofList, List.mem_reverse]
  exact hdrop (List.mem_reverse.2 (hdrop h))

theorem hasHyphen_quoteSegment {segment : String} (h : hasHyphen segment) :
    hasHyphen (quoteSegment segment) := by
  rw [hasHyphen, List.contains_eq_mem, decide_eq_true_eq] at h ⊢
  simpa [quoteSegment] using mem_trimChar_of_ne (by decide) h

theorem isPart_quoteSegment {segment : String} (h : '.' ∉ segment.toList) :
    IsPart (quoteSegment segment) := by
  constructor
  · simpa [quoteSegment] using fun hm => h (mem_trimChar hm)
  · exact isIndex_eq_false_of_mem (c := '"') (by simp [quoteSegment]) (by decide)

theorem isPart_append_index {last segment : String} (hl : '.' ∉ last.toList)
    (hs : '.' ∉ segment.toList) : IsPart (last ++ "[" ++ segment ++ "]") := by
  constructor
  · simp [hl, hs]
  · exact isIndex_eq_false_of_mem (c := '[') (by simp) (by decide)

theorem isPart_of_mem_convertAfter {last : String} {rest : List String} (hl : IsPart last)
    (hr : ∀ s ∈ rest, '.' ∉ s.toList) : ∀ p ∈ convertAfter last rest, IsPart p := by
  induction rest generalizing last with
  | nil =>
    intro p hp
    rw [convertAfter, List.mem_singleton] at hp
    exact hp ▸ hl
  | cons segment rest ih =>
    have hs := hr segment List.mem_cons_self
    have hrest := fun s hs => hr s (List.mem_cons_of_mem segment hs)
    intro p hp
    rw [convertAfter] at hp
    split at hp
    · rcases List.mem_cons.1 hp with rfl | hp
      · exact hl
      · exact ih (isPart_quoteSegment hs) hrest p hp
    split at hp
    · exact ih (isPart_append_index hl.1 hs) hrest p hp
    · next hindex =>
      rcases List.mem_cons.1 hp with rfl | hp
      · exact hl
      · exact ih ⟨hs, by simpa using hindex⟩ hrest p hp

theorem convertAfter_ne_nil (last : String) (rest : List String) : convertAfter last rest ≠ [] := by
  induction rest generalizing last with
  | nil => simp [convertAfter]
  | cons segment rest ih =>
    rw [convertAfter]
    split
    · simp
    split
    · exact ih _
    · simp

/-- The converted segments of an expression are parts, and there is at least one. -/
theorem isPart_of_convert {raw : String} {parts : List String}
    (h : convert (pieces '.' raw) = some parts) : parts ≠ [] ∧ ∀ p ∈ parts, IsPart p := by
  have hdot : ∀ s ∈ pieces '.' raw, '.' ∉ s.toList := fun s => notMem_of_mem_pieces
  cases hpieces : pieces '.' raw with
  | nil => exact absurd hpieces (pieces_ne_nil '.' raw)
  | cons segment rest =>
    rw [hpieces] at h hdot
    have hs := hdot segment List.mem_cons_self
    have hrest := fun s hs => hdot s (List.mem_cons_of_mem segment hs)
    rw [convert] at h
    split at h
    · cases h
      exact ⟨convertAfter_ne_nil _ _, isPart_of_mem_convertAfter (isPart_quoteSegment hs) hrest⟩
    split at h
    · simp at h
    · next hindex =>
      cases h
      exact ⟨convertAfter_ne_nil _ _, isPart_of_mem_convertAfter ⟨hs, by simpa using hindex⟩ hrest⟩

/-! ## A second conversion -/

/-- What converting a part once more makes of it. -/
def requote (p : String) : String := if hasHyphen p then quoteSegment p else p

theorem convertAfter_of_isIndex_eq_false {last : String} {rest : List String}
    (h : ∀ p ∈ rest, isIndex p = false) : convertAfter last rest = last :: rest.map requote := by
  induction rest generalizing last with
  | nil => rfl
  | cons p rest ih =>
    have hp := h p List.mem_cons_self
    have hrest := fun q hq => h q (List.mem_cons_of_mem p hq)
    rw [convertAfter, List.map_cons, requote, hp]
    split
    · rw [ih hrest]
    · rw [if_neg Bool.false_ne_true, ih hrest]

/-- Parts can always be converted once more, each one on its own. -/
theorem convert_of_isPart {parts : List String} (h : ∀ p ∈ parts, IsPart p) :
    convert parts = some (parts.map requote) := by
  cases parts with
  | nil => rfl
  | cons p rest =>
    have hp := (h p List.mem_cons_self).2
    have hrest := fun q hq => (h q (List.mem_cons_of_mem p hq)).2
    rw [convert, List.map_cons, requote, hp]
    split
    · rw [convertAfter_of_isIndex_eq_false hrest]
    · rw [if_neg Bool.false_ne_true, convertAfter_of_isIndex_eq_false hrest]

/-- Quotes around a trimmed text come off again. -/
theorem trimChar_quoteSegment (segment : String) :
    trimChar '"' (quoteSegment segment) = trimChar '"' segment := by
  have hdef : ∀ s : String, trimChar '"' s
      = String.ofList ((s.toList.dropWhile (· == '"')).rdropWhile (· == '"')) := fun _ => rfl
  set t := (segment.toList.dropWhile (· == '"')).rdropWhile (· == '"') with ht
  have hchars : (quoteSegment segment).toList = '"' :: (t ++ ['"']) := by
    rw [quoteSegment, hdef, ← ht]
    simp
  have hback : t.rdropWhile (· == '"') = t := by
    rw [ht, List.rdropWhile_idempotent]
  rw [hdef, hdef, ← ht, hchars, List.dropWhile_cons_of_pos (by simp)]
  cases hcases : t with
  | nil => simp [List.rdropWhile]
  | cons c cs =>
    -- the trimmed text begins with no quote, as it begins like the text without quotes at the front
    have hne : (c == '"') = false := by
      obtain ⟨more, hmore⟩ :=
        List.rdropWhile_prefix (· == '"') (segment.toList.dropWhile (· == '"'))
      have hhead := List.head?_dropWhile_not (· == '"') segment.toList
      rw [← hmore, ← ht, hcases] at hhead
      simpa using hhead
    rw [List.cons_append, List.dropWhile_cons_of_neg (by simp [hne]), ← List.cons_append,
      List.rdropWhile_concat_pos _ _ _ (by simp), ← hcases, hback]

/-- A quoted part is quoted for good. -/
theorem requote_quoteSegment (segment : String) :
    requote (quoteSegment segment) = quoteSegment segment := by
  rw [requote]
  split
  · rw [quoteSegment, trimChar_quoteSegment, ← quoteSegment]
  · rfl

theorem hasHyphen_append_index (segment : String) {last : String} (h : hasHyphen last) :
    hasHyphen (last ++ "[" ++ segment ++ "]") := by
  rw [hasHyphen, List.contains_eq_mem, decide_eq_true_eq] at h ⊢
  simp [h]

/-- A part with a hyphen and an index behind it is quoted again, around the index. -/
theorem requote_append_index {last segment : String} (h : hasHyphen last) :
    requote (last ++ "[" ++ segment ++ "]") ≠ last ++ "[" ++ segment ++ "]" := by
  intro heq
  rw [requote, if_pos (hasHyphen_append_index segment h), quoteSegment] at heq
  have hlast := congrArg (fun s : String => s.toList.reverse.head?) heq
  simp at hlast

/-! ## An index after a hyphen -/

/-- Whether an index stands right behind a segment with a hyphen; `hyphen` says whether the segment
before the given ones has one. -/
def indexAfter (hyphen : Bool) : List String → Bool
  | [] => false
  | segment :: rest => (hyphen && isIndex segment) || indexAfter (hasHyphen segment) rest

/-- Whether an expression has an index right behind a segment with a hyphen. -/
def indexAfterHyphen (raw : String) : Bool := indexAfter false (pieces '.' raw)

theorem hasHyphen_eq_false_of_isIndex {segment : String} (h : isIndex segment) :
    hasHyphen segment = false := by
  rw [hasHyphen, List.contains_eq_mem, decide_eq_false_iff_not]
  intro hm
  rw [isIndex, Bool.and_eq_true, List.all_eq_true] at h
  exact absurd (h.2 '-' hm) (by decide)

/-- Once an index has been put behind a part with a hyphen, some part is changed by a second run. -/
theorem exists_requote_ne (segment : String) (rest : List String) {last : String}
    (h : hasHyphen last) :
    ∃ p ∈ convertAfter (last ++ "[" ++ segment ++ "]") rest, requote p ≠ p := by
  induction rest generalizing last segment with
  | nil => exact ⟨_, List.mem_singleton_self _, requote_append_index h⟩
  | cons next rest ih =>
    rw [convertAfter]
    split
    · exact ⟨_, List.mem_cons_self, requote_append_index h⟩
    split
    · exact ih next (hasHyphen_append_index segment h)
    · exact ⟨_, List.mem_cons_self, requote_append_index h⟩

/-- The parts are all left as they are exactly where no index follows a hyphen. -/
theorem requote_convertAfter_iff {last : String} (hlast : requote last = last)
    (rest : List String) :
    (∀ p ∈ convertAfter last rest, requote p = p) ↔ indexAfter (hasHyphen last) rest = false := by
  induction rest generalizing last with
  | nil => simp [convertAfter, indexAfter, hlast]
  | cons segment rest ih =>
    rw [convertAfter, indexAfter]
    -- A segment with a hyphen begins a quoted part, and is no index.
    by_cases hh : hasHyphen segment
    · have hindex : isIndex segment = false := by
        by_contra hne
        rw [hasHyphen_eq_false_of_isIndex (by simpa using hne)] at hh
        exact Bool.false_ne_true hh
      rw [if_pos hh, List.forall_mem_cons, ih (requote_quoteSegment segment),
        hasHyphen_quoteSegment hh, hindex, hh]
      simp [hlast]
    rw [if_neg hh]
    by_cases hi : isIndex segment
    · rw [if_pos hi, hi]
      -- An index behind a quoted part spoils it; behind a plain part it only makes the part longer.
      by_cases hl : hasHyphen last
      · obtain ⟨p, hp, hne⟩ := exists_requote_ne segment rest hl
        simpa [hl] using ⟨p, hp, hne⟩
      · have hplain : hasHyphen (last ++ "[" ++ segment ++ "]") = false := by
          simp_all [hasHyphen]
        rw [ih (by rw [requote, hplain, if_neg Bool.false_ne_true]), hplain]
        simp [hl, hh]
    · rw [if_neg hi, List.forall_mem_cons, ih (by rw [requote, if_neg hh])]
      simp [hlast, hi]

/-! ## The name of the body -/

/-- An older name of the body is replaced where the text begins with one. -/
theorem renameBody_cases (raw : String) :
    (∃ lead ∈ ["content", "json"], ∃ rest, raw = lead ++ rest ∧ renameBody raw = "body" ++ rest) ∨
      (renameBody raw = raw ∧ ∀ lead ∈ ["content", "json"], ¬ lead.toList <+: raw.toList) := by
  rw [renameBody]
  split
  · next rest h =>
    exact .inl ⟨"content", by simp, rest, (Text.afterPrefix?_eq_some_iff.1 h).symm, rfl⟩
  · next hcontent =>
    split
    · next rest h =>
      exact .inl ⟨"json", by simp, rest, (Text.afterPrefix?_eq_some_iff.1 h).symm, rfl⟩
    · next hjson =>
      refine .inr ⟨rfl, ?_⟩
      rw [Text.afterPrefix?_eq_none_iff] at hcontent hjson
      simpa using ⟨hcontent, hjson⟩

/-- A name that does not begin like `body` begins a renamed text only if nothing was renamed. -/
theorem prefix_of_prefix_renameBody {lead raw : String} (hb : ¬ ['b'] <+: lead.toList)
    (hne : lead.toList ≠ []) (h : lead.toList <+: (renameBody raw).toList) :
    renameBody raw = raw ∧ lead ∉ ["content", "json"] := by
  rcases renameBody_cases raw with ⟨_, _, rest, -, hrename⟩ | ⟨hrename, hnone⟩
  · rw [hrename] at h
    obtain ⟨c, cs, hlead⟩ := List.exists_cons_of_ne_nil hne
    rw [hlead] at h hb
    simp at h hb
    exact absurd h.1.symm hb
  · rw [hrename] at h
    exact ⟨hrename, fun hmem => hnone lead hmem h⟩

/-- The name of the body makes no difference to the hyphens and indices. -/
theorem indexAfterHyphen_renameBody (raw : String) :
    indexAfterHyphen (renameBody raw) = indexAfterHyphen raw := by
  have hsame : ∀ {a b : String}, '.' ∉ a.toList → '.' ∉ b.toList → hasHyphen a = false →
      hasHyphen b = false → ∀ rest, indexAfterHyphen (a ++ rest) = indexAfterHyphen (b ++ rest) := by
    intro a b ha hb hha hhb rest
    obtain ⟨p, ps, hp, hap⟩ := pieces_append ha rest
    obtain ⟨q, qs, hq, hbq⟩ := pieces_append hb rest
    rw [hp] at hq
    cases hq
    have hhead : hasHyphen (a ++ p) = hasHyphen (b ++ p) := by
      simp_all [hasHyphen]
    rw [indexAfterHyphen, indexAfterHyphen, hap, hbq, indexAfter, indexAfter, hhead]
    rfl
  rcases renameBody_cases raw with ⟨lead, hlead, rest, rfl, hrename⟩ | ⟨hrename, -⟩
  · rw [hrename]
    rcases List.mem_pair.1 hlead with rfl | rfl
    · exact hsame (by decide) (by decide) (by decide) (by decide) rest
    · exact hsame (by decide) (by decide) (by decide) (by decide) rest
  · rw [hrename]

/-! ## How a converted text begins -/

theorem toList_joinWith_dot {p : String} {rest : List String} (h : rest ≠ []) :
    (joinWith "." (p :: rest)).toList = p.toList ++ '.' :: (joinWith "." rest).toList := by
  obtain ⟨q, rest, rfl⟩ := List.exists_cons_of_ne_nil h
  exact toList_joinWith_cons '.' p q rest

/-- Behind the first converted part comes a dot or an index, if anything. -/
theorem exists_toList_convertAfter (last : String) (rest : List String) :
    ∃ cs, (joinWith "." (convertAfter last rest)).toList = last.toList ++ cs ∧
      ∀ c ∈ cs.head?, c = '.' ∨ c = '[' := by
  induction rest generalizing last with
  | nil => exact ⟨[], by simp [convertAfter, joinWith], by simp⟩
  | cons segment rest ih =>
    rw [convertAfter]
    split
    · rw [toList_joinWith_dot (convertAfter_ne_nil _ _)]
      exact ⟨_, rfl, by simp⟩
    split
    · obtain ⟨cs, hcs, -⟩ := ih (last ++ "[" ++ segment ++ "]")
      refine ⟨'[' :: (segment.toList ++ ']' :: cs), ?_, by simp⟩
      rw [hcs]
      simp
    · rw [toList_joinWith_dot (convertAfter_ne_nil _ _)]
      exact ⟨_, rfl, by simp⟩

/-- A name without dots, brackets and quotes that begins the converted text begins the raw one. -/
theorem prefix_of_prefix_convert {lead raw : String} {parts : List String}
    (hne : lead.toList ≠ []) (hfree : ∀ c ∈ ['.', '[', '"'], c ∉ lead.toList)
    (h : convert (pieces '.' raw) = some parts)
    (hlead : lead.toList <+: (joinWith "." parts).toList) : lead.toList <+: raw.toList := by
  have hstop : ∀ c, c = '.' ∨ c = '[' → c ∉ lead.toList := by
    rintro c (rfl | rfl)
    · exact hfree '.' (by simp)
    · exact hfree '[' (by simp)
  cases hpieces : pieces '.' raw with
  | nil => exact absurd hpieces (pieces_ne_nil '.' raw)
  | cons segment rest =>
    have hsegment := prefix_of_pieces hpieces
    rw [hpieces, convert] at h
    split at h
    · -- the first part is quoted, and the name begins with no quote
      cases h
      obtain ⟨cs, hcs, -⟩ := exists_toList_convertAfter (quoteSegment segment) rest
      obtain ⟨c, more, hc⟩ := List.exists_cons_of_ne_nil hne
      rw [hcs, hc] at hlead
      simp [quoteSegment] at hlead
      exact absurd (by simp [hc, hlead.1]) (hfree '"' (by simp))
    split at h
    · simp at h
    · cases h
      obtain ⟨cs, hcs, hhead⟩ := exists_toList_convertAfter segment rest
      rw [hcs] at hlead
      exact (prefix_of_prefix_append hlead fun c hc => hstop c (hhead c hc)).trans hsegment

/-- What was modernized has a new name of the body already. -/
theorem renameBody_of_modernize {raw e : String} (h : modernize raw = .ok e) :
    renameBody e = e := by
  obtain ⟨parts, hparts, rfl⟩ := modernize_eq_ok.1 h
  rcases renameBody_cases (joinWith "." parts) with ⟨lead, hlead, rest, hrest, -⟩ | ⟨hrename, -⟩
  · have hprefix : lead.toList <+: (joinWith "." parts).toList := by
      rw [hrest, String.toList_append]
      exact List.prefix_append _ _
    have hraw : lead.toList <+: (renameBody raw).toList := by
      rcases List.mem_pair.1 hlead with rfl | rfl
      · exact prefix_of_prefix_convert (by decide) (by simp) hparts hprefix
      · exact prefix_of_prefix_convert (by decide) (by simp) hparts hprefix
    have hnot : lead ∉ ["content", "json"] := by
      rcases List.mem_pair.1 hlead with rfl | rfl
      · exact (prefix_of_prefix_renameBody (by decide) (by decide) hraw).2
      · exact (prefix_of_prefix_renameBody (by decide) (by decide) hraw).2
    exact absurd hlead hnot
  · exact hrename

/-- Modernizing makes no regular expression of another expression. -/
theorem beginsWith_regex_of_modernize {raw e : String} (h : modernize raw = .ok e)
    (he : beginsWith "regex:" e) : beginsWith "regex:" raw := by
  obtain ⟨parts, hparts, rfl⟩ := modernize_eq_ok.1 h
  rw [beginsWith_iff] at he ⊢
  have hraw := prefix_of_prefix_convert (by decide) (by simp) hparts he
  have hsame := (prefix_of_prefix_renameBody (by decide) (by decide) hraw).1
  rwa [hsame] at hraw

/-! ## A second run -/

theorem isPart_requote {p : String} (h : IsPart p) : IsPart (requote p) := by
  rw [requote]
  split
  · exact isPart_quoteSegment h.1
  · exact h

/-- **A second run.**  What was modernized can be modernized again, and this changes nothing exactly
where no index stands right behind a segment with a hyphen. -/
theorem modernize_again {raw e : String} (h : modernize raw = .ok e) :
    ∃ e', modernize e = .ok e' ∧ (e' = e ↔ indexAfterHyphen raw = false) := by
  have hbody := renameBody_of_modernize h
  obtain ⟨parts, hparts, rfl⟩ := modernize_eq_ok.1 h
  obtain ⟨hne, hpart⟩ := isPart_of_convert hparts
  have hpieces : pieces '.' (joinWith "." parts) = parts :=
    pieces_joinWith hne fun p hp => (hpart p hp).1
  have hpieces' : pieces '.' (joinWith "." (parts.map requote)) = parts.map requote := by
    refine pieces_joinWith (by simpa using hne) fun p hp => ?_
    obtain ⟨q, hq, rfl⟩ := List.mem_map.1 hp
    exact (isPart_requote (hpart q hq)).1
  refine ⟨joinWith "." (parts.map requote), ?_, ?_⟩
  · rw [modernize_eq_ok, hbody, hpieces]
    exact ⟨_, convert_of_isPart hpart, rfl⟩
  calc joinWith "." (parts.map requote) = joinWith "." parts
      ↔ parts.map requote = parts := by
        refine ⟨fun heq => ?_, fun heq => by rw [heq]⟩
        rw [← hpieces', heq, hpieces]
    _ ↔ ∀ p ∈ parts, requote p = p := by
        nth_rewrite 2 [← List.map_id parts]
        exact List.map_inj_left
    _ ↔ indexAfterHyphen (renameBody raw) = false := by
        rw [indexAfterHyphen]
        cases hsegments : pieces '.' (renameBody raw) with
        | nil => exact absurd hsegments (pieces_ne_nil '.' _)
        | cons segment rest =>
          rw [hsegments, convert] at hparts
          rw [indexAfter, Bool.false_and, Bool.false_or]
          split at hparts
          · next hh =>
            cases hparts
            rw [requote_convertAfter_iff (requote_quoteSegment segment),
              hasHyphen_quoteSegment hh, hh]
          split at hparts
          · simp at hparts
          · next hh _ =>
            cases hparts
            exact requote_convertAfter_iff (by rw [requote, if_neg hh]) rest
    _ ↔ indexAfterHyphen raw = false := by rw [indexAfterHyphen_renameBody]

theorem indexAfter_eq_false_of_isIndex {segments : List String} (h : ∀ s ∈ segments, isIndex s = false)
    (hyphen : Bool) : indexAfter hyphen segments = false := by
  induction segments generalizing hyphen with
  | nil => rfl
  | cons segment rest ih =>
    have hrest := fun s hs => h s (List.mem_cons_of_mem segment hs)
    rw [indexAfter, h segment List.mem_cons_self, ih hrest, Bool.and_false, Bool.or_false]

/-- What was modernized has all its indices in brackets. -/
theorem indexAfterHyphen_of_modernize {raw e : String} (h : modernize raw = .ok e) :
    indexAfterHyphen e = false := by
  obtain ⟨parts, hparts, rfl⟩ := modernize_eq_ok.1 h
  obtain ⟨hne, hpart⟩ := isPart_of_convert hparts
  rw [indexAfterHyphen, pieces_joinWith hne fun p hp => (hpart p hp).1]
  exact indexAfter_eq_false_of_isIndex (fun p hp => (hpart p hp).2) false

end TestScribe.Expression
