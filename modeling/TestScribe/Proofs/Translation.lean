/-
# Expressions, segment by segment

What an expression in the current syntax has to be, said by its segments alone: the older names of the body give way
to the new one, a name with a hyphen is quoted, an index goes into brackets behind what comes before it, and all else
stays.  `Expression.modernize` translates in this way, but it looks at the beginning of the text for an older name,
and so renames a longer name that begins like one.

* `Expression.Unquoted`, `Expression.Spells` : a name as it is written in the current syntax;
* `Expression.Translates` : the text that some segments are translated to;
* `modernize_segmentwise` : what `modernize` translates, and for which expressions only whole names are replaced.
-/
import TestScribe.Proofs.Expression

namespace TestScribe.Expression

open Text

/-! ## Translations -/

/-- A name without the double quotes at either end. -/
structure Unquoted (segment core : String) : Prop where
  around : ∃ front back, segment.toList
    = List.replicate front '"' ++ (core.toList ++ List.replicate back '"')
  head : core.toList.head? ≠ some '"'
  last : core.toList.getLast? ≠ some '"'

/-- A name as it is written in the current syntax. -/
inductive Spells : String → String → Prop
  | quoted {segment core : String} (hhyphen : '-' ∈ segment.toList) (hcore : Unquoted segment core) :
      Spells segment ("\"" ++ core ++ "\"")
  | plain {segment : String} (hhyphen : '-' ∉ segment.toList) : Spells segment segment

/-- The text that segments behind the first one are translated to. -/
inductive TranslatesAfter : List String → String → Prop
  | nil : TranslatesAfter [] ""
  | index {segment text : String} {rest : List String} (hindex : isIndex segment = true)
      (hrest : TranslatesAfter rest text) : TranslatesAfter (segment :: rest) ("[" ++ segment ++ "]" ++ text)
  | name {segment written text : String} {rest : List String} (hname : isIndex segment = false)
      (hwritten : Spells segment written) (hrest : TranslatesAfter rest text) :
      TranslatesAfter (segment :: rest) ("." ++ written ++ text)

/-- The text that the segments of an expression are translated to. -/
inductive Translates : List String → String → Prop
  | intro {first written text : String} {rest : List String} (hwritten : Spells first written)
      (hrest : TranslatesAfter rest text) : Translates (first :: rest) (written ++ text)

/-- The first segment, with the name of the body in the current syntax. -/
def bodyName (first : String) : String := if first ∈ ["content", "json"] then "body" else first

/-! ## Quotes -/

theorem dropWhile_quotes (n : Nat) {cs : List Char} (h : cs.head? ≠ some '"') :
    (List.replicate n '"' ++ cs).dropWhile (· == '"') = cs := by
  rw [List.dropWhile_append_of_pos fun c hc => beq_iff_eq.2 (List.eq_of_mem_replicate hc)]
  cases cs with
  | nil => rfl
  | cons c cs => exact List.dropWhile_cons_of_neg (by simpa using h)

theorem eq_replicate_of_quotes {cs : List Char} (h : ∀ c ∈ cs, (c == '"') = true) :
    cs = List.replicate cs.length '"' :=
  List.eq_replicate_of_mem fun c hc => beq_iff_eq.1 (h c hc)

/-- There is one way to take the quotes off. -/
theorem unquoted_iff {segment core : String} : Unquoted segment core ↔ core = trimChar '"' segment := by
  have hdef : trimChar '"' segment
      = String.ofList ((segment.toList.dropWhile (· == '"')).rdropWhile (· == '"')) := rfl
  constructor
  · rintro ⟨⟨front, back, hsegment⟩, hhead, hlast⟩
    rw [← String.toList_inj, hdef, String.toList_ofList, hsegment]
    cases hcore : core.toList with
    | nil =>
      have hquotes : ∀ c ∈ List.replicate front '"' ++ ([] ++ List.replicate back '"'), (c == '"') = true := by
        simp [List.mem_replicate]
      rw [List.dropWhile_eq_nil_iff.2 hquotes]
      rfl
    | cons c cs =>
      rw [hcore] at hhead hlast
      rw [dropWhile_quotes front (by simpa using hhead), List.rdropWhile, List.reverse_append,
        List.reverse_replicate, dropWhile_quotes back (by rwa [List.head?_reverse]), List.reverse_reverse]
  · rintro rfl
    set inner := segment.toList.dropWhile (· == '"') with hinner
    have hcore : (trimChar '"' segment).toList = inner.rdropWhile (· == '"') := by
      rw [hdef, String.toList_ofList]
    refine ⟨⟨(segment.toList.takeWhile (· == '"')).length, (inner.rtakeWhile (· == '"')).length, ?_⟩, ?_, ?_⟩
    · rw [hcore, ← eq_replicate_of_quotes fun c => List.mem_takeWhile_imp,
        ← eq_replicate_of_quotes fun c => List.mem_rtakeWhile_imp, List.rdropWhile_append_rtakeWhile,
        hinner, List.takeWhile_append_dropWhile]
    · -- the core begins like the text without quotes at the front
      rw [hcore]
      intro hhead
      obtain ⟨more, hmore⟩ := List.rdropWhile_prefix (· == '"') inner
      have hnot := List.head?_dropWhile_not (· == '"') segment.toList
      rw [← hinner, ← hmore, List.head?_append, hhead] at hnot
      simp at hnot
    · rw [hcore]
      intro hlast
      have hne : inner.rdropWhile (· == '"') ≠ [] := by
        rintro hnil
        rw [hnil] at hlast
        cases hlast
      have hnot := List.rdropWhile_last_not (· == '"') inner hne
      rw [List.getLast?_eq_some_getLast hne, Option.some_inj] at hlast
      exact hnot (beq_iff_eq.2 hlast)

/-- There is one way to write a name. -/
theorem spells_iff {segment written : String} : Spells segment written ↔ written = requote segment := by
  have hmem : hasHyphen segment = true ↔ '-' ∈ segment.toList := by
    rw [hasHyphen, List.contains_eq_mem, decide_eq_true_eq]
  rw [requote]
  constructor
  · rintro (⟨hhyphen, hcore⟩ | hhyphen)
    · rw [if_pos (hmem.2 hhyphen), unquoted_iff.1 hcore, quoteSegment]
    · rw [if_neg (mt hmem.1 hhyphen)]
  · rintro rfl
    split
    · next hhyphen => exact .quoted (hmem.1 hhyphen) (unquoted_iff.2 rfl)
    · next hhyphen => exact .plain (mt hmem.2 hhyphen)

/-! ## Parts and translations -/

theorem joinWith_convertAfter (part last : String) (rest : List String) :
    joinWith "." (part :: convertAfter last rest) = part ++ "." ++ joinWith "." (convertAfter last rest) := by
  obtain ⟨next, parts, hparts⟩ := List.exists_cons_of_ne_nil (convertAfter_ne_nil last rest)
  rw [hparts, joinWith]

/-- A segment that is no index begins a part of its own. -/
theorem convertAfter_cons_of_isIndex_eq_false {segment : String} (h : isIndex segment = false) (last : String)
    (rest : List String) : convertAfter last (segment :: rest) = last :: convertAfter (requote segment) rest := by
  rw [convertAfter, requote, h, if_neg Bool.false_ne_true]
  split <;> rfl

/-- The segments behind the first one can be translated. -/
theorem exists_translatesAfter (rest : List String) : ∃ text, TranslatesAfter rest text := by
  induction rest with
  | nil => exact ⟨"", .nil⟩
  | cons segment rest ih =>
    obtain ⟨text, htext⟩ := ih
    cases hindex : isIndex segment with
    | true => exact ⟨_, .index hindex htext⟩
    | false => exact ⟨_, .name hindex (spells_iff.2 rfl) htext⟩

/-- Converted parts, joined, are the first one and the translation of the segments behind it. -/
theorem TranslatesAfter.joinWith_eq {rest : List String} {text : String} (h : TranslatesAfter rest text)
    (last : String) : joinWith "." (convertAfter last rest) = last ++ text := by
  induction h generalizing last with
  | nil => rw [String.append_empty]; rfl
  | @index segment text rest hindex _ ih =>
    have hhyphen := hasHyphen_eq_false_of_isIndex hindex
    rw [convertAfter, hhyphen, if_neg Bool.false_ne_true, if_pos hindex, ih]
    simp only [String.append_assoc]
  | @name segment written text rest hname hwritten _ ih =>
    rw [convertAfter_cons_of_isIndex_eq_false hname, joinWith_convertAfter, ih, spells_iff.1 hwritten]
    simp only [String.append_assoc]

/-- There is one translation, which is that of the converted parts. -/
theorem translates_iff {first : String} {rest : List String} {e : String} :
    Translates (first :: rest) e ↔ e = joinWith "." (convertAfter (requote first) rest) := by
  constructor
  · rintro ⟨hwritten, hrest⟩
    rw [hrest.joinWith_eq, spells_iff.1 hwritten]
  · rintro rfl
    obtain ⟨text, htext⟩ := exists_translatesAfter rest
    rw [htext.joinWith_eq]
    exact .intro (spells_iff.2 rfl) htext

theorem convert_of_isIndex_eq_false {first : String} (h : isIndex first = false) (rest : List String) :
    convert (first :: rest) = some (convertAfter (requote first) rest) := by
  rw [convert, requote, h, if_neg Bool.false_ne_true]
  split <;> rfl

/-! ## The first segment -/

theorem renameBody_append {old : String} (hold : old ∈ ["content", "json"]) (more : String) :
    renameBody (old ++ more) = "body" ++ more := by
  rcases List.mem_pair.1 hold with rfl | rfl
  · rw [renameBody, afterPrefix?_eq_some_iff.2 rfl]
  · have hcontent : afterPrefix? "content" ("json" ++ more) = none := by
      rw [afterPrefix?_eq_none_iff, String.toList_append]
      simp
    rw [renameBody, hcontent, afterPrefix?_eq_some_iff.2 rfl]

/-- Renaming the body changes the first segment only. -/
theorem pieces_renameBody {raw first : String} {rest : List String}
    (h : pieces '.' raw = first :: rest) : pieces '.' (renameBody raw) = renameBody first :: rest := by
  rcases renameBody_cases raw with ⟨old, hold, more, rfl, hrename⟩ | ⟨hrename, hnone⟩
  · have hdot : '.' ∉ old.toList := by
      rcases List.mem_pair.1 hold with rfl | rfl <;> decide
    obtain ⟨p, ps, hp, hraw⟩ := pieces_append hdot more
    have hbody : '.' ∉ "body".toList := by decide
    obtain ⟨q, qs, hq, hbody⟩ := pieces_append hbody more
    rw [hp] at hq
    cases hq
    rw [hraw] at h
    cases h
    rw [hrename, hbody, renameBody_append hold]
  · have hfirst : renameBody first = first := by
      rcases renameBody_cases first with ⟨old, hold, more, rfl, -⟩ | ⟨hsame, -⟩
      · have hprefix : old.toList <+: raw.toList := by
          refine .trans ?_ (prefix_of_pieces h)
          rw [String.toList_append]
          exact List.prefix_append _ _
        exact absurd hprefix (hnone old hold)
      · exact hsame
    rw [hrename, hfirst, h]

theorem isIndex_renameBody {first : String} (h : isIndex first = false) :
    isIndex (renameBody first) = false := by
  rcases renameBody_cases first with ⟨old, -, more, -, hrename⟩ | ⟨hrename, -⟩
  · rw [hrename]
    exact isIndex_eq_false_of_mem (c := 'b') (by simp) (by decide)
  · rwa [hrename]

/-- Only whole names are replaced exactly where no longer name begins like an older one. -/
theorem renameBody_eq_bodyName {first : String}
    (h : ∀ old ∈ ["content", "json"], old.toList <+: first.toList → first = old) :
    renameBody first = bodyName first := by
  rw [bodyName]
  rcases renameBody_cases first with ⟨old, hold, more, hfirst, hrename⟩ | ⟨hrename, hnone⟩
  · have hwhole : first = old := by
      refine h old hold ?_
      rw [hfirst, String.toList_append]
      exact List.prefix_append _ _
    rw [if_pos (hwhole ▸ hold), hwhole, ← String.append_empty (s := old), renameBody_append hold]
    rfl
  · rw [if_neg fun hmem => hnone first hmem List.prefix_rfl, hrename]

/-- A name that begins with something else than a quote begins so without its quotes. -/
theorem Unquoted.head?_eq {segment core : String} {c : Char} (h : Unquoted segment core)
    (hhead : segment.toList.head? = some c) (hc : c ≠ '"') : core.toList.head? = some c := by
  obtain ⟨⟨front, back, haround⟩, -, -⟩ := h
  rw [haround, List.head?_append, List.head?_append, List.head?_replicate, List.head?_replicate] at hhead
  split at hhead
  · cases hcore : core.toList.head? with
    | some d => rwa [hcore] at hhead
    | none =>
      rw [hcore] at hhead
      split at hhead
      · cases hhead
      · cases hhead
        exact absurd rfl hc
  · cases hhead
    exact absurd rfl hc

/-- The first character of a translation that is no quote is that of the first segment. -/
theorem Translates.find?_eq {first e : String} {rest : List String} {c : Char} (h : Translates (first :: rest) e)
    (hhead : first.toList.head? = some c) (hc : c ≠ '"') : e.toList.find? (· ≠ '"') = some c := by
  have hfind : ∀ {s : String} (more : List Char), s.toList.head? = some c →
      (s.toList ++ more).find? (· ≠ '"') = some c := by
    intro s more hs
    obtain ⟨cs, hcs⟩ := List.head?_eq_some_iff.1 hs
    simp [hcs, hc]
  obtain ⟨hwritten, -⟩ := h
  cases hwritten with
  | plain => rw [String.toList_append, hfind _ hhead]
  | quoted _ hcore =>
    rw [String.toList_append, String.toList_append, String.toList_append, List.append_assoc, List.append_assoc,
      show "\"".toList = ['"'] from rfl, List.singleton_append, List.find?_cons_of_neg (by simp)]
    exact hfind _ (hcore.head?_eq hhead hc)

end TestScribe.Expression

namespace TestScribe

open Expression

/-- **Segment by segment.**  An expression that does not begin with an index is modernized, and the outcome is the
one translation of its segments, the first one renamed where it begins like an older name of the body.  It is the
translation in which only whole names are replaced if and only if no longer name begins like an older one. -/
theorem modernize_segmentwise {raw first : String} {rest : List String}
    (hraw : Text.pieces '.' raw = first :: rest) (hfirst : isIndex first = false) :
    ∃ e, modernize raw = .ok e ∧ (∀ t, Translates (renameBody first :: rest) t ↔ t = e) ∧
      (Translates (bodyName first :: rest) e ↔
        ∀ old ∈ ["content", "json"], old.toList <+: first.toList → first = old) := by
  have hconvert : convert (Text.pieces '.' (renameBody raw))
      = some (convertAfter (requote (renameBody first)) rest) := by
    rw [pieces_renameBody hraw, convert_of_isIndex_eq_false (isIndex_renameBody hfirst)]
  refine ⟨_, modernize_eq_ok.2 ⟨_, hconvert, rfl⟩, fun t => translates_iff, fun htranslates => ?_, fun h => ?_⟩
  · intro old hold hprefix
    by_contra hlonger
    obtain ⟨more, rfl⟩ : ∃ more, first = old ++ more := by
      obtain ⟨cs, hcs⟩ := hprefix
      exact ⟨String.ofList cs, by rw [← String.toList_inj, ← hcs]; simp⟩
    have hname : bodyName (old ++ more) = old ++ more := by
      have hapart : ∀ name ∈ ["content", "json"], ∀ other ∈ ["content", "json"],
          name.toList <+: other.toList → other = name := by decide
      exact if_neg fun hmem => hlonger (hapart old hold _ hmem hprefix)
    -- the longer name keeps its first letter in the one translation and loses it in the other
    obtain ⟨c, hhead, hquote, hb⟩ : ∃ c, (old ++ more).toList.head? = some c ∧ c ≠ '"' ∧ c ≠ 'b' := by
      rcases List.mem_pair.1 hold with rfl | rfl
      · exact ⟨'c', by simp, by decide, by decide⟩
      · exact ⟨'j', by simp, by decide, by decide⟩
    have hkept := htranslates.find?_eq (by rw [hname, hhead]) hquote
    have hrenamed : Translates (renameBody (old ++ more) :: rest) _ := translates_iff.2 rfl
    have hlost := hrenamed.find?_eq (c := 'b') (by rw [renameBody_append hold]; simp) (by decide)
    rw [hkept, Option.some_inj] at hlost
    exact hb hlost
  · rw [← renameBody_eq_bodyName h, translates_iff]

/-- An expression with indices in a row and with names that have hyphens, quoted and not, and one that begins with a
longer name. -/
theorem modernize_segmentwise_examples :
    let rest := ["lst", "0", "1", "\"X-Y\"", "a-b", "2"]
    (Text.pieces '.' "json.lst.0.1.\"X-Y\".a-b.2" = "json" :: rest ∧
      modernize "json.lst.0.1.\"X-Y\".a-b.2" = .ok "body.lst[0][1].\"X-Y\".\"a-b\"[2]" ∧
      Translates ("body" :: rest) "body.lst[0][1].\"X-Y\".\"a-b\"[2]") ∧
    Text.pieces '.' "content_type.0" = ["content_type", "0"] ∧
      modernize "content_type.0" = .ok "body_type[0]" ∧
      Translates ["body_type", "0"] "body_type[0]" ∧ ¬ Translates ["content_type", "0"] "body_type[0]" := by
  intro rest
  have hpieces : Text.pieces '.' "json.lst.0.1.\"X-Y\".a-b.2" = "json" :: rest := by decide +kernel
  have hpieces' : Text.pieces '.' "content_type.0" = ["content_type", "0"] := by decide +kernel
  have hok : modernize "json.lst.0.1.\"X-Y\".a-b.2" = .ok "body.lst[0][1].\"X-Y\".\"a-b\"[2]" := by
    decide +kernel
  have hok' : modernize "content_type.0" = .ok "body_type[0]" := by decide +kernel
  obtain ⟨e, he, -, hwhole⟩ := modernize_segmentwise hpieces (by decide +kernel)
  obtain ⟨e', he', htranslates, hwhole'⟩ := modernize_segmentwise hpieces' (by decide +kernel)
  obtain rfl := Except.ok.inj (hok.symm.trans he)
  obtain rfl := Except.ok.inj (hok'.symm.trans he')
  refine ⟨⟨hpieces, hok, hwhole.2 (by decide +kernel)⟩, hpieces', hok', (htranslates _).2 rfl, fun hkept => ?_⟩
  exact absurd (hwhole'.1 hkept) (by decide +kernel)

/-- A longer name that begins like an older name of the body is not kept. -/
theorem modernize_renames_longer_names :
    ¬ ∀ (raw first e : String) (rest : List String), Text.pieces '.' raw = first :: rest → isIndex first = false →
      modernize raw = .ok e → Translates (bodyName first :: rest) e := by
  intro h
  have hkept := h "content_type.0" "content_type" "body_type[0]" ["0"] (by decide +kernel) (by decide +kernel)
    (by decide +kernel)
  rw [translates_iff] at hkept
  exact absurd hkept (by decide +kernel)

end TestScribe
