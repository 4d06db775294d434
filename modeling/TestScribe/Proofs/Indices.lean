/-
# Indices in expressions

An expression is a sequence of names, each with the indices that follow it.  In the older syntax the names and the
indices alike are segments between dots; in the current one an index goes into brackets behind its name.  So an
expression can be modernized unless an index comes before any name, and what comes out has one part for each name.

* `Access` : a name and the indices that follow it;
* `exists_accesses` : the segments behind a name, as indices of this name and further names with theirs;
* `modernize_eq_error_iff` : which expressions are refused;
* `modernize_keeps_indices` : what becomes of the names and the indices of the others.
-/
import TestScribe.Proofs.Translation

namespace TestScribe

/-! ## The first segment -/

/-- The text in front of the first dot. -/
def Expression.leading (raw : String) : String := String.ofList (raw.toList.takeWhile (· ≠ '.'))

theorem Text.exists_splitChars_eq (sep : Char) (cs : List Char) :
    ∃ rest, splitChars sep cs = cs.takeWhile (· ≠ sep) :: rest := by
  induction cs with
  | nil => exact ⟨[], rfl⟩
  | cons c cs ih =>
    obtain ⟨rest, hrest⟩ := ih
    rw [splitChars]
    by_cases hc : c = sep
    · rw [if_pos hc, List.takeWhile_cons_of_neg (by simpa using hc)]
      exact ⟨_, rfl⟩
    · rw [if_neg hc, hrest, List.takeWhile_cons_of_pos (by simpa using hc)]
      exact ⟨rest, rfl⟩

namespace Expression

open Text

theorem exists_pieces_eq (raw : String) : ∃ rest, pieces '.' raw = leading raw :: rest := by
  obtain ⟨rest, hrest⟩ := exists_splitChars_eq '.' raw.toList
  exact ⟨rest.map String.ofList, by rw [pieces, hrest, List.map_cons, leading]⟩

/-- A text that begins with an index does not begin with a name of the body. -/
theorem renameBody_of_isIndex {raw : String} (h : isIndex (leading raw) = true) : renameBody raw = raw := by
  rcases renameBody_cases raw with ⟨old, hold, more, rfl, -⟩ | ⟨hsame, -⟩
  · obtain ⟨c, cs, hcs, hdot, hdigit⟩ : ∃ c cs, old.toList = c :: cs ∧ c ≠ '.' ∧ isDigit c = false := by
      rcases List.mem_pair.1 hold with rfl | rfl
      · exact ⟨'c', "ontent".toList, rfl, by decide, by decide⟩
      · exact ⟨'j', "son".toList, rfl, by decide, by decide⟩
    have hmem : c ∈ (leading (old ++ more)).toList := by
      rw [leading, String.toList_ofList, String.toList_append, hcs, List.cons_append,
        List.takeWhile_cons_of_pos (by simpa using hdot)]
      exact List.mem_cons_self
    rw [isIndex_eq_false_of_mem hmem hdigit] at h
    cases h
  · exact hsame

/-- An expression is refused exactly where an index comes first. -/
theorem modernize_eq_error_iff {raw : String} {fault : SchemaFault} :
    modernize raw = .error fault ↔ isIndex (leading raw) = true ∧ fault = .badExpression raw := by
  obtain ⟨rest, hpieces⟩ := exists_pieces_eq raw
  cases hindex : isIndex (leading raw) with
  | true =>
    have hconvert : convert (pieces '.' raw) = none := by
      rw [hpieces, convert, hasHyphen_eq_false_of_isIndex hindex, if_neg Bool.false_ne_true, if_pos hindex]
    unfold modernize
    rw [renameBody_of_isIndex hindex, segments?_eq_convert, hconvert]
    simp [eq_comm]
  | false =>
    have hconvert := convert_of_isIndex_eq_false (isIndex_renameBody hindex) rest
    rw [modernize, segments?_eq_convert, pieces_renameBody hpieces, hconvert]
    simp

/-! ## Names and their indices -/

/-- A name of an expression and the indices that follow it. -/
structure Access where
  name : String
  indices : List String
  isName : isIndex name = false
  areIndices : ∀ i ∈ indices, isIndex i = true

/-- Indices in brackets. -/
def brackets : List String → String
  | [] => ""
  | i :: rest => "[" ++ i ++ "]" ++ brackets rest

namespace Access

/-- The segments of a name and its indices. -/
def segments (a : Access) : List String := a.name :: a.indices

/-- The name is that of the body in the current syntax, where it begins like an older one. -/
def renamed (a : Access) : Access := ⟨renameBody a.name, a.indices, isIndex_renameBody a.isName, a.areIndices⟩

/-- A name and its indices as they are written in the current syntax. -/
def Writes (a : Access) (text : String) : Prop := ∃ name, Spells a.name name ∧ text = name ++ brackets a.indices

theorem writes_iff {a : Access} {text : String} : a.Writes text ↔ text = requote a.name ++ brackets a.indices := by
  simp only [Writes, spells_iff, exists_eq_left]

theorem countP_segments (a : Access) : a.segments.countP (fun s => !isIndex s) = 1 := by
  have hindices : a.indices.countP (fun s => !isIndex s) = 0 := by
    rw [List.countP_eq_zero]
    intro i hi
    rw [a.areIndices i hi]
    exact Bool.false_ne_true
  rw [segments, List.countP_cons_of_pos (by rw [a.isName]; rfl), hindices]

end Access

/-- Among the segments of some names and their indices, the names are those that are no index. -/
theorem countP_flatMap_segments (accesses : List Access) :
    (accesses.flatMap Access.segments).countP (fun s => !isIndex s) = accesses.length := by
  induction accesses with
  | nil => rfl
  | cons a accesses ih => rw [List.flatMap_cons, List.countP_append, ih, a.countP_segments, List.length_cons, add_comm]

/-- The segments behind a name are indices of it, and then further names with theirs; the part of a name is
followed by its indices in brackets. -/
theorem exists_accesses (rest : List String) :
    ∃ (indices : List String) (more : List Access), (∀ i ∈ indices, isIndex i = true) ∧
      rest = indices ++ more.flatMap Access.segments ∧ ∀ last, convertAfter last rest
        = (last ++ brackets indices) :: more.map fun a => requote a.name ++ brackets a.indices := by
  induction rest with
  | nil => exact ⟨[], [], by simp, rfl, fun last => by rw [brackets, String.append_empty]; rfl⟩
  | cons segment rest ih =>
    obtain ⟨indices, more, hindices, rfl, hparts⟩ := ih
    cases hindex : isIndex segment with
    | true =>
      refine ⟨segment :: indices, more, List.forall_mem_cons.2 ⟨hindex, hindices⟩, rfl, fun last => ?_⟩
      rw [convertAfter, hasHyphen_eq_false_of_isIndex hindex, if_neg Bool.false_ne_true, if_pos hindex, hparts,
        brackets]
      simp only [String.append_assoc]
    | false =>
      refine ⟨[], ⟨segment, indices, hindex, hindices⟩ :: more, by simp, rfl, fun last => ?_⟩
      rw [convertAfter_cons_of_isIndex_eq_false hindex, hparts, brackets, String.append_empty]
      rfl

end Expression

open Expression

/-- **Names and indices.**  An expression is refused if and only if the text in front of its first dot is an index.
Any other is modernized, and the parts between the dots of the outcome are as many as the segments that are no index:
one for each name, with the indices that follow the name in brackets behind it, in their order. -/
theorem modernize_keeps_indices (raw : String) :
    (∀ fault, modernize raw = .error fault ↔ isIndex (leading raw) = true ∧ fault = .badExpression raw) ∧
    (isIndex (leading raw) = false → ∃ e, modernize raw = .ok e ∧
      (Text.pieces '.' e).length = (Text.pieces '.' raw).countP (fun s => !isIndex s) ∧
      ∃ (first : Access) (more : List Access),
        Text.pieces '.' raw = (first :: more).flatMap Access.segments ∧
        List.Forall₂ Access.Writes (first.renamed :: more) (Text.pieces '.' e)) := by
  refine ⟨fun fault => modernize_eq_error_iff, fun hfirst => ?_⟩
  obtain ⟨rest, hpieces⟩ := exists_pieces_eq raw
  obtain ⟨indices, more, hindices, rfl, hparts⟩ := exists_accesses rest
  let first : Access := ⟨leading raw, indices, hfirst, hindices⟩
  let texts := (first.renamed :: more).map fun a => requote a.name ++ brackets a.indices
  have hconvert : convert (Text.pieces '.' (renameBody raw)) = some texts := by
    rw [pieces_renameBody hpieces, convert_of_isIndex_eq_false (isIndex_renameBody hfirst), hparts]
    simp only [texts, List.map_cons, Access.renamed, first]
  have hsegments : Text.pieces '.' raw = (first :: more).flatMap Access.segments := hpieces
  -- the parts hold no dots, so they are the pieces of the outcome
  obtain ⟨hne, hpart⟩ := isPart_of_convert hconvert
  have htexts : Text.pieces '.' (Text.joinWith "." texts) = texts :=
    Text.pieces_joinWith hne fun part hmem => (hpart part hmem).1
  refine ⟨_, modernize_eq_ok.2 ⟨texts, hconvert, rfl⟩, ?_, first, more, hsegments, ?_⟩
  · rw [htexts, hsegments, countP_flatMap_segments, List.length_map, List.length_cons, List.length_cons]
  · rw [htexts, List.forall₂_map_right_iff, List.forall₂_same]
    exact fun a _ => Access.writes_iff.2 rfl

/-- Indices in a row, behind a name with a hyphen and behind an empty one, and an index that comes first. -/
theorem modernize_keeps_indices_examples :
    modernize "0.name" = .error (.badExpression "0.name") ∧
    modernize "content.0.1..2.a-b.3" = .ok "body[0][1].[2].\"a-b\"[3]" ∧
    (Text.pieces '.' "body[0][1].[2].\"a-b\"[3]").length = 3 ∧
    ∃ (first : Access) (more : List Access),
      ["content", "0", "1", "", "2", "a-b", "3"] = (first :: more).flatMap Access.segments ∧
      List.Forall₂ Access.Writes (first.renamed :: more) ["body[0][1]", "[2]", "\"a-b\"[3]"] := by
  have hrefused := ((modernize_keeps_indices "0.name").1 (.badExpression "0.name")).2 ⟨by decide +kernel, rfl⟩
  have hok : modernize "content.0.1..2.a-b.3" = .ok "body[0][1].[2].\"a-b\"[3]" := by decide +kernel
  have hraw : Text.pieces '.' "content.0.1..2.a-b.3" = ["content", "0", "1", "", "2", "a-b", "3"] := by
    decide +kernel
  have hparts : Text.pieces '.' "body[0][1].[2].\"a-b\"[3]" = ["body[0][1]", "[2]", "\"a-b\"[3]"] := by
    decide +kernel
  obtain ⟨e, he, hcount, first, more, hsegments, hwrites⟩ :=
    (modernize_keeps_indices "content.0.1..2.a-b.3").2 (by decide +kernel)
  obtain rfl := Except.ok.inj (hok.symm.trans he)
  rw [hraw] at hcount hsegments
  rw [hparts] at hwrites
  exact ⟨hrefused, hok, hcount.trans (by decide +kernel), first, more, hsegments, hwrites⟩

end TestScribe
