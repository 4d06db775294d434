/-
# Cutting and joining are inverse

Laws of `Text.pieces` and `Text.joinWith`: the pieces of a text hold no separator, joining them gives
the text again, and pieces without separators are found again after they are joined.  Beginnings of a
text are prefixes of its characters.
-/
import TestScribe.Text.Cut
import Mathlib

namespace TestScribe.Text

/-! ## Cutting -/

theorem splitChars_ne_nil (sep : Char) (cs : List Char) : splitChars sep cs ≠ [] := by
  induction cs with
  | nil => simp [splitChars]
  | cons c cs ih =>
    unfold splitChars
    split
    · simp
    · split <;> simp

/-- Text in front of the first separator becomes the front of the first piece. -/
theorem splitChars_append {sep : Char} {front : List Char} (h : sep ∉ front) (cs : List Char) :
    splitChars sep (front ++ cs)
      = (front ++ (splitChars sep cs).headI) :: (splitChars sep cs).tail := by
  induction front with
  | nil =>
    cases hcs : splitChars sep cs with
    | nil => exact absurd hcs (splitChars_ne_nil sep cs)
    | cons p ps => simpa using hcs
  | cons c front ih =>
    have hc : c ≠ sep := fun hc => h (hc ▸ List.mem_cons_self)
    have hrest := ih fun hm => h (List.mem_cons_of_mem c hm)
    rw [List.cons_append, splitChars, if_neg hc, hrest]
    rfl

/-- A text without separators is one piece. -/
theorem splitChars_of_notMem {sep : Char} {cs : List Char} (h : sep ∉ cs) :
    splitChars sep cs = [cs] := by
  have happend := splitChars_append h []
  simpa [splitChars] using happend

/-- A separator between two texts parts them. -/
theorem splitChars_append_sep (sep : Char) (front rest : List Char) :
    splitChars sep (front ++ sep :: rest) = splitChars sep front ++ splitChars sep rest := by
  induction front with
  | nil => simp [splitChars]
  | cons c front ih =>
    rw [List.cons_append, splitChars, splitChars, ih]
    split
    · rfl
    · obtain ⟨part, parts, hparts⟩ := List.exists_cons_of_ne_nil (splitChars_ne_nil sep front)
      rw [hparts]
      rfl

/-- The first piece ends at the first separator. -/
theorem splitChars_append_cons {sep : Char} {p : List Char} (h : sep ∉ p) (rest : List Char) :
    splitChars sep (p ++ sep :: rest) = p :: splitChars sep rest := by
  rw [splitChars_append_sep, splitChars_of_notMem h]
  rfl

/-- Text without separators at the end belongs to the last piece. -/
theorem splitChars_concat {sep : Char} {more : List Char} (h : sep ∉ more) (cs : List Char) :
    ∃ parts last, splitChars sep cs = parts ++ [last] ∧
      splitChars sep (cs ++ more) = parts ++ [last ++ more] := by
  induction cs with
  | nil => exact ⟨[], [], rfl, splitChars_of_notMem h⟩
  | cons c cs ih =>
    obtain ⟨parts, last, hcs, hmore⟩ := ih
    rw [List.cons_append]
    by_cases hsep : c = sep
    · refine ⟨[] :: parts, last, ?_, ?_⟩
      · rw [splitChars, if_pos hsep, hcs, List.cons_append]
      · rw [splitChars, if_pos hsep, hmore, List.cons_append]
    · cases parts with
      | nil =>
        refine ⟨[], c :: last, ?_, ?_⟩
        · rw [splitChars, if_neg hsep, hcs]
          rfl
        · rw [splitChars, if_neg hsep, hmore]
          rfl
      | cons part parts =>
        refine ⟨(c :: part) :: parts, last, ?_, ?_⟩
        · rw [splitChars, if_neg hsep, hcs]
          rfl
        · rw [splitChars, if_neg hsep, hmore]
          rfl

/-- Pieces hold no separator. -/
theorem notMem_of_mem_splitChars {sep : Char} {cs p : List Char} (hp : p ∈ splitChars sep cs) :
    sep ∉ p := by
  induction cs generalizing p with
  | nil =>
    rw [splitChars, List.mem_singleton] at hp
    simp [hp]
  | cons c cs ih =>
    unfold splitChars at hp
    split at hp
    · rcases List.mem_cons.1 hp with rfl | hp
      · exact List.not_mem_nil
      · exact ih hp
    · next hc =>
      split at hp
      · rw [List.mem_singleton] at hp
        simpa [hp] using fun h => hc h.symm
      · next q qs hqs =>
        rcases List.mem_cons.1 hp with rfl | hp
        · have hq := ih (hqs ▸ List.mem_cons_self)
          simpa [hq] using fun h => hc h.symm
        · exact ih (hqs ▸ List.mem_cons_of_mem q hp)

/-- Pieces hold nothing but what was split. -/
theorem subset_of_mem_splitChars {sep : Char} {cs p : List Char} (hp : p ∈ splitChars sep cs) : p ⊆ cs := by
  induction cs generalizing p with
  | nil =>
    rw [splitChars, List.mem_singleton] at hp
    simp [hp]
  | cons c cs ih =>
    unfold splitChars at hp
    split at hp
    · rcases List.mem_cons.1 hp with rfl | hp
      · exact List.nil_subset _
      · exact List.subset_cons_of_subset c (ih hp)
    · split at hp
      · rw [List.mem_singleton] at hp
        simp [hp]
      · next q qs hqs =>
        rcases List.mem_cons.1 hp with rfl | hp
        · exact List.cons_subset_cons c (ih (hqs ▸ List.mem_cons_self))
        · exact List.subset_cons_of_subset c (ih (hqs ▸ List.mem_cons_of_mem q hp))

/-! ## Pieces -/

theorem pieces_ne_nil (sep : Char) (text : String) : pieces sep text ≠ [] := by
  simp [pieces, splitChars_ne_nil]

theorem notMem_of_mem_pieces {sep : Char} {text p : String} (hp : p ∈ pieces sep text) :
    sep ∉ p.toList := by
  obtain ⟨cs, hcs, rfl⟩ := List.mem_map.1 hp
  simpa using notMem_of_mem_splitChars hcs

theorem pieces_of_notMem {sep : Char} {text : String} (h : sep ∉ text.toList) :
    pieces sep text = [text] := by
  simp [pieces, splitChars_of_notMem h]

/-- Text in front of the first separator becomes the front of the first piece. -/
theorem pieces_append {sep : Char} {front : String} (h : sep ∉ front.toList) (text : String) :
    ∃ p ps, pieces sep text = p :: ps ∧ pieces sep (front ++ text) = (front ++ p) :: ps := by
  cases hcs : splitChars sep text.toList with
  | nil => exact absurd hcs (splitChars_ne_nil sep text.toList)
  | cons p ps =>
    refine ⟨String.ofList p, ps.map String.ofList, by simp [pieces, hcs], ?_⟩
    simp [pieces, splitChars_append h, hcs, String.ofList_append]

/-- The characters of joined parts: those of the first one, and the others after a separator. -/
theorem toList_joinWith_cons (sep : Char) (p q : String) (rest : List String) :
    (joinWith (String.ofList [sep]) (p :: q :: rest)).toList
      = p.toList ++ sep :: (joinWith (String.ofList [sep]) (q :: rest)).toList := by
  simp [joinWith]

/-- The pieces of joined parts are those of the parts. -/
theorem pieces_joinWith_eq_flatMap {sep : Char} {parts : List String} (hne : parts ≠ []) :
    pieces sep (joinWith (String.ofList [sep]) parts) = parts.flatMap (pieces sep) := by
  induction parts with
  | nil => exact absurd rfl hne
  | cons p rest ih =>
    cases rest with
    | nil => simp [joinWith]
    | cons q rest =>
      rw [List.flatMap_cons, ← ih (List.cons_ne_nil q rest), pieces, toList_joinWith_cons, splitChars_append_sep,
        List.map_append]
      rfl

/-- Parts without separators are found again. -/
theorem pieces_joinWith {sep : Char} {parts : List String} (hne : parts ≠ [])
    (h : ∀ p ∈ parts, sep ∉ p.toList) :
    pieces sep (joinWith (String.ofList [sep]) parts) = parts := by
  have hsingle : ∀ p ∈ parts, pieces sep p = [p] := fun p hp => pieces_of_notMem (h p hp)
  rw [pieces_joinWith_eq_flatMap hne, List.flatMap_congr hsingle, List.flatMap_singleton']

/-- What is joined last ends the text. -/
theorem exists_joinWith_concat (sep : String) (parts : List String) (last : String) :
    ∃ front, joinWith sep (parts ++ [last]) = front ++ last := by
  induction parts with
  | nil => exact ⟨"", String.empty_append.symm⟩
  | cons part rest ih =>
    obtain ⟨front, hfront⟩ := ih
    refine ⟨part ++ sep ++ front, ?_⟩
    rw [String.append_assoc, ← hfront]
    cases rest <;> rfl

/-- Joining the pieces of a text gives the text again. -/
theorem joinWith_pieces (sep : Char) (text : String) :
    joinWith (String.ofList [sep]) (pieces sep text) = text := by
  have hchars : ∀ cs : List Char,
      (joinWith (String.ofList [sep]) ((splitChars sep cs).map String.ofList)).toList = cs := by
    intro cs
    induction cs with
    | nil => simp [splitChars, joinWith]
    | cons c cs ih =>
      cases hcs : splitChars sep cs with
      | nil => exact absurd hcs (splitChars_ne_nil sep cs)
      | cons p ps =>
        rw [hcs] at ih
        rw [splitChars]
        split
        · next hc =>
          rw [hcs, List.map_cons, List.map_cons, toList_joinWith_cons, ← List.map_cons, ih, hc]
          simp
        · rw [hcs]
          cases ps with
          | nil => simpa [joinWith] using ih
          | cons q ps =>
            simp only [List.map_cons, toList_joinWith_cons, String.toList_ofList] at ih ⊢
            rw [← ih, List.cons_append]
  rw [pieces, ← String.toList_inj, hchars]

/-- A text begins with its first piece. -/
theorem prefix_of_pieces {sep : Char} {text p : String} {rest : List String}
    (h : pieces sep text = p :: rest) : p.toList <+: text.toList := by
  rw [← joinWith_pieces sep text, h]
  cases rest with
  | nil => exact List.prefix_rfl
  | cons q rest =>
    rw [toList_joinWith_cons]
    exact List.prefix_append _ _

/-! ## Beginnings -/

theorem beginsWith_iff {lead text : String} :
    beginsWith lead text = true ↔ lead.toList <+: text.toList :=
  List.isPrefixOf_iff_prefix

theorem afterPrefix?_eq_some_iff {lead text rest : String} :
    afterPrefix? lead text = some rest ↔ lead ++ rest = text := by
  rw [afterPrefix?, Option.map_eq_some_iff, ← String.toList_inj, String.toList_append]
  constructor
  · rintro ⟨cs, hcs, rfl⟩
    simpa using List.isPrefixOf?_eq_some_iff_append_eq.1 hcs
  · intro h
    exact ⟨rest.toList, List.isPrefixOf?_eq_some_iff_append_eq.2 h, String.ofList_toList⟩

theorem afterPrefix?_eq_none_iff {lead text : String} :
    afterPrefix? lead text = none ↔ ¬ lead.toList <+: text.toList := by
  rw [Option.eq_none_iff_forall_ne_some]
  constructor
  · rintro h ⟨cs, hcs⟩
    apply h (String.ofList cs)
    rw [afterPrefix?_eq_some_iff, ← String.toList_inj]
    simpa using hcs
  · intro h rest hrest
    apply h
    rw [← afterPrefix?_eq_some_iff.1 hrest, String.toList_append]
    exact List.prefix_append _ _

/-- A beginning that cannot go on into what follows `front` is one of `front`. -/
theorem prefix_of_prefix_append {lead front rest : List Char} (h : lead <+: front ++ rest)
    (hstop : ∀ c ∈ rest.head?, c ∉ lead) : lead <+: front := by
  rcases List.prefix_or_prefix_of_prefix h (List.prefix_append front rest) with hfront | ⟨more, rfl⟩
  · exact hfront
  · cases more with
    | nil => simp
    | cons c more =>
      rw [List.prefix_append_right_inj] at h
      obtain ⟨tail, rfl⟩ := h
      exact absurd (by simp) (hstop c (by simp))

end TestScribe.Text
