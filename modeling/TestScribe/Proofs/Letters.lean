/-
# What a change of case brings in

A text in upper or lower case has no characters but those of the text itself, letters of ASCII, and characters
beyond ASCII: the tables lead to no digit, no punctuation and no control character.

* `Text.isLetterLike` : the characters that a change of case may bring in;
* `Text.mem_upperOf`, `Text.mem_lowerOf`, `Text.mem_lower` : the characters of a text in another case;
* `Naming.mem_className` : the characters of a class name.
-/
import Mathlib
import TestScribe.Naming

namespace TestScribe

namespace Text

/-- A character that a change of case may bring in: a letter of ASCII, or one beyond ASCII. -/
def isLetterLike (c : Char) : Bool := 0x80 ≤ c.toNat || c.isAlpha

/-- Whether all code points from the first to the last are characters beyond ASCII; the gap is that of the
surrogates. -/
def spansBeyond (first last : Int) : Bool :=
  (0x80 ≤ first && last < 0xD800) || (0xE000 ≤ first && last < 0x110000)

theorem isLetterLike_ofNat {n : Nat} {first last : Int} (hspans : spansBeyond first last = true)
    (hfirst : first ≤ n) (hlast : n ≤ last) : isLetterLike (Char.ofNat n) = true := by
  simp only [spansBeyond, Bool.or_eq_true, Bool.and_eq_true, decide_eq_true_eq] at hspans
  have hvalid : n.isValidChar := by
    rw [Nat.isValidChar]
    omega
  rw [isLetterLike, Char.toNat_ofNat, if_pos hvalid, Bool.or_eq_true, decide_eq_true_eq]
  left
  omega

/-- The tables lead beyond ASCII, or from a single character to a letter of ASCII. -/
def IsLetterTable (expansions : List (Nat × List Nat)) (shifts : List Case.MovedRun) : Bool :=
  expansions.all (fun expansion => expansion.2.all fun code => isLetterLike (Char.ofNat code)) &&
    shifts.all fun run => spansBeyond (run.first + run.distance) (run.last + run.distance) ||
      run.first = run.last && isLetterLike (Char.ofNat ((run.first : Int) + run.distance).toNat)

/-- A character is mapped to itself or to letters, if the tables lead to letters. -/
theorem mem_counterpart {expansions : List (Nat × List Nat)} {shifts : List Case.MovedRun}
    (htable : IsLetterTable expansions shifts = true) {c d : Char} (h : d ∈ counterpart expansions shifts c) :
    d = c ∨ isLetterLike d = true := by
  rw [IsLetterTable, Bool.and_eq_true, List.all_eq_true, List.all_eq_true] at htable
  rw [counterpart] at h
  split at h
  · next codes hcodes =>
    obtain ⟨code, hcode, rfl⟩ := List.mem_map.1 h
    obtain ⟨before, after, hlist, -⟩ := List.lookup_eq_some_iff.1 hcodes
    have hmem : (c.toNat, codes) ∈ expansions := by
      rw [hlist]
      exact List.mem_append_right _ List.mem_cons_self
    exact .inr (List.all_eq_true.1 (htable.1 _ hmem) code hcode)
  · split at h
    · next run hrun =>
      right
      obtain rfl := List.mem_singleton.1 h
      have hholds := List.find?_some hrun
      simp only [Case.MovedRun.holds, Bool.and_eq_true, decide_eq_true_eq] at hholds
      have hshift := htable.2 run (List.mem_of_find?_eq_some hrun)
      rw [Bool.or_eq_true, Bool.and_eq_true, decide_eq_true_eq] at hshift
      rcases hshift with hspans | ⟨hsingle, hletter⟩
      · have hpositive : 0 ≤ (run.first : Int) + run.distance := by
          simp only [spansBeyond, Bool.or_eq_true, Bool.and_eq_true, decide_eq_true_eq] at hspans
          omega
        exact isLetterLike_ofNat hspans (by omega) (by omega)
      · rwa [show c.toNat = run.first by omega]
    · exact .inl (List.mem_singleton.1 h)

/-- The tables lead to letters. -/
theorem isLetterTable_case : IsLetterTable Case.upperExpansions Case.upperShifts = true ∧
    IsLetterTable Case.lowerExpansions Case.lowerShifts = true := by
  decide +kernel

/-- In upper case a character is itself or a letter. -/
theorem mem_upperOf {c d : Char} (h : d ∈ upperOf c) : d = c ∨ isLetterLike d = true := by
  have hascii : ∀ n < 0x80, (Char.ofNat n).toUpper = Char.ofNat n ∨
      isLetterLike (Char.ofNat n).toUpper = true := by decide
  rw [upperOf] at h
  split at h
  · next hlow =>
    rw [List.mem_singleton.1 h]
    simpa only [Char.ofNat_toNat] using hascii c.toNat hlow
  · exact mem_counterpart isLetterTable_case.1 h

/-- In lower case a character is itself or a letter. -/
theorem mem_lowerOf {c d : Char} (h : d ∈ lowerOf c) : d = c ∨ isLetterLike d = true := by
  have hascii : ∀ n < 0x80, (Char.ofNat n).toLower = Char.ofNat n ∨
      isLetterLike (Char.ofNat n).toLower = true := by decide
  rw [lowerOf] at h
  split at h
  · next hlow =>
    rw [List.mem_singleton.1 h]
    simpa only [Char.ofNat_toNat] using hascii c.toNat hlow
  · exact mem_counterpart isLetterTable_case.2 h

/-- Lower case brings in letters only. -/
theorem mem_lower {s : String} {d : Char} (h : d ∈ (lower s).toList) : d ∈ s.toList ∨ isLetterLike d = true := by
  have hafter : ∀ (cs before : List Char), d ∈ lowerAfter before cs → d ∈ cs ∨ isLetterLike d = true := by
    intro cs
    induction cs with
    | nil => exact fun _ hd => .inl hd
    | cons c cs ih =>
      intro before hd
      rw [lowerAfter] at hd
      split at hd
      · rcases List.mem_cons.1 hd with rfl | hd
        · right
          split <;> decide
        · exact (ih _ hd).imp_left (List.mem_cons_of_mem c)
      · rcases List.mem_append.1 hd with hd | hd
        · exact (mem_lowerOf hd).imp_left fun (heq : d = c) => heq ▸ List.mem_cons_self
        · exact (ih _ hd).imp_left (List.mem_cons_of_mem c)
  rw [lower, String.toList_ofList] at h
  exact hafter s.toList [] h

/-- A character that is no letter, such as a separator, comes from the text itself. -/
theorem notMem_lower {s : String} {c : Char} (hc : isLetterLike c = false) (h : c ∉ s.toList) :
    c ∉ (lower s).toList := by
  intro hmem
  rcases mem_lower hmem with hmem | hletter
  · exact h hmem
  · rw [hc] at hletter
    cases hletter

end Text

namespace Naming

/-- So does title case. -/
theorem mem_titleCase {after : Bool} {cs : List Char} {d : Char} (h : d ∈ titleCase after cs) :
    d ∈ cs ∨ Text.isLetterLike d = true := by
  induction cs generalizing after with
  | nil => exact .inl h
  | cons c cs ih =>
    rw [titleCase] at h
    split at h
    · rcases List.mem_append.1 h with h | h
      · have hcase : d = c ∨ Text.isLetterLike d = true := by
          split at h
          · exact Text.mem_lowerOf h
          · exact Text.mem_upperOf h
        exact hcase.imp_left fun (heq : d = c) => heq ▸ List.mem_cons_self
      · exact (ih h).imp_left (List.mem_cons_of_mem c)
    · split at h
      · exact (ih h).imp_left (List.mem_cons_of_mem c)
      · rcases List.mem_cons.1 h with rfl | h
        · exact .inl List.mem_cons_self
        · exact (ih h).imp_left (List.mem_cons_of_mem c)

/-- The name of a class has characters of the stem and letters. -/
theorem mem_className {stem : String} {d : Char} (h : d ∈ (className stem).toList) :
    d ∈ stem.toList ∨ Text.isLetterLike d = true := by
  rw [className, String.toList_ofList] at h
  exact mem_titleCase h

end Naming

end TestScribe
