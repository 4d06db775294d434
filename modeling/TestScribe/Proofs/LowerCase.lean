/-
# Lower case is for good

A text in lower case is left as it is when it is brought to lower case again.  For single characters this is a fact
about the tables: no run of letters leads onto a run that leads on.  The final sigma makes no difference, since a text
in lower case has no capital sigma.

* `Text.Case.MovedRun.isAvoided`, `Text.Case.MovedRun.settles` : runs that lead to characters in lower case;
* `Text.Case.Stretch`, `Text.Case.settles_of_mem_lowerShifts` : all runs of the table do, stretch by stretch;
* `Text.IsLower`, `Text.isLower_of_mem_lowerOf` : single characters in lower case;
* `Text.lower_lower`, `Text.lower_ne_empty` : whole texts.
-/
import TestScribe.Proofs.Letters

namespace TestScribe.Text

open Case

/-! ## Runs -/

/-- None of some evenly spaced code points lies on a run: they come before it or behind it, they lie between its
characters, or there is only one of them, which does not. -/
def Case.MovedRun.isAvoided (r : MovedRun) (first last step : Nat) : Bool :=
  Nat.blt r.last first || (Nat.blt last r.first ||
    (step == r.step && first % step != r.first % step || first == last && !r.holds first))

theorem Case.MovedRun.holds_eq_false_of_isAvoided {r : MovedRun} {first last step n : Nat}
    (h : r.isAvoided first last step = true) (hfirst : first ≤ n) (hlast : n ≤ last)
    (hstep : (n - first) % step = 0) : r.holds n = false := by
  rw [Bool.eq_false_iff]
  intro hholds
  rw [holds, Bool.and_eq_true, Bool.and_eq_true, decide_eq_true_eq, decide_eq_true_eq, beq_iff_eq] at hholds
  obtain ⟨⟨hafter, hbefore⟩, hon⟩ := hholds
  simp only [isAvoided, Bool.or_eq_true, Bool.and_eq_true, Nat.blt_eq, beq_iff_eq, bne_iff_ne] at h
  rcases h with h | h | ⟨rfl, hne⟩ | ⟨rfl, hnot⟩
  · omega
  · omega
  · -- both would have the same remainder as `n`
    have hleft := (Nat.modEq_iff_dvd' hfirst).2 (Nat.dvd_of_mod_eq_zero hstep)
    have hright := (Nat.modEq_iff_dvd' hafter).2 (Nat.dvd_of_mod_eq_zero hon)
    exact hne (hleft.trans hright.symm)
  · obtain rfl : n = first := by omega
    simp [holds, hafter, hbefore, hon] at hnot

/-- What the characters of a run lead to is in no table of lower case: it lies beyond ASCII on no run, or is a single
letter of ASCII in lower case. -/
def Case.MovedRun.settles (r : MovedRun) : Bool :=
  let first := ((r.first : Int) + r.distance).toNat
  let last := ((r.last : Int) + r.distance).toNat
  first == last && Nat.blt first 0x80 && (Char.ofNat first).toLower = Char.ofNat first ||
    spansBeyond (r.first + r.distance) (r.last + r.distance) &&
      lowerExpansions.all (fun expansion => Nat.blt expansion.1 first || Nat.blt last expansion.1) &&
      lowerShifts.all (·.isAvoided first last r.step)

/-! The table is long, so each run is compared with whole stretches of it first. -/

/-- Some runs, and two code points between which they should lie. -/
structure Case.Stretch where
  first : Nat
  last : Nat
  runs : List MovedRun

namespace Case.Stretch

/-- Whether the runs lie between the two code points. -/
def isTight (s : Stretch) : Bool := s.runs.all fun r => Nat.ble s.first r.first && Nat.ble r.last s.last

/-- None of some evenly spaced code points lies on a run of the stretch. -/
def isAvoided (s : Stretch) (first last step : Nat) : Bool :=
  Nat.blt s.last first || (Nat.blt last s.first || s.runs.all (·.isAvoided first last step))

theorem isAvoided_of_mem {s : Stretch} {first last step : Nat} (hs : s.isTight = true)
    (h : s.isAvoided first last step = true) {r : MovedRun} (hr : r ∈ s.runs) :
    r.isAvoided first last step = true := by
  rw [isTight, List.all_eq_true] at hs
  have hends := hs r hr
  simp only [Bool.and_eq_true, Nat.ble_eq] at hends
  simp only [isAvoided, Bool.or_eq_true, Nat.blt_eq, List.all_eq_true] at h
  rcases h with h | h | h
  · have hbefore : Nat.blt r.last first = true := by
      rw [Nat.blt_eq]
      omega
    rw [MovedRun.isAvoided, hbefore, Bool.true_or]
  · have hbehind : Nat.blt last r.first = true := by
      rw [Nat.blt_eq]
      omega
    rw [MovedRun.isAvoided, hbehind, Bool.true_or, Bool.or_true]
  · exact h r hr

end Case.Stretch

/-- Sixteen runs of lower case, from the `i`-th one on. -/
def Case.lowerStretch (i : Nat) : Stretch :=
  let runs := (lowerShifts.drop i).take 16
  ⟨(runs.head?.map (·.first)).getD 0, (runs.getLast?.map (·.last)).getD 0, runs⟩

/-- All runs of lower case. -/
def Case.lowerStretches : List Stretch := (List.range 12).map fun i => lowerStretch (16 * i)

theorem Case.exists_lowerStretch {r : MovedRun} (h : r ∈ lowerShifts) : ∃ s ∈ lowerStretches, r ∈ s.runs := by
  obtain ⟨i, hi, rfl⟩ := List.mem_iff_getElem.1 h
  have hlength : lowerShifts.length = 184 := rfl
  refine ⟨lowerStretch (16 * (i / 16)), List.mem_map.2 ⟨i / 16, List.mem_range.2 (by omega), rfl⟩, ?_⟩
  refine List.mem_take_iff_getElem.2 ⟨i % 16, ?_, ?_⟩
  · rw [List.length_drop]
    omega
  · rw [List.getElem_drop]
    congr 1
    exact Nat.div_add_mod i 16

theorem Case.settles_of_mem_lowerShifts {r : MovedRun} (h : r ∈ lowerShifts) : r.settles = true := by
  have htight : lowerStretches.all Stretch.isTight = true := by decide +kernel
  have hstretches : lowerShifts.all (fun r => lowerStretches.all
      (·.isAvoided ((r.first : Int) + r.distance).toNat ((r.last : Int) + r.distance).toNat r.step)) = true := by
    decide +kernel
  have hends : lowerShifts.all (fun r =>
      let first := ((r.first : Int) + r.distance).toNat
      let last := ((r.last : Int) + r.distance).toNat
      first == last && Nat.blt first 0x80 && (Char.ofNat first).toLower = Char.ofNat first ||
        spansBeyond (r.first + r.distance) (r.last + r.distance) &&
          lowerExpansions.all fun expansion => Nat.blt expansion.1 first || Nat.blt last expansion.1) = true := by
    decide +kernel
  rw [List.all_eq_true] at htight hstretches hends
  have havoided : lowerShifts.all (·.isAvoided ((r.first : Int) + r.distance).toNat
      ((r.last : Int) + r.distance).toNat r.step) = true := by
    refine List.all_eq_true.2 fun other hother => ?_
    obtain ⟨s, hs, hmem⟩ := exists_lowerStretch hother
    exact Stretch.isAvoided_of_mem (htight s hs) (List.all_eq_true.1 (hstretches r h) s hs) hmem
  rw [MovedRun.settles, havoided, Bool.and_true]
  exact hends r h

/-! ## Characters -/

/-- A character that is its own lower case. -/
def IsLower (c : Char) : Prop := lowerOf c = [c]

instance (c : Char) : Decidable (IsLower c) := inferInstanceAs (Decidable (lowerOf c = [c]))

theorem IsLower.ne_sigma {c : Char} (h : IsLower c) : c ≠ 'Σ' := by
  rintro rfl
  exact absurd h (by decide)

theorem isLower_of_ascii {c : Char} (hascii : c.toNat < 0x80) (hlower : c.toLower = c) : IsLower c := by
  rw [IsLower, lowerOf, if_pos hascii, hlower]

/-- A code point beyond ASCII is its own lower case if it is in no table. -/
theorem isLower_ofNat {n : Nat} (hvalid : n.isValidChar) (hbeyond : 0x80 ≤ n)
    (hexpansions : ∀ expansion ∈ lowerExpansions, expansion.1 ≠ n)
    (hshifts : ∀ run ∈ lowerShifts, run.holds n = false) : IsLower (Char.ofNat n) := by
  have hcode : (Char.ofNat n).toNat = n := by rw [Char.toNat_ofNat, if_pos hvalid]
  have hlookup : lowerExpansions.lookup n = none := by
    rw [List.lookup_eq_none_iff]
    exact fun expansion hmem => by simpa using (hexpansions expansion hmem).symm
  have hfind : lowerShifts.find? (·.holds n) = none := by
    rw [List.find?_eq_none]
    exact fun run hmem => by simp [hshifts run hmem]
  rw [IsLower, lowerOf, hcode, if_neg (by omega), counterpart, hcode, hlookup]
  dsimp only
  rw [hfind]

/-- A run that settles leads to characters in lower case. -/
theorem isLower_of_settles {r : MovedRun} (h : r.settles = true) {n : Nat} (hn : r.holds n = true) :
    IsLower (Char.ofNat ((n : Int) + r.distance).toNat) := by
  rw [MovedRun.holds, Bool.and_eq_true, Bool.and_eq_true, decide_eq_true_eq, decide_eq_true_eq, beq_iff_eq] at hn
  obtain ⟨⟨hfirst, hlast⟩, hstep⟩ := hn
  simp only [MovedRun.settles, Bool.or_eq_true, Bool.and_eq_true, beq_iff_eq, Nat.blt_eq, decide_eq_true_eq,
    List.all_eq_true] at h
  rcases h with ⟨⟨hsingle, hascii⟩, hlower⟩ | ⟨⟨hspans, hexpansions⟩, hshifts⟩
  · have hcode : ((n : Int) + r.distance).toNat = ((r.first : Int) + r.distance).toNat := by omega
    rw [hcode]
    refine isLower_of_ascii ?_ hlower
    rw [Char.toNat_ofNat]
    split <;> omega
  · simp only [spansBeyond, Bool.or_eq_true, Bool.and_eq_true, decide_eq_true_eq] at hspans
    refine isLower_ofNat ?_ (by omega) (fun expansion hmem => ?_) fun run hmem => ?_
    · rw [Nat.isValidChar]
      omega
    · have hoff := hexpansions expansion hmem
      omega
    · refine MovedRun.holds_eq_false_of_isAvoided (hshifts run hmem) (by omega) (by omega) ?_
      rwa [show ((n : Int) + r.distance).toNat - ((r.first : Int) + r.distance).toNat = n - r.first by omega]

/-- The lower case of a character consists of characters in lower case. -/
theorem isLower_of_mem_lowerOf {c d : Char} (h : d ∈ lowerOf c) : IsLower d := by
  by_cases hascii : c.toNat < 0x80
  · have htable : ∀ n < 0x80, IsLower (Char.ofNat n).toLower := by decide
    have hlower := htable c.toNat hascii
    rw [lowerOf, if_pos hascii] at h
    rwa [List.mem_singleton.1 h, ← Char.ofNat_toNat c]
  · by_cases hown : lowerOf c = [c]
    · rw [hown] at h
      rwa [List.mem_singleton.1 h]
    · rw [lowerOf, if_neg hascii, counterpart] at h hown
      split at h
      · next codes hcodes =>
        have htable : ∀ expansion ∈ lowerExpansions, ∀ code ∈ expansion.2, IsLower (Char.ofNat code) := by
          decide
        obtain ⟨code, hcode, rfl⟩ := List.mem_map.1 h
        obtain ⟨before, after, hlist, -⟩ := List.lookup_eq_some_iff.1 hcodes
        exact htable (c.toNat, codes) (by simp [hlist]) code hcode
      · next hcodes =>
        rw [hcodes] at hown
        dsimp only at hown
        split at h
        · next run hrun =>
          have hholds := List.find?_some hrun
          rw [List.mem_singleton.1 h]
          exact isLower_of_settles (settles_of_mem_lowerShifts (List.mem_of_find?_eq_some hrun)) hholds
        · next hrun =>
          rw [hrun] at hown
          exact absurd rfl hown

theorem lowerOf_ne_nil (c : Char) : lowerOf c ≠ [] := by
  rw [lowerOf]
  split
  · exact List.cons_ne_nil _ _
  · rw [counterpart]
    split
    · next codes hcodes =>
      have htable : ∀ expansion ∈ lowerExpansions, expansion.2 ≠ [] := by decide
      obtain ⟨before, after, hlist, -⟩ := List.lookup_eq_some_iff.1 hcodes
      rw [Ne, List.map_eq_nil_iff]
      exact htable (c.toNat, codes) (by simp [hlist])
    · split <;> exact List.cons_ne_nil _ _

/-! ## Texts -/

theorem isLower_of_mem_lowerAfter {cs before : List Char} {d : Char} (h : d ∈ lowerAfter before cs) : IsLower d := by
  induction cs generalizing before with
  | nil => cases h
  | cons c cs ih =>
    rw [lowerAfter] at h
    split at h
    · rcases List.mem_cons.1 h with rfl | h
      · split <;> decide
      · exact ih h
    · rcases List.mem_append.1 h with h | h
      · exact isLower_of_mem_lowerOf h
      · exact ih h

theorem lowerAfter_of_isLower {cs : List Char} (h : ∀ c ∈ cs, IsLower c) (before : List Char) :
    lowerAfter before cs = cs := by
  induction cs generalizing before with
  | nil => rfl
  | cons c cs ih =>
    rw [List.forall_mem_cons] at h
    rw [lowerAfter, if_neg h.1.ne_sigma, h.1, ih h.2, List.singleton_append]

/-- A text in lower case stays as it is. -/
theorem lower_lower (s : String) : lower (lower s) = lower s := by
  have hall : ∀ c ∈ (lower s).toList, IsLower c := by
    intro c hc
    rw [lower, String.toList_ofList] at hc
    exact isLower_of_mem_lowerAfter hc
  rw [lower, lowerAfter_of_isLower hall, String.ofList_toList]

theorem lower_ne_empty {s : String} (h : s ≠ "") : lower s ≠ "" := by
  obtain ⟨c, cs, hs⟩ := List.exists_cons_of_ne_nil (mt String.toList_eq_nil_iff.1 h)
  rw [lower, hs, lowerAfter, Ne, String.ofList_eq_empty_iff]
  split
  · exact List.cons_ne_nil _ _
  · rw [List.append_eq_nil_iff]
    exact fun hnil => lowerOf_ne_nil c hnil.1

end TestScribe.Text
