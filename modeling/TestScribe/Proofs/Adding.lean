/-
# What a run adds

A module that was made is found again at its path.  If there is none, the testcases that the module calls are
made first, and one of these could go to the same path.  But then, with a suffix that is part of one file name,
it has the same class, and has claimed it first, so that the module is not written.  So modules are added one
after the other, each at a path of its own.

* `Naming.exists_stem_of_placedIn` : the class of a module is named by its file;
* `IsNew`, `Adds` : what a run adds to a session;
* `Adds.made?_eq_none` : where there was no module, there is none when the calls have been made.
-/
import TestScribe.Proofs.Lookups

namespace TestScribe

/-! ## The names of classes -/

/-- A module with a file name, of a source below the root, has a stem with the suffix for it, and its class
is named by the stem. -/
theorem Naming.exists_stem_of_placedIn {root source below output : Path} {suffix className name : String}
    {outputDirectory : Option Path} (hroot : root.IsPlain) (hsuffix : '/' ∉ suffix.toList)
    (hsource : source.IsPlain) (hnormal : source.normalize = source)
    (hplaced : placedIn root suffix source outputDirectory = .ok (output, className))
    (hbelow : relative root source = .ok below) (hname : output.fileName? = some name) :
    ∃ stem, name = stem ++ suffix ∧ className = Naming.className stem := by
  obtain ⟨⟨beside, className'⟩, hbeside, hout⟩ := map_eq_ok.1 hplaced
  -- next to its source, the module ends in its file name
  have hends : ∀ name, beside.fileName? = some name → beside.EndsIn name ∧ '/' ∉ name.toList := by
    intro name hname
    obtain ⟨tidied, htidied, hout⟩ := map_eq_ok.1 hbeside
    have hplain := notMem_stem (isPlain_tidy hroot hsource htidied)
    rw [Naming.output, Prod.mk.injEq] at hout
    obtain ⟨rfl, -⟩ := hout
    have hfile : '/' ∉ (tidied.stem?.getD "" ++ suffix).toList := by
      rw [String.toList_append, List.mem_append, not_or]
      exact ⟨hplain, hsuffix⟩
    have hend : (tidied.parent.child (tidied.stem?.getD "" ++ suffix)).EndsIn name := by
      refine (endsIn_or_filler hfile hname).resolve_right ?_
      rintro ⟨hfiller, -, hlast⟩
      exact not_filler_of_relative hsource hnormal htidied hbelow hlast hfiller
    refine ⟨hend, ?_⟩
    rwa [Path.EndsIn.of_child hfile hend]
  -- in another directory it keeps the name
  obtain ⟨hbesideName, rfl⟩ : beside.fileName? = some name ∧ className' = className := by
    dsimp only at hout
    split at hout
    · next directory besideName hbesideName =>
      cases hout
      obtain ⟨hend, hplain⟩ := hends besideName hbesideName
      rw [(Path.endsIn_child hplain hend.2).fileName?_eq] at hname
      exact ⟨hbesideName.trans hname, rfl⟩
    · cases hout
      exact ⟨hname, rfl⟩
  exact exists_stem_of_placed hroot hsuffix hsource hbeside (hends name hbesideName).1

/-! ## What is added -/

theorem Session.claim?_of_same {s : Session} {directory directory' : Path}
    (h : directory.same directory') (className : String) :
    s.claim? directory className = s.claim? directory' className := by
  simp only [Session.claim?, Path.same, Path.same_iff.1 h]

/-- A path is none of those on a stack on which it was not found. -/
theorem Path.not_same_of_any {stack : List Path} {p : Path} (h : (stack.any (·.same p)) = false) :
    ∀ q ∈ stack, ¬ p.same q := by
  intro q hq hsame
  rw [List.any_eq_false] at h
  rw [same_iff] at hsame
  exact h q hq (same_iff.2 hsame.symm)

/-- The paths of the modules made are distinct. -/
def Session.Distinct (s : Session) : Prop := s.made.Pairwise fun entry other => ¬ entry.1.same other.1

/-- A module was made while the sources on the stack were being made: its class is named by its file and
claimed by its source, which is none of these. -/
structure IsNew (suffix : String) (stack : List Path) (s : Session) (entry : Path × Made) : Prop where
  named : ∃ stem, entry.1.fileName? = some (stem ++ suffix) ∧
    entry.2.className = Naming.className stem
  claimed : ∃ c, s.claim? entry.1.parent entry.2.className = some c ∧ c.source.same entry.2.source
  off : ∀ p ∈ stack, ¬ entry.2.source.same p

/-- Modules are added that were made while the sources on the stack were being made, each at a path of its
own. -/
structure Adds (suffix : String) (stack : List Path) (s t : Session) : Prop where
  locator : t.locator = s.locator
  settings : t.settings = s.settings
  resolving : t.resolving = s.resolving
  classes : ∃ more, t.classes = s.classes ++ more
  made : ∃ new, t.made = s.made ++ new ∧ ∀ entry ∈ new, IsNew suffix stack t entry
  distinct : s.Distinct → t.Distinct

section Adds

variable {suffix : String} {stack : List Path} {s t u : Session}

theorem IsNew.of_classes {entry : Path × Made} (h : IsNew suffix stack s entry) {more : List ClassClaim}
    (hclasses : t.classes = s.classes ++ more) : IsNew suffix stack t entry := by
  obtain ⟨c, hc, hsource⟩ := h.claimed
  exact ⟨h.named, ⟨c, Session.claim?_of_append hclasses hc, hsource⟩, h.off⟩

/-- A step that makes no module adds none. -/
theorem Adds.of_eq (hlocator : t.locator = s.locator) (hsettings : t.settings = s.settings)
    (hresolving : t.resolving = s.resolving) {more : List ClassClaim}
    (hclasses : t.classes = s.classes ++ more) (hmade : t.made = s.made) : Adds suffix stack s t where
  locator := hlocator
  settings := hsettings
  resolving := hresolving
  classes := ⟨more, hclasses⟩
  made := ⟨[], by rw [hmade, List.append_nil], by simp⟩
  distinct h := by rwa [Session.Distinct, hmade]

theorem Adds.refl (s : Session) : Adds suffix stack s s :=
  .of_eq rfl rfl rfl (List.append_nil _).symm rfl

theorem Adds.trans (h : Adds suffix stack s t) (h' : Adds suffix stack t u) : Adds suffix stack s u := by
  obtain ⟨more, hmore⟩ := h.classes
  obtain ⟨more', hmore'⟩ := h'.classes
  obtain ⟨new, hnew, hisNew⟩ := h.made
  obtain ⟨new', hnew', hisNew'⟩ := h'.made
  refine ⟨h'.locator.trans h.locator, h'.settings.trans h.settings, h'.resolving.trans h.resolving,
    ⟨more ++ more', by rw [hmore', hmore, List.append_assoc]⟩,
    ⟨new ++ new', by rw [hnew', hnew, List.append_assoc], ?_⟩, fun hs => h'.distinct (h.distinct hs)⟩
  intro entry hentry
  rcases List.mem_append.1 hentry with hentry | hentry
  · exact (hisNew entry hentry).of_classes hmore'
  · exact hisNew' entry hentry

/-- What is off a stack is off every part of it. -/
theorem Adds.of_subset (h : Adds suffix stack s t) {stack' : List Path} (hsubset : stack' ⊆ stack) :
    Adds suffix stack' s t := by
  obtain ⟨new, hnew, hisNew⟩ := h.made
  refine ⟨h.locator, h.settings, h.resolving, h.classes, ⟨new, hnew, fun entry hentry => ?_⟩, h.distinct⟩
  obtain ⟨hnamed, hclaimed, hoff⟩ := hisNew entry hentry
  exact ⟨hnamed, hclaimed, fun p hp => hoff p (hsubset hp)⟩

/-- A source is put on the stack and taken off it again. -/
theorem Adds.of_push {source : Path}
    (h : Adds suffix stack { s with resolving := s.resolving ++ [source] } t) :
    Adds suffix stack s { t with resolving := t.resolving.dropLast } := by
  obtain ⟨new, hnew, hisNew⟩ := h.made
  refine ⟨h.locator, h.settings, ?_, h.classes, ⟨new, hnew, fun entry hentry => ?_⟩, h.distinct⟩
  · show t.resolving.dropLast = s.resolving
    rw [h.resolving, List.dropLast_concat]
  · exact (hisNew entry hentry).of_classes (List.append_nil _).symm

/-- A module is kept at a path where there is none. -/
theorem Adds.keep (h : Adds suffix stack s t) {output : Path} {made : Made} (hnone : t.made? output = none)
    (hnew : IsNew suffix stack t (output, made)) : Adds suffix stack s (t.keep output made) := by
  have hmade : (t.keep output made).made = t.made ++ [(output, made)] := Session.made_keep hnone
  refine h.trans ⟨rfl, rfl, rfl, ⟨[], (List.append_nil _).symm⟩, ⟨[(output, made)], hmade, ?_⟩, ?_⟩
  · intro other hother
    rw [List.mem_singleton.1 hother]
    exact hnew.of_classes (List.append_nil _).symm
  · intro ht
    rw [Session.Distinct, hmade, List.pairwise_append]
    refine ⟨ht, by simp, ?_⟩
    intro other hother last hlast
    rw [List.mem_singleton.1 hlast]
    exact Session.made?_eq_none_iff.1 hnone other hother

/-- Where there was no module, there is none after a run, if the class of the path is claimed by no other
source than one that is being made. -/
theorem Adds.made?_eq_none (h : Adds suffix stack s t) {output source : Path} {className : String}
    (hsource : source ∈ stack) (hnone : s.made? output = none)
    (hnamed : ∀ name, output.fileName? = some name →
      ∃ stem, name = stem ++ suffix ∧ className = Naming.className stem)
    (hclaim : ∀ c, t.claim? output.parent className = some c → c.source.same source) :
    t.made? output = none := by
  rw [Session.made?_eq_none_iff] at hnone ⊢
  obtain ⟨new, hnew, hisNew⟩ := h.made
  intro entry hentry hsame
  rw [hnew] at hentry
  rcases List.mem_append.1 hentry with hold | hentry
  · exact hnone entry hold hsame
  · obtain ⟨⟨stem, hname, hclass⟩, ⟨c, hc, hcsource⟩, hoff⟩ := hisNew entry hentry
    -- the same file name gives the same class, which the new module has claimed
    rw [Path.fileName?_eq_of_same hsame] at hname
    obtain ⟨stem', hstem, rfl⟩ := hnamed _ hname
    rw [(String.append_left_inj suffix).1 hstem] at hclass
    rw [Session.claim?_of_same (Path.same_parent hsame), hclass] at hc
    refine hoff source hsource ?_
    have hsource' := hclaim c hc
    rw [Path.same_iff] at hcsource hsource' ⊢
    rw [← hcsource, hsource']

end Adds

end TestScribe
