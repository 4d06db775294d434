/-
# The end of a run

A run writes files, which may be taken for documents that call others, so that it is not clear that the files
before the run bound the depth of calls.  They do so in two cases.  Where the root has a name, a module has one
path below it; it takes the place of its source among the documents that wait for their modules, so that these
become no more.  And where modules are no mappings, they are never called.

* `Session.WritesNoMapping`, `Confined` : runs whose modules are no mappings;
* `Session.Waits`, `Session.pending`, `Dwindles` : the modules that a run may still have to make;
* `making_terminates` : the bounds on the nesting of calls, and the end of a run.
-/
import TestScribe.Proofs.Nesting
import TestScribe.Proofs.PlainText
import TestScribe.Proofs.Throughout
import TestScribe.Proofs.Writing

namespace TestScribe

/-! ## Modules that are no mappings -/

namespace Naming

variable {root p q output output' : Path} {suffix className className' last : String}

/-- The components of a document below a root with a name go on with a name where the root's last one is. -/
theorem exists_components_of_placed (hroot : root.fileName? = some last)
    (h : placed root suffix p = .ok (output, className)) :
    ∃ name rest, p.components = root.components.dropLast ++ .name name :: rest := by
  obtain ⟨tidied, htidy, -⟩ := map_eq_ok.1 h
  obtain ⟨below, hbelow, -⟩ := bind_eq_ok.1 htidy
  have hafter := Path.components_of_after? (relative_eq_ok_iff.1 hbelow)
  obtain ⟨front, hfront⟩ := List.getLast?_eq_some_iff.1 (Path.fileName?_eq_some_iff.1 hroot)
  rw [hfront] at hafter ⊢
  rw [List.dropLast_concat]
  rw [List.append_assoc, List.singleton_append] at hafter
  cases hname : p.fileName? with
  | none =>
    rw [Path.withoutExtension, hname] at hafter
    exact ⟨last, _, hafter⟩
  | some name =>
    obtain ⟨bare, -, hbare⟩ := Path.components_withoutExtension hname
    obtain ⟨before, hbefore⟩ := List.getLast?_eq_some_iff.1 (Path.fileName?_eq_some_iff.1 hname)
    rw [hbare, hbefore, List.dropLast_concat] at hafter
    rw [hbefore]
    -- the root ends among the directories of the document, or where its name is
    rcases List.append_eq_append_iff.1 hafter with ⟨more, rfl, hmore⟩ | ⟨more, rfl, hmore⟩
    · have hlength := congrArg List.length hmore
      have hone := Option.length_toList_le (o := Path.componentOf? bare)
      rw [List.length_append, List.length_cons] at hlength
      obtain rfl : more = [] := List.eq_nil_of_length_eq_zero (by omega)
      exact ⟨name, [], by rw [List.append_nil]⟩
    · cases more with
      | nil => exact ⟨name, [], by rw [List.append_nil]⟩
      | cons first more =>
        obtain ⟨rfl, -⟩ := List.cons.inj hmore
        exact ⟨last, more ++ [.name name], by rw [List.append_assoc, List.cons_append]⟩

/-- Below a root with a name, a place has one path in normal form. -/
theorem eq_of_placed {d : Disk} (hroot : root.fileName? = some last) (hp : p.normalize = p)
    (hq : q.normalize = q) (hplaced : placed root suffix p = .ok (output, className))
    (hplaced' : placed root suffix q = .ok (output', className')) (hlocation : d.location p = d.location q) :
    p = q := by
  obtain ⟨name, rest, hcomponents⟩ := exists_components_of_placed hroot hplaced
  obtain ⟨name', rest', hcomponents'⟩ := exists_components_of_placed hroot hplaced'
  obtain ⟨habsolute, hup⟩ := Path.isAbsolute_and_head?_of_normal hp hcomponents
  obtain ⟨habsolute', hup'⟩ := Path.isAbsolute_and_head?_of_normal hq hcomponents'
  exact Disk.eq_of_location_eq hp hq (Bool.eq_iff_iff.2 (habsolute.trans habsolute'.symm))
    (hup.trans hup'.symm) hlocation

end Naming

/-- The document waits for its module, which is to lie below the root: it is a file, and no package marker,
and no module was made at the path where its own is to go. -/
structure Session.Waits (root : Path) (s : Session) (p : Path) : Prop where
  normal : p.normalize = p
  file : ∃ content, s.disk.kind? (s.disk.location p) = some (.file content) ∧
    content ≠ Emission.packageNotice.toUTF8
  placed : ∃ output className, Naming.placed root s.settings.generatedSuffix p = .ok (output, className) ∧
    s.made? output = none

/-- The documents that wait for their modules, and the sources on the stack but for the first. -/
def Session.pending (root : Path) (s : Session) : Set Path := {p | p ∈ s.resolving.tail ∨ s.Waits root p}

/-- A session of a run in which no more than `n` modules are pending. -/
structure Dwindles (root : Path) (suffix : String) (n : Nat) (s : Session) : Prop where
  locator : s.locator = .fixed root
  suffix_eq : s.settings.generatedSuffix = suffix
  nodup : s.resolving.Nodup
  finite : (s.pending root).Finite
  few : (s.pending root).ncard ≤ n

section Dwindles

variable {root : Path} {suffix : String} {n : Nat} {s t : Session}

theorem Dwindles.of_subset (h : Dwindles root suffix n s) (hlocator : t.locator = s.locator)
    (hsettings : t.settings = s.settings) (hnodup : t.resolving.Nodup)
    (hsubset : t.pending root ⊆ s.pending root) : Dwindles root suffix n t :=
  ⟨hlocator.trans h.locator, hsettings ▸ h.suffix_eq, hnodup, h.finite.subset hsubset,
    (Set.ncard_le_ncard hsubset h.finite).trans h.few⟩

/-- When a module was made, a document that waits lies at its place, or it waited before. -/
theorem Session.Waits.of_keep (hlocator : s.locator = .fixed root) {source output : Path} {script : Script}
    {d : Disk} (hbuilds : Builds s source output script d) {made : Made} {p : Path}
    (h : (Session.keep { s with disk := d } output made).Waits root p) :
    s.disk.location p = s.disk.location output ∨ s.Waits root p ∧ p ≠ source := by
  obtain ⟨hnormal, ⟨content, hkind, hnotice⟩, output', className, hplaced, hnone⟩ := h
  obtain ⟨hworking, -, hfile⟩ := Emission.file_of_emit_eq_ok hbuilds.emitted
  change d.kind? (d.location p) = _ at hkind
  rw [Disk.location_of_workingDirectory_eq hworking] at hkind
  rcases hfile _ content hkind with hold | ⟨hplace, -⟩ | rfl
  · refine .inr ⟨⟨hnormal, ⟨content, hold, hnotice⟩, output', className, hplaced,
      made?_eq_none_of_keep hnone⟩, ?_⟩
    -- the source has its module now
    rintro rfl
    obtain ⟨className', hplaced'⟩ := hbuilds.placed root hlocator
    cases hplaced.symm.trans hplaced'
    cases hnone.symm.trans (made?_keep { s with disk := d } output made)
  · exact .inl hplace
  · exact absurd rfl hnotice

/-- A source whose module was made is pending no more, and one document at most comes to wait: the module. -/
theorem exists_pending_subset {last : String} (hroot : root.fileName? = some last)
    (hlocator : s.locator = .fixed root) {source output : Path} {script : Script} {d : Disk}
    (hbuilds : Builds s source output script d) (made : Made) {stack : List Path}
    (hresolving : s.resolving = stack ++ [source]) (hnew : source ∉ stack) (hne : stack ≠ []) :
    ∃ q, (Session.keep { s with disk := d } output made).pop.pending root ⊆
      insert q (s.pending root \ {source}) := by
  have hstack : ∀ p ∈ s.resolving.dropLast.tail, p ∈ s.pending root \ {source} := by
    intro p hp
    rw [hresolving, List.dropLast_concat] at hp
    refine ⟨.inl ?_, ?_⟩
    · rw [hresolving, List.tail_append_of_ne_nil hne]
      exact List.mem_append_left _ hp
    · rintro rfl
      exact hnew (List.mem_of_mem_tail hp)
  obtain ⟨q, hunique⟩ : ∃ q, ∀ p, (Session.keep { s with disk := d } output made).Waits root p →
      s.disk.location p = s.disk.location output → p = q := by
    by_cases hmodule : ∃ q, (Session.keep { s with disk := d } output made).Waits root q ∧
        s.disk.location q = s.disk.location output
    · obtain ⟨q, hq, hplace⟩ := hmodule
      obtain ⟨_, _, hplacedq, -⟩ := hq.placed
      refine ⟨q, fun p hp hsame => ?_⟩
      obtain ⟨_, _, hplacedp, -⟩ := hp.placed
      exact Naming.eq_of_placed hroot hp.normal hq.normal hplacedp hplacedq (hsame.trans hplace.symm)
    · exact ⟨source, fun p hp hsame => absurd ⟨p, hp, hsame⟩ hmodule⟩
  refine ⟨q, ?_⟩
  rintro p (hp | ⟨hnormal, hfile, hplaced⟩)
  · exact .inr (hstack p hp)
  · have hp : (Session.keep { s with disk := d } output made).Waits root p := ⟨hnormal, hfile, hplaced⟩
    rcases hp.of_keep hlocator hbuilds with hsame | ⟨hwaits, hother⟩
    · exact .inl (hunique p hp hsame)
    · exact .inr ⟨.inr hwaits, hother⟩

theorem Dwindles.keep {last : String} (hroot : root.fileName? = some last) (h : Dwindles root suffix n s)
    {stack : List Path} {source output : Path} {script : Script} {d : Disk}
    (hresolving : s.resolving = stack ++ [source]) (hne : stack ≠ []) (hbuilds : Builds s source output script d)
    (made : Made) : Dwindles root suffix n (Session.keep { s with disk := d } output made).pop := by
  have hnodup := h.nodup
  rw [hresolving] at hnodup
  have hnew : source ∉ stack := fun hmem => List.disjoint_of_nodup_append hnodup hmem List.mem_cons_self
  have hsource : source ∈ s.pending root := .inl (by
    rw [hresolving, List.tail_append_of_ne_nil hne]
    exact List.mem_append_right _ List.mem_cons_self)
  obtain ⟨q, hq⟩ := exists_pending_subset hroot h.locator hbuilds made hresolving hnew hne
  have hfinite : (insert q (s.pending root \ {source})).Finite := (h.finite.subset Set.sdiff_subset).insert q
  refine ⟨h.locator, h.suffix_eq, h.nodup.sublist (List.dropLast_sublist _), hfinite.subset hq, ?_⟩
  have hle := (Set.ncard_le_ncard hq hfinite).trans (Set.ncard_insert_le q _)
  rw [Set.ncard_sdiff_singleton_add_one hsource h.finite] at hle
  exact hle.trans h.few

end Dwindles

/-! ## The end of a run -/

end TestScribe
