/-
# References from the project root

A reference that does not begin with a separator is taken from the project root, whichever separators it is written
with and whether or not a dot segment goes before it.  The dot segment is dropped before the reference is looked at,
though, and with it the separator behind it.  Where a second separator follows, what is left begins with a separator,
and the reference is taken from the top.

* `Path.normalize_join_here` : a dot segment does not change where a relative path leads;
* `slashed`, `referencePath_dot`, `exists_dot_of_slashed` : references by their text with slashes;
* `Make.lookedFor`, `Make.lookedForFromRoot`, `Make.reference_eq` : what comes of a reference;
* `relative_reference_from_root` : which references are taken from the root.
-/
import TestScribe.Proofs.Making
import TestScribe.Proofs.Retidying

namespace TestScribe

namespace Path

/-! ## Relative paths taken from a root -/

theorem isAbsolute_ofString (s : String) : (ofString s).isAbsolute = Text.beginsWith "/" s := by
  rw [ofString, Text.beginsWith]
  split
  · next rest hrest =>
    rw [hrest]
    rfl
  · next hnone =>
    have hroot : Text.beginsWith "/" s = false := by
      rw [Bool.eq_false_iff, ne_eq, Text.beginsWith_iff]
      rintro ⟨rest, hrest⟩
      exact hnone rest hrest.symm
    split
    · exact hroot.symm
    · exact hroot.symm

theorem normalize_of_relative {q : Path} (hq : q.isAbsolute = false) :
    q.normalize = ⟨.none, ((q.pieces.filterMap componentOf?).foldl settle []).reverse⟩ := by
  obtain ⟨anchor, pieces⟩ := q
  cases anchor with
  | root => cases hq
  | here => rfl
  | none => rfl

/-- Where a relative path leads from a root depends only on what its pieces stand for. -/
theorem normalize_join_congr (p : Path) {q q' : Path} (hq : q.isAbsolute = false) (hq' : q'.isAbsolute = false)
    (h : q.pieces.filterMap componentOf? = q'.pieces.filterMap componentOf?) :
    (p.join q).normalize = (p.join q').normalize := by
  by_cases hp : p = empty
  · rw [hp, empty_join, empty_join, normalize_of_relative hq, normalize_of_relative hq', h]
  · apply normalize_eq_of_same
    rw [same_iff, components_join hp hq, components_join hp hq', h]

/-- The pieces of a relative path are those between the separators of its text, but for fillers. -/
theorem filterMap_pieces_ofString {s : String} (h : (ofString s).isAbsolute = false) :
    (ofString s).pieces.filterMap componentOf? = (Text.pieces '/' s).filterMap componentOf? := by
  have hpieces : (piecesOf s.toList).filterMap componentOf? = (Text.pieces '/' s).filterMap componentOf? := by
    rw [piecesOf, Text.pieces]
    split
    · next hnil =>
      rw [List.isEmpty_iff.1 hnil]
      decide
    · rfl
  rw [ofString] at h ⊢
  split at h
  · cases h
  · rw [← hpieces]
    split
    · next rest hrest =>
      rw [hrest]
      rfl
    · rfl

theorem ofString_here (s : String) : ofString ("./" ++ s) = ⟨.here, Text.pieces '/' s⟩ := by
  have hpieces : piecesOf ("./" ++ s).toList = "." :: Text.pieces '/' s := by
    have hsplit := Text.splitChars_append_cons (show '/' ∉ ['.'] by decide) s.toList
    rw [String.toList_append, piecesOf]
    exact congrArg (List.map String.ofList) hsplit
  rw [ofString]
  split
  · next rest hrest => simp at hrest
  · rw [hpieces]
    rfl

/-- A dot segment in front of a relative path does not change where it leads. -/
theorem normalize_join_here (p : Path) {s : String} (h : (ofString s).isAbsolute = false) :
    (p.join (ofString ("./" ++ s))).normalize = (p.join (ofString s)).normalize := by
  apply normalize_join_congr p _ h
  · rw [ofString_here, filterMap_pieces_ofString h]
  · rw [ofString_here]
    rfl

end Path

/-! ## References by their text with slashes -/

/-- The text of a reference, with slashes for the separators. -/
def slashed (raw : String) : String := Text.replaceChar '\\' '/' raw

section Dot

variable {dot : String} (hdot : dot = "./" ∨ dot = ".\\") (rest : String)

include hdot

theorem slashed_dot : slashed (dot ++ rest) = "./" ++ slashed rest := by
  rw [slashed, Text.replaceChar_append, slashed]
  rcases hdot with rfl | rfl
  · rfl
  · rfl

theorem referencePath_dot : referencePath (dot ++ rest) = .ofString (slashed rest) := by
  rw [referencePath, slashed]
  rcases hdot with rfl | rfl
  · rw [Text.afterPrefix?_eq_some_iff.2 rfl]
    rfl
  · have hnone : Text.afterPrefix? "./" (".\\" ++ rest) = none := by
      rw [Text.afterPrefix?_eq_none_iff, String.toList_append]
      simp
    rw [hnone, Text.afterPrefix?_eq_some_iff.2 rfl]
    rfl

end Dot

/-- A reference whose text with slashes begins with a dot segment has it in one of two spellings. -/
theorem exists_dot_of_slashed {raw rest : String} (h : slashed raw = "./" ++ rest) :
    ∃ dot tail, (dot = "./" ∨ dot = ".\\") ∧ raw = dot ++ tail ∧ slashed tail = rest := by
  rw [slashed, Text.replaceChar, ← String.toList_inj, String.toList_ofList, String.toList_append] at h
  obtain ⟨first, cs, hraw, hfirst, h⟩ := List.map_eq_cons_iff.1 h
  obtain ⟨second, tail, rfl, hsecond, h⟩ := List.map_eq_cons_iff.1 h
  have hfirst : first = '.' := by
    split at hfirst
    · cases hfirst
    · exact hfirst
  have hsecond : second = '\\' ∨ second = '/' := by
    split at hsecond
    · next hback => exact .inl hback
    · exact .inr hsecond
  have htail : slashed (String.ofList tail) = rest := by
    rw [slashed, Text.replaceChar, ← String.toList_inj, String.toList_ofList, String.toList_ofList]
    exact h
  subst hfirst
  rcases hsecond with rfl | rfl
  · exact ⟨".\\", String.ofList tail, .inr rfl, by simp [← String.toList_inj, hraw], htail⟩
  · exact ⟨"./", String.ofList tail, .inl rfl, by simp [← String.toList_inj, hraw], htail⟩

theorem referencePath_of_not_dot {raw : String} (h : Text.afterPrefix? "./" (slashed raw) = none) :
    referencePath raw = .ofString (slashed raw) := by
  have hnone : ∀ dot : String, dot = "./" ∨ dot = ".\\" → Text.afterPrefix? dot raw = none := by
    intro dot hdot
    rw [Option.eq_none_iff_forall_ne_some]
    intro rest hrest
    rw [← Text.afterPrefix?_eq_some_iff.1 hrest, slashed_dot hdot, Text.afterPrefix?_eq_some_iff.2 rfl] at h
    cases h
  rw [referencePath, hnone "./" (.inl rfl), hnone ".\\" (.inr rfl)]
  rfl

namespace Make

/-! ## What comes of a reference -/

/-- What comes of looking for a file: its path, or a fault that names it. -/
def lookedFor (target : Path) (s : Session) : EStateM.Result Fault Session Path :=
  if s.disk.isFile target then .ok target s else .error (.missing (.reference target)) s

/-- What comes of looking for a file from the project root of another one; the session keeps the root in mind. -/
def lookedForFromRoot (referrer p : Path) (s : Session) : EStateM.Result Fault Session Path :=
  let found := s.locator.find s.disk s.roots referrer
  lookedFor (found.1.join p).normalize { s with roots := found.2 }

theorem reference_eq (referrer : Path) (raw : String) (s : Session) :
    reference referrer raw s =
      if (referencePath raw).isAbsolute then lookedFor (referencePath raw).normalize s
      else lookedForFromRoot referrer (referencePath raw) s := by
  -- absolute or joined to the root, the path goes through the same last step
  have hlast : ∀ (p : Path) (t : Session), (do
      if (← get).disk.isFile p then return p else throw (.missing (.reference p)) : Make Path) t = lookedFor p t := by
    intro p t
    rw [lookedFor]
    show (if t.disk.isFile p then pure p else throw _ : Make Path) t = _
    split <;> rfl
  simp only [reference, pure_bind]
  split
  · exact hlast _ s
  · have hfind : findRoot referrer s = .ok (s.locator.find s.disk s.roots referrer).1
        { s with roots := (s.locator.find s.disk s.roots referrer).2 } := rfl
    show EStateM.bind (findRoot referrer) _ s = _
    rw [EStateM.bind, hfind]
    exact hlast _ _

theorem lookedForFromRoot_here (referrer : Path) {text : String} (h : (Path.ofString text).isAbsolute = false)
    (s : Session) :
    lookedForFromRoot referrer (.ofString ("./" ++ text)) s = lookedForFromRoot referrer (.ofString text) s := by
  rw [lookedForFromRoot, lookedForFromRoot, Path.normalize_join_here _ h]

end Make

/-- References from the project root.  Let the text of a reference, with slashes for the separators, not begin with a
slash.
* With a dot segment in front of it, spelled either way, the reference is looked for where its text leads from the root
  of the referrer.
* Without one it is looked for there as well, unless its text begins with a dot and two slashes.
* If it does, the reference is looked for where the rest of the text leads from the top. -/
theorem relative_reference_from_root (referrer : Path) (raw : String) (s : Session)
    (hrelative : Text.beginsWith "/" (slashed raw) = false) :
    (∀ dot ∈ ["./", ".\\"],
        Make.reference referrer (dot ++ raw) s = Make.lookedForFromRoot referrer (.ofString (slashed raw)) s) ∧
      (Text.beginsWith ".//" (slashed raw) = false →
        Make.reference referrer raw s = Make.lookedForFromRoot referrer (.ofString (slashed raw)) s) ∧
      ∀ rest, slashed raw = ".//" ++ rest →
        Make.reference referrer raw s = Make.lookedFor (Path.ofString ("/" ++ rest)).normalize s := by
  rw [← Path.isAbsolute_ofString] at hrelative
  refine ⟨?_, ?_, ?_⟩
  · intro dot hdot
    rw [Make.reference_eq, referencePath_dot (by simpa using hdot), if_neg (by simp [hrelative])]
  · intro hsingle
    cases hafter : Text.afterPrefix? "./" (slashed raw) with
    | none => rw [Make.reference_eq, referencePath_of_not_dot hafter, if_neg (by simp [hrelative])]
    | some rest =>
      obtain ⟨dot, tail, hdot, rfl, rfl⟩ := exists_dot_of_slashed (Text.afterPrefix?_eq_some_iff.1 hafter).symm
      have htail : (Path.ofString (slashed tail)).isAbsolute = false := by
        rw [Path.isAbsolute_ofString, ← hsingle, slashed_dot hdot]
        simp [Text.beginsWith]
      rw [Make.reference_eq, referencePath_dot hdot, if_neg (by simp [htail]), slashed_dot hdot,
        Make.lookedForFromRoot_here referrer htail]
  · intro rest hrest
    rw [show ".//" = "./" ++ "/" from rfl, String.append_assoc] at hrest
    obtain ⟨dot, tail, hdot, rfl, htail⟩ := exists_dot_of_slashed hrest
    have htop : (Path.ofString ("/" ++ rest)).isAbsolute = true := by
      rw [Path.isAbsolute_ofString, Text.beginsWith_iff, String.toList_append]
      exact List.prefix_append _ _
    rw [Make.reference_eq, referencePath_dot hdot, htail, if_pos htop]

/-- A project with one file. -/
def oneFileProject : Session where
  settings := {}
  locator := .fixed (.ofString "/p")
  disk := ⟨[("p", .directory [("b.json", .file "".toUTF8)])], [], []⟩

/-- A file in the root by its spellings, and with two separators behind the dot. -/
theorem relative_reference_from_root_spellings :
    (∀ raw ∈ ["b.json", "./b.json", ".\\b.json"],
      Make.reference (.ofString "/p/a.json") raw oneFileProject = .ok (.ofString "/p/b.json") oneFileProject) ∧
    Make.reference (.ofString "/p/a.json") ".//b.json" oneFileProject
      = .error (.missing (.reference (.ofString "/b.json"))) oneFileProject := by
  have hfound : Make.lookedForFromRoot (.ofString "/p/a.json") (.ofString (slashed "b.json")) oneFileProject
      = .ok (.ofString "/p/b.json") oneFileProject := rfl
  obtain ⟨hdot, hplain, -⟩ := relative_reference_from_root (.ofString "/p/a.json") "b.json" oneFileProject rfl
  obtain ⟨-, -, hdoubled⟩ := relative_reference_from_root (.ofString "/p/a.json") ".//b.json" oneFileProject rfl
  refine ⟨?_, hdoubled "b.json" rfl⟩
  intro raw hraw
  simp only [List.mem_cons, List.not_mem_nil, or_false] at hraw
  rcases hraw with rfl | rfl | rfl
  · exact (hplain rfl).trans hfound
  · exact (hdot "./" (by simp)).trans hfound
  · exact (hdot ".\\" (by simp)).trans hfound

/-- Not all references that do not begin with a separator are taken from the root. -/
theorem relative_reference_not_always_from_root :
    ¬ ∀ (referrer : Path) (raw : String) (s : Session), Text.beginsWith "/" (slashed raw) = false →
      Make.reference referrer raw s = Make.lookedForFromRoot referrer (.ofString (slashed raw)) s := by
  intro h
  have hmissing : Make.reference (.ofString "/p/a.json") ".//b.json" oneFileProject
      = .error (.missing (.reference (.ofString "/b.json"))) oneFileProject := rfl
  have hfound : Make.lookedForFromRoot (.ofString "/p/a.json") (.ofString (slashed ".//b.json")) oneFileProject
      = .ok (.ofString "/p/b.json") oneFileProject := rfl
  cases hmissing.symm.trans ((h (.ofString "/p/a.json") ".//b.json" oneFileProject rfl).trans hfound)

end TestScribe
