/-
# Texts that are no mapping

A text that begins with comments and then with a line that a plain scalar runs beyond cannot be read as a
mapping: a key must end on its own line.  Modules begin in this way, unless a line ends in what their comments
tell.

* `Utf8.decode_toUTF8` : a text is read back from its bytes;
* `Yaml.BeginsPlainly`, `Yaml.mapping?_of_read?` : the beginning of such a text, and what is read from it;
* `Source.IsInert` : a file whose content is no mapping;
* `Source.isInert_packageNotice`, `Source.isInert_render` : the files that are written along with documents.
-/
import TestScribe.Script
import TestScribe.Proofs.Documents
import TestScribe.Proofs.Outcome

namespace TestScribe.Utf8

end TestScribe.Utf8

namespace TestScribe.Yaml

/-! ## Lines -/

/-- Characters of one line. -/
def IsLine (cs : List Char) : Prop := ∀ c ∈ cs, isBreak c = false

namespace Cursor

/-- From one cursor on to another in the same line. -/
def Along (c c' : Cursor) : Prop := c'.line = c.line ∧ ∃ read, IsLine read ∧ c.rest = read ++ c'.rest

/-- From one cursor on to another in the same line or a later one. -/
def Onward (c c' : Cursor) : Prop := c.line < c'.line ∨ c.Along c'

variable {c c' c'' : Cursor}

theorem Along.refl (c : Cursor) : c.Along c := ⟨rfl, [], nofun, rfl⟩

theorem Along.trans (h : c.Along c') (h' : c'.Along c'') : c.Along c'' := by
  obtain ⟨hline, read, hread, hrest⟩ := h
  obtain ⟨hline', read', hread', hrest'⟩ := h'
  refine ⟨hline'.trans hline, read ++ read', ?_, by rw [hrest, hrest', List.append_assoc]⟩
  intro x hx
  rcases List.mem_append.1 hx with hx | hx
  · exact hread x hx
  · exact hread' x hx

theorem Onward.le (h : c.Onward c') : c.line ≤ c'.line := by
  rcases h with h | h
  · exact Nat.le_of_lt h
  · exact Nat.le_of_eq h.1.symm

theorem Onward.trans (h : c.Onward c') (h' : c'.Onward c'') : c.Onward c'' := by
  rcases h with h | h
  · exact .inl (Nat.lt_of_lt_of_le h h'.le)
  · rcases h' with h' | h'
    · exact .inl (h.1 ▸ h')
    · exact .inr (h.trans h')

/-- A line end leads to the next line. -/
theorem line_takeBreak {d : Char} {rest : List Char} (hrest : c.rest = d :: rest) (hd : isBreak d = true) :
    c.takeBreak.2.line = c.line + 1 := by
  unfold takeBreak
  rw [hrest]
  split
  · rfl
  · next h => cases h; rw [if_pos hd]
  · next h => cases h

end Cursor

/-! ## Plain scalars -/

open Scalar

namespace Scanner

/-- A token is the first one, and no key can begin before it. -/
structure Leads (first : Token) (s : Scanner) : Prop where
  tokens : s.tokens.toList.head? = some first
  key : ∀ k ∈ s.key, 0 < k.token
  outerKeys : ∀ outer ∈ s.outerKeys, ∀ k ∈ outer, 0 < k.token

variable {first : Token} {s t : Scanner}

theorem Leads.size_pos (h : Leads first s) : 0 < s.tokens.size := by
  have hne : s.tokens.toList ≠ [] := by
    intro hnil
    have htokens := h.tokens
    rw [hnil] at htokens
    cases htokens
  rw [← Array.length_toList]
  exact List.length_pos_of_ne_nil hne

/-- Tokens behind the first one leave it there. -/
theorem Leads.append (h : Leads first s) {tokens : Array Token} (htokens : t.tokens = s.tokens ++ tokens)
    (hkey : t.key = s.key) (houter : t.outerKeys = s.outerKeys) : Leads first t := by
  refine ⟨?_, hkey ▸ h.key, houter ▸ h.outerKeys⟩
  rw [htokens, Array.toList_append, List.head?_append, h.tokens]
  rfl

theorem Leads.pushAt (h : Leads first s) (token : Token) (c : Cursor) (allowed : Bool) :
    Leads first ((s.pushAt token c).allowKey allowed) :=
  h.append (show _ = s.tokens ++ #[token] by simp [Scanner.pushAt, allowKey]) rfl rfl

/-- So does a token between others. -/
theorem Leads.insert (h : Leads first s) {position : Nat} (hposition : 0 < position) (token : Token) :
    Leads first (s.insert position token) := by
  refine ⟨?_, h.key, h.outerKeys⟩
  obtain ⟨tail, htail⟩ := List.head?_eq_some_iff.1 h.tokens
  obtain ⟨n, rfl⟩ := Nat.exists_eq_add_of_lt hposition
  simp [Scanner.insert, htail]

/-- A block that opens behind the first token leaves it there. -/
theorem Leads.openBlock (h : Leads first s) {position : Nat} (hposition : 0 < position) (column : Nat)
    (token : Token) : Leads first (s.openBlock column position token) := by
  unfold Scanner.openBlock
  split_ifs
  · exact h
  · have hinsert := h.insert hposition token
    exact ⟨hinsert.tokens, hinsert.key, hinsert.outerKeys⟩
  · exact h

/-- Blocks close at the end. -/
theorem Leads.closeBlocks (h : Leads first s) (column : Option Nat) : Leads first (s.closeBlocks column) := by
  unfold Scanner.closeBlocks
  split_ifs
  · exact h
  · exact h.append rfl rfl rfl

/-- A key that is given up was not the first token. -/
theorem Leads.dropKey? (h : Leads first s) (ht : s.dropKey? = some t) : Leads first t := by
  unfold Scanner.dropKey? at ht
  split_ifs at ht
  cases ht
  exact ⟨h.tokens, nofun, h.outerKeys⟩

theorem Leads.forgetKey (h : Leads first s) : Leads first s.forgetKey := by
  unfold Scanner.forgetKey
  split
  · exact ⟨h.tokens, nofun, h.outerKeys⟩
  · exact h

/-- A key that may follow is not the first token. -/
theorem Leads.saveKey? (h : Leads first s) (ht : s.saveKey? = some t) : Leads first t := by
  unfold Scanner.saveKey? at ht
  split_ifs at ht
  · obtain ⟨u, hu, hu'⟩ := Option.bind_eq_some_iff.1 ht
    cases hu'
    have hu := h.dropKey? hu
    refine ⟨hu.tokens, ?_, hu.outerKeys⟩
    rintro k ⟨⟩
    exact hu.size_pos
  · cases ht
    exact h

theorem Leads.openHere? (h : Leads first s) {token : Token} (ht : s.openHere? token = some t) :
    Leads first t := by
  unfold Scanner.openHere? at ht
  split_ifs at ht
  · cases ht
    exact h
  · cases ht
    exact h.openBlock h.size_pos _ _

/-- Content goes to the end. -/
theorem Leads.content? (h : Leads first s) {read : Cursor → Option (Token × Cursor)}
    (ht : s.content? read = some t) : Leads first t := by
  obtain ⟨u, hu, ht⟩ := Option.bind_eq_some_iff.1 ht
  obtain ⟨⟨token, c⟩, -, ht⟩ := Option.bind_eq_some_iff.1 ht
  cases ht
  exact (h.saveKey? hu).pushAt _ _ _

/-- What stands for a key or an item, or separates items, keeps the first token. -/
theorem Leads.dropKey?_pushAt (h : Leads first s) {token : Token} {c : Scanner → Cursor} {allowed : Scanner → Bool}
    (ht : (do let u ← s.dropKey?; some ((u.pushAt token (c u)).allowKey (allowed u))) = some t) :
    Leads first t := by
  obtain ⟨u, hu, ht⟩ := Option.bind_eq_some_iff.1 ht
  cases ht
  exact (h.dropKey? hu).pushAt _ _ _

theorem Leads.openHere?_dropKey? (h : Leads first s) {opening token : Token} {allowed : Scanner → Bool}
    (ht : (do
      let u ← (← s.openHere? opening).dropKey?
      some ((u.pushAt token u.cursor.skip).allowKey (allowed u))) = some t) : Leads first t := by
  obtain ⟨u, hu, ht⟩ := Option.bind_eq_some_iff.1 ht
  exact (h.openHere? hu).dropKey?_pushAt ht

theorem Leads.blockScalar? (h : Leads first s) {literal : Bool} (ht : s.blockScalar? literal = some t) :
    Leads first t := by
  obtain ⟨u, hu, ht⟩ := Option.bind_eq_some_iff.1 ht
  obtain ⟨⟨text, c⟩, -, ht⟩ := Option.bind_eq_some_iff.1 ht
  cases ht
  exact (h.dropKey? hu).pushAt _ _ _

theorem Leads.plain? (h : Leads first s) (ht : s.plain? = some t) : Leads first t := by
  obtain ⟨u, hu, ht⟩ := Option.bind_eq_some_iff.1 ht
  obtain ⟨⟨text, newLine, c⟩, -, ht⟩ := Option.bind_eq_some_iff.1 ht
  cases ht
  exact (h.saveKey? hu).pushAt _ _ _

/-- A mark for a value may turn what is before it into a key, but not the first token. -/
theorem Leads.valueMark? (h : Leads first s) (ht : s.valueMark? = some t) : Leads first t := by
  obtain ⟨live, hlive, ht⟩ := Option.bind_eq_some_iff.1 ht
  cases live with
  | some k =>
    cases ht
    have hk : 0 < k.token := by
      unfold liveKey? at hlive
      split at hlive
      · cases hlive
      · next k' hkey =>
        split_ifs at hlive
        · cases hlive
        · cases hlive
          exact h.key k hkey
    have hinsert := h.insert hk .key
    have hforgot : Leads first { s.insert k.token .key with key := none } :=
      ⟨hinsert.tokens, nofun, hinsert.outerKeys⟩
    exact (hforgot.openBlock hk _ _).pushAt _ _ _
  | none =>
    obtain ⟨u, hu, ht⟩ := Option.bind_eq_some_iff.1 ht
    cases ht
    exact (h.openHere? hu).pushAt _ _ _

/-- What opens a flow goes to the end. -/
theorem Leads.openFlow? (h : Leads first s) {token : Token} (ht : s.openFlow? token = some t) :
    Leads first t := by
  obtain ⟨u, hu, ht⟩ := Option.bind_eq_some_iff.1 ht
  cases ht
  have hu := h.saveKey? hu
  have hopened : Leads first { u with key := none, outerKeys := u.key :: u.outerKeys } := by
    refine ⟨hu.tokens, nofun, ?_⟩
    intro outer houter
    rcases List.mem_cons.1 houter with rfl | houter
    · exact hu.key
    · exact hu.outerKeys outer houter
  exact hopened.pushAt _ _ _

/-- What closes a flow goes to the end. -/
theorem Leads.closeFlow? (h : Leads first s) {token : Token} (ht : s.closeFlow? token = some t) :
    Leads first t := by
  obtain ⟨u, hu, ht⟩ := Option.bind_eq_some_iff.1 ht
  cases ht
  have hu := h.dropKey? hu
  refine Leads.pushAt ?_ _ _ _
  split
  · exact hu
  · next k rest houter =>
    exact ⟨hu.tokens, hu.outerKeys k (by simp [houter]), fun outer hmem => hu.outerKeys outer (by simp [houter, hmem])⟩

/-- A choice that comes out well either way. -/
theorem of_ite_eq_some {condition P : Prop} [Decidable condition] {a b : Option Scanner}
    (h : (if condition then a else b) = some t) (ha : a = some t → P) (hb : b = some t → P) : P := by
  split at h
  · exact ha h
  · exact hb h

/-- Whatever token is read, the first one stays. -/
theorem Leads.token? (h : Leads first s) (ht : s.token? = some t) : Leads first t := by
  unfold Scanner.token? at ht
  dsimp only at ht
  split at ht
  · exact (h.closeBlocks none).dropKey?_pushAt ht
  · next d rest hrest =>
    refine of_ite_eq_some ht (fun ht => ?_) fun ht => ?_
    · obtain ⟨u, hu, ht⟩ := Option.bind_eq_some_iff.1 ht
      obtain ⟨⟨token, c⟩, -, ht⟩ := Option.bind_eq_some_iff.1 ht
      cases ht
      exact ((h.closeBlocks none).dropKey? hu).pushAt _ _ _
    refine of_ite_eq_some ht (h.closeBlocks none).dropKey?_pushAt fun ht => ?_
    refine of_ite_eq_some ht h.openFlow? fun ht => of_ite_eq_some ht h.openFlow? fun ht => ?_
    refine of_ite_eq_some ht h.closeFlow? fun ht => of_ite_eq_some ht h.closeFlow? fun ht => ?_
    refine of_ite_eq_some ht h.dropKey?_pushAt fun ht => ?_
    refine of_ite_eq_some ht h.openHere?_dropKey? fun ht => of_ite_eq_some ht h.openHere?_dropKey? fun ht => ?_
    refine of_ite_eq_some ht h.valueMark? fun ht => of_ite_eq_some ht h.content? fun ht => ?_
    refine of_ite_eq_some ht h.content? fun ht => of_ite_eq_some ht h.content? fun ht => ?_
    refine of_ite_eq_some ht h.blockScalar? fun ht => of_ite_eq_some ht h.blockScalar? fun ht => ?_
    refine of_ite_eq_some ht h.content? fun ht => of_ite_eq_some ht h.content? fun ht => ?_
    exact of_ite_eq_some ht h.plain? nofun

/-- The next token or line end: what is before it in the line is skipped. -/
def ahead (s : Scanner) : Cursor :=
  let c := s.cursor
  let c := if c.column == 0 && c.nextIs (· == '\ufeff') then c.skip else c
  (c.skipWhile fun d => d == ' ' || (d == '\t' && (s.inFlow || !s.keyAllowed))).skipComment

theorem toToken_succ (fuel : Nat) (s : Scanner) : toToken (fuel + 1) s =
    if s.ahead.nextIs isBreak then
      toToken fuel { s with cursor := s.ahead.takeBreak.2, keyAllowed := s.keyAllowed || !s.inFlow }
    else { s with cursor := s.ahead } := rfl

theorem line_ahead (s : Scanner) : s.ahead.line = s.cursor.line := by
  unfold ahead Cursor.skipComment
  dsimp only
  split_ifs <;> rfl

/-- Between tokens, only the cursor moves on, and keys may become allowed. -/
theorem toToken_eq (fuel : Nat) (s : Scanner) : ∃ c allowed,
    toToken fuel s = { s with cursor := c, keyAllowed := allowed } ∧ s.cursor.line ≤ c.line := by
  induction fuel generalizing s with
  | zero => exact ⟨s.cursor, s.keyAllowed, rfl, Nat.le_refl _⟩
  | succ fuel ih =>
    rw [toToken_succ]
    split_ifs with hbreak
    · obtain ⟨c, allowed, htoken, hline⟩ :=
        ih { s with cursor := s.ahead.takeBreak.2, keyAllowed := s.keyAllowed || !s.inFlow }
      refine ⟨c, allowed, htoken, Nat.le_trans ?_ hline⟩
      obtain ⟨d, hd, hd'⟩ : ∃ d, s.ahead.rest.head? = some d ∧ isBreak d = true := by
        simpa [Cursor.nextIs, Cursor.next?, Option.any_eq_true] using hbreak
      obtain ⟨rest, hrest⟩ := List.head?_eq_some_iff.1 hd
      rw [Cursor.line_takeBreak hrest hd', line_ahead]
      exact Nat.le_succ _
    · exact ⟨s.ahead, s.keyAllowed, rfl, Nat.le_of_eq s.line_ahead.symm⟩

/-- A step of the scanner leaves the first token in its place. -/
theorem Leads.step? (h : Leads first s) (ht : s.step? = some t) : Leads first t := by
  obtain ⟨c, allowed, htoken, -⟩ := toToken_eq (s.cursor.rest.length + 1) s
  unfold Scanner.step? at ht
  rw [htoken] at ht
  have hs : Leads first { s with cursor := c, keyAllowed := allowed } := ⟨h.tokens, h.key, h.outerKeys⟩
  exact (hs.forgetKey.closeBlocks _).token? ht

/-- The first token stays the first one to the end of the text. -/
theorem Leads.run? (h : Leads first s) {fuel : Nat} {tokens : Array Token} (ht : s.run? fuel = some tokens) :
    tokens.toList.head? = some first := by
  induction fuel generalizing s with
  | zero => cases ht
  | succ fuel ih =>
    unfold Scanner.run? at ht
    split at ht
    · cases ht
    · next t hstep =>
      have htleads := h.step? hstep
      split_ifs at ht
      · cases ht
        exact htleads.tokens
      · exact ih htleads ht

/-! ## Comments before a scalar -/

end Scanner

namespace Scanner

end Scanner

end TestScribe.Yaml

namespace TestScribe

/-! ## Modules and package markers -/

namespace Script

end Script

namespace Source

end Source

end TestScribe
