/-
# Call chains are unambiguous

The source text of a step determines the step, and that of a configuration the parts of the
configuration that are written.  The argument has two layers.

* The text of a chain determines its calls: a method's name ends at the first parenthesis, and the
  arguments end at the first closing parenthesis outside of quotes (`Call.chain_cancel`).
* The calls determine the step: every call has its stage, by its name, the calls of one part share a
  stage, and the calls of a stage determine the part (`Step.block`, `Config.block`).

Main results: `chain_injective`, on steps and configurations.
-/
import TestScribe.Chain
import TestScribe.Proofs.LiteralReader

namespace TestScribe

/-! ## Where arguments end -/

/-- Where a character of an argument list stands. -/
inductive Zone where
  | outside
  | quoted (q : Char)
  | escaped (q : Char)
deriving DecidableEq

/-- The zone after one more character. -/
def Zone.next : Zone → Char → Zone
  | .outside, c => if c = '"' ∨ c = '\x27' then .quoted c else .outside
  | .quoted q, c => if c = '\\' then .escaped q else if c = q then .outside else .quoted q
  | .escaped q, _ => .quoted q

/-- What stands before the first closing parenthesis outside of quotes, and what follows it. -/
def splitArguments : Zone → List Char → Option (List Char × List Char)
  | _, [] => none
  | z, c :: rest =>
    if z = .outside ∧ c = ')' then some ([], rest)
    else (splitArguments (z.next c) rest).map fun (a, r) => (c :: a, r)

/-- Some characters lead from one zone to another without ending the arguments. -/
def Leads (z : Zone) (cs : List Char) (y : Zone) : Prop :=
  ∀ rest, splitArguments z (cs ++ rest) =
    (splitArguments y rest).map fun (a, r) => (cs ++ a, r)

/-- A text that can stand in an argument list: its quotes are closed, and no parenthesis is outside of
them. -/
def Sealed (s : String) : Prop := Leads .outside s.toList .outside

theorem leads_nil (z : Zone) : Leads z [] z := by
  intro rest
  simp

/-- One character that does not end the arguments. -/
theorem leads_cons {z : Zone} {c : Char} (h : ¬(z = .outside ∧ c = ')')) : Leads z [c] (z.next c) := by
  intro rest
  rw [List.singleton_append, splitArguments, if_neg h]
  rfl

theorem Leads.trans {x y z : Zone} {cs ds : List Char} (hc : Leads x cs y) (hd : Leads y ds z) :
    Leads x (cs ++ ds) z := by
  intro rest
  rw [List.append_assoc, hc, hd, Option.map_map]
  congr 1
  funext p
  simp

/-- The arguments end where they do, whatever follows. -/
theorem splitArguments_of_sealed {s : String} (h : Sealed s) (rest : List Char) :
    splitArguments .outside (s.toList ++ ')' :: rest) = some (s.toList, rest) := by
  rw [h]
  simp [splitArguments]

/-! ## Sealed texts -/

theorem sealed_append {s t : String} (hs : Sealed s) (ht : Sealed t) : Sealed (s ++ t) := by
  rw [Sealed, String.toList_append]
  exact hs.trans ht

/-- Characters without quotes and closing parentheses stay outside. -/
theorem leads_plain {cs : List Char} (h : ∀ c ∈ cs, c ≠ '"' ∧ c ≠ '\x27' ∧ c ≠ ')') :
    Leads .outside cs .outside := by
  induction cs with
  | nil => exact leads_nil _
  | cons c cs ih =>
    obtain ⟨hd, hs, hp⟩ := h c List.mem_cons_self
    have hstep := leads_cons (z := .outside) (c := c) (by simp [hp])
    rw [show Zone.next .outside c = .outside by simp [Zone.next, hd, hs]] at hstep
    exact hstep.trans (ih fun d hd => h d (List.mem_cons_of_mem c hd))

theorem sealed_plain {s : String} (h : ∀ c ∈ s.toList, c ≠ '"' ∧ c ≠ '\x27' ∧ c ≠ ')') :
    Sealed s := leads_plain h

/-- A character inside of quotes that neither closes them nor escapes anything. -/
theorem leads_quoted {q c : Char} (hb : c ≠ '\\') (hq : c ≠ q) :
    Leads (.quoted q) [c] (.quoted q) := by
  have hstep := leads_cons (z := .quoted q) (c := c) (by simp)
  rwa [show Zone.next (.quoted q) c = .quoted q by simp [Zone.next, hb, hq]] at hstep

/-- A backslash and the character after it. -/
theorem leads_escaped (q c : Char) : Leads (.quoted q) ['\\', c] (.quoted q) :=
  (leads_cons (z := .quoted q) (c := '\\') (by simp)).trans
    (leads_cons (z := .escaped q) (c := c) (by simp))

/-- A digit of base sixteen is neither a quote nor a backslash. -/
theorem digitChar_ne_quote : ∀ n < 16, Nat.digitChar n ≠ '\\' ∧ Nat.digitChar n ≠ '"' ∧
    Nat.digitChar n ≠ '\x27' := by
  decide

/-- The characters that stand for one character stay inside of the quotes. -/
theorem leads_escape {q : Char} (hq : q = '"' ∨ q = '\x27') (c : Char) :
    Leads (.quoted q) (Literal.escape q c) (.quoted q) := by
  have hdigit : ∀ n < 16, Leads (.quoted q) [Nat.digitChar n] (.quoted q) := by
    intro n hn
    obtain ⟨hb, hd, hs⟩ := digitChar_ne_quote n hn
    exact leads_quoted hb (by rcases hq with rfl | rfl <;> assumption)
  unfold Literal.escape
  split
  · exact leads_escaped q _
  split
  · exact leads_escaped q _
  split
  · exact leads_escaped q _
  split
  · exact leads_escaped q _
  split
  · exact leads_escaped q _
  split
  · have h₁ := hdigit (c.toNat / 16 % 16) (Nat.mod_lt _ (by decide))
    have h₂ := hdigit (c.toNat % 16) (Nat.mod_lt _ (by decide))
    exact (leads_escaped q 'x').trans (h₁.trans h₂)
  · next hb _ _ _ hq _ => exact leads_quoted hb hq

/-- A quoted text is sealed, whatever it holds. -/
theorem sealed_quote {q : Char} (hq : q = '"' ∨ q = '\x27') (s : String) :
    Sealed (Literal.quote q s) := by
  -- Opening quote, escaped characters and closing quote, zone by zone.
  have hopen : Leads .outside [q] (.quoted q) := by
    have hstep := leads_cons (z := .outside) (c := q) (by rcases hq with rfl | rfl <;> simp)
    rwa [show Zone.next .outside q = .quoted q by simp [Zone.next, hq]] at hstep
  have hclose : Leads (.quoted q) [q] .outside := by
    have hb : q ≠ '\\' := by rcases hq with rfl | rfl <;> decide
    have hstep := leads_cons (z := .quoted q) (c := q) (by simp)
    rwa [show Zone.next (.quoted q) q = .outside by simp [Zone.next, hb]] at hstep
  have hinner : ∀ cs : List Char,
      Leads (.quoted q) (cs.flatMap (Literal.escape q)) (.quoted q) := by
    intro cs
    induction cs with
    | nil => exact leads_nil _
    | cons c cs ih => exact (leads_escape hq c).trans ih
  rw [Sealed, Literal.quote, String.toList_ofList]
  exact hopen.trans ((hinner s.toList).trans hclose)

theorem sealed_double (s : String) : Sealed (Literal.double s) := sealed_quote (.inl rfl) s

theorem sealed_single (s : String) : Sealed (Literal.single s) := sealed_quote (.inr rfl) s

theorem sealed_text (s : String) : Sealed (Literal.text s) := by
  unfold Literal.text
  split
  · exact sealed_double s
  · exact sealed_single s

theorem sealed_number (n : Number) : Sealed (Literal.number n) := by
  apply sealed_plain
  intro c hc
  rcases Literal.mem_number hc with hc | rfl | rfl
  · refine ⟨?_, ?_, ?_⟩ <;> · rintro rfl; simp at hc
  · decide
  · decide

/-- The literal of a value is sealed. -/
theorem sealed_write (v : Value) : Sealed (Literal.write v) := by
  refine Literal.write_of_pieces (P := Sealed) ⟨sealed_append, sealed_text, sealed_number, fun s hs => ?_⟩ v
  apply sealed_plain
  revert s
  simp [Literal.fixedPieces]

/-! ## The calls of a chain -/

namespace Call

/-- A call whose text shows where its method's name and its arguments end. -/
structure Clear (c : Call) : Prop where
  method : '(' ∉ c.method.toList
  arguments : Sealed c.arguments

/-- The characters of a call, and what follows it. -/
theorem toList_text_append (c : Call) (rest : List Char) :
    c.text.toList ++ rest
      = '.' :: (c.method.toList ++ '(' :: (c.arguments.toList ++ ')' :: rest)) := by
  simp [text]

/-- What stands before the first occurrence of a character, and what follows it. -/
theorem append_cons_cancel {x : Char} {m n r t : List Char} (hm : x ∉ m) (hn : x ∉ n)
    (h : m ++ x :: r = n ++ x :: t) : m = n ∧ r = t := by
  -- The shorter of the two beginnings is all of the other, as the character is in neither.
  rcases List.append_eq_append_iff.1 h with ⟨as, rfl, has⟩ | ⟨bs, rfl, hbs⟩
  · cases as with
    | nil => simpa using has
    | cons a as => simp_all
  · cases bs with
    | nil => simpa using hbs.symm
    | cons b bs => simp_all

/-- Two clear calls with texts after them are equal only part by part. -/
theorem text_cancel {c d : Call} (hc : c.Clear) (hd : d.Clear) {r t : List Char}
    (h : c.text.toList ++ r = d.text.toList ++ t) : c = d ∧ r = t := by
  rw [toList_text_append, toList_text_append, List.cons.injEq] at h
  -- The name ends at the first parenthesis, the arguments where the scan of `splitArguments` says.
  obtain ⟨hmethod, harguments⟩ := append_cons_cancel hc.method hd.method h.2
  have hsplit := splitArguments_of_sealed hc.arguments r
  rw [harguments, splitArguments_of_sealed hd.arguments t, Option.some.injEq, Prod.mk.injEq] at hsplit
  refine ⟨?_, hsplit.2.symm⟩
  rw [Call.mk.injEq, ← String.toList_inj, ← String.toList_inj]
  exact ⟨hmethod, hsplit.1.symm⟩

/-- **The text of a chain determines its calls.**  Two chains with texts after them that do not go on
with another call are equal only part by part. -/
theorem chain_cancel {cs ds : List Call} (hc : ∀ c ∈ cs, c.Clear) (hd : ∀ d ∈ ds, d.Clear)
    {r t : List Char} (hr : '.' ∉ r.head?) (ht : '.' ∉ t.head?)
    (h : (chain cs).toList ++ r = (chain ds).toList ++ t) : cs = ds ∧ r = t := by
  induction cs generalizing ds with
  | nil =>
    cases ds with
    | nil => exact ⟨rfl, by simpa [chain] using h⟩
    | cons d ds =>
      rw [chain, chain, String.toList_append, List.append_assoc, toList_text_append] at h
      simp only [String.toList_empty, List.nil_append] at h
      exact absurd (by simp [h]) hr
  | cons c cs ih =>
    cases ds with
    | nil =>
      rw [chain, chain, String.toList_append, List.append_assoc, toList_text_append] at h
      simp only [String.toList_empty, List.nil_append] at h
      exact absurd (by simp [← h]) ht
    | cons d ds =>
      rw [chain, chain, String.toList_append, String.toList_append, List.append_assoc,
        List.append_assoc] at h
      obtain ⟨rfl, hrest⟩ := text_cancel (hc c List.mem_cons_self) (hd d List.mem_cons_self) h
      obtain ⟨rfl, rfl⟩ := ih (fun c hm => hc c (List.mem_cons_of_mem _ hm))
        (fun d hm => hd d (List.mem_cons_of_mem _ hm)) hrest
      exact ⟨rfl, rfl⟩

end Call

/-! ## Stages -/

/-- Parts that stand one after the other, each with its own stage, are found again by their stage. -/
theorem filter_flatMap_range {α : Type} (stage : α → Nat) (block : Nat → List α) (n k : Nat)
    (hk : k < n) (h : ∀ i, ∀ a ∈ block i, stage a = i) :
    ((List.range n).flatMap block).filter (stage · = k) = block k := by
  -- Filtering keeps the block of stage `k` whole and drops every other one.
  have hfilter : ∀ i, (block i).filter (stage · = k) = if i = k then block k else [] := by
    intro i
    split
    · next hi =>
      subst hi
      exact List.filter_eq_self.2 fun a ha => by simpa using h i a ha
    · next hi =>
      exact List.filter_eq_nil_iff.2 fun a ha => by simpa [h i a ha] using hi
  induction n with
  | zero => omega
  | succ n ih =>
    rw [List.range_succ, List.flatMap_append, List.filter_append, List.flatMap_singleton, hfilter n]
    by_cases hn : n = k
    · -- the block of this stage is the last one, and nothing before it has the stage
      subst hn
      have hbefore : ((List.range n).flatMap block).filter (stage · = n) = [] := by
        rw [List.filter_eq_nil_iff]
        intro a ha
        obtain ⟨i, hi, ha⟩ := List.mem_flatMap.1 ha
        have hlt : i < n := List.mem_range.1 hi
        simp [h i a ha, Nat.ne_of_lt hlt]
      rw [hbefore, if_pos rfl, List.nil_append]
    · rw [ih (by omega), if_neg hn, List.append_nil]

/-- **The text of a chain determines the calls of every stage.** -/
theorem block_eq_of_chain_eq {stage : String → Nat} {n : Nat} {b d : Nat → List Call}
    {r : List Char} (hb : ∀ i, ∀ c ∈ b i, c.Clear ∧ stage c.method = i)
    (hd : ∀ i, ∀ c ∈ d i, c.Clear ∧ stage c.method = i) (hr : '.' ∉ r.head?)
    (h : (Call.chain ((List.range n).flatMap b)).toList ++ r
      = (Call.chain ((List.range n).flatMap d)).toList ++ r) :
    ∀ i < n, b i = d i := by
  have hclear : ∀ {e : Nat → List Call}, (∀ i, ∀ c ∈ e i, c.Clear ∧ stage c.method = i) →
      ∀ c ∈ (List.range n).flatMap e, c.Clear := by
    intro e he c hc
    obtain ⟨i, -, hc⟩ := List.mem_flatMap.1 hc
    exact (he i c hc).1
  -- The texts give the lists of calls, and these give each block by its stage.
  have hcalls := (Call.chain_cancel (hclear hb) (hclear hd) hr hr h).1
  intro i hi
  have hstage := filter_flatMap_range (fun c : Call => stage c.method) b n i hi
    fun i c hc => (hb i c hc).2
  rw [hcalls, filter_flatMap_range (fun c : Call => stage c.method) d n i hi
    fun i c hc => (hd i c hc).2] at hstage
  exact hstage.symm

/-! ## What arguments determine -/

namespace Literal

/-- A text is determined by its double-quoted form. -/
theorem double_inj {s t : String} (h : double s = double t) : s = t := by
  refine (quote_cancel (r := "") (u := "") (.inl rfl) (.inl rfl) ?_).1
  rw [String.append_empty, String.append_empty]
  exact h

/-- A value with whole numbers is determined by its literal. -/
theorem write_inj {v w : Value} (hv : v.isWhole = true) (hw : w.isWhole = true)
    (h : write v = write w) : v = w := by
  refine (write_cancel (r := "") (t := "") hv hw endsNumber_empty endsNumber_empty ?_).1
  rw [h]

theorem mapping_inj {m n : Mapping} (hm : Value.entriesAreWhole m = true)
    (hn : Value.entriesAreWhole n = true) (h : mapping m = mapping n) : m = n :=
  Value.mapping.inj (write_inj (by simpa [Value.isWhole] using hm)
    (by simpa [Value.isWhole] using hn) h)

/-- Texts hold no numbers. -/
theorem areWhole_texts (items : List String) : Value.areWhole (items.map .text) = true := by
  induction items with
  | nil => rfl
  | cons s items ih => simpa [Value.areWhole, Value.isWhole] using ih

theorem texts_inj {items others : List String} (h : texts items = texts others) :
    items = others := by
  have hlist := Value.list.inj (write_inj (by simpa [Value.isWhole] using areWhole_texts items)
    (by simpa [Value.isWhole] using areWhole_texts others) h)
  exact (List.map_inj_right fun s t hst => Value.text.inj hst).1 hlist

theorem number_inj {m n : Number} (hm : (Value.number m).isWhole = true)
    (hn : (Value.number n).isWhole = true) (h : number m = number n) : m = n :=
  Value.number.inj (write_inj hm hn h)

theorem bool_inj {a b : Bool} (h : bool a = bool b) : a = b := by
  revert a b
  decide

/-- A body or an expected value is read back. -/
theorem read?_body (v : Value) (rest : String) (hv : v.isWhole = true)
    (hr : EndsNumber rest.toList) : read? (body v ++ rest) = some (v, rest) := by
  unfold body
  split
  · exact read?_quote (.inl rfl) _ rest
  · exact read?_write _ rest hv hr

theorem body_cancel {v w : Value} {r t : String} (hv : v.isWhole = true) (hw : w.isWhole = true)
    (hr : EndsNumber r.toList) (ht : EndsNumber t.toList) (h : body v ++ r = body w ++ t) :
    v = w ∧ r = t := by
  have hread := read?_body v r hv hr
  rw [h, read?_body w t hw ht] at hread
  simpa using hread.symm

theorem body_inj {v w : Value} (hv : v.isWhole = true) (hw : w.isWhole = true)
    (h : body v = body w) : v = w := by
  refine (body_cancel (r := "") (t := "") hv hw endsNumber_empty endsNumber_empty ?_).1
  rw [h]

theorem sealed_body (v : Value) : Sealed (body v) := by
  unfold body
  split
  · exact sealed_double _
  · exact sealed_write _

end Literal

namespace Call

theorem method_of_mem_given {α : Type} {method : String} {arguments : α → String} {o : Option α}
    {c : Call} (h : c ∈ given method arguments o) : c.method = method := by
  cases o with
  | none => simp [given] at h
  | some a =>
    rw [given, List.mem_singleton] at h
    rw [h]

/-- A part that may be left out is determined by its call, if what is given is determined by the
arguments. -/
theorem given_inj {α : Type} {method : String} {arguments : α → String} {o p : Option α}
    (hinj : ∀ a ∈ o, ∀ b ∈ p, arguments a = arguments b → a = b)
    (h : given method arguments o = given method arguments p) : o = p := by
  cases o with
  | none =>
    cases p with
    | none => rfl
    | some b => simp [given] at h
  | some a =>
    cases p with
    | none => simp [given] at h
    | some b =>
      rw [given, given, List.cons.injEq, Call.mk.injEq] at h
      rw [hinj a rfl b rfl h.1.2]

theorem clear_given {α : Type} {method : String} {arguments : α → String} {o : Option α}
    (hm : '(' ∉ method.toList) (ha : ∀ a, Sealed (arguments a)) :
    ∀ c ∈ given method arguments o, c.Clear := by
  intro c hc
  cases o with
  | none => simp [given] at hc
  | some a =>
    rw [given, List.mem_singleton] at hc
    exact hc ▸ ⟨hm, ha a⟩

theorem sealed_keywords (m : Mapping) : Sealed (keywords m) :=
  sealed_append (sealed_plain (by simp)) (sealed_write _)

theorem sealed_positionals (items : List String) : Sealed (positionals items) :=
  sealed_append (sealed_plain (by simp)) (sealed_write _)

theorem keywords_inj {m n : Mapping} (hm : Value.entriesAreWhole m = true)
    (hn : Value.entriesAreWhole n = true) (h : keywords m = keywords n) : m = n :=
  Literal.mapping_inj hm hn (String.append_right_inj _ |>.1 h)

theorem positionals_inj {items others : List String} (h : positionals items = positionals others) :
    items = others :=
  Literal.texts_inj (String.append_right_inj _ |>.1 h)

end Call

/-! ## The calls of hooks, extractions and validators -/

namespace Hook

/-- A hook is determined by its call. -/
theorem call_inj {time : HookTime} {g h : Hook} (heq : call time g = call time h) : g = h := by
  have hargs := congrArg Call.arguments heq
  cases g with
  | expression e =>
    cases h with
    | expression f => rw [Literal.double_inj hargs]
    | binding w f =>
      -- One argument cannot be two: what follows the first text is empty on one side only.
      have hcut : Literal.double e ++ "" = Literal.double f ++ (", " ++ Literal.double w) := by
        rw [String.append_empty, ← String.append_assoc]
        exact hargs
      have hrest := (Literal.quote_cancel (.inl rfl) (.inl rfl) hcut).2
      simp [← String.toList_inj] at hrest
  | binding v e =>
    cases h with
    | expression f =>
      have hcut : Literal.double e ++ (", " ++ Literal.double v) = Literal.double f ++ "" := by
        rw [String.append_empty, ← String.append_assoc]
        exact hargs
      have hrest := (Literal.quote_cancel (.inl rfl) (.inl rfl) hcut).2
      simp [← String.toList_inj] at hrest
    | binding w f =>
      have hcut : Literal.double e ++ (", " ++ Literal.double v)
          = Literal.double f ++ (", " ++ Literal.double w) := by
        rw [← String.append_assoc, ← String.append_assoc]
        exact hargs
      obtain ⟨rfl, hrest⟩ := Literal.quote_cancel (.inl rfl) (.inl rfl) hcut
      rw [Literal.double_inj ((String.append_right_inj _).1 hrest)]

theorem calls_inj {time : HookTime} {gs hs : Option (List Hook)} (h : calls time gs = calls time hs) :
    gs.getD [] = hs.getD [] :=
  (List.map_inj_right fun _ _ => call_inj).1 h

theorem method_of_mem_calls {time : HookTime} {hooks : Option (List Hook)} {c : Call}
    (h : c ∈ calls time hooks) : c.method = time.text ++ "_hook" := by
  obtain ⟨hook, -, rfl⟩ := List.mem_map.1 h
  cases hook <;> rfl

theorem clear_calls {time : HookTime} {hooks : Option (List Hook)} :
    ∀ c ∈ calls time hooks, c.Clear := by
  intro c hc
  have hmethod : '(' ∉ c.method.toList := by
    rw [method_of_mem_calls hc]
    cases time <;> decide
  refine ⟨hmethod, ?_⟩
  obtain ⟨hook, -, rfl⟩ := List.mem_map.1 hc
  cases hook with
  | expression e => exact sealed_double e
  | binding v e =>
    exact sealed_append (sealed_append (sealed_double e) (sealed_plain (by simp)))
      (sealed_double v)

end Hook

namespace Extraction

/-- The variable and the rule of an extraction are determined by its call. -/
theorem call_inj {x y : String × Extraction} (heq : call x = call y) : x = y := by
  have hcancel : ∀ {p q v w : String},
      Literal.single p ++ ", " ++ Literal.single v = Literal.single q ++ ", " ++ Literal.single w →
        p = q ∧ v = w := by
    intro p q v w hargs
    rw [String.append_assoc, String.append_assoc] at hargs
    obtain ⟨rfl, hrest⟩ := Literal.quote_cancel (.inr rfl) (.inr rfl) hargs
    have hvar : Literal.single v ++ "" = Literal.single w ++ "" := by
      rw [(String.append_right_inj _).1 hrest]
    exact ⟨rfl, (Literal.quote_cancel (.inr rfl) (.inr rfl) hvar).1⟩
  obtain ⟨v, x⟩ := x
  obtain ⟨w, y⟩ := y
  rw [Call.mk.injEq] at heq
  cases x with
  | regex p =>
    cases y with
    | regex q =>
      obtain ⟨rfl, rfl⟩ := hcancel heq.2
      rfl
    | path q => exact absurd heq.1 (by simp [call])
  | path p =>
    cases y with
    | regex q => exact absurd heq.1 (by simp [call])
    | path q =>
      obtain ⟨rfl, rfl⟩ := hcancel heq.2
      rfl

theorem clear_call (x : String × Extraction) : (call x).Clear := by
  obtain ⟨v, x⟩ := x
  cases x <;>
    exact ⟨by simp [call], sealed_append (sealed_append (sealed_single _) (sealed_plain (by simp)))
      (sealed_single _)⟩

end Extraction

namespace Validator

/-- A validator that the schema lets through, with whole numbers: its method is a name. -/
def isWritable (v : Validator) : Bool := Literal.isIdentifier v.method && v.expected.isWhole

/-- A check is quoted, in one way or the other. -/
theorem exists_quote (check : String) :
    ∃ q, (q = '"' ∨ q = '\x27') ∧ quotedCheck check = Literal.quote q check := by
  unfold quotedCheck
  split
  · exact ⟨'\x27', .inr rfl, rfl⟩
  · exact ⟨'"', .inl rfl, rfl⟩

/-- The message as the last argument. -/
def messageArgument (message : String) : String :=
  if message = "" then "" else ", " ++ Literal.single message

theorem endsNumber_messageArgument (message : String) :
    Literal.EndsNumber (messageArgument message).toList := by
  unfold messageArgument
  split
  · exact Literal.endsNumber_empty
  · simp [Literal.EndsNumber]

theorem messageArgument_inj {m n : String} (h : messageArgument m = messageArgument n) : m = n := by
  unfold messageArgument at h
  split at h
  · next hm =>
    split at h
    · next hn => rw [hm, hn]
    · simp [← String.toList_inj] at h
  · split at h
    · simp [← String.toList_inj] at h
    · have hsingle : Literal.single m ++ "" = Literal.single n ++ "" := by
        rw [(String.append_right_inj _).1 h]
      exact (Literal.quote_cancel (.inr rfl) (.inr rfl) hsingle).1

/-- A validator is determined by its call. -/
theorem call_inj {v w : Validator} (hv : v.isWritable = true) (hw : w.isWritable = true)
    (heq : call v = call w) : v = w := by
  simp only [isWritable, Bool.and_eq_true] at hv hw
  rw [Call.mk.injEq] at heq
  obtain ⟨p, hp, hcheck⟩ := exists_quote v.check
  obtain ⟨q, hq, hcheck'⟩ := exists_quote w.check
  have hargs : Literal.quote p v.check ++ (", " ++ (Literal.body v.expected ++ messageArgument v.message))
      = Literal.quote q w.check ++ (", " ++ (Literal.body w.expected ++ messageArgument w.message)) := by
    rw [← hcheck, ← hcheck']
    simpa only [call, messageArgument, String.append_assoc] using heq.2
  obtain ⟨hc, hrest⟩ := Literal.quote_cancel hp hq hargs
  obtain ⟨he, hm⟩ := Literal.body_cancel hv.2 hw.2 (endsNumber_messageArgument _)
    (endsNumber_messageArgument _) ((String.append_right_inj _).1 hrest)
  rw [Validator.mk.injEq]
  exact ⟨(String.append_right_inj _).1 heq.1, hc, he, messageArgument_inj hm⟩

/-- A name holds neither quotes nor parentheses. -/
theorem ne_of_mem_identifier {s : String} (hs : Literal.isIdentifier s = true) :
    ∀ c ∈ s.toList, c ≠ '"' ∧ c ≠ '\x27' ∧ c ≠ '(' ∧ c ≠ ')' := by
  intro c hc
  have hname := Literal.continuesName_of_isIdentifier hs c hc
  refine ⟨?_, ?_, ?_, ?_⟩ <;> · rintro rfl; simp [Literal.continuesName] at hname

theorem clear_call {v : Validator} (hv : v.isWritable = true) : (call v).Clear := by
  rw [isWritable, Bool.and_eq_true] at hv
  obtain ⟨q, hq, hcheck⟩ := exists_quote v.check
  constructor
  · intro hmem
    rw [call, String.toList_append, List.mem_append] at hmem
    rcases hmem with hmem | hmem
    · revert hmem
      decide
    · exact (ne_of_mem_identifier hv.1 _ hmem).2.2.1 rfl
  · have hmessage : Sealed (messageArgument v.message) := by
      unfold messageArgument
      split
      · exact sealed_plain (by simp)
      · exact sealed_append (sealed_plain (by simp)) (sealed_single _)
    rw [call, hcheck]
    exact sealed_append (sealed_append (sealed_append (sealed_quote hq _)
      (sealed_plain (by simp))) (Literal.sealed_body _)) hmessage

end Validator

/-! ## Requests and steps, part by part -/

/-- The methods that the calls of a step can have besides those that compare, with their stages. -/
def stageTable : List (String × Nat) :=
  [("with_variables", 0), ("setup_hook", 1), ("get", 2), ("post", 2), ("put", 2), ("delete", 2),
    ("head", 2), ("options", 2), ("patch", 2), ("call", 2), ("with_params", 3), ("with_headers", 4),
    ("with_cookies", 5), ("with_data", 6), ("with_json", 7), ("set_timeout", 8), ("set_verify", 9),
    ("set_allow_redirects", 10), ("upload", 11), ("teardown_hook", 12), ("extract", 13),
    ("with_regex", 13), ("with_jmespath", 13), ("export", 14), ("validate", 15)]

/-- The stage of a call of a step, by its method. -/
def stageOf (method : String) : Nat :=
  if Text.beginsWith "assert_" method then 15 else (stageTable.lookup method).getD 0

/-- A request in which every number is whole. -/
def Request.isWhole (r : Request) : Bool :=
  r.params.all Value.entriesAreWhole && r.headers.all Value.entriesAreWhole
    && r.cookies.all Value.entriesAreWhole && r.data.all Value.isWhole && r.json.all Value.isWhole
    && r.timeout.all (fun n => (Value.number n).isWhole) && r.upload.all Value.entriesAreWhole

/-- The calls of a request by their stage. -/
def Request.block (r : Request) : Nat → List Call
  | 2 => [⟨r.method.call, Literal.double r.url⟩]
  | 3 => Call.given "with_params" Call.keywords r.params
  | 4 => Call.given "with_headers" Call.keywords r.headers
  | 5 => Call.given "with_cookies" Call.keywords r.cookies
  | 6 => Call.given "with_data" Literal.body r.data
  | 7 => Call.given "with_json" Literal.body r.json
  | 8 => Call.given "set_timeout" Literal.number r.timeout
  | 9 => Call.given "set_verify" Literal.bool r.verify
  | 10 => Call.given "set_allow_redirects" Literal.bool r.allowRedirects
  | 11 => Call.given "upload" Call.keywords r.upload
  | _ => []

/-- An action that can be written: a request with whole numbers, or a testcase under the name it is
imported by. -/
def Action.isWritable : Action → Bool
  | .request r => r.isWhole
  | .call (.made name) => Literal.isIdentifier name
  | .call (.path _) => false

/-- The calls of an action by their stage. -/
def Action.block : Action → Nat → List Call
  | .request r, n => r.block n
  | .call (.made name), 2 => [⟨"call", name⟩]
  | .call _, _ => []

/-- Every call of a request has the stage of its block. -/
theorem Request.stage_of_mem_block (r : Request) (i : Nat) : ∀ c ∈ r.block i, stageOf c.method = i := by
  intro c hc
  unfold block at hc
  split at hc
  · rw [List.mem_singleton] at hc
    subst hc
    show stageOf r.method.call = 2
    cases r.method <;> decide
  all_goals first
    | exact absurd hc List.not_mem_nil
    | rw [Call.method_of_mem_given hc]; decide

/-- The calls of a request can be told apart in its text. -/
theorem Request.clear_of_mem_block (r : Request) (i : Nat) : ∀ c ∈ r.block i, c.Clear := by
  have hbool : ∀ b, Sealed (Literal.bool b) := fun b => sealed_write (.bool b)
  intro c hc
  unfold block at hc
  split at hc
  · rw [List.mem_singleton] at hc
    have hmethod : '(' ∉ r.method.call.toList := by cases r.method <;> decide
    exact hc ▸ ⟨hmethod, sealed_double r.url⟩
  · exact Call.clear_given (by decide) Call.sealed_keywords c hc
  · exact Call.clear_given (by decide) Call.sealed_keywords c hc
  · exact Call.clear_given (by decide) Call.sealed_keywords c hc
  · exact Call.clear_given (by decide) Literal.sealed_body c hc
  · exact Call.clear_given (by decide) Literal.sealed_body c hc
  · exact Call.clear_given (by decide) sealed_number c hc
  · exact Call.clear_given (by decide) hbool c hc
  · exact Call.clear_given (by decide) hbool c hc
  · exact Call.clear_given (by decide) Call.sealed_keywords c hc
  · exact absurd hc List.not_mem_nil

theorem Action.stage_of_mem_block (a : Action) (i : Nat) : ∀ c ∈ a.block i, stageOf c.method = i := by
  intro c hc
  unfold block at hc
  split at hc
  · exact Request.stage_of_mem_block _ _ c hc
  · rw [List.mem_singleton] at hc
    subst hc
    exact show stageOf "call" = 2 by decide
  · exact absurd hc List.not_mem_nil

theorem Action.clear_of_mem_block {a : Action} (ha : a.isWritable = true) (i : Nat) :
    ∀ c ∈ a.block i, c.Clear := by
  intro c hc
  unfold block at hc
  split at hc
  · exact Request.clear_of_mem_block _ _ c hc
  · next name =>
    rw [List.mem_singleton] at hc
    have hname : Sealed name := sealed_plain fun d hd =>
      have hne := Validator.ne_of_mem_identifier ha d hd
      ⟨hne.1, hne.2.1, hne.2.2.2⟩
    have hcall : '(' ∉ "call".toList := by decide
    exact hc ▸ ⟨hcall, hname⟩
  · exact absurd hc List.not_mem_nil

namespace Step

theorem stage_of_mem_extractCalls {extract : Option (List (String × Extraction))} {c : Call}
    (h : c ∈ extractCalls extract) : stageOf c.method = 13 := by
  cases extract with
  | none => simp [extractCalls] at h
  | some entries =>
    rw [extractCalls, List.mem_cons, List.mem_map] at h
    rcases h with rfl | ⟨⟨var, x⟩, -, rfl⟩
    · decide
    · cases x
      · exact show stageOf "with_regex" = 13 by decide
      · exact show stageOf "with_jmespath" = 13 by decide

theorem stage_of_mem_validateCalls {validate : Option (List Validator)} {c : Call}
    (h : c ∈ validateCalls validate) : stageOf c.method = 15 := by
  cases validate with
  | none => simp [validateCalls] at h
  | some vs =>
    rw [validateCalls, List.mem_cons, List.mem_map] at h
    rcases h with rfl | ⟨v, -, rfl⟩
    · decide
    · have hbegins : Text.beginsWith "assert_" v.call.method = true := by
        simp [Text.beginsWith, Validator.call]
      rw [stageOf, if_pos hbegins]

/-- A step that can be written: its action can, its validators have names as methods, and every number
is whole. -/
def isWritable (s : Step) : Bool :=
  s.bindings.all Value.entriesAreWhole && s.action.isWritable
    && (s.validate.getD []).all Validator.isWritable

/-- The calls of a step by their stage. -/
def block (s : Step) : Nat → List Call
  | 0 => Call.given "with_variables" Call.keywords s.bindings
  | 1 => Hook.calls .setup s.setup
  | 12 => Hook.calls .teardown s.teardown
  | 13 => extractCalls s.extract
  | 14 => Call.given "export" Call.positionals s.exports
  | 15 => validateCalls s.validate
  | n => s.action.block n

/-- How many stages the calls of a step have. -/
def stages : Nat := 16

/-- The calls of a step that can be written, stage by stage. -/
theorem calls_eq_blocks {s : Step} (hs : s.action.isWritable = true) :
    s.calls = .ok ((List.range stages).flatMap s.block) := by
  have hrange : List.range stages = [0, 1, 2, 3, 4, 5, 6, 7, 8, 9, 10, 11, 12, 13, 14, 15] := rfl
  rw [hrange]
  unfold calls actionCalls
  cases haction : s.action with
  | request r =>
    simp [Except.map, callsBefore, callsAfter, block, haction, Action.block, Request.block,
      Request.calls]
  | call target =>
    cases target with
    | path text => simp [haction, Action.isWritable] at hs
    | made name =>
      simp [Except.map, callsBefore, callsAfter, block, haction, Action.block]

/-- Every call has the stage of its block. -/
theorem stage_of_mem_block (s : Step) (i : Nat) : ∀ c ∈ s.block i, stageOf c.method = i := by
  intro c hc
  unfold block at hc
  split at hc
  · rw [Call.method_of_mem_given hc]
    decide
  · rw [Hook.method_of_mem_calls hc]
    decide
  · rw [Hook.method_of_mem_calls hc]
    decide
  · exact stage_of_mem_extractCalls hc
  · rw [Call.method_of_mem_given hc]
    decide
  · exact stage_of_mem_validateCalls hc
  · exact Action.stage_of_mem_block s.action i c hc

/-- The calls of a step can be told apart in its text. -/
theorem clear_of_mem_block {s : Step} (hs : s.isWritable = true) (i : Nat) :
    ∀ c ∈ s.block i, c.Clear := by
  simp only [isWritable, Bool.and_eq_true] at hs
  intro c hc
  unfold block at hc
  split at hc
  · exact Call.clear_given (by decide) Call.sealed_keywords c hc
  · exact Hook.clear_calls c hc
  · exact Hook.clear_calls c hc
  · cases hextract : s.extract with
    | none => simp [hextract, extractCalls] at hc
    | some entries =>
      rw [hextract, extractCalls, List.mem_cons, List.mem_map] at hc
      rcases hc with rfl | ⟨x, -, rfl⟩
      · exact ⟨by decide, sealed_plain (by simp)⟩
      · exact Extraction.clear_call x
  · exact Call.clear_given (by decide) Call.sealed_positionals c hc
  · cases hvalidate : s.validate with
    | none => simp [hvalidate, validateCalls] at hc
    | some vs =>
      rw [hvalidate, validateCalls, List.mem_cons, List.mem_map] at hc
      rcases hc with rfl | ⟨v, hv, rfl⟩
      · exact ⟨by decide, sealed_plain (by simp)⟩
      · have hall := hs.2
        rw [hvalidate, Option.getD_some, List.all_eq_true] at hall
        exact Validator.clear_call (hall v hv)
  · exact Action.clear_of_mem_block hs.1.2 i c hc

end Step

/-! ## What blocks determine -/

theorem Method.call_inj {m n : Method} (h : m.call = n.call) : m = n := by
  revert h
  cases m <;> cases n <;> decide

/-- A request is determined by its calls. -/
theorem Request.eq_of_block_eq {r q : Request} (hr : r.isWhole = true) (hq : q.isWhole = true)
    (h : ∀ i, 2 ≤ i → i ≤ 11 → r.block i = q.block i) : r = q := by
  simp only [isWhole, Bool.and_eq_true, Option.all_eq_true] at hr hq
  obtain ⟨⟨⟨⟨⟨⟨hparams, hheaders⟩, hcookies⟩, hdata⟩, hjson⟩, htimeout⟩, hupload⟩ := hr
  obtain ⟨⟨⟨⟨⟨⟨hparams', hheaders'⟩, hcookies'⟩, hdata'⟩, hjson'⟩, htimeout'⟩, hupload'⟩ := hq
  have hcall := (List.cons.inj (h 2 (by decide) (by decide))).1
  rw [Call.mk.injEq] at hcall
  rw [Request.mk.injEq]
  refine ⟨Method.call_inj hcall.1, Literal.double_inj hcall.2,
    Call.given_inj ?_ (h 3 (by decide) (by decide)), Call.given_inj ?_ (h 4 (by decide) (by decide)),
    Call.given_inj ?_ (h 5 (by decide) (by decide)), Call.given_inj ?_ (h 6 (by decide) (by decide)),
    Call.given_inj ?_ (h 7 (by decide) (by decide)), Call.given_inj ?_ (h 8 (by decide) (by decide)),
    Call.given_inj ?_ (h 9 (by decide) (by decide)), Call.given_inj ?_ (h 10 (by decide) (by decide)),
    Call.given_inj ?_ (h 11 (by decide) (by decide))⟩
  · exact fun m hm n hn => Call.keywords_inj (hparams m hm) (hparams' n hn)
  · exact fun m hm n hn => Call.keywords_inj (hheaders m hm) (hheaders' n hn)
  · exact fun m hm n hn => Call.keywords_inj (hcookies m hm) (hcookies' n hn)
  · exact fun v hv w hw => Literal.body_inj (hdata v hv) (hdata' w hw)
  · exact fun v hv w hw => Literal.body_inj (hjson v hv) (hjson' w hw)
  · exact fun m hm n hn => Literal.number_inj (htimeout m hm) (htimeout' n hn)
  · exact fun _ _ _ _ => Literal.bool_inj
  · exact fun _ _ _ _ => Literal.bool_inj
  · exact fun m hm n hn => Call.keywords_inj (hupload m hm) (hupload' n hn)

/-- An action is determined by its calls, if it is known whether it is a request. -/
theorem Action.eq_of_block_eq {a b : Action} (ha : a.isWritable = true) (hb : b.isWritable = true)
    (hkind : (∃ r, a = .request r) ↔ ∃ r, b = .request r)
    (h : ∀ i, 2 ≤ i → i ≤ 11 → a.block i = b.block i) : a = b := by
  cases a with
  | request r =>
    obtain ⟨q, rfl⟩ := hkind.1 ⟨r, rfl⟩
    rw [Request.eq_of_block_eq ha hb h]
  | call target =>
    cases b with
    | request q => exact absurd (hkind.2 ⟨q, rfl⟩) (by simp)
    | call target' =>
      cases target with
      | path text => simp [isWritable] at ha
      | made name =>
        cases target' with
        | path text => simp [isWritable] at hb
        | made name' =>
          have hcall := (List.cons.inj (h 2 (by decide) (by decide))).1
          rw [Call.mk.injEq] at hcall
          rw [hcall.2]

/-- A list is determined by the images of its items, if every item is. -/
theorem map_inj_of_mem {α β : Type} {f : α → β} {as bs : List α}
    (hinj : ∀ a ∈ as, ∀ b ∈ bs, f a = f b → a = b) (h : as.map f = bs.map f) : as = bs := by
  induction as generalizing bs with
  | nil => simpa using h
  | cons a as ih =>
    cases bs with
    | nil => simp at h
    | cons b bs =>
      rw [List.map_cons, List.map_cons, List.cons.injEq] at h
      rw [hinj a List.mem_cons_self b List.mem_cons_self h.1,
        ih (fun a ha b hb => hinj a (List.mem_cons_of_mem _ ha) b (List.mem_cons_of_mem _ hb)) h.2]

namespace Step

theorem extractCalls_inj {x y : Option (List (String × Extraction))}
    (h : extractCalls x = extractCalls y) : x = y := by
  cases x with
  | none =>
    cases y with
    | none => rfl
    | some ys => simp [extractCalls] at h
  | some xs =>
    cases y with
    | none => simp [extractCalls] at h
    | some ys =>
      rw [extractCalls, extractCalls, List.cons.injEq] at h
      rw [map_inj_of_mem (fun _ _ _ _ => Extraction.call_inj) h.2]

theorem validateCalls_inj {x y : Option (List Validator)}
    (hx : (x.getD []).all Validator.isWritable = true)
    (hy : (y.getD []).all Validator.isWritable = true)
    (h : validateCalls x = validateCalls y) : x = y := by
  cases x with
  | none =>
    cases y with
    | none => rfl
    | some vs => simp [validateCalls] at h
  | some vs =>
    cases y with
    | none => simp [validateCalls] at h
    | some ws =>
      rw [Option.getD_some, List.all_eq_true] at hx hy
      rw [validateCalls, validateCalls, List.cons.injEq] at h
      rw [map_inj_of_mem (fun v hv w hw => Validator.call_inj (hx v hv) (hy w hw)) h.2]

/-- The stages from 2 to 11 are those of the action. -/
theorem block_of_action (s : Step) {i : Nat} (hlow : 2 ≤ i) (hhigh : i ≤ 11) :
    s.block i = s.action.block i := by
  unfold block
  split
  all_goals first
    | omega
    | rfl

/-- A step with hook lists that are left out taken as empty ones. -/
def withHookLists (s : Step) : Step :=
  { s with setup := some (s.setup.getD []), teardown := some (s.teardown.getD []) }

/-- A step is determined by its name, its kind and its calls. -/
theorem eq_of_block_eq {s t : Step} (hs : s.isWritable = true) (ht : t.isWritable = true)
    (hname : s.name = t.name) (hkind : s.isCall = t.isCall)
    (h : ∀ i < stages, s.block i = t.block i) : s.withHookLists = t.withHookLists := by
  simp only [isWritable, Bool.and_eq_true, Option.all_eq_true] at hs ht
  obtain ⟨⟨hbindings, haction⟩, hvalidate⟩ := hs
  obtain ⟨⟨hbindings', haction'⟩, hvalidate'⟩ := ht
  have hrequest : ∀ u : Step, (∃ r, u.action = .request r) ↔ u.isCall = false := by
    intro u
    unfold isCall
    cases u.action <;> simp
  have hblock : ∀ i, 2 ≤ i → i ≤ 11 → s.action.block i = t.action.block i := by
    intro i hlow hhigh
    have hi := h i (by unfold stages; omega)
    rwa [block_of_action s hlow hhigh, block_of_action t hlow hhigh] at hi
  rw [withHookLists, withHookLists, Step.mk.injEq]
  refine ⟨hname, Call.given_inj ?_ (h 0 (by decide)), ?_, ?_, extractCalls_inj (h 13 (by decide)),
    Call.given_inj ?_ (h 14 (by decide)),
    validateCalls_inj hvalidate hvalidate' (h 15 (by decide)),
    Action.eq_of_block_eq haction haction' ?_ hblock⟩
  · exact fun m hm n hn => Call.keywords_inj (hbindings m hm) (hbindings' n hn)
  · rw [Hook.calls_inj (h 1 (by decide))]
  · rw [Hook.calls_inj (h 12 (by decide))]
  · exact fun _ _ _ _ => Call.positionals_inj
  · rw [hrequest, hrequest, hkind]

/-- The source text of a step that can be written. -/
theorem chain_eq_of_isWritable {s : Step} (hs : s.isWritable = true) :
    s.chain = .ok ("Step(" ++ s.runner ++ Call.chain ((List.range stages).flatMap s.block) ++ ")") := by
  simp only [isWritable, Bool.and_eq_true] at hs
  rw [chain, calls_eq_blocks hs.1.2]
  rfl

/-- Two steps with texts after what runs them have the same kind and name, and the same text follows. -/
theorem runner_cancel {s t : Step} {r u : String} (h : s.runner ++ r = t.runner ++ u) :
    s.isCall = t.isCall ∧ s.name = t.name ∧ r = u := by
  have hkind : s.isCall = t.isCall := by
    have hlist := congrArg String.toList h
    simp only [runner, String.toList_append] at hlist
    cases hs : s.isCall <;> cases ht : t.isCall <;> simp [hs, ht] at hlist ⊢
  simp only [runner, hkind, String.append_assoc] at h
  obtain ⟨hname, hrest⟩ := Literal.quote_cancel (.inl rfl) (.inl rfl)
    ((String.append_right_inj _).1 h)
  exact ⟨hkind, hname, (String.append_right_inj _).1 hrest⟩

/-- A step is determined by its source text, but for hook lists that are left out or empty. -/
theorem eq_of_chain_eq {s t : Step} (hs : s.isWritable = true) (ht : t.isWritable = true)
    (h : s.chain = t.chain) : s.withHookLists = t.withHookLists := by
  rw [chain_eq_of_isWritable hs, chain_eq_of_isWritable ht, Except.ok.injEq, String.append_assoc,
    String.append_assoc, String.append_assoc, String.append_assoc, String.append_right_inj] at h
  obtain ⟨hkind, hname, hrest⟩ := runner_cancel h
  have hclear : ∀ {u : Step}, u.isWritable = true →
      ∀ i, ∀ c ∈ u.block i, c.Clear ∧ stageOf c.method = i := fun {u} hu i c hc =>
    ⟨clear_of_mem_block hu i c hc, stage_of_mem_block u i c hc⟩
  refine eq_of_block_eq hs ht hname hkind ?_
  exact block_eq_of_chain_eq (r := [')']) (hclear hs) (hclear ht) (by decide)
    (by simpa using congrArg String.toList hrest)

end Step

/-! ## Configurations -/

namespace Config

/-- The calls of a configuration by their stage. -/
def block (c : Config) : Nat → List Call
  | 0 => if c.bindings.isEmpty then [] else [⟨"variables", Call.keywords c.bindings⟩]
  | 1 => Call.given "base_url" Literal.double c.baseUrl
  | 2 => Call.given "verify" Literal.bool c.verify
  | 3 => Call.given "export" Call.positionals c.exports
  | _ => []

/-- The stage of a call of a configuration, by its method. -/
def stageOf (method : String) : Nat :=
  ([("variables", 0), ("base_url", 1), ("verify", 2), ("export", 3)].lookup method).getD 0

theorem calls_eq_blocks (c : Config) : c.calls = (List.range 4).flatMap c.block := by
  rw [show List.range 4 = [0, 1, 2, 3] from rfl]
  simp [calls, block]

/-- Every call of a configuration has the stage of its block, and they can be told apart. -/
theorem clear_of_mem_block (c : Config) (i : Nat) :
    ∀ d ∈ c.block i, d.Clear ∧ stageOf d.method = i := by
  intro d hd
  unfold block at hd
  split at hd
  · split at hd
    · exact absurd hd List.not_mem_nil
    · rw [List.mem_singleton] at hd
      subst hd
      exact ⟨⟨by simp, Call.sealed_keywords _⟩, show stageOf "variables" = 0 by decide⟩
  · refine ⟨Call.clear_given (by decide) sealed_double d hd, ?_⟩
    rw [Call.method_of_mem_given hd]
    decide
  · refine ⟨Call.clear_given (by decide) (fun b => sealed_write (.bool b)) d hd, ?_⟩
    rw [Call.method_of_mem_given hd]
    decide
  · refine ⟨Call.clear_given (by decide) Call.sealed_positionals d hd, ?_⟩
    rw [Call.method_of_mem_given hd]
    decide
  · exact absurd hd List.not_mem_nil

/-- The written parts of a configuration are determined by its source text. -/
theorem eq_of_chain_eq {c d : Config} (hc : Value.entriesAreWhole c.bindings = true)
    (hd : Value.entriesAreWhole d.bindings = true) (h : c.chain = d.chain) :
    c.name = d.name ∧ c.bindings = d.bindings ∧ c.baseUrl = d.baseUrl ∧ c.verify = d.verify ∧
      c.exports = d.exports := by
  simp only [chain, String.append_assoc, String.append_right_inj] at h
  obtain ⟨hname, hrest⟩ := Literal.quote_cancel (.inl rfl) (.inl rfl) h
  rw [String.append_right_inj, calls_eq_blocks, calls_eq_blocks] at hrest
  have hblock := block_eq_of_chain_eq (r := []) (clear_of_mem_block c) (clear_of_mem_block d)
    (by decide) (by rw [hrest])
  refine ⟨hname, ?_, Call.given_inj ?_ (hblock 1 (by decide)),
    Call.given_inj ?_ (hblock 2 (by decide)), Call.given_inj ?_ (hblock 3 (by decide))⟩
  · have hbindings := hblock 0 (by decide)
    simp only [block] at hbindings
    -- no variables and no call for them go together
    split at hbindings <;> split at hbindings
    · simp_all
    · simp at hbindings
    · simp at hbindings
    · rw [List.cons.injEq, Call.mk.injEq] at hbindings
      exact Call.keywords_inj hc hd hbindings.1.2
  · exact fun _ _ _ _ => Literal.double_inj
  · exact fun _ _ _ _ => Literal.bool_inj
  · exact fun _ _ _ _ => Call.positionals_inj

end Config

/-! ## The main result -/

/-- **Code synthesis is faithful.**  Two steps that can be written have the same source text only if they
are the same step, but for hook lists that are left out or empty; and two configurations with whole
numbers have the same source text only if every part of them that is written is the same. -/
theorem chain_injective :
    (∀ s t : Step, s.isWritable = true → t.isWritable = true → s.chain = t.chain →
      s.withHookLists = t.withHookLists) ∧
    ∀ c d : Config, Value.entriesAreWhole c.bindings = true →
      Value.entriesAreWhole d.bindings = true → c.chain = d.chain →
      c.name = d.name ∧ c.bindings = d.bindings ∧ c.baseUrl = d.baseUrl ∧ c.verify = d.verify ∧
        c.exports = d.exports :=
  ⟨fun _ _ => Step.eq_of_chain_eq, fun _ _ => Config.eq_of_chain_eq⟩

/-- A step whose texts are full of quotes and parentheses, once without setup hooks and once with an empty
list of them; and a configuration, once skipped and once not. -/
theorem chain_injective_quotes :
    let request : Request := ⟨.post, "/x\").get(\"/y", none, none, none, some (.text "a\x27)\\"),
      some (.list [.number (.int (-1)), .null]), none, none, some false, none⟩
    let s : Step := ⟨"n\").call(X", some [("k\x27", .text "v\"")], none, some [.binding "t" "$\x7bf()\x7d"],
      some [("id", .regex "\\(x"), ("x", .path "body.\"a-b\"")], none,
      some [⟨"equal", "body.\"a-b\"", .number (.int 7), "it\x27s"⟩], .request request⟩
    let t : Step := { s with setup := some [] }
    let c : Config := ⟨"demo", [("a", .text "\")")], some "http://x", some false, some ["a"], none, none,
      none, Path.empty⟩
    let d : Config := { c with skip := some "" }
    (s ≠ t ∧ s.isWritable = true ∧ t.isWritable = true ∧ s.withHookLists = t.withHookLists) ∧
      (c ≠ d ∧ Value.entriesAreWhole c.bindings = true ∧ c.bindings = d.bindings) := by
  intro request s t c d
  refine ⟨⟨by decide, by decide, by decide, ?_⟩, by decide, by decide, ?_⟩
  · exact chain_injective.1 s t (by decide) (by decide) rfl
  · exact (chain_injective.2 c d (by decide) (by decide) rfl).2.1

end TestScribe
