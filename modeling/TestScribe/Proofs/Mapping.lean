/-
# Laws of ordered mappings

Look-up and update of a `Mapping`, whose keys keep the order in which they first appeared: what a
look-up finds after an update or in a concatenation, that an update adds at most its own key, and that
merging into nothing gives back a mapping whose keys are distinct.

* `Mapping.Collects` : a mapping has each key of some entries at its first position and with its last value,
  which is what merging the entries into nothing gives.
-/
import TestScribe.Document.Value
import Mathlib

namespace TestScribe.Mapping

/-! ## Look-up -/

/-- What comes first is found first. -/
theorem get?_append (key : String) (m n : Mapping) :
    get? key (m ++ n) = (get? key m).or (get? key n) := by
  induction m with
  | nil => rfl
  | cons entry m ih =>
    obtain ⟨k, v⟩ := entry
    by_cases hk : k = key
    · simp [get?, hk]
    · simpa [get?, hk] using ih

theorem get?_set_self (key : String) (value : Value) (m : Mapping) :
    get? key (set key value m) = some value := by
  induction m with
  | nil => simp [set, get?]
  | cons entry m ih =>
    obtain ⟨k, v⟩ := entry
    by_cases hk : k = key
    · simp [set, get?, hk]
    · simpa [set, get?, hk] using ih

theorem get?_set_of_ne {key other : String} (hne : other ≠ key) (value : Value) (m : Mapping) :
    get? other (set key value m) = get? other m := by
  induction m with
  | nil => simp [set, get?, hne.symm]
  | cons entry m ih =>
    obtain ⟨k, v⟩ := entry
    by_cases hk : k = key
    · simp [set, get?, hk, hne.symm]
    · by_cases ho : k = other
      · rw [set, if_neg hk, get?, get?, if_pos ho, if_pos ho]
      · simpa [set, get?, hk, ho] using ih

theorem get?_eq_none {key : String} {m : Mapping} (h : key ∉ keys m) : get? key m = none := by
  induction m with
  | nil => rfl
  | cons entry m ih =>
    obtain ⟨k, v⟩ := entry
    rw [keys, List.map_cons, List.mem_cons, not_or] at h
    rw [get?, if_neg (Ne.symm h.1), ih h.2]

/-! ## Update -/

/-- Of two values for one key, the last one stays. -/
theorem set_set (key : String) (v w : Value) (m : Mapping) :
    set key w (set key v m) = set key w m := by
  induction m with
  | nil => simp [set]
  | cons entry m ih =>
    obtain ⟨k, u⟩ := entry
    by_cases hk : k = key
    · simp [set, hk]
    · simpa [set, hk] using ih

theorem set_inj {key : String} {v w : Value} {m : Mapping} :
    set key v m = set key w m ↔ v = w := by
  refine ⟨fun h => ?_, fun h => by rw [h]⟩
  have hget := congrArg (get? key) h
  rwa [get?_set_self, get?_set_self, Option.some_inj] at hget

/-- A new key goes to the end. -/
theorem set_of_notMem {key : String} {m : Mapping} (h : key ∉ keys m) (value : Value) :
    set key value m = m ++ [(key, value)] := by
  induction m with
  | nil => rfl
  | cons entry m ih =>
    obtain ⟨k, v⟩ := entry
    rw [keys, List.map_cons, List.mem_cons, not_or] at h
    rw [set, if_neg (Ne.symm h.1), ih h.2, List.cons_append]

/-- An old key keeps its place. -/
theorem keys_set_of_mem {key : String} {m : Mapping} (h : key ∈ keys m) (value : Value) :
    keys (set key value m) = keys m := by
  induction m with
  | nil => simp [keys] at h
  | cons entry m ih =>
    obtain ⟨k, v⟩ := entry
    rw [set]
    split
    · rfl
    · next hk =>
      have hm : key ∈ keys m := by
        rw [keys, List.map_cons, List.mem_cons] at h
        exact h.resolve_left (Ne.symm hk)
      rw [keys, List.map_cons, ← keys, ih hm]
      rfl

theorem keys_set (key : String) (value : Value) (m : Mapping) :
    keys (set key value m) = if key ∈ keys m then keys m else keys m ++ [key] := by
  split
  · next h => exact keys_set_of_mem h value
  · next h =>
    rw [set_of_notMem h, keys, List.map_append, ← keys]
    rfl

/-- A key that is set occurs once. -/
theorem nodup_keys_set {m : Mapping} (h : (keys m).Nodup) (key : String) (value : Value) :
    (keys (set key value m)).Nodup := by
  by_cases hk : key ∈ keys m
  · rwa [keys_set_of_mem hk]
  · rw [set_of_notMem hk, keys, List.map_append, ← keys]
    exact List.nodup_append.2 ⟨h, by simp, by simpa using fun k hm => ne_of_mem_of_not_mem hm hk⟩

/-! ## Merging -/

/-- Merging keeps keys distinct. -/
theorem nodup_keys_merge {m : Mapping} (h : (keys m).Nodup) (more : Mapping) :
    (keys (merge m more)).Nodup := by
  induction more generalizing m with
  | nil => exact h
  | cons entry more ih => exact ih (nodup_keys_set h entry.1 entry.2)

/-- Entries with new keys are added as they are. -/
theorem merge_of_nodup {m more : Mapping} (h : (keys (m ++ more)).Nodup) :
    merge m more = m ++ more := by
  induction more generalizing m with
  | nil => simp [merge]
  | cons entry more ih =>
    have hkey : entry.1 ∉ keys m := by
      intro hm
      rw [keys, List.map_append, List.nodup_append] at h
      exact h.2.2 entry.1 hm entry.1 (by simp) rfl
    have hrest : (keys ((m ++ [entry]) ++ more)).Nodup := by
      rwa [List.append_assoc, List.singleton_append]
    calc merge m (entry :: more) = merge (set entry.1 entry.2 m) more := rfl
      _ = merge (m ++ [entry]) more := by rw [set_of_notMem hkey]
      _ = m ++ entry :: more := by rw [ih hrest, List.append_assoc, List.singleton_append]

/-- A mapping with distinct keys is what merging it into nothing gives. -/
theorem merge_nil {m : Mapping} (h : (keys m).Nodup) : merge [] m = m := merge_of_nodup h

/-- Entries are merged one after the other. -/
theorem merge_append (m more others : Mapping) : merge m (more ++ others) = merge (merge m more) others :=
  List.foldl_append

/-! ## Merged entries -/

/-- A mapping with distinct keys is determined by their order and by what a look-up finds. -/
theorem eq_of_get?_eq {m n : Mapping} (hnodup : (keys m).Nodup) (hkeys : keys m = keys n)
    (hget : ∀ key, get? key m = get? key n) : m = n := by
  induction m generalizing n with
  | nil => exact (List.map_eq_nil_iff.1 hkeys.symm).symm
  | cons entry m ih =>
    obtain ⟨k, v⟩ := entry
    obtain _ | ⟨⟨k', v'⟩, n⟩ := n
    · simp [keys] at hkeys
    simp only [keys, List.map_cons, List.cons.injEq, List.nodup_cons] at hkeys hnodup
    obtain ⟨rfl, hkeys⟩ := hkeys
    have hv : v = v' := by simpa [get?] using hget k
    rw [hv, ih hnodup.2 hkeys]
    intro key
    by_cases hk : k = key
    · subst hk
      rw [get?_eq_none hnodup.1, get?_eq_none]
      rw [← keys, ← keys] at hkeys
      rw [← hkeys]
      exact hnodup.1
    · simpa [get?, hk] using hget key

/-- A mapping has the keys of some entries, each where it first appears and with the value it has last. -/
structure Collects (entries m : Mapping) : Prop where
  keys_eq : keys m = (keys entries).eraseDups
  get?_eq : ∀ key, get? key m = get? key entries.reverse

/-- Merging entries into nothing collects them. -/
theorem collects_merge (entries : Mapping) : Collects entries (merge [] entries) := by
  induction entries using List.reverseRecOn with
  | nil => exact ⟨rfl, fun _ => rfl⟩
  | append_singleton entries entry ih =>
    obtain ⟨key, value⟩ := entry
    have hlast : merge [] (entries ++ [(key, value)]) = set key value (merge [] entries) :=
      merge_append [] entries [(key, value)]
    rw [hlast]
    constructor
    · have hsplit : keys (entries ++ [(key, value)]) = keys entries ++ [key] := by simp [keys]
      rw [keys_set, ih.keys_eq, hsplit, List.eraseDups_append]
      by_cases hk : key ∈ keys entries
      · simp [hk, List.removeAll]
      · simp [hk, List.removeAll, List.eraseDups_cons]
    · intro other
      rw [List.reverse_append, List.reverse_singleton, List.singleton_append, get?]
      split
      · next h => rw [← h, get?_set_self]
      · next h => rw [get?_set_of_ne (Ne.symm h), ih.get?_eq]

/-- Entries are collected in one way only. -/
theorem Collects.eq_merge {entries m : Mapping} (h : Collects entries m) : m = merge [] entries := by
  have hmerge := collects_merge entries
  refine (eq_of_get?_eq (nodup_keys_merge (by simp [keys]) entries) ?_ fun key => ?_).symm
  · rw [hmerge.keys_eq, h.keys_eq]
  · rw [hmerge.get?_eq, h.get?_eq]

/-- A mapping that was collected has distinct keys. -/
theorem Collects.nodup_keys {entries m : Mapping} (h : Collects entries m) : (keys m).Nodup := by
  rw [h.eq_merge]
  exact nodup_keys_merge (by simp [keys]) entries

end TestScribe.Mapping
