import Mathlib.Logic.Function.Basic
import Mathlib.Data.List.Nodup
import Mathlib.Tactic.Common

/-! # Arrays of keyed entries

An array is searched from its start for the first entry with a key. Replacing that entry, appending one
with a new key and removing one are updates of the map that the search computes, if the keys are distinct.
-/

namespace KeyedArray

variable {α κ : Type*} [DecidableEq κ] (key : α → κ)

/-- The first entry with a key. -/
def lookup (entries : List α) (k : κ) : Option α := entries.find? fun entry => key entry = k

/-- The first entry with the key of `entry` becomes `entry`. -/
def replace (entry : α) (entries : List α) : List α :=
  entries.replaceF fun other => if key other = key entry then some entry else none

variable {key} {entries : List α}

theorem lookup_eq_none_iff {k : κ} : lookup key entries k = none ↔ k ∉ entries.map key := by
  simp [lookup]

theorem mem_of_lookup {k : κ} {entry : α} (found : lookup key entries k = some entry) :
    entry ∈ entries ∧ key entry = k :=
  ⟨List.mem_of_find?_eq_some found, by simpa using List.find?_some found⟩

theorem lookup_cons (entry : α) (k : κ) :
    lookup key (entry :: entries) k = if key entry = k then some entry else lookup key entries k := by
  by_cases same : key entry = k <;> simp [lookup, same]

theorem lookup_congr {other : α → κ} (same : ∀ entry ∈ entries, key entry = other entry) :
    lookup key entries = lookup other entries := by
  funext k
  rw [lookup, lookup, ← List.head?_filter, ← List.head?_filter]
  exact congrArg List.head? (List.filter_congr fun entry member => by rw [same entry member])

omit [DecidableEq κ] in
theorem eraseP_congr {p q : α → Bool} (same : ∀ entry ∈ entries, p entry = q entry) :
    entries.eraseP p = entries.eraseP q := by
  induction entries with
  | nil => rfl
  | cons entry rest ih =>
    rw [List.eraseP_cons, List.eraseP_cons, same entry (List.mem_cons_self ..),
      ih fun other member => same other (List.mem_cons_of_mem _ member)]

theorem replace_cons (entry other : α) :
    replace key entry (other :: entries) =
      if key other = key entry then entry :: entries else other :: replace key entry entries := by
  by_cases same : key other = key entry <;> simp [replace, same]

theorem keys_replace (entry : α) : (replace key entry entries).map key = entries.map key := by
  induction entries with
  | nil => rfl
  | cons other rest ih =>
    rw [replace_cons]
    split
    next same => simp [same]
    next => simp [ih]

theorem mem_replace {entry other : α} (member : other ∈ replace key entry entries) :
    other = entry ∨ other ∈ entries := by
  induction entries with
  | nil => simp [replace] at member
  | cons head rest ih =>
    rw [replace_cons] at member
    split at member
    · exact (List.mem_cons.mp member).imp id (List.mem_cons_of_mem _)
    · rcases List.mem_cons.mp member with rfl | member
      · exact .inr (List.mem_cons_self ..)
      · exact (ih member).imp id (List.mem_cons_of_mem _)

theorem lookup_replace (entry : α) (present : key entry ∈ entries.map key) :
    lookup key (replace key entry entries) = Function.update (lookup key entries) (key entry) (some entry) := by
  funext k
  induction entries with
  | nil => simp at present
  | cons other rest ih =>
    rw [replace_cons]
    split
    next same =>
      by_cases asked : k = key entry
      · simp [lookup_cons, asked]
      · simp [lookup_cons, same, Function.update_of_ne asked, Ne.symm asked]
    next differs =>
      have later : key entry ∈ rest.map key := by
        rcases List.mem_cons.mp present with here | later
        · exact absurd here.symm differs
        · exact later
      by_cases asked : k = key entry
      · subst asked
        simpa [lookup_cons, differs] using ih later
      · rw [lookup_cons, ih later, Function.update_of_ne asked, Function.update_of_ne asked, lookup_cons]

theorem lookup_append (entry : α) (absent : key entry ∉ entries.map key) :
    lookup key (entries ++ [entry]) = Function.update (lookup key entries) (key entry) (some entry) := by
  funext k
  by_cases asked : k = key entry
  · subst asked
    have missing := lookup_eq_none_iff.mpr absent
    simp only [lookup] at missing
    simp [lookup, missing]
  · simp [lookup, Function.update_of_ne asked, Ne.symm asked]

theorem lookup_eraseP (k : κ) (distinct : (entries.map key).Nodup) :
    lookup key (entries.eraseP fun entry => key entry = k) = Function.update (lookup key entries) k none := by
  funext q
  induction entries with
  | nil => by_cases asked : q = k <;> simp [lookup, asked]
  | cons other rest ih =>
    obtain ⟨fresh, distinct⟩ := List.nodup_cons.mp (List.map_cons ▸ distinct)
    by_cases same : key other = k
    · subst same
      rw [List.eraseP_cons_of_pos (by simp)]
      by_cases asked : q = key other
      · rw [asked, Function.update_self, lookup_eq_none_iff.mpr fresh]
      · rw [Function.update_of_ne asked, lookup_cons, if_neg (Ne.symm asked)]
    · rw [List.eraseP_cons_of_neg (by simpa using same), lookup_cons, ih distinct]
      by_cases asked : q = k
      · rw [asked, if_neg same, Function.update_self, Function.update_self]
      · rw [Function.update_of_ne asked, Function.update_of_ne asked, lookup_cons]

omit [DecidableEq κ] in
/-- Removing an entry leaves every search alone that does not stop at it. -/
theorem find?_eraseP {p q : α → Bool} (apart : ∀ entry ∈ entries, p entry = true → q entry = false) :
    (entries.eraseP p).find? q = entries.find? q := by
  induction entries with
  | nil => rfl
  | cons entry rest ih =>
    obtain ⟨here, later⟩ := List.forall_mem_cons.mp apart
    by_cases found : p entry = true
    · rw [List.eraseP_cons_of_pos found, List.find?_cons_of_neg (by simp [here found])]
    · rw [List.eraseP_cons_of_neg found, List.find?_cons, List.find?_cons, ih later]

omit [DecidableEq κ] in
/-- The first entry that a test finds is the only one exactly if the test finds nothing once it is removed. -/
theorem find?_eraseP_self {p : α → Bool} :
    (entries.eraseP p).find? p = none ↔ (entries.filter p).length ≤ 1 := by
  induction entries with
  | nil => simp
  | cons entry rest ih =>
    by_cases found : p entry = true
    · rw [List.eraseP_cons_of_pos found, List.filter_cons_of_pos found, List.length_cons, Nat.succ_le_succ_iff,
        Nat.le_zero, List.length_eq_zero_iff, List.find?_eq_none, List.filter_eq_nil_iff]
    · rw [List.eraseP_cons_of_neg found, List.filter_cons_of_neg found, List.find?_cons_of_neg found, ih]

omit [DecidableEq κ] in
theorem nodup_append (entry : α) (distinct : (entries.map key).Nodup) (absent : key entry ∉ entries.map key) :
    ((entries ++ [entry]).map key).Nodup := by
  rw [List.map_append, List.map_singleton, ← List.concat_eq_append]
  exact distinct.concat absent

omit [DecidableEq κ] in
theorem nodup_eraseP (p : α → Bool) (distinct : (entries.map key).Nodup) :
    ((entries.eraseP p).map key).Nodup :=
  distinct.sublist (List.eraseP_sublist.map key)

end KeyedArray
