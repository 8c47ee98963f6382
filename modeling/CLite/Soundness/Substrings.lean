import CLite.Model.Substrings
import CLite.Lib.Leftmost

/-! # The substring searches return the leftmost occurrence

All three searches walk up from offset zero and differ in the test that they make at each offset. Each test
decides whether the needle is a prefix of what remains there, for `strcasestr` after the letters A to Z have
been made small in both strings.
-/

namespace CLite

open ByteMemory Leftmost

/-! ## `strstr` -/

theorem skipCommon_eq_nil_iff {haystack needle : CString} :
    skipCommon haystack needle = [] ↔ needle <+: haystack := by
  induction haystack generalizing needle with
  | nil => simp [skipCommon]
  | cons h haystack ih =>
    cases needle with
    | nil => simp [skipCommon]
    | cons n needle =>
      rw [skipCommon, List.cons_prefix_cons]
      split_ifs with same
      · rw [ih, and_iff_right same.symm]
      · simp [Ne.symm same]

/-- The test of `strstr` on the first character is part of the comparison that follows it. -/
theorem strstr_test_iff {needle rest : CString} {c : CChar} (nonempty : needle ≠ []) :
    needle.head? = some c ∧ skipCommon (c :: rest) needle = [] ↔ needle <+: c :: rest := by
  rw [skipCommon_eq_nil_iff]
  refine and_iff_right_of_imp ?_
  obtain ⟨n, needle, rfl⟩ := List.exists_cons_of_ne_nil nonempty
  intro within
  rw [(List.cons_prefix_cons.mp within).1, List.head?_cons]

theorem strstr_leftmost (haystack needle : CString) :
    FirstFrom (OccursAt needle haystack) 0 (strstr haystack needle) := by
  rw [strstr]
  split_ifs with empty
  · subst empty
    exact .here occursAt_nil_zero
  · apply firstFrom_of_walk empty
    · exact fun _ => rfl
    · intro offset c rest within
      rw [strstrLoop, if_pos ((strstr_test_iff empty).mpr within)]
    · intro offset c rest apart
      rw [strstrLoop, if_neg (mt (strstr_test_iff empty).mp apart)]

/-! ## `strcasestr` -/

/-- The character with A to Z mapped to a to z. -/
def CChar.lower (c : CChar) : CChar :=
  if upper : 65 ≤ c.byte.toNat ∧ c.byte.toNat ≤ 90 then
    ⟨BitVec.ofNat 8 (c.byte.toNat + (97 - 65)), by
      intro zero
      have value : (BitVec.ofNat 8 (c.byte.toNat + (97 - 65))).toNat = 0 := congrArg BitVec.toNat zero
      rw [BitVec.toNat_ofNat] at value
      omega⟩
  else c

theorem tolower_unsigned (c : CChar) : tolower c.unsigned = c.lower.unsigned := by
  have bound := c.byte.isLt
  by_cases upper : 65 ≤ c.byte.toNat ∧ c.byte.toNat ≤ 90
  · rw [tolower, CChar.lower, dif_pos upper, if_pos (by simp only [CChar.unsigned]; omega)]
    simp only [CChar.unsigned, BitVec.toNat_ofNat]
    omega
  · rw [tolower, CChar.lower, dif_neg upper, if_neg (by simp only [CChar.unsigned]; omega)]

theorem unsigned_pos (c : CChar) : 0 < c.unsigned := by
  have positive : c.byte.toNat ≠ 0 := fun zero => c.nonzero (BitVec.eq_of_toNat_eq zero)
  rw [CChar.unsigned]
  omega

/-- The comparison over the needle's length succeeds if the small needle starts the small haystack. -/
theorem strncasecmp_eq_zero_iff {haystack needle : CString} :
    strncasecmp haystack needle needle.length = 0 ↔ needle.map CChar.lower <+: haystack.map CChar.lower := by
  induction needle generalizing haystack with
  | nil => simp [strncasecmp]
  | cons n needle ih =>
    have atNeedle : tolower (firstUnsigned (n :: needle)) = n.lower.unsigned := tolower_unsigned n
    rw [List.length_cons, strncasecmp, atNeedle]
    cases haystack with
    | nil =>
      -- the terminator differs from the needle's character, so the loop returns here
      have ended : tolower (firstUnsigned []) = 0 := rfl
      have positive := unsigned_pos n.lower
      rw [ended, if_pos (.inr rfl)]
      simp only [List.map_cons, List.map_nil, List.prefix_nil, reduceCtorEq, iff_false]
      omega
    | cons h haystack =>
      have atHaystack : tolower (firstUnsigned (h :: haystack)) = h.lower.unsigned := tolower_unsigned h
      rw [atHaystack, List.map_cons, List.map_cons, List.cons_prefix_cons]
      by_cases same : n.lower = h.lower
      · rw [if_neg (by simp [same]), List.tail_cons, List.tail_cons, ih, and_iff_right same]
      · have values : h.lower.unsigned ≠ n.lower.unsigned :=
          fun equal => same (CChar.unsigned_injective equal).symm
        rw [if_pos (.inl values), sub_eq_zero]
        simp [values, same]

theorem strcasestr_eq_strstr (haystack needle : CString) :
    strcasestr haystack needle = strstr (haystack.map CChar.lower) (needle.map CChar.lower) := by
  rw [strcasestr, strstr]
  by_cases empty : needle = []
  · rw [if_pos empty, if_pos (by rw [empty, List.map_nil])]
  · have empty' : needle.map CChar.lower ≠ [] := mt List.map_eq_nil_iff.mp empty
    rw [if_neg empty, if_neg empty']
    generalize 0 = offset
    induction haystack generalizing offset with
    | nil => rfl
    | cons c rest ih =>
      rw [strcasestrLoop, List.map_cons, strstrLoop, ih]
      refine if_congr ?_ rfl rfl
      rw [strstr_test_iff empty', strncasecmp_eq_zero_iff, List.map_cons]

/-! ## `memmem` -/

/-- The bytes of a C string, without the terminator. -/
def stringBytes (s : CString) : List Byte := s.map CChar.byte

theorem byte_injective : Function.Injective CChar.byte := by
  rintro ⟨a, _⟩ ⟨b, _⟩ same
  simpa only [CChar.mk.injEq] using same

theorem memcmp_eq_zero_iff {memory : Memory} {a b : ℕ} {first second : List Byte}
    (longer : second.length ≤ first.length) (atA : Holds memory a first) (atB : Holds memory b second) :
    memcmp memory a b second.length = 0 ↔ second <+: first := by
  induction second generalizing first a b with
  | nil => simp [memcmp]
  | cons y second ih =>
    cases first with
    | nil => simp at longer
    | cons x first =>
      obtain ⟨rfl, restA⟩ := atA
      obtain ⟨rfl, restB⟩ := atB
      have rest := ih (Nat.le_of_succ_le_succ longer) restA restB
      rw [List.length_cons, memcmp, List.cons_prefix_cons]
      by_cases same : memory a = memory b
      · rw [if_neg (not_not.mpr same), rest, and_iff_right same.symm]
      · have values : (memory a).toNat ≠ (memory b).toNat := mt BitVec.eq_of_toNat_eq same
        rw [if_pos same]
        simp only [Ne.symm same, false_and, iff_false]
        omega

/-- The index loop of `memmem` looks at every offset where the needle can still fit. -/
theorem memmemLoop_leftmost {memory : Memory} {h n : ℕ} {haystack needle : List Byte}
    (atHaystack : Holds memory h haystack) (atNeedle : Holds memory n needle) (i : ℕ) :
    ∃ offset, memmemLoop memory h haystack.length n needle.length i = offset.map (h + ·) ∧
      FirstFrom (OccursAt needle haystack) i offset := by
  have test : ∀ i, i + needle.length ≤ haystack.length →
      (memcmp memory (h + i) n needle.length = 0 ↔ OccursAt needle haystack i) := by
    intro i fits
    rw [occursAt_iff_prefix_drop (by omega)]
    rw [← List.take_append_drop i haystack, holds_append, List.length_take_of_le (by omega)] at atHaystack
    exact memcmp_eq_zero_iff (by rw [List.length_drop]; omega) atHaystack.2 atNeedle
  fun_induction memmemLoop memory h haystack.length n needle.length i with
  | case1 i fits found => exact ⟨some i, rfl, .here ((test i fits).mp found)⟩
  | case2 i fits missed ih =>
    obtain ⟨offset, result, first⟩ := ih
    exact ⟨offset, result, .next (mt (test i fits).mpr missed) first⟩
  | case3 i long =>
    refine ⟨none, rfl, ?_⟩
    intro position passed occurs
    have bound := occurs.bound
    omega

theorem memmem_leftmost {memory : Memory} {h n : ℕ} {haystack needle : List Byte}
    (atHaystack : Holds memory h haystack) (atNeedle : Holds memory n needle) :
    ∃ offset, memmem memory h haystack.length n needle.length = offset.map (h + ·) ∧
      FirstFrom (OccursAt needle haystack) 0 offset := by
  rw [memmem]
  split_ifs with empty short
  · refine ⟨some 0, rfl, .here ?_⟩
    rw [List.length_eq_zero_iff.mp empty]
    exact occursAt_nil_zero
  · refine ⟨none, rfl, ?_⟩
    intro position _ occurs
    have bound := occurs.bound
    omega
  · exact memmemLoop_leftmost atHaystack atNeedle 0

/-- `strstr` returns the least offset at which the needle occurs, zero if the needle is empty, and the null
pointer if it occurs nowhere; `memmem` on the two strings in memory returns the same place, and `strcasestr`
returns what `strstr` returns on the strings in small letters. -/
theorem searches_leftmost (haystack needle : CString) :
    FirstFrom (OccursAt needle haystack) 0 (strstr haystack needle) ∧
      strstr haystack [] = some 0 ∧
      (∀ (memory : Memory) (h n : ℕ),
        Holds memory h (stringBytes haystack ++ [0]) → Holds memory n (stringBytes needle ++ [0]) →
          memmem memory h haystack.length n needle.length = (strstr haystack needle).map (h + ·)) ∧
      strcasestr haystack needle = strstr (haystack.map CChar.lower) (needle.map CChar.lower) := by
  refine ⟨strstr_leftmost haystack needle, rfl, ?_, strcasestr_eq_strstr haystack needle⟩
  intro memory h n atHaystack atNeedle
  obtain ⟨offset, result, first⟩ := memmem_leftmost (holds_append.mp atHaystack).1 (holds_append.mp atNeedle).1
  simp only [stringBytes, List.length_map] at result
  have occurrences : OccursAt (stringBytes needle) (stringBytes haystack) = OccursAt needle haystack :=
    funext fun _ => propext (occursAt_map byte_injective)
  rw [occurrences] at first
  rw [result, first.unique (strstr_leftmost haystack needle)]

theorem searches_leftmost_suffix :
    strstr (cstr "aab") (cstr "ab") = some 1 ∧
      memmem (overlay (fun _ => 0) (stringBytes (cstr "aab") ++ [0])) 0 3 1 2 = some 1 := by
  have found : strstr (cstr "aab") (cstr "ab") = some 1 := by decide
  obtain ⟨_, _, inMemory, _⟩ := searches_leftmost (cstr "aab") (cstr "ab")
  have stored := holds_overlay (fun _ => 0) (stringBytes (cstr "aab") ++ [0])
  refine ⟨found, ?_⟩
  have result := inMemory _ 0 1 stored stored.2
  rwa [found] at result

end CLite
