import CLite.Model.TempNames
import Mathlib.Algebra.Group.Nat.Defs
import Mathlib.Data.List.Nodup

/-! # Names of temporary files

The six characters are the digits of a number below `2 ^ 32` in base 62, so that different numbers give different
names. The number grows by one with each name that is made. A template that does not end in six `X` is left alone, and
so is the counter.
-/

namespace CLite

/-- The template ends in `XXXXXX`. -/
def EndsInXs (t : CString) : Prop := List.replicate 6 (chr 'X') <:+ t

section Digits

variable {n v w : ℕ}

theorem length_tempDigits (n v : ℕ) : (tempDigits n v).length = n := by
  induction n generalizing v with
  | zero => rfl
  | succ n ih => rw [tempDigits, List.length_append, ih, List.length_singleton]

theorem tempChars_codes :
    tempChars.map (·.byte.toNat) = List.range' 65 26 ++ List.range' 97 26 ++ List.range' 48 10 := by
  decide

theorem length_tempChars : tempChars.length = 62 := by
  have lengths := congrArg List.length tempChars_codes
  rwa [List.length_map] at lengths

theorem nodup_tempChars : tempChars.Nodup := by
  apply List.Nodup.of_map (·.byte.toNat)
  -- the three ranges of codes do not meet
  rw [tempChars_codes, List.nodup_append', List.nodup_append']
  refine ⟨⟨List.nodup_range', List.nodup_range', ?_⟩, List.nodup_range', ?_⟩
  · intro code upper lower
    rw [List.mem_range'_1] at upper lower
    omega
  · intro code letter digit
    rw [List.mem_append, List.mem_range'_1, List.mem_range'_1] at letter
    rw [List.mem_range'_1] at digit
    omega

theorem alnum_tempChars : ∀ x ∈ tempChars, isAlnum x = true := by
  intro x member
  have code := List.mem_map_of_mem (f := fun x : CChar => x.byte.toNat) member
  rw [tempChars_codes, List.mem_append, List.mem_append, List.mem_range'_1, List.mem_range'_1, List.mem_range'_1] at code
  rw [isAlnum, decide_eq_true_eq, CChar.plain, BitVec.toInt_eq_toNat_cond, if_pos (by omega)]
  omega

theorem tempChars_get? (v : ℕ) : tempChars[v % 62]? = some (tempChars.getD (v % 62) (chr 'A')) := by
  have small : v % 62 < tempChars.length := by
    rw [length_tempChars]
    omega
  rw [List.getD_eq_getElem?_getD, List.getElem?_eq_getElem small, Option.getD_some]

theorem tempDigits_alnum {x : CChar} (member : x ∈ tempDigits n v) : isAlnum x = true := by
  induction n generalizing v with
  | zero => cases member
  | succ n ih =>
    rw [tempDigits, List.mem_append, List.mem_singleton] at member
    rcases member with earlier | last
    · exact ih earlier
    · rw [last]
      exact alnum_tempChars _ (List.mem_of_getElem? (tempChars_get? v))

/-- Numbers with the same digits are equal. -/
theorem tempDigits_inj (fits : v < 62 ^ n) (fitsOther : w < 62 ^ n) (same : tempDigits n v = tempDigits n w) :
    v = w := by
  induction n generalizing v w with
  | zero => omega
  | succ n ih =>
    rw [tempDigits, tempDigits] at same
    obtain ⟨earlier, last⟩ := List.append_inj' same rfl
    have quotients : v / 62 = w / 62 := by
      apply ih
      · rw [Nat.pow_succ] at fits
        omega
      · rw [Nat.pow_succ] at fitsOther
        omega
      · exact earlier
    have remainders : v % 62 = w % 62 := by
      have small : v % 62 < tempChars.length := by
        rw [length_tempChars]
        omega
      apply (List.getElem?_inj small nodup_tempChars).mp
      rw [tempChars_get?, tempChars_get?, List.head_eq_of_cons_eq last]
    omega

end Digits

section Replace

variable {getpid : ℤ} {counter other : BitVec 32} {t : CString}

theorem mktempReplace_of_ends (ends : EndsInXs t) : mktempReplace getpid counter t =
    (counter + 1, t.take (t.length - 6) ++
      tempDigits 6 (BitVec.ofInt 32 getpid * 2654435761#32 + counter).toNat) := by
  obtain ⟨front, rfl⟩ := ends
  have length : (front ++ List.replicate 6 (chr 'X')).length = front.length + 6 := List.length_append
  have back : (front ++ List.replicate 6 (chr 'X')).drop front.length = List.replicate 6 (chr 'X') := List.drop_left
  rw [mktempReplace, length, if_neg (by omega), Nat.add_sub_cancel, back, if_pos (by decide)]

theorem mktempReplace_of_not_ends (ends : ¬ EndsInXs t) : mktempReplace getpid counter t = (counter, t) := by
  unfold mktempReplace
  split
  · rfl
  · next long =>
    apply if_neg
    intro all
    have xs : t.drop (t.length - 6) = List.replicate 6 (chr 'X') := by
      rw [List.eq_replicate_iff]
      exact ⟨by rw [List.length_drop]; omega, by simpa using all⟩
    rw [EndsInXs, ← xs] at ends
    exact ends (List.drop_suffix ..)

/-- Other values of the counter give other names. -/
theorem mktempReplace_inj (ends : EndsInXs t)
    (same : (mktempReplace getpid counter t).2 = (mktempReplace getpid other t).2) : counter = other := by
  rw [mktempReplace_of_ends ends, mktempReplace_of_ends ends] at same
  have values := tempDigits_inj (by omega) (by omega) (List.append_cancel_left same)
  have sums := BitVec.eq_of_toNat_eq values
  bv_omega

end Replace

section Runs

variable {getpid : ℤ} {counter : BitVec 32} {t : CString} {call : TempCall} {calls : List TempCall}

/-- Each of the three functions leaves what `mktemp_replace` leaves. -/
theorem perform_of_replaced (replaced : call.replaced = some t) : call.perform getpid counter =
    ((mktempReplace getpid counter t).1, some (mktempReplace getpid counter t).2) := by
  cases call with
  | mkstemp openFile template =>
    cases replaced
    rfl
  | mkdtemp mkdir template =>
    obtain ⟨rfl, nonempty⟩ := Option.filter_eq_some_iff.mp replaced
    cases t with
    | nil => simp at nonempty
    | cons x s => rfl
  | mktemp template =>
    cases replaced
    rfl

theorem perform_of_not_replaced (none : call.replaced = none) : (call.perform getpid counter).1 = counter := by
  cases call with
  | mkstemp openFile template =>
    cases none
    rfl
  | mkdtemp mkdir template =>
    match template with
    | .none => rfl
    | some [] => rfl
    | some (x :: s) => simp [TempCall.replaced] at none
  | mktemp template =>
    cases none
    rfl

theorem replacements_cons_none (none : call.replaced = none) :
    replacements getpid counter (call :: calls) = replacements getpid counter calls := by
  simp only [replacements, none, Option.map_none, Option.toList_none, List.nil_append, perform_of_not_replaced none]

theorem replacements_cons_some (replaced : call.replaced = some t) : replacements getpid counter (call :: calls) =
    (t, some (mktempReplace getpid counter t).2) ::
      replacements getpid (mktempReplace getpid counter t).1 calls := by
  simp only [replacements, replaced, Option.map_some, Option.toList_some, List.singleton_append,
    perform_of_replaced replaced]

/-- A name is made from the counter, which has grown by less than the number of calls. -/
theorem exists_counter {n : ℕ} {entry : CString × Option CString}
    (member : entry ∈ (replacements getpid counter calls).take n) (ends : EndsInXs entry.1) :
    ∃ k < n, entry.2 = some (mktempReplace getpid (counter + BitVec.ofNat 32 k) entry.1).2 := by
  induction calls generalizing counter n with
  | nil => simp [replacements] at member
  | cons call calls ih =>
    cases replaced : call.replaced with
    | none =>
      rw [replacements_cons_none replaced] at member
      exact ih member
    | some t =>
      rw [replacements_cons_some replaced] at member
      cases n with
      | zero => cases member
      | succ n =>
        rw [List.take_succ_cons, List.mem_cons] at member
        rcases member with rfl | later
        · exact ⟨0, by omega, by rw [BitVec.add_zero]⟩
        · obtain ⟨k, bound, name⟩ := ih later
          by_cases made : EndsInXs t
          · rw [mktempReplace_of_ends made] at name
            refine ⟨k + 1, by omega, name.trans ?_⟩
            rw [BitVec.ofNat_add, BitVec.add_assoc, BitVec.add_comm (1 : BitVec 32)]
            rfl
          · rw [mktempReplace_of_not_ends made] at name
            exact ⟨k, by omega, name⟩

/-- No two of at most `2 ^ 32` calls make the same name of the same template. -/
theorem pairwise_replacements {n : ℕ} (bound : n ≤ 2 ^ 32) :
    ((replacements getpid counter calls).take n).Pairwise fun first second =>
      first.1 = second.1 → EndsInXs first.1 → first.2 ≠ second.2 := by
  induction calls generalizing counter n with
  | nil => simp [replacements]
  | cons call calls ih =>
    cases replaced : call.replaced with
    | none =>
      rw [replacements_cons_none replaced]
      exact ih bound
    | some t =>
      rw [replacements_cons_some replaced]
      cases n with
      | zero => exact .nil
      | succ n =>
        rw [List.take_succ_cons, List.pairwise_cons]
        refine ⟨?_, ih (by omega)⟩
        rintro ⟨_, name⟩ later rfl ends same
        obtain ⟨k, less, made⟩ := exists_counter later ends
        rw [mktempReplace_of_ends ends] at made
        have repeated := mktempReplace_inj ends (Option.some.inj (same.trans made))
        bv_omega

end Runs

/-- No two of the first `2 ^ 32` names of a template are the same. A name differs from its template in the last six
characters, which are letters and digits. Other templates are left alone, and so is the counter. -/
theorem temp_names_distinct (getpid : ℤ) (mktempCounter : BitVec 32) (calls : List TempCall) :
    (((replacements getpid mktempCounter calls).take (2 ^ 32)).Pairwise fun first second =>
        first.1 = second.1 → EndsInXs first.1 → first.2 ≠ second.2) ∧
      ∀ counter t, (EndsInXs t → ∃ digits, digits.length = 6 ∧ (∀ x ∈ digits, isAlnum x = true) ∧
          mktempReplace getpid counter t = (counter + 1, t.take (t.length - 6) ++ digits)) ∧
        (¬ EndsInXs t → mktempReplace getpid counter t = (counter, t)) := by
  refine ⟨pairwise_replacements (Nat.le_refl _), ?_⟩
  intro counter t
  refine ⟨?_, mktempReplace_of_not_ends⟩
  intro ends
  exact ⟨_, length_tempDigits 6 _, fun x => tempDigits_alnum, mktempReplace_of_ends ends⟩

end CLite
