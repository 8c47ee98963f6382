import CLite.Model.Strtod
import CLite.Proofs.Numerals
import CLite.Spec.Decimals

/-! # Where `strtod` ends

`strtod` walks past blanks, a sign, digits, a point and more digits, and stores the place where it stops. Behind a
decimal number that is the end of the longest one. Where there is no number the start of the string should be
stored instead, but the blanks, the sign and the point remain skipped.
-/

namespace CLite

open LongestPrefix

section Loops

variable {δ : Type*} (double : DoubleOps δ)

theorem isdigit_eq (c : CChar) : isdigit c = IsDigit 10 c := by
  have bound := c.byte.isLt
  have value : c.plain = if 2 * c.byte.toNat < 2 ^ 8 then (c.byte.toNat : ℤ) else c.byte.toNat - (2 ^ 8 : ℕ) :=
    BitVec.toInt_eq_toNat_cond c.byte
  rw [Bool.eq_iff_iff]
  unfold isdigit IsDigit digitValue CChar.unsigned
  split_ifs at value ⊢ <;>
    simp only [Option.any_some, Option.any_none, decide_eq_true_eq, Bool.false_eq_true, iff_false] <;> omega

theorem strtodWhole_end (val : δ) (s : CString) : (strtodWhole double val s).2 = s.dropWhile (IsDigit 10) := by
  induction s generalizing val with
  | nil => rfl
  | cons c s ih =>
    rw [strtodWhole, List.dropWhile_cons, isdigit_eq]
    split_ifs
    · exact ih _
    · rfl

theorem strtodFraction_end (val frac : δ) (s : CString) :
    (strtodFraction double val frac s).2 = s.dropWhile (IsDigit 10) := by
  induction s generalizing val frac with
  | nil => rfl
  | cons c s ih =>
    rw [strtodFraction, List.dropWhile_cons, isdigit_eq]
    split_ifs
    · exact ih _ _
    · rfl

end Loops

/-- The parts of the string that `strtod` walks past, with no digit required among them, and what is left. -/
structure Walked (n : Decimal) (nptr rest : CString) : Prop where
  shape : nptr = n.text ++ rest
  blanks : ∀ x ∈ n.blanks, isSpace x = true
  whole : ∀ x ∈ n.whole, IsDigit 10 x = true
  fraction : ∀ digits ∈ n.fraction, ∀ x ∈ digits, IsDigit 10 x = true
  front : takeSign (nptr.dropWhile isSpace) = (decide (n.sign = .minus), n.core ++ rest)
  stop : ∀ x ∈ rest.head?, IsDigit 10 x = false
  point : n.fraction = none → rest.head? ≠ some (chr '.')

/-- A string splits at its first character that is no digit. -/
theorem exists_digits (s : CString) :
    ∃ digits, s = digits ++ s.dropWhile (IsDigit 10) ∧ (∀ x ∈ digits, IsDigit 10 x = true) ∧
      ∀ x ∈ (s.dropWhile (IsDigit 10)).head?, IsDigit 10 x = false := by
  refine ⟨s.takeWhile (IsDigit 10), List.takeWhile_append_dropWhile.symm, fun _ => List.mem_takeWhile_imp, ?_⟩
  intro x head
  have stops := List.head?_dropWhile_not (IsDigit 10) s
  rw [Option.mem_def.mp head] at stops
  simpa using stops

/-- `strtod` stores the place behind what it has walked past. -/
theorem strtod_walked {δ : Type*} (double : DoubleOps δ) (nptr : CString) :
    ∃ n, Walked n nptr (strtod double nptr).2 := by
  obtain ⟨blanks, sign, body, shape, spaces, front⟩ := exists_front nptr
  obtain ⟨whole, split, digits, stop⟩ := exists_digits body
  rw [strtod, front]
  simp only [strtodWhole_end]
  generalize body.dropWhile (IsDigit 10) = behind at split stop
  by_cases point : behind.head? = some (chr '.')
  · -- behind the point the digits of the fraction are skipped
    obtain ⟨fraction, split', digits', stop'⟩ := exists_digits behind.tail
    have cons : behind = chr '.' :: behind.tail := (List.cons_head?_tail point).symm
    rw [if_pos point, strtodFraction_end]
    generalize behind.tail.dropWhile (IsDigit 10) = rest at split' stop'
    have core : body = (Decimal.mk blanks sign whole (some fraction)).core ++ rest := by
      rw [split, cons, split', Decimal.core, Option.elim_some, List.append_assoc, List.cons_append]
    refine ⟨⟨blanks, sign, whole, some fraction⟩, ?_, spaces, digits, ?_, ?_, stop', ?_⟩
    · rw [shape, core, Decimal.text, List.append_assoc, List.append_assoc]
    · rintro _ ⟨⟩
      exact digits'
    · rw [front, core]
    · intro absent
      cases absent
  · rw [if_neg point]
    have core : body = (Decimal.mk blanks sign whole none).core ++ behind := by
      rw [split, Decimal.core, Option.elim_none, List.append_nil]
    refine ⟨⟨blanks, sign, whole, none⟩, ?_, spaces, digits, ?_, ?_, stop, fun _ => point⟩
    · rw [shape, core, Decimal.text, List.append_assoc, List.append_assoc]
    · rintro _ ⟨⟩
    · rw [front, core]

section Longest

variable {n : Decimal} {nptr rest : CString}

theorem Decimal.Valid.core_ne_nil (valid : n.Valid) : n.core ≠ [] := by
  intro empty
  obtain ⟨noWhole, noFraction⟩ := List.append_eq_nil_iff.mp empty
  rcases valid.nonempty with whole | fraction
  · exact whole noWhole
  · cases point : n.fraction with
    | none => exact fraction (by rw [point]; rfl)
    | some digits => simp [point] at noFraction

/-- A decimal number starts, behind blanks and sign, with a digit or with the point. -/
theorem Decimal.Valid.core_head (valid : n.Valid) :
    ∀ x ∈ n.core.head?, isSpace x = false ∧ x ≠ chr '-' ∧ x ≠ chr '+' := by
  intro x head
  cases digits : n.whole with
  | nil =>
    cases point : n.fraction with
    | none => simp [Decimal.core, digits, point] at head
    | some fraction =>
      obtain rfl : chr '.' = x := by simpa [Decimal.core, digits, point] using head
      decide
  | cons first whole =>
    obtain rfl : first = x := by simpa [Decimal.core, digits] using head
    exact isDigit_plain (valid.whole first (by rw [digits]; exact List.mem_cons_self ..))

/-- The core that was walked past is the longest one that the body starts with. -/
theorem Walked.core_longest (walked : Walked n nptr rest) {m : Decimal} (valid : m.Valid)
    (within : m.core <+: n.core ++ rest) : m.core.length ≤ n.core.length := by
  have tail_stop : ∀ x ∈ (n.fraction.elim [] (chr '.' :: ·) ++ rest).head?, IsDigit 10 x = false := by
    cases point : n.fraction with
    | none => exact walked.stop
    | some fraction => rintro _ ⟨⟩; decide
  rw [Decimal.core, Decimal.core, List.append_assoc] at within
  rw [Decimal.core, Decimal.core, List.length_append, List.length_append]
  cases pointM : m.fraction with
  | none =>
    rw [pointM, Option.elim_none, List.append_nil, ← prefix_takeWhile_iff valid.whole,
      takeWhile_append_stop walked.whole tail_stop] at within
    have shorter := within.length_le
    rw [Option.elim_none, List.length_nil]
    omega
  | some f =>
    -- both numbers have a point, behind the same digits
    obtain ⟨r, same⟩ := within
    rw [pointM, Option.elim_some, List.append_assoc, List.cons_append] at same
    have stopM : ∀ x ∈ (chr '.' :: (f ++ r)).head?, IsDigit 10 x = false := by
      rintro _ ⟨⟩
      decide
    have wholes := congrArg (List.takeWhile (IsDigit 10)) same
    have tails := congrArg (List.dropWhile (IsDigit 10)) same
    rw [takeWhile_append_stop valid.whole stopM, takeWhile_append_stop walked.whole tail_stop] at wholes
    rw [dropWhile_append_stop valid.whole stopM, dropWhile_append_stop walked.whole tail_stop] at tails
    cases point : n.fraction with
    | none =>
      rw [point, Option.elim_none, List.nil_append] at tails
      exact absurd (by rw [← tails, List.head?_cons]) (walked.point point)
    | some g =>
      rw [point, Option.elim_some, List.cons_append] at tails
      have fractions : f <+: g ++ rest := ⟨r, (List.cons.inj tails).2⟩
      rw [← prefix_takeWhile_iff (valid.fraction f pointM),
        takeWhile_append_stop (walked.fraction g point) walked.stop]
        at fractions
      have shorter := fractions.length_le
      rw [Option.elim_some, Option.elim_some, List.length_cons, List.length_cons, wholes]
      omega

theorem Walked.longest (walked : Walked n nptr rest) (valid : n.Valid) : Longest IsDecimalText nptr n.text := by
  refine ⟨⟨n, valid, rfl⟩, ⟨rest, walked.shape.symm⟩, ?_⟩
  rintro _ ⟨m, validM, rfl⟩ within
  have shape : nptr = n.blanks ++ (n.sign.text ++ (n.core ++ rest)) := by
    rw [walked.shape, Decimal.text, List.append_assoc, List.append_assoc]
  obtain ⟨core, length⟩ := core_of_front validM.blanks validM.core_ne_nil validM.core_head within walked.front shape
  have shorter := walked.core_longest validM core
  rw [Decimal.text, length, Decimal.text, List.length_append, List.length_append]
  omega

/-- Without a digit there is at most a point behind blanks and sign. -/
theorem Walked.core_of_not_valid (walked : Walked n nptr rest) (invalid : ¬ n.Valid) :
    n.core = [] ∧ rest.head? ≠ some (chr '.') ∨ n.core = [chr '.'] := by
  have noDigit : ¬ (n.whole ≠ [] ∨ n.fraction.getD [] ≠ []) :=
    fun nonempty => invalid ⟨walked.blanks, walked.whole, walked.fraction, nonempty⟩
  obtain ⟨noWhole, noFraction⟩ := not_or.mp noDigit
  rw [not_not] at noWhole noFraction
  rw [Decimal.core, noWhole, List.nil_append]
  cases point : n.fraction with
  | none => exact .inl ⟨rfl, walked.point point⟩
  | some fraction =>
    rw [point, Option.getD_some] at noFraction
    rw [noFraction]
    exact .inr rfl

/-- There is a digit in what was walked past exactly if the string starts with a decimal number. -/
theorem Walked.valid_iff (walked : Walked n nptr rest) : n.Valid ↔ StartsDecimal nptr := by
  constructor
  · intro valid
    cases digits : n.whole with
    | cons digit whole =>
      refine ⟨n.blanks, n.sign, [], digit, whole ++ (n.fraction.elim [] (chr '.' :: ·) ++ rest), ?_, walked.blanks,
        .inl rfl, valid.whole digit (by rw [digits]; exact List.mem_cons_self ..)⟩
      rw [walked.shape, Decimal.text, Decimal.core, digits]
      simp only [List.append_assoc, List.nil_append, List.cons_append]
    | nil =>
      have someDigit := valid.nonempty.resolve_left (not_not.mpr digits)
      cases point : n.fraction with
      | none => exact absurd (by rw [point]; rfl) someDigit
      | some fraction =>
        rw [point, Option.getD_some] at someDigit
        obtain ⟨digit, more, rfl⟩ := List.exists_cons_of_ne_nil someDigit
        refine ⟨n.blanks, n.sign, [chr '.'], digit, more ++ rest, ?_, walked.blanks, .inr rfl,
          valid.fraction _ point digit (List.mem_cons_self ..)⟩
        rw [walked.shape, Decimal.text, Decimal.core, digits, point]
        simp only [Option.elim_some, List.append_assoc, List.nil_append, List.cons_append]
  · rintro ⟨blanks, sign, point, digit, more, shape, spaces, form, isDigit⟩
    by_contra invalid
    have plain : ∀ x ∈ (point ++ digit :: more).head?, isSpace x = false ∧ x ≠ chr '-' ∧ x ≠ chr '+' := by
      rcases form with rfl | rfl
      · rintro _ ⟨⟩
        exact isDigit_plain isDigit
      · rintro _ ⟨⟩
        decide
    have front := takeSign_front spaces sign plain
    rw [← shape, walked.front] at front
    have body : n.core ++ rest = point ++ digit :: more := (Prod.mk.inj front).2
    rcases walked.core_of_not_valid invalid with ⟨empty, noPoint⟩ | single
    · rw [empty, List.nil_append] at body
      rcases form with rfl | rfl
      · have stops := walked.stop digit (by rw [body]; rfl)
        rw [isDigit] at stops
        cases stops
      · exact noPoint (by rw [body]; rfl)
    · rw [single] at body
      rcases form with rfl | rfl
      · obtain ⟨rfl, -⟩ := List.cons.inj body
        exact absurd isDigit (by decide)
      · have behind : rest = digit :: more := (List.cons.inj body).2
        have stops := walked.stop digit (by rw [behind]; rfl)
        rw [isDigit] at stops
        cases stops

theorem takeSign_length (s : CString) : (takeSign s).2.length ≤ s.length := by
  cases s with
  | nil => exact le_rfl
  | cons x s =>
    rw [takeSign]
    split_ifs
    · exact Nat.le_succ _
    · exact Nat.le_succ _
    · exact le_rfl

/-- A string from which neither blanks nor a sign are taken starts with none of them. -/
theorem head_of_takeSign_eq_self (unmoved : (takeSign (nptr.dropWhile isSpace)).2 = nptr) :
    ∀ x ∈ nptr.head?, isSpace x = false ∧ x ≠ chr '-' ∧ x ≠ chr '+' := by
  intro x head
  obtain ⟨s, rfl⟩ : ∃ s, nptr = x :: s := ⟨_, (List.cons_head?_tail head).symm⟩
  have notSpace : isSpace x = false := by
    -- a blank would have been dropped, so the string would be shorter
    by_contra blank
    rw [List.dropWhile_cons_of_pos (by simpa using blank)] at unmoved
    have shorter := takeSign_length (s.dropWhile isSpace)
    have dropped := (List.dropWhile_suffix (l := s) isSpace).length_le
    rw [unmoved, List.length_cons] at shorter
    omega
  rw [List.dropWhile_cons_of_neg (by simp [notSpace])] at unmoved
  refine ⟨notSpace, ?_, ?_⟩
  · rintro rfl
    have shorter : chr '-' :: s = s := unmoved.symm
    exact List.cons_ne_self _ _ shorter
  · rintro rfl
    have shorter : chr '+' :: s = s := unmoved.symm
    exact List.cons_ne_self _ _ shorter

/-- What is skipped where there is no number shows in the first character. -/
theorem Walked.text_eq_nil (walked : Walked n nptr rest) (invalid : ¬ n.Valid) (noFront : NoFront nptr) :
    n.text = [] := by
  by_contra nonempty
  have heads : nptr.head? = n.text.head? := by rw [walked.shape, List.head?_append_of_ne_nil _ nonempty]
  rw [NoFront, heads, Decimal.text] at noFront
  cases blanks : n.blanks with
  | cons x more =>
    rw [blanks] at noFront
    have blank := walked.blanks x (by rw [blanks]; exact List.mem_cons_self ..)
    rw [(noFront x rfl).1] at blank
    cases blank
  | nil =>
    rw [blanks, List.nil_append] at noFront
    rw [Decimal.text, blanks, List.nil_append] at nonempty
    cases sign : n.sign with
    | minus => exact (noFront (chr '-') (by rw [sign]; rfl)).2.1 rfl
    | plus => exact (noFront (chr '+') (by rw [sign]; rfl)).2.2.1 rfl
    | none =>
      rw [sign] at noFront nonempty
      rcases walked.core_of_not_valid invalid with ⟨noCore, -⟩ | single
      · exact nonempty noCore
      · exact (noFront (chr '.') (by rw [single]; rfl)).2.2.2 rfl

/-- Where there is no number, nothing is skipped exactly if the string starts with nothing that could be part of
one. -/
theorem Walked.rest_eq_iff (walked : Walked n nptr rest) (invalid : ¬ n.Valid) : rest = nptr ↔ NoFront nptr := by
  constructor
  · intro same
    have empty : n.text = [] := List.append_left_eq_self.mp (walked.shape.symm.trans same.symm)
    obtain ⟨-, -, noCore⟩ : n.blanks = [] ∧ n.sign.text = [] ∧ n.core = [] := by
      simpa only [Decimal.text, List.append_eq_nil_iff] using empty
    have front := congrArg Prod.snd walked.front
    rw [noCore, List.nil_append, same] at front
    intro x head
    obtain ⟨notSpace, notMinus, notPlus⟩ := head_of_takeSign_eq_self front x head
    refine ⟨notSpace, notMinus, notPlus, ?_⟩
    rintro rfl
    rcases walked.core_of_not_valid invalid with ⟨-, noPoint⟩ | single
    · exact noPoint (same ▸ head)
    · rw [noCore] at single
      cases single
  · intro noFront
    rw [walked.shape, walked.text_eq_nil invalid noFront, List.nil_append]

end Longest

/-- `*endptr` is the start of the string exactly if no decimal number stands there; else it is the place behind the
longest one. -/
def ReportsEnd (nptr endptr : CString) : Prop :=
  (endptr = nptr ↔ ¬ StartsDecimal nptr) ∧
    (StartsDecimal nptr → ∃ p, Longest IsDecimalText nptr p ∧ nptr = p ++ endptr)

/-- `strtod` reports where the conversion ended exactly if there is a number or if the string starts with nothing
that could be part of one. -/
theorem strtod_end_iff {δ : Type*} (double : DoubleOps δ) (nptr : CString) :
    ReportsEnd nptr (strtod double nptr).2 ↔ StartsDecimal nptr ∨ NoFront nptr := by
  obtain ⟨n, walked⟩ := strtod_walked double nptr
  by_cases number : StartsDecimal nptr
  · have valid := walked.valid_iff.mpr number
    refine iff_of_true ⟨iff_of_false ?_ (not_not.mpr number), fun _ => ⟨n.text, walked.longest valid, walked.shape⟩⟩
      (.inl number)
    intro same
    have lengths := congrArg List.length walked.shape
    have positive := List.length_pos_of_ne_nil valid.core_ne_nil
    rw [same, List.length_append, Decimal.text, List.length_append, List.length_append] at lengths
    omega
  · have invalid := mt walked.valid_iff.mp number
    rw [ReportsEnd, walked.rest_eq_iff invalid]
    simp only [number, not_false_eq_true, iff_true, false_imp_iff, and_true, false_or]

/-- A sign alone is skipped although no number follows. -/
theorem strtod_skips_sign :
    ¬ StartsDecimal (cstr "-x") ∧ ∀ (δ : Type) (double : DoubleOps δ),
      (strtod double (cstr "-x")).2 = cstr "x" ∧ ¬ ReportsEnd (cstr "-x") (strtod double (cstr "-x")).2 := by
  have walked : Walked ⟨[], .minus, [], none⟩ (cstr "-x") (cstr "x") :=
    ⟨by decide, by decide, by decide, by decide, by decide, by decide, by decide⟩
  have noNumber : ¬ StartsDecimal (cstr "-x") := by
    rw [← walked.valid_iff]
    rintro ⟨-, -, -, nonempty⟩
    exact absurd nonempty (by decide)
  refine ⟨noNumber, ?_⟩
  intro δ double
  have ended : (strtod double (cstr "-x")).2 = cstr "x" := rfl
  refine ⟨ended, ?_⟩
  rw [ended]
  rintro ⟨failure, -⟩
  exact absurd (failure.mpr noNumber) (by decide)

end CLite
