import CLite.Model.Itoa
import CLite.Proofs.Numerals

/-! # `itoa`

`itoa` writes the digits of a number from the last to the first and then inverts them in place. The text is the
numeral without blanks, prefix and leading zeros, with a sign in base 10 only, so that `strtol` gives the number
back: other bases print a negative number as an unsigned one, and that comes back through the wrapping of `strtol`.
-/

namespace CLite

open ByteMemory

/-- The string stands in memory with its terminator. -/
def HoldsString (memory : Memory) (p : ℕ) (text : CString) : Prop := Holds memory p (text.map CChar.byte ++ [0])

/-- Neither the text nor what follows its sign has a zero in front of other characters. -/
def NoLeadingZero (text : CString) : Prop :=
  ∀ (sign : Sign) (rest : CString), text = sign.text ++ chr '0' :: rest → rest = []

section Digits

variable {base : ℕ}

theorem digitText_itoaDigit : ∀ digit < 36, (digitText false digit).byte = itoaDigit digit := by decide

theorem digitValue_itoaDigit : ∀ digit < 36, digitValue (digitText false digit) = some (digit : ℤ) := by decide

/-- The last digit, and the digits before it. -/
theorem leadDigits_reverse (valid : 2 ≤ base) (uval : ℕ) :
    (leadDigits base uval).reverse =
      uval % base :: if uval / base ≠ 0 then (leadDigits base (uval / base)).reverse else [] := by
  unfold leadDigits
  by_cases zero : uval = 0
  · simp [zero]
  · rw [if_neg zero, List.reverse_reverse, Nat.digits_def' valid (Nat.pos_of_ne_zero zero)]
    split_ifs with last
    · rw [List.reverse_reverse]
    · simp [not_not.mp last]

theorem digitValue_leadDigits (valid : 2 ≤ base) (small : base ≤ 36) (magnitude : ℕ) :
    ∀ digit ∈ leadDigits base magnitude, digitValue (digitText false digit) = some (digit : ℤ) :=
  fun digit member => digitValue_itoaDigit digit ((leadDigits_lt valid digit member).trans_le small)

end Digits

section Loops

variable {memory : Memory} {base : ℕ}

/-- The digit loop stores the digits from the last to the first, and nothing before them. -/
theorem itoaLoop_spec (valid : 2 ≤ base) (memory : Memory) (ptr uval : ℕ) :
    (itoaLoop base valid memory ptr uval).1 = ptr + (leadDigits base uval).length ∧
      Holds (itoaLoop base valid memory ptr uval).2 ptr ((leadDigits base uval).reverse.map itoaDigit) ∧
      ∀ query < ptr, (itoaLoop base valid memory ptr uval).2 query = memory query := by
  rw [← List.length_reverse]
  fun_induction itoaLoop base valid memory ptr uval with
  | case1 memory ptr uval stored more ih =>
    obtain ⟨moved, digits, before⟩ := ih
    rw [leadDigits_reverse valid uval, if_pos more]
    refine ⟨?_, ⟨?_, digits⟩, ?_⟩
    · rw [moved, List.length_cons]
      omega
    · rw [before ptr (Nat.lt_succ_self ptr)]
      exact Function.update_self ..
    · intro query earlier
      rw [before query (by omega)]
      exact Function.update_of_ne (by omega) ..
  | case2 memory ptr uval stored last =>
    rw [leadDigits_reverse valid uval, if_neg last]
    refine ⟨rfl, ⟨Function.update_self .., trivial⟩, ?_⟩
    intro query earlier
    exact Function.update_of_ne (by omega) ..

theorem invertLoop_apply (memory : Memory) (low ptr query : ℕ) :
    invertLoop memory low ptr query =
      if low ≤ query ∧ query ≤ ptr then memory (low + ptr - query) else memory query := by
  fun_induction invertLoop memory low ptr with
  | case1 memory low ptr more tmp ih =>
    rw [ih]
    -- The two ends were exchanged in this round, and the addresses between them by the rounds to come.
    rcases Nat.lt_trichotomy query low with before | rfl | above
    · rw [if_neg (by omega), if_neg (by omega), Function.update_of_ne (by omega), Function.update_of_ne (by omega)]
    · rw [if_neg (by omega), if_pos (by omega), Function.update_of_ne (by omega), Function.update_self,
        Nat.add_sub_cancel_left]
    · rcases Nat.lt_trichotomy query ptr with below | rfl | behind
      · rw [if_pos (by omega), if_pos (by omega), Function.update_of_ne (by omega), Function.update_of_ne (by omega)]
        congr 1
        omega
      · rw [if_neg (by omega), if_pos (by omega), Function.update_self, Nat.add_sub_cancel]
      · rw [if_neg (by omega), if_neg (by omega), Function.update_of_ne (by omega), Function.update_of_ne (by omega)]
  | case2 memory low ptr done =>
    split
    · next within =>
      congr 1
      omega
    · rfl

/-- The second loop leaves the bytes of a range in the opposite order. -/
theorem invertLoop_holds {low : ℕ} {bytes : List Byte} (holds : Holds memory low bytes) (nonempty : bytes ≠ []) :
    Holds (invertLoop memory low (low + bytes.length - 1)) low bytes.reverse := by
  have positive := List.length_pos_of_ne_nil nonempty
  rw [holds_iff] at holds ⊢
  intro i bound
  rw [List.length_reverse] at bound
  rw [List.getElem?_reverse bound, invertLoop_apply, if_pos (by omega), holds _ (by omega)]
  congr 2
  omega

end Loops

section Text

variable {memory : Memory} {base : ℕ}

/-- The numeral that is printed for a sign and a magnitude. -/
def printed (sign : Sign) (base magnitude : ℕ) : Numeral :=
  ⟨[], sign, none, (leadDigits base magnitude).map (digitText false)⟩

theorem printed_text (sign : Sign) (base magnitude : ℕ) :
    (printed sign base magnitude).text = sign.text ++ (leadDigits base magnitude).map (digitText false) := rfl

theorem printed_radix (valid : 2 ≤ base) (sign : Sign) (magnitude : ℕ) :
    (printed sign base magnitude).radix base = base := by
  have positive : base ≠ 0 := by omega
  simp [Numeral.radix, printed, positive]

theorem printed_valid (valid : 2 ≤ base) (small : base ≤ 36) (sign : Sign) (magnitude : ℕ) :
    (printed sign base magnitude).Valid base := by
  refine ⟨nofun, nofun, ?_, ?_⟩
  · simpa [printed] using leadDigits_ne_nil base magnitude
  · rw [printed_radix valid]
    exact isDigit_digitText (digitValue_leadDigits valid small magnitude) (leadDigits_lt valid)

theorem printed_value (valid : 2 ≤ base) (small : base ≤ 36) (sign : Sign) (magnitude : ℕ) :
    (printed sign base magnitude).value base = sign.apply magnitude := by
  have digits : (printed sign base magnitude).digits.map digitNumber = leadDigits base magnitude :=
    digitNumber_digitText (digitValue_leadDigits valid small magnitude)
  rw [Numeral.value, digits, printed_radix valid, ← digitsValue_eq_ofDigits, digitsValue_leadDigits]
  rfl

/-- `strtol` takes the whole text of a numeral. -/
theorem Numeral.Valid.strtol_text {n : Numeral} (valid : n.Valid base) :
    strtol n.text base = (int32 (n.value base), []) := by
  rcases strtol_reads base n.text with ⟨m, other, -, read⟩ | ⟨-, -, bare, -, -, -⟩ | ⟨absent, -, -⟩
  · obtain ⟨text, value⟩ := valid.starts.unique other
    rw [read, ← text, ← value, List.drop_length]
  · exact absurd bare valid.not_barePrefix
  · exact absurd valid.starts (absent n)

theorem printed_digits_head {x : CChar} (valid : 2 ≤ base) (small : base ≤ 36) {magnitude : ℕ}
    (head : x ∈ ((leadDigits base magnitude).map (digitText false)).head?) :
    isSpace x = false ∧ x ≠ chr '-' ∧ x ≠ chr '+' := by
  have digits := (printed_valid valid small .none magnitude).digits x (List.mem_of_mem_head? head)
  exact isDigit_plain digits

/-- A printed numeral has no leading zero. -/
theorem printed_noLeadingZero (valid : 2 ≤ base) (small : base ≤ 36) (sign : Sign) (magnitude : ℕ) :
    NoLeadingZero (printed sign base magnitude).text := by
  intro sign' rest shape
  have plain : ∀ x ∈ (chr '0' :: rest).head?, isSpace x = false ∧ x ≠ chr '-' ∧ x ≠ chr '+' := by
    intro x head
    obtain rfl := Option.some.inj head
    exact ⟨by decide, by decide, by decide⟩
  have blank : ∀ x ∈ ([] : CString), isSpace x = true := nofun
  have digits : ∀ x ∈ ((leadDigits base magnitude).map (digitText false)).head?,
      isSpace x = false ∧ x ≠ chr '-' ∧ x ≠ chr '+' := fun x head => printed_digits_head valid small head
  have read := takeSign_front blank sign digits
  rw [List.nil_append, ← printed_text, shape, ← List.nil_append (sign'.text ++ _), takeSign_front blank sign' plain]
    at read
  have same := (Prod.mk.inj read).2
  have leading := head_digitText (digitValue_leadDigits valid small magnitude) (by rw [← same, List.head?_cons])
  rw [leadDigits, if_pos (leadDigits_head_zero_iff.mp leading)] at same
  exact (List.cons.inj same).2

/-- The two loops leave the digits and the terminator, and nothing before them. -/
theorem itoa_digits (valid : 2 ≤ base) (small : base ≤ 36) (memory : Memory) (low uval : ℕ) {ptr : ℕ}
    {stored : Memory} (loop : itoaLoop base valid memory low uval = (ptr, stored)) :
    HoldsString (invertLoop (Function.update stored ptr 0) low (ptr - 1)) low
        ((leadDigits base uval).map (digitText false)) ∧
      ∀ query < low, invertLoop (Function.update stored ptr 0) low (ptr - 1) query = memory query := by
  obtain ⟨moved, digits, before⟩ := itoaLoop_spec valid memory low uval
  rw [loop] at moved digits before
  have positive := List.length_pos_of_ne_nil (leadDigits_ne_nil base uval)
  have bytes : (((leadDigits base uval).map (digitText false)).map CChar.byte) =
      ((leadDigits base uval).reverse.map itoaDigit).reverse := by
    rw [← List.map_reverse, List.reverse_reverse, List.map_map]
    apply List.map_congr_left
    intro digit member
    exact digitText_itoaDigit digit ((leadDigits_lt valid digit member).trans_le small)
  dsimp only at moved digits before
  refine ⟨?_, ?_⟩
  · rw [HoldsString, bytes, holds_append]
    refine ⟨?_, ?_, trivial⟩
    · have kept : Holds (Function.update stored ptr 0) low ((leadDigits base uval).reverse.map itoaDigit) := by
        apply digits.congr
        intro query _ upper
        rw [List.length_map, List.length_reverse] at upper
        rw [Function.update_of_ne (by omega)]
      have inverted := invertLoop_holds kept (by simpa using leadDigits_ne_nil base uval)
      rwa [List.length_map, List.length_reverse, ← moved] at inverted
    · rw [List.length_reverse, List.length_map, List.length_reverse, ← moved, invertLoop_apply, if_neg (by omega),
        Function.update_self]
  · intro query earlier
    rw [invertLoop_apply, if_neg (by omega), Function.update_of_ne (by omega), before query earlier]

/-- `itoa` returns its buffer with the numeral of the number, which has a sign only if the number is negative and
the base is 10. -/
theorem itoa_text (valid : 2 ≤ base) (small : base ≤ 36) (memory : Memory) (value : BitVec 32) (str : ℕ) :
    (itoa memory value str base).1 = str ∧
      HoldsString (itoa memory value str base).2 str
        (if value.toInt < 0 ∧ base = 10 then printed .minus base (-value).toNat
        else printed .none base value.toNat).text := by
  have accepted : ¬ ((base : ℤ) < 2 ∨ 36 < (base : ℤ)) := by omega
  have ten : (base : ℤ) = 10 ↔ base = 10 := by omega
  simp only [itoa, dif_neg accepted, ten, Int.toNat_natCast]
  refine ⟨trivial, ?_⟩
  split
  · next negative =>
    dsimp only
    obtain ⟨digits, before⟩ := itoa_digits valid small (Function.update memory str (ascii '-')) (str + 1)
      (-value).toNat rfl
    rw [printed_text]
    refine ⟨?_, digits⟩
    rw [before str (Nat.lt_succ_self str), Function.update_self]
    rfl
  · exact (itoa_digits valid small memory str value.toNat rfl).1

end Text

/-- The value of a machine word through the wrapping of `strtol`. -/
theorem int32_toNat (value : BitVec 32) : int32 value.toNat = value.toInt := (BitVec.toInt_eq_toNat_bmod value).symm

theorem int32_neg_toNat (value : BitVec 32) : int32 (-((-value).toNat : ℤ)) = value.toInt := by
  have negated := BitVec.toInt_neg (x := -value)
  rw [BitVec.neg_neg] at negated
  rw [← int32_neg, int32_toNat, negated]
  rfl

/-- `strtol` gives back what `itoa` was given and stops at the terminator. In base 10 the text starts with a minus
exactly if the number is negative, and in no base does it have a leading zero. -/
theorem itoa_strtol_inverse (memory : Memory) (value : BitVec 32) (buf : ℕ) (base : ℤ) (valid : 2 ≤ base)
    (small : base ≤ 36) :
    ∃ text, HoldsString (itoa memory value buf base).2 (itoa memory value buf base).1 text ∧
      strtol text base = (value.toInt, []) ∧
      (base = 10 → (text.head? = some (chr '-') ↔ value.toInt < 0)) ∧ NoLeadingZero text := by
  lift base to ℕ using by omega
  have valid : 2 ≤ base := by omega
  have small : base ≤ 36 := by omega
  obtain ⟨returned, holds⟩ := itoa_text valid small memory value buf
  rw [returned]
  refine ⟨_, holds, ?_⟩
  split
  · next negative =>
    refine ⟨?_, ?_, printed_noLeadingZero valid small _ _⟩
    · rw [(printed_valid valid small _ _).strtol_text, printed_value valid small, Sign.apply, int32_neg_toNat]
    · intro _
      exact iff_of_true rfl negative.1
  · next plain =>
    refine ⟨?_, ?_, printed_noLeadingZero valid small _ _⟩
    · rw [(printed_valid valid small _ _).strtol_text, printed_value valid small]
      exact congrArg (·, []) (int32_toNat value)
    · intro ten
      refine iff_of_false ?_ ?_
      · intro head
        exact (printed_digits_head valid small head).2.1 rfl
      · intro negative
        exact plain ⟨negative, by exact_mod_cast ten⟩

/-- The least `int` in base 10, where its magnitude is no `int`. -/
theorem itoa_strtol_inverse_min :
    ∃ text, HoldsString (itoa 0 (BitVec.intMin 32) 64 10).2 (itoa 0 (BitVec.intMin 32) 64 10).1 text ∧
      strtol text 10 = ((BitVec.intMin 32).toInt, []) ∧
      ((10 : ℤ) = 10 → (text.head? = some (chr '-') ↔ (BitVec.intMin 32).toInt < 0)) ∧ NoLeadingZero text :=
  itoa_strtol_inverse 0 (BitVec.intMin 32) 64 10 (by decide) (by decide)

end CLite
