import Mathlib.Tactic.IntervalCases
import CLite.Proofs.Numerals
import CLite.Spec.AddressNotation

/-! # What `inet_aton` reads

The parser splits a string into the parts that it is made of and evaluates each modulo 2 to the 32. It counts the
digits behind a leading zero only, so that a lone zero has none.
-/

namespace CLite

open LongestPrefix

section Digits

theorem isDecimal_eq (x : CChar) : isDecimal x = IsDigit 10 x := by
  rw [Bool.eq_iff_iff]
  unfold isDecimal IsDigit digitValue
  split_ifs <;> simp only [Option.any_some, Option.any_none, decide_eq_true_eq, Bool.false_eq_true, iff_false] <;>
    omega

/-- The letters among the hexadecimal digits. -/
theorem isHexLetter_eq {x : CChar} (other : isDecimal x = false) : isHexLetter x = IsDigit 16 x := by
  rw [Bool.eq_iff_iff]
  unfold isDecimal at other
  rw [decide_eq_false_iff_not] at other
  unfold isHexLetter IsDigit digitValue
  rw [if_neg other]
  split_ifs <;> simp only [Option.any_some, Option.any_none, decide_eq_true_eq, Bool.false_eq_true, iff_false] <;>
    omega

theorem decimal_number {x : CChar} (digit : isDecimal x = true) :
    BitVec.ofInt 32 (x.plain - 48) = BitVec.ofNat 32 (digitNumber x) := by
  have range : 48 ≤ x.plain ∧ x.plain ≤ 57 := by simpa [isDecimal] using digit
  have number : (digitNumber x : ℤ) = x.plain - 48 := by
    rw [digitNumber, digitValue, if_pos range, Option.getD_some]
    omega
  rw [← number, BitVec.ofInt_natCast]

theorem letter_number {x : CChar} (letter : isHexLetter x = true) :
    BitVec.ofInt 32 (toUpper x.plain + 10 - 65) = BitVec.ofNat 32 (digitNumber x) := by
  have range : 97 ≤ x.plain ∧ x.plain ≤ 102 ∨ 65 ≤ x.plain ∧ x.plain ≤ 70 := by
    simpa [isHexLetter] using letter
  have number : (digitNumber x : ℤ) = toUpper x.plain + 10 - 65 := by
    unfold digitNumber digitValue toUpper
    split_ifs <;> simp only [Option.getD_some, Option.getD_none] <;> omega
  rw [← number, BitVec.ofInt_natCast]

/-- A shift and a disjunction with a number below it add up. -/
theorem shiftLeft_or {a b shift : ℕ} (below : b < 2 ^ shift) :
    (BitVec.ofNat 32 a <<< shift) ||| BitVec.ofNat 32 b = BitVec.ofNat 32 (a * 2 ^ shift + b) := by
  have apart : (BitVec.ofNat 32 a <<< shift) &&& BitVec.ofNat 32 b = 0#32 := by
    ext i bound
    rcases lt_or_ge i shift with low | high
    · simp [low]
    · have clear : b.testBit i = false :=
        Nat.testBit_lt_two_pow (below.trans_le (Nat.pow_le_pow_right (by decide) high))
      simp [← BitVec.getLsbD_eq_getElem, BitVec.getLsbD_ofNat, clear]
  have power : BitVec.twoPow 32 shift = BitVec.ofNat 32 (2 ^ shift) :=
    BitVec.eq_of_toNat_eq (by simp [BitVec.toNat_twoPow])
  rw [← BitVec.add_eq_or_of_and_eq_zero _ _ apart, BitVec.ofNat_add, BitVec.ofNat_mul, BitVec.shiftLeft_eq_mul_twoPow,
    power]

end Digits

section Parts

/-- The digits that the loop takes in a base. -/
def admitted (base : ℕ) : ℕ := if base = 16 then 16 else 10

/-- The loop tests for a decimal digit first and, in base 16, for a letter then. -/
theorem isDigit_admitted_iff {base : ℕ} (known : base = 8 ∨ base = 10 ∨ base = 16) {x : CChar} :
    IsDigit (admitted base) x = true ↔ isDecimal x = true ∨ base = 16 ∧ isHexLetter x = true := by
  have larger : isDecimal x = true → IsDigit 16 x = true := by
    rw [isDecimal_eq, isDigit_iff, isDigit_iff]
    rintro ⟨read, below⟩
    exact ⟨read, by omega⟩
  rcases known with rfl | rfl | rfl
  · simp [admitted, isDecimal_eq]
  · simp [admitted, isDecimal_eq]
  · rw [admitted, if_pos rfl]
    cases decimal : isDecimal x with
    | true => simp [larger decimal]
    | false => simp [isHexLetter_eq decimal]

/-- The digit loop evaluates the digits that it takes modulo 2 to the 32. -/
theorem atonDigits_eq {base : ℕ} (known : base = 8 ∨ base = 10 ∨ base = 16) (val n : ℕ) (cp : CString) :
    atonDigits (BitVec.ofNat 32 base) (BitVec.ofNat 32 val) n cp =
      (BitVec.ofNat 32 (((cp.takeWhile (IsDigit (admitted base))).map digitNumber).foldl
        (fun value digit => value * base + digit) val),
        n + (cp.takeWhile (IsDigit (admitted base))).length, cp.dropWhile (IsDigit (admitted base))) := by
  induction cp generalizing val n with
  | nil => rfl
  | cons x cp ih =>
    have word : BitVec.ofNat 32 base = 16 ↔ base = 16 := by rcases known with rfl | rfl | rfl <;> decide
    cases digit : IsDigit (admitted base) x with
    | true =>
      rw [List.takeWhile_cons_of_pos digit, List.dropWhile_cons_of_pos digit, List.map_cons, List.foldl_cons,
        List.length_cons, Nat.add_comm _ 1, ← Nat.add_assoc, atonDigits]
      rcases (isDigit_admitted_iff known).mp digit with decimal | ⟨rfl, letter⟩
      · have step : BitVec.ofNat 32 val * BitVec.ofNat 32 base + BitVec.ofNat 32 (digitNumber x) =
            BitVec.ofNat 32 (val * base + digitNumber x) := by rw [BitVec.ofNat_add, BitVec.ofNat_mul]
        rw [if_pos decimal, decimal_number decimal, step, ih]
      · have other : ¬ isDecimal x = true := by
          simp only [isDecimal, isHexLetter, decide_eq_true_eq] at letter ⊢
          omega
        have below : digitNumber x < 2 ^ 4 := (isDigit_iff.mp digit).2
        rw [if_neg other, if_pos ⟨rfl, letter⟩, letter_number letter, shiftLeft_or below]
        exact ih ..
    | false =>
      have neither : ¬ (isDecimal x = true ∨ base = 16 ∧ isHexLetter x = true) := by
        rw [← isDigit_admitted_iff known, digit]
        simp
      rw [not_or] at neither
      rw [List.takeWhile_cons_of_neg (by simp [digit]), List.dropWhile_cons_of_neg (by simp [digit]), atonDigits,
        if_neg neither.1, if_neg fun both => neither.2 ⟨word.mp both.1, both.2⟩]
      rfl

variable {part : AddressPart} {cp tail rest : CString}

theorem digitsValue_value (part : AddressPart) :
    (part.digits.map digitNumber).foldl (fun value digit => value * part.base + digit) 0 = part.value := by
  rw [AddressPart.value, ← digitsValue_eq_ofDigits]
  rfl

theorem base_known (part : AddressPart) : part.base = 8 ∨ part.base = 10 ∨ part.base = 16 := by
  cases part with
  | decimal => exact .inr (.inl rfl)
  | octal => exact .inl rfl
  | hex => exact .inr (.inr rfl)

/-- The digit loop on a part that has all the digits it takes. -/
theorem atonDigits_part (part : AddressPart) (taken : cp.takeWhile (IsDigit (admitted part.base)) = part.digits)
    (left : cp.dropWhile (IsDigit (admitted part.base)) = rest) :
    atonDigits (BitVec.ofNat 32 part.base) 0 0 cp = (BitVec.ofNat 32 part.value, part.digits.length, rest) := by
  have read := atonDigits_eq (base_known part) 0 0 cp
  rw [taken, left, digitsValue_value, Nat.zero_add] at read
  exact read

theorem atonPart_hex {letter : CChar} (hex : letter = chr 'x' ∨ letter = chr 'X') (cp : CString) :
    atonPart (chr '0' :: letter :: cp) = atonDigits 16 0 0 cp := by
  rw [atonPart, if_pos rfl]
  exact if_pos (hex.imp (congrArg some) (congrArg some))

theorem atonPart_octal (plain : ∀ x ∈ cp.head?, x ≠ chr 'x' ∧ x ≠ chr 'X') :
    atonPart (chr '0' :: cp) = atonDigits 8 0 0 cp := by
  rw [atonPart, if_pos rfl, if_neg]
  rintro (lower | upper)
  · exact (plain _ lower).1 rfl
  · exact (plain _ upper).2 rfl

theorem atonPart_nonzero (first : cp.head? ≠ some (chr '0')) : atonPart cp = atonDigits 10 0 0 cp := by
  cases cp with
  | nil => rfl
  | cons x cp => rw [atonPart, if_neg fun zero => first (congrArg some zero)]

theorem decimal_ne_prefix {x : CChar} (digit : IsDigit 10 x = true) : x ≠ chr 'x' ∧ x ≠ chr 'X' := by
  constructor <;> rintro rfl <;> exact absurd digit (by decide)

/-- A part ends where no digit follows and no letter that would make a zero a prefix. -/
def EndsDigits (tail : CString) : Prop := ∀ x ∈ tail.head?, IsDigit 16 x = false ∧ x ≠ chr 'x' ∧ x ≠ chr 'X'

theorem isDigit_mono {base larger : ℕ} (le : base ≤ larger) {x : CChar} (digit : IsDigit base x = true) :
    IsDigit larger x = true := by
  obtain ⟨read, below⟩ := isDigit_iff.mp digit
  exact isDigit_iff.mpr ⟨read, below.trans_le le⟩

theorem takeWhile_digits {base : ℕ} (le : base ≤ 16) {digits : CString} (all : ∀ x ∈ digits, IsDigit base x = true)
    (ended : EndsDigits tail) :
    (digits ++ tail).takeWhile (IsDigit base) = digits ∧ (digits ++ tail).dropWhile (IsDigit base) = tail := by
  have stop : ∀ x ∈ tail.head?, IsDigit base x = false := by
    intro x first
    by_contra digit
    have larger := isDigit_mono le (Bool.not_eq_false _ ▸ digit)
    rw [(ended x first).1] at larger
    cases larger
  exact ⟨takeWhile_append_stop all stop, dropWhile_append_stop all stop⟩

/-- The parser takes a part whole. -/
theorem atonPart_text (loose : part.Loose) (ended : EndsDigits tail) :
    atonPart (part.text ++ tail) = (BitVec.ofNat 32 part.value, part.digits.length, tail) := by
  cases part with
  | decimal digits =>
    obtain ⟨nonempty, first, all⟩ := loose
    obtain ⟨taken, left⟩ := takeWhile_digits (by decide) all ended
    have head : (digits ++ tail).head? ≠ some (chr '0') := by
      rwa [List.head?_append_of_ne_nil _ nonempty]
    rw [AddressPart.text, atonPart_nonzero head]
    exact atonDigits_part (.decimal digits) taken left
  | octal digits =>
    obtain ⟨taken, left⟩ := takeWhile_digits (by decide) loose ended
    have plain : ∀ x ∈ (digits ++ tail).head?, x ≠ chr 'x' ∧ x ≠ chr 'X' := by
      intro x head
      cases digits with
      | nil => exact (ended x head).2
      | cons y digits =>
        cases head
        exact decimal_ne_prefix (loose x (List.mem_cons_self ..))
    rw [AddressPart.text, List.cons_append, atonPart_octal plain]
    exact atonDigits_part (.octal digits) taken left
  | hex letter digits =>
    obtain ⟨hex, nonempty, all⟩ := loose
    obtain ⟨taken, left⟩ := takeWhile_digits (by decide) all ended
    rw [AddressPart.text, List.cons_append, List.cons_append, atonPart_hex hex]
    exact atonDigits_part (.hex letter digits) taken left

theorem counted_part (part : AddressPart) {val : BitVec 32} {n : ℕ}
    (taken : cp.takeWhile (IsDigit (admitted part.base)) = part.digits)
    (read : atonDigits (BitVec.ofNat 32 part.base) 0 0 cp = (val, n, rest)) (counted : n ≠ 0) :
    part.digits ≠ [] ∧ cp = part.digits ++ rest ∧ val = BitVec.ofNat 32 part.value := by
  rw [atonDigits_part part taken rfl] at read
  obtain ⟨value, length, left⟩ : _ ∧ _ ∧ _ := by simpa only [Prod.mk.injEq] using read
  refine ⟨?_, ?_, value.symm⟩
  · intro empty
    rw [empty] at length
    exact counted length.symm
  · rw [← taken, ← left, List.takeWhile_append_dropWhile]

/-- The parser counts digits only if the string starts with a part. -/
theorem atonPart_sound {val : BitVec 32} {n : ℕ} (read : atonPart cp = (val, n, rest)) (counted : n ≠ 0) :
    ∃ part : AddressPart, part.Loose ∧ part.digits ≠ [] ∧ cp = part.text ++ rest ∧
      val = BitVec.ofNat 32 part.value := by
  have all (base : ℕ) (s : CString) : ∀ x ∈ s.takeWhile (IsDigit base), IsDigit base x = true :=
    fun x member => List.mem_takeWhile_imp member
  by_cases zero : cp.head? = some (chr '0')
  · obtain ⟨cp, rfl⟩ := List.head?_eq_some_iff.mp zero
    by_cases plain : ∀ x ∈ cp.head?, x ≠ chr 'x' ∧ x ≠ chr 'X'
    · rw [atonPart_octal plain] at read
      obtain ⟨nonempty, shape, value⟩ := counted_part (.octal (cp.takeWhile (IsDigit 10))) rfl read counted
      exact ⟨.octal (cp.takeWhile (IsDigit 10)), all 10 cp, nonempty, congrArg (chr '0' :: ·) shape, value⟩
    · obtain ⟨letter, cp, rfl, hex⟩ : ∃ letter more, cp = letter :: more ∧ (letter = chr 'x' ∨ letter = chr 'X') := by
        cases cp with
        | nil => simp at plain
        | cons letter more =>
          refine ⟨letter, more, rfl, ?_⟩
          by_contra other
          rw [not_or] at other
          exact plain (by simpa using other)
      rw [atonPart_hex hex] at read
      obtain ⟨nonempty, shape, value⟩ := counted_part (.hex letter (cp.takeWhile (IsDigit 16))) rfl read counted
      exact ⟨.hex letter (cp.takeWhile (IsDigit 16)), ⟨hex, nonempty, all 16 cp⟩, nonempty,
        congrArg (chr '0' :: letter :: ·) shape, value⟩
  · rw [atonPart_nonzero zero] at read
    obtain ⟨nonempty, shape, value⟩ := counted_part (.decimal (cp.takeWhile (IsDigit 10))) rfl read counted
    refine ⟨.decimal (cp.takeWhile (IsDigit 10)), ⟨nonempty, ?_, all 10 cp⟩, nonempty, shape, value⟩
    intro first
    exact zero ((congrArg List.head? shape).trans ((List.head?_append_of_ne_nil _ nonempty).trans first))

end Parts

section Loop

variable {parts : List AddressPart} {cp tail : CString} {room : ℕ} {read : List (BitVec 32)}

/-- A part ends at the end of the text or at a dot. -/
def EndsPart (tail : CString) : Prop := tail = [] ∨ ∃ more, tail = chr '.' :: more

/-- A text ends at white space or with its string. -/
def EndsText (tail : CString) : Prop := ∀ x ∈ tail.head?, isSpace x = true

/-- The words that the parser makes of the parts. -/
def partWords (parts : List AddressPart) : List (BitVec 32) := (parts.map AddressPart.value).map (BitVec.ofNat 32)

/-- A part that has digits besides the zero that selects its base. -/
def AddressPart.Counted (part : AddressPart) : Prop := part.Loose ∧ part.digits ≠ []

theorem endsDigits_space (ends : EndsText tail) : EndsDigits tail := by
  intro x head
  have space := ends x head
  refine ⟨?_, ?_, ?_⟩
  · rw [IsDigit, digitValue_of_isSpace space, Option.any_none]
  · rintro rfl
    exact absurd space (by decide)
  · rintro rfl
    exact absurd space (by decide)

theorem EndsPart.endsDigits (ended : EndsPart tail) : EndsDigits tail := by
  rcases ended with rfl | ⟨more, rfl⟩
  · rintro x ⟨⟩
  · rintro x ⟨⟩
    decide

/-- The parser reads a list of parts. -/
theorem atonLoop_complete (nonempty : parts ≠ []) (fits : parts.length ≤ room + 1)
    (counted : ∀ part ∈ parts, part.Counted) (ends : EndsText tail) :
    atonLoop room read ([chr '.'].intercalate (parts.map AddressPart.text) ++ tail) =
      some (read ++ partWords parts) := by
  induction parts generalizing room read with
  | nil => exact absurd rfl nonempty
  | cons part parts ih =>
    obtain ⟨⟨loose, digits⟩, later⟩ := List.forall_mem_cons.mp counted
    have count : part.digits.length ≠ 0 := mt List.length_eq_zero_iff.mp digits
    cases parts with
    | nil =>
      rw [List.map_singleton, List.intercalate_singleton, atonLoop, atonPart_text loose (endsDigits_space ends)]
      cases tail with
      | nil => exact if_neg count
      | cons x tail =>
        have space : isSpace x = true := ends x rfl
        have other : x ≠ chr '.' := by
          rintro rfl
          exact absurd space (by decide)
        simp only [if_neg other, if_pos space, if_neg count]
        rfl
    | cons next parts =>
      obtain ⟨room, rfl⟩ : ∃ less, room = less + 1 := by
        rw [List.length_cons, List.length_cons] at fits
        exact ⟨room - 1, by omega⟩
      have shape : [chr '.'].intercalate ((part :: next :: parts).map AddressPart.text) ++ tail =
          part.text ++ chr '.' :: ([chr '.'].intercalate ((next :: parts).map AddressPart.text) ++ tail) := by
        simp [List.intercalate_cons_cons]
      have dot : EndsPart (chr '.' :: ([chr '.'].intercalate ((next :: parts).map AddressPart.text) ++ tail)) :=
        .inr ⟨_, rfl⟩
      rw [shape, atonLoop, atonPart_text loose dot.endsDigits]
      simp only [if_true, if_neg count]
      rw [ih (List.cons_ne_nil _ _) (Nat.le_of_succ_le_succ fits) later]
      simp [partWords]

/-- The words read are those of a list of parts at the start of the string. -/
def ReadsParts (room : ℕ) (cp : CString) (read words : List (BitVec 32)) : Prop :=
  ∃ parts tail, parts ≠ [] ∧ parts.length ≤ room + 1 ∧ (∀ part ∈ parts, part.Counted) ∧
    cp = [chr '.'].intercalate (parts.map AddressPart.text) ++ tail ∧ EndsText tail ∧ words = read ++ partWords parts

theorem ReadsParts.last {val : BitVec 32} {n : ℕ} (step : atonPart cp = (val, n, tail)) (counted : n ≠ 0)
    (ends : EndsText tail) : ReadsParts room cp read (read ++ [val]) := by
  obtain ⟨part, loose, digits, rfl, rfl⟩ := atonPart_sound step counted
  refine ⟨[part], tail, List.cons_ne_nil _ _, by simp, ?_, ?_, ends, rfl⟩
  · rintro _ (_ | ⟨_, ⟨⟩⟩)
    exact ⟨loose, digits⟩
  · rw [List.map_singleton, List.intercalate_singleton]

theorem ReadsParts.more {val : BitVec 32} {n : ℕ} {rest : CString} {words : List (BitVec 32)}
    (step : atonPart cp = (val, n, chr '.' :: rest)) (counted : n ≠ 0)
    (later : ReadsParts room rest (read ++ [val]) words) : ReadsParts (room + 1) cp read words := by
  obtain ⟨part, loose, digits, rfl, rfl⟩ := atonPart_sound step counted
  obtain ⟨parts, tail, nonempty, fits, all, rfl, ends, rfl⟩ := later
  obtain ⟨next, parts, rfl⟩ := List.exists_cons_of_ne_nil nonempty
  refine ⟨part :: next :: parts, tail, List.cons_ne_nil _ _, Nat.succ_le_succ fits, ?_, ?_, ends, ?_⟩
  · exact List.forall_mem_cons.mpr ⟨⟨loose, digits⟩, all⟩
  · simp [List.intercalate_cons_cons]
  · simp [partWords]

/-- The ways to get through the loop: by a last part, or by a part, a dot and what remains. -/
theorem atonLoop_cases {words : List (BitVec 32)} (done : atonLoop room read cp = some words) :
    (∃ val n tail, atonPart cp = (val, n, tail) ∧ n ≠ 0 ∧ EndsText tail ∧ words = read ++ [val]) ∨
      ∃ val n rest less, atonPart cp = (val, n, chr '.' :: rest) ∧ n ≠ 0 ∧ room = less + 1 ∧
        atonLoop less (read ++ [val]) rest = some words := by
  rcases step : atonPart cp with ⟨val, n, tail⟩
  unfold atonLoop at done
  rw [step] at done
  cases tail with
  | nil =>
    simp only at done
    split at done
    · cases done
    · next counted => exact .inl ⟨val, n, [], rfl, counted, by rintro x ⟨⟩, (Option.some.inj done).symm⟩
  | cons x tail =>
    simp only at done
    split at done
    · next dot =>
      subst dot
      cases room with
      | zero => cases done
      | succ room =>
        simp only at done
        split at done
        · cases done
        · next counted => exact .inr ⟨val, n, tail, room, rfl, counted, rfl, done⟩
    · split at done
      · next space =>
        split at done
        · cases done
        · next counted =>
          refine .inl ⟨val, n, x :: tail, rfl, counted, ?_, (Option.some.inj done).symm⟩
          rintro _ ⟨⟩
          exact space
      · cases done

/-- What the parser reads is a list of parts. -/
theorem atonLoop_sound {words : List (BitVec 32)} (done : atonLoop room read cp = some words) :
    ReadsParts room cp read words := by
  induction room generalizing read cp with
  | zero =>
    rcases atonLoop_cases done with ⟨val, n, tail, step, counted, ends, rfl⟩ | ⟨_, _, _, less, -, -, impossible, -⟩
    · exact .last step counted ends
    · cases impossible
  | succ room ih =>
    rcases atonLoop_cases done with
      ⟨val, n, tail, step, counted, ends, rfl⟩ | ⟨val, n, rest, less, step, counted, same, later⟩
    · exact .last step counted ends
    · cases same
      exact .more step counted (ih later)

end Loop

section Texts

variable {part : AddressPart} {parts other : List AddressPart} {cp text tail : CString}

theorem text_plain (loose : part.Loose) : ∀ x ∈ part.text, isSpace x = false ∧ x ≠ chr '.' := by
  have digit {base : ℕ} {x : CChar} (digit : IsDigit base x = true) : isSpace x = false ∧ x ≠ chr '.' := by
    refine ⟨(isDigit_plain digit).1, ?_⟩
    rintro rfl
    cases (isDigit_iff.mp digit).1
  have zero : isSpace (chr '0') = false ∧ chr '0' ≠ chr '.' := by decide
  cases part with
  | decimal digits => exact fun x member => digit (loose.2.2 x member)
  | octal digits => exact List.forall_mem_cons.mpr ⟨zero, fun x member => digit (loose x member)⟩
  | hex letter digits =>
    have prefixed : isSpace letter = false ∧ letter ≠ chr '.' := by rcases loose.1 with rfl | rfl <;> decide
    refine List.forall_mem_cons.mpr ⟨zero, List.forall_mem_cons.mpr ⟨prefixed, ?_⟩⟩
    exact fun x member => digit (loose.2.2 x member)

theorem intercalate_plain {texts : List CString} (plain : ∀ text ∈ texts, ∀ x ∈ text, isSpace x = false) :
    ∀ x ∈ [chr '.'].intercalate texts, isSpace x = false := by
  induction texts with
  | nil => exact List.forall_mem_nil _
  | cons text texts ih =>
    obtain ⟨here, later⟩ := List.forall_mem_cons.mp plain
    cases texts with
    | nil => simpa [List.intercalate_singleton] using here
    | cons next texts =>
      have dot : ∀ x ∈ [chr '.'], isSpace x = false := by decide
      rw [List.intercalate_cons_cons]
      exact List.forall_mem_append.mpr ⟨List.forall_mem_append.mpr ⟨here, dot⟩, ih later⟩

theorem addressText_append (plain : ∀ x ∈ text, isSpace x = false) (ends : EndsText tail) :
    addressText (text ++ tail) = text := by
  have all : ∀ x ∈ text, (!isSpace x) = true := fun x member => by rw [plain x member]; rfl
  exact takeWhile_append_stop all fun x first => by rw [ends x first]; rfl

theorem endsText_dropWhile (cp : CString) : EndsText (cp.dropWhile fun x => !isSpace x) := by
  intro x head
  have stopped := List.head?_dropWhile_not (fun x => !isSpace x) cp
  rw [head] at stopped
  simpa using stopped

/-- The part that a text without dots is. -/
def AddressPart.ofText (text : CString) : AddressPart :=
  match text with
  | [] => .decimal []
  | c :: rest =>
    if c = chr '0' then
      match rest with
      | [] => .octal []
      | x :: digits => if x = chr 'x' ∨ x = chr 'X' then .hex x digits else .octal (x :: digits)
    else .decimal (c :: rest)

theorem ofText_text (loose : part.Loose) : AddressPart.ofText part.text = part := by
  cases part with
  | decimal digits =>
    obtain ⟨nonempty, first, -⟩ := loose
    obtain ⟨c, rest, rfl⟩ := List.exists_cons_of_ne_nil nonempty
    exact if_neg fun zero => first (congrArg some zero)
  | octal digits =>
    cases digits with
    | nil => rfl
    | cons x digits =>
      obtain ⟨lower, upper⟩ := decimal_ne_prefix (loose x (List.mem_cons_self ..))
      simp [AddressPart.text, AddressPart.ofText, lower, upper]
  | hex letter digits => simp [AddressPart.text, AddressPart.ofText, loose.1]

/-- A string is made of its parts in one way. -/
theorem MadeOf.unique (one : MadeOf cp parts) (another : MadeOf cp other) : parts = other := by
  have determined {parts : List AddressPart} (made : MadeOf cp parts) :
      parts = ((addressText cp).splitOn (chr '.')).map AddressPart.ofText := by
    have apart : ∀ text ∈ parts.map AddressPart.text, chr '.' ∉ text := by
      intro text member
      obtain ⟨part, own, rfl⟩ := List.mem_map.mp member
      exact fun dot => (text_plain (made.loose part own) _ dot).2 rfl
    rw [made.text, List.splitOn_intercalate _ apart (by simpa using made.nonempty), List.map_map]
    conv_lhs => rw [← List.map_id parts]
    exact List.map_congr_left fun part own => (ofText_text (made.loose part own)).symm
  rw [determined one, determined another]

/-- The parser gets through the strings that are made of one to four parts, none of which is a lone zero. -/
theorem atonLoop_eq_some_iff {words : List (BitVec 32)} :
    atonLoop 3 [] cp = some words ↔
      ∃ parts, MadeOf cp parts ∧ (∀ part ∈ parts, part.digits ≠ []) ∧ words = partWords parts := by
  constructor
  · intro done
    obtain ⟨parts, tail, nonempty, four, counted, rfl, ends, rfl⟩ := atonLoop_sound done
    have plain : ∀ text ∈ parts.map AddressPart.text, ∀ x ∈ text, isSpace x = false := by
      intro text member
      obtain ⟨part, own, rfl⟩ := List.mem_map.mp member
      exact fun x inside => (text_plain (counted part own).1 x inside).1
    exact ⟨parts, ⟨nonempty, four, fun part own => (counted part own).1,
      addressText_append (intercalate_plain plain) ends⟩, fun part own => (counted part own).2, rfl⟩
  · rintro ⟨parts, made, digits, rfl⟩
    have split : cp = [chr '.'].intercalate (parts.map AddressPart.text) ++ cp.dropWhile fun x => !isSpace x := by
      rw [← made.text, addressText, List.takeWhile_append_dropWhile]
    rw [split]
    exact atonLoop_complete made.nonempty made.four (fun part own => ⟨made.loose part own, digits part own⟩)
      (endsText_dropWhile cp)

end Texts

section Values

variable {values : List ℕ}

theorem ofNat_gt_iff {value bound : ℕ} (small : bound < 2 ^ 32) :
    BitVec.ofNat 32 value > BitVec.ofNat 32 bound ↔ bound < value % 2 ^ 32 := by
  rw [gt_iff_lt, BitVec.lt_def, BitVec.toNat_ofNat, BitVec.toNat_ofNat, Nat.mod_eq_of_lt small]

theorem ofNat_not_gt {value bound : ℕ} (small : bound < 2 ^ 32) (within : value ≤ bound) :
    ¬ BitVec.ofNat 32 value > BitVec.ofNat 32 bound := by
  rw [ofNat_gt_iff small]
  exact not_lt.mpr ((Nat.mod_le value _).trans within)

theorem or_bytes_gt_iff (a b c d : ℕ) :
    (BitVec.ofNat 32 a ||| BitVec.ofNat 32 b ||| BitVec.ofNat 32 c ||| BitVec.ofNat 32 d) > BitVec.ofNat 32 0xff ↔
      255 < a % 2 ^ 32 ∨ 255 < b % 2 ^ 32 ∨ 255 < c % 2 ^ 32 ∨ 255 < d % 2 ^ 32 := by
  have bytes (m n : ℕ) : m ||| n < 2 ^ 8 ↔ m < 2 ^ 8 ∧ n < 2 ^ 8 :=
    ⟨fun below => ⟨Nat.left_le_or.trans_lt below, Nat.right_le_or.trans_lt below⟩,
      fun both => Nat.or_lt_two_pow both.1 both.2⟩
  have whole : a % 2 ^ 32 ||| b % 2 ^ 32 ||| c % 2 ^ 32 ||| d % 2 ^ 32 < 2 ^ 8 ↔
      ((a % 2 ^ 32 < 2 ^ 8 ∧ b % 2 ^ 32 < 2 ^ 8) ∧ c % 2 ^ 32 < 2 ^ 8) ∧ d % 2 ^ 32 < 2 ^ 8 := by
    rw [bytes, bytes, bytes]
  rw [gt_iff_lt, BitVec.lt_def]
  simp only [BitVec.toNat_or, BitVec.toNat_ofNat]
  omega

/-- Values in bounds are put together to the number that they denote. -/
theorem atonValue_inBounds (nonempty : values ≠ []) (four : values.length ≤ 4) (bounds : InBounds values) :
    atonValue (values.map (BitVec.ofNat 32)) = some (BitVec.ofNat 32 (hostValue values)) := by
  match values with
  | [] => exact absurd rfl nonempty
  | [a] => rfl
  | [a, b] =>
    have last : b ≤ 2 ^ 24 - 1 := bounds.2 b rfl
    refine (if_neg (ofNat_not_gt (by decide) last)).trans (congrArg some ?_)
    exact shiftLeft_or (by omega)
  | [a, b, c] =>
    have octet : b ≤ 255 := bounds.1 b (by simp)
    have last : c ≤ 2 ^ 16 - 1 := bounds.2 c rfl
    refine (if_neg (ofNat_not_gt (by decide) last)).trans (congrArg some ?_)
    rw [BitVec.or_assoc, shiftLeft_or (by omega), shiftLeft_or (by omega)]
    rfl
  | [a, b, c, d] =>
    have octets : a ≤ 255 ∧ b ≤ 255 ∧ c ≤ 255 :=
      ⟨bounds.1 a (by simp), bounds.1 b (by simp), bounds.1 c (by simp)⟩
    have last : d ≤ 2 ^ 8 - 1 := bounds.2 d rfl
    have pass : ¬ (BitVec.ofNat 32 a ||| BitVec.ofNat 32 b ||| BitVec.ofNat 32 c ||| BitVec.ofNat 32 d) >
        BitVec.ofNat 32 0xff := by
      rw [or_bytes_gt_iff]
      omega
    refine (if_neg pass).trans (congrArg some ?_)
    rw [BitVec.or_assoc, BitVec.or_assoc, shiftLeft_or (by omega), shiftLeft_or (by omega), shiftLeft_or (by omega)]
    rfl
  | _ :: _ :: _ :: _ :: _ :: _ =>
    simp only [List.length_cons] at four
    omega

/-- The `switch` lets values pass that are in bounds after they have wrapped. -/
theorem atonValue_isSome_iff (nonempty : values ≠ []) (four : values.length ≤ 4) :
    (atonValue (values.map (BitVec.ofNat 32))).isSome = true ↔ InWrappedBounds values := by
  have guarded {p : Prop} [Decidable p] (word : BitVec 32) :
      (if p then none else some word).isSome = true ↔ ¬ p := by split <;> simp_all
  match values with
  | [] => exact absurd rfl nonempty
  | [a] =>
    refine iff_of_true rfl ⟨by simp, ?_⟩
    rintro value ⟨⟩
    exact Nat.le_sub_one_of_lt (Nat.mod_lt a (by decide))
  | [a, b] =>
    refine (guarded _).trans ?_
    rw [show (0xffffff : BitVec 32) = BitVec.ofNat 32 0xffffff from rfl, ofNat_gt_iff (by decide)]
    simp [InWrappedBounds]
  | [a, b, c] =>
    refine (guarded _).trans ?_
    rw [show (0xffff : BitVec 32) = BitVec.ofNat 32 0xffff from rfl, ofNat_gt_iff (by decide)]
    simp [InWrappedBounds]
  | [a, b, c, d] =>
    have bounds : InWrappedBounds [a, b, c, d] ↔
        (a % 2 ^ 32 ≤ 255 ∧ b % 2 ^ 32 ≤ 255 ∧ c % 2 ^ 32 ≤ 255) ∧ d % 2 ^ 32 ≤ 255 := by simp [InWrappedBounds]
    refine (guarded _).trans ?_
    rw [show (0xff : BitVec 32) = BitVec.ofNat 32 0xff from rfl, or_bytes_gt_iff, bounds]
    omega
  | _ :: _ :: _ :: _ :: _ :: _ =>
    simp only [List.length_cons] at four
    omega

/-- The lowest octets are those of the lowest eight bits. -/
theorem octet_ext {x y : BitVec 32} (same : ∀ i < 8, x.getLsbD i = y.getLsbD i) : x &&& 0xff = y &&& 0xff := by
  have mask : ∀ i < 32, 8 ≤ i → (0xff : BitVec 32).getLsbD i = false := by decide
  apply BitVec.eq_of_getLsbD_eq
  intro i bound
  rw [BitVec.getLsbD_and, BitVec.getLsbD_and]
  rcases lt_or_ge i 8 with low | high
  · rw [same i low]
  · rw [mask i bound high, Bool.and_false, Bool.and_false]

theorem octets_htonl (word : BitVec 32) : octets (htonl word) = (octets word).reverse := by
  simp only [octets, List.reverse_cons, List.reverse_nil, List.nil_append, List.cons_append, List.cons.injEq,
    and_true]
  unfold htonl
  refine ⟨octet_ext ?_, octet_ext ?_, octet_ext ?_, octet_ext ?_⟩
  all_goals
    intro i low
    simp only [BitVec.getLsbD_or, BitVec.getLsbD_and, BitVec.getLsbD_shiftLeft, BitVec.getLsbD_ushiftRight]
    interval_cases i <;> simp

theorem octet_ofNat (host shift : ℕ) (bound : shift ≤ 24) :
    (BitVec.ofNat 32 host >>> shift) &&& 0xff = BitVec.ofNat 32 (host / 2 ^ shift % 256) := by
  apply BitVec.eq_of_toNat_eq
  have mask : (0xff : BitVec 32).toNat = 2 ^ 8 - 1 := rfl
  rw [BitVec.toNat_and, BitVec.toNat_ushiftRight, BitVec.toNat_ofNat, BitVec.toNat_ofNat, mask,
    Nat.and_two_pow_sub_one_eq_mod, Nat.shiftRight_eq_div_pow]
  have split : 2 ^ 32 = 2 ^ shift * 2 ^ (32 - shift) := by rw [← Nat.pow_add, Nat.add_sub_cancel' (by omega)]
  have byte : 2 ^ 8 ∣ 2 ^ (32 - shift) := Nat.pow_dvd_pow 2 (by omega)
  rw [Nat.mod_eq_of_lt ((Nat.mod_lt _ (by decide)).trans (by decide) : host / 2 ^ shift % 256 < 2 ^ 32), split,
    Nat.mod_mul_right_div_self, Nat.mod_mod_of_dvd _ byte]
  rfl

/-- The address is stored in network order. -/
theorem octets_stored (host : ℕ) : octets (htonl (BitVec.ofNat 32 host)) = networkOctets host := by
  have last : BitVec.ofNat 32 host &&& 0xff = BitVec.ofNat 32 (host / 2 ^ 0 % 256) := octet_ofNat host 0 (by decide)
  rw [octets_htonl, octets, last, octet_ofNat host 8 (by decide), octet_ofNat host 16 (by decide),
    octet_ofNat host 24 (by decide)]
  rfl

/-- An address is its bytes. -/
theorem octets_eq (addr : BitVec 32) : octets addr = (networkOctets addr.toNat).reverse := by
  rw [← octets_stored, octets_htonl, List.reverse_reverse, BitVec.ofNat_toNat, BitVec.setWidth_eq]

theorem networkOctets_injective {m n : ℕ} (first : m < 2 ^ 32) (second : n < 2 ^ 32)
    (same : networkOctets m = networkOctets n) : m = n := by
  have byte (host shift : ℕ) : (BitVec.ofNat 32 (host / 2 ^ shift % 256)).toNat = host / 2 ^ shift % 256 := by
    rw [BitVec.toNat_ofNat]
    omega
  have values : (networkOctets m).map BitVec.toNat = (networkOctets n).map BitVec.toNat := congrArg _ same
  simp only [networkOctets, List.map_cons, List.map_nil, byte, List.cons.injEq, and_true] at values
  omega

theorem octets_injective {addr other : BitVec 32} (same : octets addr = octets other) : addr = other := by
  rw [octets_eq, octets_eq, List.reverse_inj] at same
  exact BitVec.eq_of_toNat_eq (networkOctets_injective addr.isLt other.isLt same)

end Values

section Parser

variable {cp : CString} {parts : List AddressPart} {addr : BitVec 32}

/-- The only part without a digit is the lone zero. -/
theorem digits_iff (made : MadeOf cp parts) :
    (∀ part ∈ parts, part.digits ≠ []) ↔ ∀ part ∈ parts, part ≠ .zero := by
  refine forall₂_congr fun part own => ?_
  have loose := made.loose part own
  cases part with
  | decimal digits => exact iff_of_true loose.1 (by rintro ⟨⟩)
  | octal digits => simp [AddressPart.digits, AddressPart.zero]
  | hex letter digits => exact iff_of_true loose.2.1 (by rintro ⟨⟩)

/-- The parser on a string made of parts. -/
theorem inetAton_eq (made : MadeOf cp parts) :
    inetAton cp = if ∀ part ∈ parts, part.digits ≠ [] then (atonValue (partWords parts)).map htonl else none := by
  split
  · next digits =>
    have loop : atonLoop 3 [] cp = some (partWords parts) := atonLoop_eq_some_iff.mpr ⟨parts, made, digits, rfl⟩
    rw [inetAton, loop, Option.bind_some]
  · next missing =>
    cases loop : atonLoop 3 [] cp with
    | none => rw [inetAton, loop, Option.bind_none, Option.map_none]
    | some words =>
      obtain ⟨other, another, digits, -⟩ := atonLoop_eq_some_iff.mp loop
      rw [← made.unique another] at digits
      exact absurd digits missing

/-- The parser accepts no other strings. -/
theorem madeOf_of_inetAton (accepted : inetAton cp = some addr) : ∃ parts, MadeOf cp parts := by
  obtain ⟨word, bound, -⟩ := Option.map_eq_some_iff.mp accepted
  obtain ⟨words, loop, -⟩ := Option.bind_eq_some_iff.mp bound
  obtain ⟨parts, made, -⟩ := atonLoop_eq_some_iff.mp loop
  exact ⟨parts, made⟩

/-- The parser accepts a string exactly if none of its parts is a lone zero and their values pass. -/
theorem inetAton_isSome_iff (made : MadeOf cp parts) :
    (inetAton cp).isSome = true ↔
      (∀ part ∈ parts, part ≠ .zero) ∧ InWrappedBounds (parts.map AddressPart.value) := by
  have passes : (atonValue (partWords parts)).isSome = true ↔ InWrappedBounds (parts.map AddressPart.value) :=
    atonValue_isSome_iff (by simpa using made.nonempty) (by simpa using made.four)
  rw [inetAton_eq made, ← digits_iff made, ← passes]
  split
  · next digits => rw [Option.isSome_map, and_iff_right digits]
  · next missing => exact iff_of_false (by simp) fun both => missing both.1

/-- The parser on a string of the notation. -/
theorem inetAton_inNotation (made : MadeOf cp parts) (proper : InNotation parts)
    (nonzero : ∀ part ∈ parts, part ≠ .zero) :
    inetAton cp = some (htonl (BitVec.ofNat 32 (hostValue (parts.map AddressPart.value)))) := by
  have value : atonValue (partWords parts) = some (BitVec.ofNat 32 (hostValue (parts.map AddressPart.value))) :=
    atonValue_inBounds (by simpa using made.nonempty) (by simpa using made.four) proper.2
  rw [inetAton_eq made, if_pos ((digits_iff made).mpr nonzero), value, Option.map_some]

end Parser

end CLite
