import CLite.Proofs.ScanNumbers
import CLite.Spec.Numerals

/-! # What `strtol` reads

`strtol` takes the longest numeral that its string starts with and returns its value modulo 2 to the 32. The one
exception is a hexadecimal prefix that no digit follows: the prefix is skipped before a digit is looked for, so
the zero in it is lost.
-/

namespace CLite

open LongestPrefix

section Characters

theorem digitValue_nonneg {x : CChar} {digit : ℤ} (read : digitValue x = some digit) : 0 ≤ digit := by
  unfold digitValue at read
  split_ifs at read <;> cases read <;> omega

theorem isDigit_iff {base : ℕ} {x : CChar} :
    IsDigit base x = true ↔ digitValue x = some (digitNumber x : ℤ) ∧ digitNumber x < base := by
  unfold IsDigit digitNumber
  cases read : digitValue x with
  | none => simp
  | some digit =>
    have positive := digitValue_nonneg read
    simp only [Option.any_some, decide_eq_true_eq, Option.getD_some, Int.toNat_of_nonneg positive, true_and]
    omega

theorem digitValue_of_isSpace {x : CChar} (blank : isSpace x = true) : digitValue x = none := by
  simp only [isSpace, decide_eq_true_eq] at blank
  rcases blank with rfl | rfl | rfl | rfl | rfl | rfl <;> rfl

/-- A digit is neither a blank nor a sign. -/
theorem isDigit_plain {base : ℕ} {x : CChar} (digit : IsDigit base x = true) :
    isSpace x = false ∧ x ≠ chr '-' ∧ x ≠ chr '+' := by
  have read := (isDigit_iff.mp digit).1
  refine ⟨?_, ?_, ?_⟩
  · by_contra blank
    rw [digitValue_of_isSpace (by simpa using blank)] at read
    cases read
  · rintro rfl
    cases read
  · rintro rfl
    cases read

end Characters

section PrintedDigits

variable {base : ℕ} {uppercase : Bool} {digits : List ℕ}
  (read : ∀ digit ∈ digits, digitValue (digitText uppercase digit) = some (digit : ℤ))
include read

theorem isDigit_digitText (within : ∀ digit ∈ digits, digit < base) :
    ∀ x ∈ digits.map (digitText uppercase), IsDigit base x = true := by
  rw [List.forall_mem_map]
  intro digit member
  rw [IsDigit, read digit member, Option.any_some, decide_eq_true_eq]
  exact_mod_cast within digit member

theorem digitNumber_digitText : (digits.map (digitText uppercase)).map digitNumber = digits := by
  rw [List.map_map]
  conv_rhs => rw [← List.map_id digits]
  apply List.map_congr_left
  intro digit member
  rw [Function.comp_apply, digitNumber, read digit member]
  rfl

/-- Only the digit zero is printed as `0`. -/
theorem head_digitText (head : (digits.map (digitText uppercase)).head? = some (chr '0')) :
    digits.head? = some 0 := by
  cases digits with
  | nil => cases head
  | cons first rest =>
    have value := read first (List.mem_cons_self ..)
    rw [Option.some.inj head] at value
    have zero : (0 : ℤ) = first := Option.some.inj value
    rw [List.head?_cons, Nat.cast_eq_zero.mp zero.symm]

end PrintedDigits

section Loop

theorem int32_neg (value : ℤ) : int32 (-int32 value) = int32 (-value) := by
  have step := int32_step value (-1) 0
  simpa using step

/-- The digit loop takes the digits of the base and evaluates them modulo 2 to the 32. -/
theorem strtolLoop_eq (base value : ℕ) (s : CString) :
    strtolLoop base (int32 value) s =
      (int32 (((s.takeWhile (IsDigit base)).map digitNumber).foldl (fun value digit => value * base + digit) value :
        ℕ), s.dropWhile (IsDigit base)) := by
  induction s generalizing value with
  | nil => rfl
  | cons x s ih =>
    cases digit : IsDigit base x with
    | true =>
      obtain ⟨read, below⟩ := isDigit_iff.mp digit
      rw [List.takeWhile_cons_of_pos digit, List.dropWhile_cons_of_pos digit, List.map_cons, List.foldl_cons, ← ih,
        strtolLoop, read]
      dsimp only
      rw [if_neg (by omega), int32_step]
      push_cast
      rfl
    | false =>
      rw [List.takeWhile_cons_of_neg (by simp [digit]), List.dropWhile_cons_of_neg (by simp [digit]), strtolLoop]
      cases read : digitValue x with
      | none => rfl
      | some number =>
        rw [IsDigit, read, Option.any_some, decide_eq_false_iff_not] at digit
        exact if_pos (by omega)

theorem strtolLoop_zero (base : ℕ) (s : CString) :
    strtolLoop base 0 s =
      (int32 (Nat.ofDigits base ((s.takeWhile (IsDigit base)).map digitNumber).reverse : ℕ),
        s.dropWhile (IsDigit base)) := by
  rw [← digitsValue_eq_ofDigits]
  exact strtolLoop_eq base 0 s

end Loop

section Front

/-- What a string looks like behind blanks and sign. -/
theorem takeSign_front {blanks body : CString} (spaces : ∀ x ∈ blanks, isSpace x = true) (sign : Sign)
    (plain : ∀ x ∈ body.head?, isSpace x = false ∧ x ≠ chr '-' ∧ x ≠ chr '+') :
    takeSign ((blanks ++ (sign.text ++ body)).dropWhile isSpace) = (decide (sign = .minus), body) := by
  rw [List.dropWhile_append_of_pos spaces]
  cases sign with
  | plus => rfl
  | minus => rfl
  | none =>
    cases body with
    | nil => rfl
    | cons x body =>
      obtain ⟨notSpace, notMinus, notPlus⟩ := plain x rfl
      simp [Sign.text, takeSign, notSpace, notMinus, notPlus]

/-- Every string has blanks, a sign and a body. -/
theorem exists_front (nptr : CString) :
    ∃ blanks sign body, nptr = blanks ++ (Sign.text sign ++ body) ∧ (∀ x ∈ blanks, isSpace x = true) ∧
      takeSign (nptr.dropWhile isSpace) = (decide (sign = .minus), body) := by
  refine ⟨nptr.takeWhile isSpace, ?_⟩
  have split := List.takeWhile_append_dropWhile (p := isSpace) (l := nptr)
  have spaces : ∀ x ∈ nptr.takeWhile isSpace, isSpace x = true := fun x => List.mem_takeWhile_imp
  generalize nptr.takeWhile isSpace = blanks at split spaces
  generalize nptr.dropWhile isSpace = rest at split
  subst split
  cases rest with
  | nil => exact ⟨.none, [], rfl, spaces, rfl⟩
  | cons x rest =>
    rcases em (x = chr '-') with rfl | notMinus
    · exact ⟨.minus, rest, rfl, spaces, rfl⟩
    · rcases em (x = chr '+') with rfl | notPlus
      · exact ⟨.plus, rest, rfl, spaces, rfl⟩
      · exact ⟨.none, x :: rest, rfl, spaces, by simp [takeSign, notMinus, notPlus]⟩

/-- Blanks, a sign and a core at the front of a string: the core stands where the body of the string begins. -/
theorem core_of_front {nptr blanks blanks' core body : CString} {sign sign' : Sign}
    (spaces : ∀ x ∈ blanks', isSpace x = true) (nonempty : core ≠ [])
    (plain : ∀ x ∈ core.head?, isSpace x = false ∧ x ≠ chr '-' ∧ x ≠ chr '+')
    (within : blanks' ++ (sign'.text ++ core) <+: nptr)
    (front : takeSign (nptr.dropWhile isSpace) = (decide (sign = .minus), body))
    (shape : nptr = blanks ++ (sign.text ++ body)) :
    core <+: body ∧ (blanks' ++ (sign'.text ++ core)).length = blanks.length + (sign.text.length + core.length) := by
  obtain ⟨rest, split⟩ := within
  have reaches := @takeSign_front blanks' (core ++ rest) spaces sign'
    (by rwa [List.head?_append_of_ne_nil _ nonempty])
  rw [List.append_assoc, List.append_assoc] at split
  rw [split, front] at reaches
  have bodyCore : body = core ++ rest := (Prod.mk.inj reaches).2
  refine ⟨bodyCore ▸ List.prefix_append .., ?_⟩
  have whole := congrArg List.length (split.trans shape)
  simp only [bodyCore, List.length_append] at whole ⊢
  omega

end Front

section Longest

variable {base : ℕ} {n : Numeral} {nptr : CString}

/-- The core of a numeral starts with a digit. -/
theorem Numeral.Valid.core_head (valid : n.Valid base) :
    ∀ x ∈ n.core.head?, isSpace x = false ∧ x ≠ chr '-' ∧ x ≠ chr '+' := by
  obtain ⟨first, digits, shape⟩ := List.exists_cons_of_ne_nil valid.nonempty
  intro x head
  unfold Numeral.core at head
  cases letter : n.hex with
  | none =>
    rw [letter, shape] at head
    obtain rfl : first = x := Option.some.inj head
    exact isDigit_plain (valid.digits first (by rw [shape]; exact List.mem_cons_self ..))
  | some letter' =>
    rw [letter] at head
    obtain rfl : chr '0' = x := Option.some.inj head
    decide

theorem Numeral.Valid.core_ne_nil (valid : n.Valid base) : n.core ≠ [] := by
  intro empty
  exact valid.nonempty (List.append_eq_nil_iff.mp empty).2

/-- The core of a numeral that the string starts with begins behind blanks and sign. -/
theorem Numeral.Valid.front (valid : n.Valid base) (rest : CString) :
    takeSign ((n.text ++ rest).dropWhile isSpace) = (decide (n.sign = .minus), n.core ++ rest) := by
  have front := @takeSign_front n.blanks (n.core ++ rest) valid.blanks n.sign
    (by rw [List.head?_append_of_ne_nil _ valid.core_ne_nil]; exact valid.core_head)
  simpa only [Numeral.text, List.append_assoc] using front

/-- Two forms of a core: digits, or a prefix and digits. -/
theorem Numeral.core_cases {s : CString} (n : Numeral) (within : n.core <+: s) :
    n.hex = none ∧ n.digits <+: s ∨
      ∃ letter rest, n.hex = some letter ∧ s = chr '0' :: letter :: rest ∧ n.digits <+: rest := by
  unfold Numeral.core at within
  cases letter : n.hex with
  | none =>
    rw [letter] at within
    exact .inl ⟨rfl, within⟩
  | some x =>
    rw [letter] at within
    obtain ⟨rest, rfl⟩ := within
    exact .inr ⟨x, n.digits ++ rest, rfl, rfl, List.prefix_append ..⟩

variable {blanks body digits : CString} {sign : Sign} {hex : Option CChar}

/-- The core of a numeral that the string starts with, and its length. -/
theorem Numeral.Valid.core_within {m : Numeral} (validM : m.Valid base) (within : m.text <+: nptr)
    (front : takeSign (nptr.dropWhile isSpace) = (decide (sign = .minus), body))
    (shape : nptr = blanks ++ (sign.text ++ body)) :
    m.core <+: body ∧ m.text.length = blanks.length + (sign.text.length + m.core.length) :=
  core_of_front validM.blanks validM.core_ne_nil validM.core_head within front shape

/-- A numeral is the longest if its core is the longest behind blanks and sign. -/
theorem starts_of_core (front : takeSign (nptr.dropWhile isSpace) = (decide (sign = .minus), body))
    (shape : nptr = blanks ++ (sign.text ++ body)) (valid : Numeral.Valid base ⟨blanks, sign, hex, digits⟩)
    (within : (Numeral.mk blanks sign hex digits).core <+: body)
    (longest : ∀ m : Numeral, m.Valid base → m.core <+: body →
      m.core.length ≤ (Numeral.mk blanks sign hex digits).core.length) :
    Starts base ⟨blanks, sign, hex, digits⟩ nptr := by
  refine ⟨valid, ⟨_, valid, rfl⟩, ?_, ?_⟩
  · rw [shape]
    exact (List.prefix_append_right_inj _).mpr ((List.prefix_append_right_inj _).mpr within)
  · rintro _ ⟨m, validM, rfl⟩ withinM
    obtain ⟨core, length⟩ := validM.core_within withinM front shape
    have shorter := longest m validM core
    rw [length, Numeral.text, List.length_append, List.length_append]
    dsimp only
    omega

theorem not_starts_of_core (front : takeSign (nptr.dropWhile isSpace) = (decide (sign = .minus), body))
    (shape : nptr = blanks ++ (sign.text ++ body)) (absent : ∀ m : Numeral, m.Valid base → ¬ m.core <+: body) :
    ¬ Starts base n nptr := by
  rintro ⟨valid, longest⟩
  exact absent n valid (valid.core_within longest.within front shape).1

end Longest

section Reading

/-- The value of the digits that a string starts with. -/
def digitsRead (base : ℕ) (s : CString) : ℕ :=
  Nat.ofDigits base ((s.takeWhile (IsDigit base)).map digitNumber).reverse

/-- `strtol` from its digit loop on, with the sign and the base settled. -/
theorem strtol_digits (base : ℕ) (sign : Sign) (s nptr : CString) :
    ((if decide (sign = .minus) = true then int32 (-(strtolLoop base 0 s).1) else (strtolLoop base 0 s).1),
        if (strtolLoop base 0 s).2.length = s.length then nptr else (strtolLoop base 0 s).2) =
      (int32 (sign.apply (digitsRead base s)),
        if s.takeWhile (IsDigit base) = [] then nptr else s.dropWhile (IsDigit base)) := by
  have split := List.takeWhile_append_dropWhile (p := IsDigit base) (l := s)
  have length : (s.dropWhile (IsDigit base)).length = s.length ↔ s.takeWhile (IsDigit base) = [] := by
    rw [← List.length_eq_zero_iff]
    have lengths := congrArg List.length split
    rw [List.length_append] at lengths
    omega
  rw [strtolLoop_zero]
  simp only [length]
  cases sign with
  | minus => simp only [Sign.apply, decide_true, if_true, int32_neg, digitsRead]
  | none => simp [Sign.apply, digitsRead]
  | plus => simp [Sign.apply, digitsRead]

variable {base : ℕ} {nptr body rest : CString} {sign : Sign} {letter : CChar}

theorem hasHexPrefix_iff :
    hasHexPrefix body = true ↔
      ∃ letter rest, body = chr '0' :: letter :: rest ∧ (letter = chr 'x' ∨ letter = chr 'X') := by
  match body with
  | [] => simp [hasHexPrefix]
  | [x] => simp [hasHexPrefix]
  | x :: y :: rest => simp [hasHexPrefix]

/-- Behind a hexadecimal prefix the digits are hexadecimal. -/
theorem strtol_prefixed (allowed : base = 0 ∨ base = 16) (hex : letter = chr 'x' ∨ letter = chr 'X')
    (front : takeSign (nptr.dropWhile isSpace) = (decide (sign = .minus), chr '0' :: letter :: rest)) :
    strtol nptr base = (int32 (sign.apply (digitsRead 16 rest)),
      if rest.takeWhile (IsDigit 16) = [] then nptr else rest.dropWhile (IsDigit 16)) := by
  have skipped : ((base : ℤ) = 0 ∨ (base : ℤ) = 16) ∧ hasHexPrefix (chr '0' :: letter :: rest) = true :=
    ⟨by omega, hasHexPrefix_iff.mpr ⟨letter, rest, rfl, hex⟩⟩
  rw [← strtol_digits, strtol, front]
  simp only [skipped, and_self, if_true]
  rfl

/-- Without a prefix the digits are those of the base, which base 0 takes from a leading zero. -/
theorem strtol_plain (plain : ¬ ((base = 0 ∨ base = 16) ∧ hasHexPrefix body = true))
    (front : takeSign (nptr.dropWhile isSpace) = (decide (sign = .minus), body)) {radix : ℕ}
    (settled : radix = if base = 0 then if body.head? = some (chr '0') then 8 else 10 else base) :
    strtol nptr base = (int32 (sign.apply (digitsRead radix body)),
      if body.takeWhile (IsDigit radix) = [] then nptr else body.dropWhile (IsDigit radix)) := by
  have notSkipped : ¬ (((base : ℤ) = 0 ∨ (base : ℤ) = 16) ∧ hasHexPrefix body = true) := by
    rintro ⟨allowed, hex⟩
    exact plain ⟨by omega, hex⟩
  have sameBase : (if (base : ℤ) = 0 then if body.head? = some (chr '0') then (8 : ℤ) else 10 else base) = radix := by
    rw [settled]
    push_cast
    simp only [Int.natCast_eq_zero]
  rw [← strtol_digits, strtol, front]
  simp only [if_neg notSkipped, sameBase]

/-- A prefix of digits is no longer than the digits that the string starts with. -/
theorem length_le_takeWhile {digits : CString} (all : ∀ x ∈ digits, IsDigit base x = true)
    (within : digits <+: body) : digits.length ≤ (body.takeWhile (IsDigit base)).length :=
  ((prefix_takeWhile_iff all).mpr within).length_le

/-- The letter of a prefix is no digit in any base that has a prefix. -/
theorem isDigit_letter (hex : letter = chr 'x' ∨ letter = chr 'X') {radix : ℕ} (small : radix ≤ 16) :
    IsDigit radix letter = false := by
  have value : digitValue letter = some 33 := by rcases hex with rfl | rfl <;> rfl
  rw [IsDigit, value, Option.any_some, decide_eq_false_iff_not]
  omega

theorem Numeral.radix_le (n : Numeral) (allowed : base = 0 ∨ base = 16) : n.radix base ≤ 16 := by
  unfold Numeral.radix
  split_ifs <;> omega

/-- A numeral without a prefix takes only the zero of a prefix. -/
theorem Numeral.Valid.digits_length_le {n : Numeral} (valid : n.Valid base) (allowed : base = 0 ∨ base = 16)
    (hex : letter = chr 'x' ∨ letter = chr 'X') (within : n.digits <+: chr '0' :: letter :: rest) :
    n.digits.length ≤ 1 := by
  have bound := length_le_takeWhile valid.digits within
  have stop := isDigit_letter hex (n.radix_le allowed)
  refine bound.trans ?_
  rw [List.takeWhile_cons]
  split
  · rw [List.takeWhile_cons_of_neg (by simp [stop])]
    exact le_refl _
  · exact Nat.zero_le _

/-- What `strtol` makes of a string. -/
inductive StrtolReads (base : ℕ) (nptr : CString) : Prop where
  | numeral (n : Numeral) (starts : Starts base n nptr) (complete : ¬ BarePrefix base nptr)
      (read : strtol nptr base = (int32 (n.value base), nptr.drop n.text.length))
  | bare (n : Numeral) (starts : Starts base n nptr) (bare : BarePrefix base nptr) (zero : n.value base = 0)
      (only : ∀ m : Numeral, m.Valid base → m.text <+: nptr → m.text.length = n.text.length)
      (read : strtol nptr base = (0, nptr))
  | nothing (absent : ∀ n, ¬ Starts base n nptr) (complete : ¬ BarePrefix base nptr)
      (read : strtol nptr base = (0, nptr))

/-- A bare prefix stands behind blanks and sign. -/
theorem barePrefix_iff (front : takeSign (nptr.dropWhile isSpace) = (decide (sign = .minus), body)) {blanks : CString}
    (shape : nptr = blanks ++ (sign.text ++ body)) (spaces : ∀ x ∈ blanks, isSpace x = true) :
    BarePrefix base nptr ↔ (base = 0 ∨ base = 16) ∧ ∃ letter rest, body = chr '0' :: letter :: rest ∧
      (letter = chr 'x' ∨ letter = chr 'X') ∧ ∀ x ∈ rest.head?, IsDigit 16 x = false := by
  refine and_congr_right fun _ => ⟨?_, ?_⟩
  · rintro ⟨blanks', sign', letter, rest, shape', spaces', hex, stop⟩
    have plain : ∀ x ∈ (chr '0' :: letter :: rest).head?, isSpace x = false ∧ x ≠ chr '-' ∧ x ≠ chr '+' := by
      intro x head
      obtain rfl : chr '0' = x := Option.some.inj head
      decide
    have front' := takeSign_front spaces' sign' plain
    rw [← shape', front] at front'
    exact ⟨letter, rest, (Prod.mk.inj front').2, hex, stop⟩
  · rintro ⟨letter, rest, rfl, hex, stop⟩
    exact ⟨blanks, sign, letter, rest, shape, spaces, hex, stop⟩

end Reading

section Outcome

variable {base : ℕ} {nptr blanks body rest : CString} {sign : Sign} {letter : CChar}

theorem head?_of_prefix {front whole : CString} (nonempty : front ≠ []) (within : front <+: whole) :
    front.head? = whole.head? := by
  obtain ⟨rest, rfl⟩ := within
  exact (List.head?_append_of_ne_nil _ nonempty).symm

theorem Numeral.core_length {n : Numeral} :
    n.core.length = (if n.hex.isSome then 2 else 0) + n.digits.length := by
  unfold Numeral.core
  cases n.hex with
  | none => simp
  | some letter => simp only [Option.elim, List.length_append, Option.isSome_some, if_true, List.length_cons,
      List.length_nil]

theorem drop_numeral {n : Numeral} {tail : CString} (shape : nptr = n.text ++ tail) :
    nptr.drop n.text.length = tail := by
  rw [shape, List.drop_left]

/-- At a prefix, a numeral is the zero of the prefix or goes on with the digits behind it. -/
theorem Numeral.Valid.core_length_prefixed {m : Numeral} (valid : m.Valid base) (allowed : base = 0 ∨ base = 16)
    (hex : letter = chr 'x' ∨ letter = chr 'X') (within : m.core <+: chr '0' :: letter :: rest) :
    m.core.length = 1 ∨
      rest.takeWhile (IsDigit 16) ≠ [] ∧ m.core.length ≤ 2 + (rest.takeWhile (IsDigit 16)).length := by
  have positive := List.length_pos_of_ne_nil valid.nonempty
  rw [Numeral.core_length]
  rcases m.core_cases within with ⟨plain, within⟩ | ⟨x, tail, some, same, within⟩
  · have bound := valid.digits_length_le allowed hex within
    simp only [plain, Option.isSome_none, Bool.false_eq_true, if_false]
    omega
  · obtain ⟨rfl, rfl⟩ : letter = x ∧ rest = tail := by simpa using same
    have digits := valid.digits
    rw [Numeral.radix, some, Option.isSome_some, if_pos rfl] at digits
    have bound := length_le_takeWhile digits within
    refine .inr ⟨List.ne_nil_of_length_pos (positive.trans_le bound), ?_⟩
    simpa only [some, Option.isSome_some, if_true, Nat.add_le_add_iff_left] using bound

/-- A prefix with digits behind it. -/
theorem reads_prefixed (allowed : base = 0 ∨ base = 16) (hex : letter = chr 'x' ∨ letter = chr 'X')
    (shape : nptr = blanks ++ (sign.text ++ chr '0' :: letter :: rest)) (spaces : ∀ x ∈ blanks, isSpace x = true)
    (front : takeSign (nptr.dropWhile isSpace) = (decide (sign = .minus), chr '0' :: letter :: rest))
    (nonempty : rest.takeWhile (IsDigit 16) ≠ []) : StrtolReads base nptr := by
  have valid : Numeral.Valid base ⟨blanks, sign, some letter, rest.takeWhile (IsDigit 16)⟩ := by
    refine ⟨spaces, ?_, nonempty, fun x => List.mem_takeWhile_imp⟩
    intro _ same
    obtain rfl := Option.some.inj same
    exact ⟨hex, allowed⟩
  refine .numeral ⟨blanks, sign, some letter, rest.takeWhile (IsDigit 16)⟩ ?_ ?_ ?_
  · apply starts_of_core front shape valid
    · exact List.cons_prefix_cons.mpr ⟨rfl, List.cons_prefix_cons.mpr ⟨rfl, List.takeWhile_prefix _⟩⟩
    · intro m validM within
      have bound := validM.core_length_prefixed allowed hex within
      rw [Numeral.core_length (n := ⟨blanks, sign, some letter, _⟩), Option.isSome_some, if_pos rfl]
      dsimp only
      omega
  · rw [barePrefix_iff front shape spaces]
    rintro ⟨-, x, tail, same, -, stop⟩
    obtain ⟨rfl, rfl⟩ : letter = x ∧ rest = tail := by simpa using same
    cases rest with
    | nil => exact nonempty rfl
    | cons y rest => exact nonempty (List.takeWhile_cons_of_neg (by simp [stop y rfl]))
  · have split : nptr = Numeral.text ⟨blanks, sign, some letter, rest.takeWhile (IsDigit 16)⟩ ++
        rest.dropWhile (IsDigit 16) := by
      simp only [Numeral.text, Numeral.core, Option.elim, List.append_assoc, List.cons_append, List.nil_append,
        List.takeWhile_append_dropWhile]
      exact shape
    rw [strtol_prefixed allowed hex front, if_neg nonempty, drop_numeral split]
    rfl

/-- A prefix without digits: the zero in it is the numeral, and `strtol` does not see it. -/
theorem reads_bare (allowed : base = 0 ∨ base = 16) (hex : letter = chr 'x' ∨ letter = chr 'X')
    (shape : nptr = blanks ++ (sign.text ++ chr '0' :: letter :: rest)) (spaces : ∀ x ∈ blanks, isSpace x = true)
    (front : takeSign (nptr.dropWhile isSpace) = (decide (sign = .minus), chr '0' :: letter :: rest))
    (empty : rest.takeWhile (IsDigit 16) = []) : StrtolReads base nptr := by
  have valid : Numeral.Valid base ⟨blanks, sign, none, [chr '0']⟩ := by
    refine ⟨spaces, by simp, by simp, ?_⟩
    intro x member
    obtain rfl := List.mem_singleton.mp member
    rcases allowed with rfl | rfl <;> rfl
  have one {m : Numeral} (validM : m.Valid base) (within : m.core <+: chr '0' :: letter :: rest) :
      m.core.length = 1 := by
    rcases validM.core_length_prefixed allowed hex within with one | ⟨nonempty, -⟩
    · exact one
    · exact absurd empty nonempty
  refine .bare ⟨blanks, sign, none, [chr '0']⟩ ?_ ?_ ?_ ?_ ?_
  · apply starts_of_core front shape valid
    · exact List.cons_prefix_cons.mpr ⟨rfl, List.nil_prefix⟩
    · intro m validM within
      exact (one validM within).le
  · refine (barePrefix_iff front shape spaces).mpr ⟨allowed, letter, rest, rfl, hex, ?_⟩
    intro x head
    cases rest with
    | nil => cases head
    | cons y rest =>
      obtain rfl : y = x := Option.some.inj head
      by_contra digit
      rw [List.takeWhile_cons_of_pos (by simpa using digit)] at empty
      cases empty
  · have zero : digitNumber (chr '0') = 0 := rfl
    cases sign <;> simp [Numeral.value, Sign.apply, zero]
  · intro m validM within
    obtain ⟨core, length⟩ := validM.core_within within front shape
    rw [length, one validM core, Numeral.text, List.length_append, List.length_append]
    rfl
  · have zero : digitsRead 16 rest = 0 := by
      rw [digitsRead, empty]
      rfl
    rw [strtol_prefixed allowed hex front, if_pos empty, zero]
    cases sign <;> rfl

/-- No prefix: the digits are those of the settled base. -/
theorem reads_plain (plain : ¬ ((base = 0 ∨ base = 16) ∧ hasHexPrefix body = true))
    (shape : nptr = blanks ++ (sign.text ++ body)) (spaces : ∀ x ∈ blanks, isSpace x = true)
    (front : takeSign (nptr.dropWhile isSpace) = (decide (sign = .minus), body)) : StrtolReads base nptr := by
  obtain ⟨radix, settled⟩ :
      ∃ radix, radix = if base = 0 then if body.head? = some (chr '0') then 8 else 10 else base := ⟨_, rfl⟩
  have read := strtol_plain plain front settled
  have complete : ¬ BarePrefix base nptr := by
    rw [barePrefix_iff front shape spaces]
    rintro ⟨allowed, letter, rest, rfl, hex, -⟩
    exact plain ⟨allowed, hasHexPrefix_iff.mpr ⟨letter, rest, rfl, hex⟩⟩
  have sameRadix {m : Numeral} (noHex : m.hex = none) (nonempty : m.digits ≠ []) (within : m.digits <+: body) :
      m.radix base = radix := by
    rw [Numeral.radix, noHex, head?_of_prefix nonempty within, settled]
    rfl
  have digitsOnly {m : Numeral} (validM : m.Valid base) (within : m.core <+: body) :
      m.hex = none ∧ m.digits.length ≤ (body.takeWhile (IsDigit radix)).length := by
    rcases m.core_cases within with ⟨noHex, within⟩ | ⟨letter, rest, some, rfl, -⟩
    · have digits := validM.digits
      rw [sameRadix noHex validM.nonempty within] at digits
      exact ⟨noHex, length_le_takeWhile digits within⟩
    · obtain ⟨hex, allowed⟩ := validM.hex letter some
      exact absurd ⟨allowed, hasHexPrefix_iff.mpr ⟨letter, rest, rfl, hex⟩⟩ plain
  by_cases empty : body.takeWhile (IsDigit radix) = []
  · refine .nothing ?_ complete ?_
    · intro n
      apply not_starts_of_core front shape
      intro m validM within
      obtain ⟨-, bound⟩ := digitsOnly validM within
      rw [empty] at bound
      exact validM.nonempty (List.eq_nil_of_length_eq_zero (Nat.le_zero.mp bound))
    · have zero : digitsRead radix body = 0 := by
        rw [digitsRead, empty]
        rfl
      rw [read, if_pos empty, zero]
      cases sign <;> rfl
  · have own : Numeral.radix base ⟨blanks, sign, none, body.takeWhile (IsDigit radix)⟩ = radix :=
      sameRadix rfl empty (List.takeWhile_prefix _)
    have valid : Numeral.Valid base ⟨blanks, sign, none, body.takeWhile (IsDigit radix)⟩ := by
      refine ⟨spaces, by simp, empty, ?_⟩
      rw [own]
      exact fun x => List.mem_takeWhile_imp
    refine .numeral ⟨blanks, sign, none, body.takeWhile (IsDigit radix)⟩ ?_ complete ?_
    · apply starts_of_core front shape valid (List.takeWhile_prefix _)
      intro m validM within
      obtain ⟨noHex, bound⟩ := digitsOnly validM within
      rw [Numeral.core_length, Numeral.core_length, noHex]
      simpa using bound
    · have split : nptr = Numeral.text ⟨blanks, sign, none, body.takeWhile (IsDigit radix)⟩ ++
          body.dropWhile (IsDigit radix) := by
        simp only [Numeral.text, Numeral.core, Option.elim, List.append_assoc, List.nil_append,
          List.takeWhile_append_dropWhile]
        exact shape
      rw [read, if_neg empty, drop_numeral split, Numeral.value, own, digitsRead]

/-- `strtol` reads the longest numeral, except behind a bare prefix. -/
theorem strtol_reads (base : ℕ) (nptr : CString) : StrtolReads base nptr := by
  obtain ⟨blanks, sign, body, shape, spaces, front⟩ := exists_front nptr
  by_cases prefixed : (base = 0 ∨ base = 16) ∧ hasHexPrefix body = true
  · obtain ⟨allowed, present⟩ := prefixed
    obtain ⟨letter, rest, rfl, hex⟩ := hasHexPrefix_iff.mp present
    by_cases empty : rest.takeWhile (IsDigit 16) = []
    · exact reads_bare allowed hex shape spaces front empty
    · exact reads_prefixed allowed hex shape spaces front empty
  · exact reads_plain prefixed shape spaces front

/-- A text is that of one value. -/
theorem Numeral.Valid.value_eq {n m : Numeral} (validN : n.Valid base) (validM : m.Valid base)
    (same : n.text = m.text) : n.value base = m.value base := by
  have frontN := validN.front []
  rw [same, validM.front [], List.append_nil, List.append_nil] at frontN
  obtain ⟨sameSign, sameCore⟩ := Prod.mk.inj frontN
  have mixed {n m : Numeral} {letter : CChar} (validN : n.Valid base) (validM : m.Valid base)
      (sameCore : m.core = n.core) (some : n.hex = some letter) (none : m.hex = none) : False := by
    obtain ⟨hex, allowed⟩ := validN.hex letter some
    have digits : m.digits = chr '0' :: letter :: n.digits := by
      simpa [Numeral.core, some, none] using sameCore
    have within : m.digits <+: chr '0' :: letter :: n.digits := by rw [digits]
    have one := validM.digits_length_le allowed hex within
    rw [digits, List.length_cons, List.length_cons] at one
    omega
  have parts : n.hex = m.hex ∧ n.digits = m.digits := by
    cases hexN : n.hex with
    | none =>
      cases hexM : m.hex with
      | none => exact ⟨rfl, by simpa [Numeral.core, hexN, hexM] using sameCore.symm⟩
      | some letter => exact (mixed validM validN sameCore.symm hexM hexN).elim
    | some letter =>
      cases hexM : m.hex with
      | none => exact (mixed validN validM sameCore hexN hexM).elim
      | some letter' =>
        obtain ⟨rfl, digits⟩ : letter' = letter ∧ m.digits = n.digits := by
          simpa [Numeral.core, hexN, hexM] using sameCore
        exact ⟨rfl, digits.symm⟩
  have sameApply (magnitude : ℕ) : n.sign.apply magnitude = m.sign.apply magnitude := by
    cases signN : n.sign <;> cases signM : m.sign <;> simp [signN, signM, Sign.apply] at sameSign ⊢
  rw [Numeral.value, Numeral.value, Numeral.radix, Numeral.radix, parts.1, parts.2, sameApply]

/-- A numeral is the longest one in its own text. -/
theorem Numeral.Valid.starts {n : Numeral} (valid : n.Valid base) : Starts base n n.text :=
  ⟨valid, ⟨n, valid, rfl⟩, List.prefix_rfl, fun _ _ within => within.length_le⟩

/-- The text of a numeral is no bare prefix. -/
theorem Numeral.Valid.not_barePrefix {n : Numeral} (valid : n.Valid base) : ¬ BarePrefix base n.text := by
  have front := valid.front []
  rw [List.append_nil, List.append_nil] at front
  rw [barePrefix_iff front rfl valid.blanks]
  rintro ⟨allowed, letter, rest, shape, hex, stop⟩
  have within : n.core <+: chr '0' :: letter :: rest := by rw [shape]
  have length := congrArg List.length shape
  rw [Numeral.core_length, List.length_cons, List.length_cons] at length
  rcases n.core_cases within with ⟨none, digits⟩ | ⟨x, tail, some, same, digits⟩
  · have one := valid.digits_length_le allowed hex digits
    simp only [none, Option.isSome_none, Bool.false_eq_true, if_false] at length
    omega
  · obtain ⟨rfl, rfl⟩ : letter = x ∧ rest = tail := by simpa using same
    obtain ⟨y, more, list⟩ := List.exists_cons_of_ne_nil valid.nonempty
    have head := head?_of_prefix valid.nonempty digits
    have digit := valid.digits y (by rw [list]; exact List.mem_cons_self ..)
    rw [Numeral.radix, some, Option.isSome_some, if_pos rfl, stop y (by rw [← head, list]; rfl)] at digit
    cases digit

/-- A string starts with one numeral text, and with one value. -/
theorem Starts.unique {n m : Numeral} (one : Starts base n nptr) (other : Starts base m nptr) :
    n.text = m.text ∧ n.value base = m.value base := by
  have same := one.2.unique other.2
  exact ⟨same, one.1.value_eq other.1 same⟩

theorem Starts.length_pos {n : Numeral} (starts : Starts base n nptr) : 0 < n.text.length := by
  have positive := List.length_pos_of_ne_nil starts.1.nonempty
  simp only [Numeral.text, Numeral.core, List.length_append]
  omega

/-- A string starts with a numeral if some prefix of it is one. -/
theorem exists_starts_iff : (∃ n, Starts base n nptr) ↔ ∃ p, p <+: nptr ∧ IsNumeralText base p := by
  constructor
  · rintro ⟨n, starts⟩
    exact ⟨n.text, starts.2.within, starts.2.belongs⟩
  · rintro ⟨p, within, belongs⟩
    obtain ⟨_, longest⟩ := exists_longest belongs within
    obtain ⟨n, valid, rfl⟩ := longest.belongs
    exact ⟨n, valid, longest⟩

end Outcome

section Ranges

/-- A 32-bit result is the one that is congruent to the value. -/
theorem int32_eq_iff {value result : ℤ} (low : LONG_MIN ≤ result) (high : result ≤ LONG_MAX) :
    int32 value = result ↔ value ≡ result [ZMOD 2 ^ 32] := by
  have definition := Int.bmod_def value (2 ^ 32)
  simp only [LONG_MIN, LONG_MAX] at low high
  rw [int32, definition, Int.ModEq]
  push_cast
  split <;> omega

theorem int32_of_range {value : ℤ} (low : LONG_MIN ≤ value) (high : value ≤ LONG_MAX) : int32 value = value :=
  (int32_eq_iff low high).mpr rfl

theorem int32_range (value : ℤ) : LONG_MIN ≤ int32 value ∧ int32 value ≤ LONG_MAX := by
  have low : -2 ^ 31 ≤ int32 value := Int.le_bmod (m := 2 ^ 32) (by decide)
  have high : int32 value < 2 ^ 31 := Int.bmod_lt (m := 2 ^ 32) (by decide)
  exact ⟨low, Int.le_sub_one_of_lt high⟩

/-- A `long` keeps its value as a `long long`. -/
theorem toInt_ofInt_int32 (value : ℤ) : (BitVec.ofInt 64 (int32 value)).toInt = int32 value := by
  obtain ⟨low, high⟩ := int32_range value
  simp only [LONG_MIN, LONG_MAX] at low high
  rw [BitVec.toInt_ofInt]
  exact Int.bmod_eq_of_le (by push_cast; omega) (by push_cast; omega)

end Ranges

end CLite
