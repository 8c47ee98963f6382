import CLite.Lib.Delimited
import CLite.Model.Tokens

/-! # Tokens and fields

`strsep` cuts the string at its first delimiter, and `strtok_r` does the same behind the delimiters in front. With
one set of delimiters `strsep` returns the fields of the string, and `strtok_r` those of them that are not empty.
`strtok` is `strsep`, so it returns empty fields as well.
-/

namespace CLite

open ByteMemory Delimited

/-- Whether a byte is one of the delimiters. -/
def isDelimiter (delim : CString) (x : Byte) : Bool := delim.any (·.byte = x)

/-- The text stands at the pointer with its terminator. -/
def StringIn (buf : List Byte) (p : ℕ) (text : List Byte) : Prop := 0 ∉ text ∧ ∃ tail, buf.drop p = text ++ 0 :: tail

/-- What is left of the string behind the pointer that is kept; `none` is a null pointer. -/
def Remains (st : TokenState) : Option (List Byte) → Prop
  | none => st.saved = none
  | some text => ∃ p, st.saved = some p ∧ StringIn st.buf p text

section Scans

variable {delim : CString} {text tail : List Byte} {x : Byte}

theorem strchr_isSome (delim : CString) (nonzero : x ≠ 0) : (strchr delim x).isSome = isDelimiter delim x := by
  induction delim with
  | nil =>
    rw [strchr, if_neg nonzero]
    rfl
  | cons y delim ih =>
    rw [strchr, isDelimiter, List.any_cons]
    split
    · next same => simp [same]
    · next other =>
      rw [ih, isDelimiter]
      simp [other]

/-- Up to the terminator, the loop counts the characters in front that pass its test. -/
theorem countWhile_eq {test found : Byte → Bool} (same : ∀ x ≠ 0, test x = found x) (plain : 0 ∉ text)
    (tail : List Byte) : countWhile test (text ++ 0 :: tail) = (text.takeWhile found).length := by
  induction text with
  | nil => simp [countWhile]
  | cons x text ih =>
    obtain ⟨nonzero, later⟩ := List.ne_and_not_mem_of_not_mem_cons plain
    rw [List.cons_append, countWhile, same x (Ne.symm nonzero), ih later]
    cases passed : found x with
    | true => rw [if_pos ⟨Ne.symm nonzero, rfl⟩, List.takeWhile_cons_of_pos passed, List.length_cons]
    | false => rw [if_neg (by simp), List.takeWhile_cons_of_neg (by simp [passed]), List.length_nil]

theorem strspn_eq (delim : CString) (plain : 0 ∉ text) (tail : List Byte) :
    strspn (text ++ 0 :: tail) delim = (text.takeWhile (isDelimiter delim)).length :=
  countWhile_eq (fun _ nonzero => strchr_isSome delim nonzero) plain tail

theorem strcspn_eq (delim : CString) (plain : 0 ∉ text) (tail : List Byte) :
    strcspn (text ++ 0 :: tail) delim = (lead (isDelimiter delim) text).length := by
  apply countWhile_eq _ plain tail
  intro x nonzero
  rw [← Option.not_isSome, strchr_isSome delim nonzero]

theorem strpbrk_eq (delim : CString) (plain : 0 ∉ text) (tail : List Byte) :
    strpbrk delim (text ++ 0 :: tail) =
      (following (isDelimiter delim) text).map fun _ => (lead (isDelimiter delim) text).length := by
  induction text with
  | nil => simp [strpbrk, following]
  | cons x text ih =>
    obtain ⟨nonzero, later⟩ := List.ne_and_not_mem_of_not_mem_cons plain
    rw [List.cons_append, strpbrk, if_neg (Ne.symm nonzero), strchr_isSome delim (Ne.symm nonzero), ih later]
    cases cut : isDelimiter delim x with
    | true => simp [following, cut, lead_cons_delimiter cut]
    | false => simp [following, cut, lead_cons cut, Function.comp_def]

end Scans

section Cuts

variable {buf front rest : List Byte} {p : ℕ} {x : Byte}

theorem stringAt_eq {text : List Byte} (within : StringIn buf p text) : stringAt buf p = text := by
  obtain ⟨plain, tail, split⟩ := within
  rw [stringAt, split, List.takeWhile_append_of_pos, List.takeWhile_cons_of_neg (by simp), List.append_nil]
  intro x member
  simpa using ne_of_mem_of_not_mem member plain

/-- A terminator in the place of a character cuts the text in two. -/
theorem stringIn_set (within : StringIn buf p (front ++ x :: rest)) :
    StringIn (buf.set (p + front.length) 0) p front ∧
      StringIn (buf.set (p + front.length) 0) (p + front.length + 1) rest := by
  obtain ⟨plain, tail, split⟩ := within
  rw [List.mem_append, List.mem_cons, not_or, not_or] at plain
  have cut : (buf.set (p + front.length) 0).drop p = front ++ 0 :: (rest ++ 0 :: tail) := by
    rw [List.drop_set, if_neg (by omega), split, Nat.add_sub_cancel_left, List.append_assoc,
      List.set_append_right _ _ (Nat.le_refl _), Nat.sub_self]
    rfl
  refine ⟨⟨plain.1, _, cut⟩, plain.2.2, tail, ?_⟩
  rw [Nat.add_assoc, ← List.drop_drop, cut, ← List.drop_drop, List.drop_left]
  rfl

theorem StringIn.advance (within : StringIn buf p (front ++ rest)) : StringIn buf (p + front.length) rest := by
  obtain ⟨plain, tail, split⟩ := within
  rw [List.mem_append, not_or] at plain
  refine ⟨plain.2, tail, ?_⟩
  rw [← List.drop_drop, split, List.append_assoc, List.drop_left]

/-- The byte at a pointer. -/
theorem StringIn.getD (within : StringIn buf p rest) : buf.getD p 0 = rest.headD 0 := by
  obtain ⟨-, tail, split⟩ := within
  rw [List.getD_eq_getElem?_getD, ← List.head?_drop, split]
  cases rest <;> rfl

/-- One call of `strsep` returns the first field and keeps what follows it. -/
theorem strsep_cuts {st : TokenState} {text : List Byte} (remains : Remains st (some text)) (delim : CString) :
    ∃ token next, strsep st delim = (some token, next) ∧
      stringAt next.buf token = lead (isDelimiter delim) text ∧
      Remains next (following (isDelimiter delim) text) := by
  obtain ⟨p, saved, within⟩ := remains
  obtain ⟨plain, tail, split⟩ := id within
  rw [strsep, saved]
  dsimp only
  rw [split, strpbrk_eq delim plain]
  rcases following_cases (isDelimiter delim) text with ⟨none, all⟩ | ⟨x, rest, found, -, parts⟩
  · rw [none]
    exact ⟨p, _, rfl, by rw [all, stringAt_eq within], rfl⟩
  · rw [found]
    rw [parts] at within
    obtain ⟨first, later⟩ := stringIn_set within
    exact ⟨p, _, rfl, stringAt_eq first, _, rfl, later⟩

/-- The delimiters in front are skipped. -/
theorem StringIn.skip {text : List Byte} (within : StringIn buf p text) (delim : CString) :
    StringIn buf (p + strspn (buf.drop p) delim) (text.dropWhile (isDelimiter delim)) := by
  obtain ⟨plain, tail, split⟩ := id within
  rw [split, strspn_eq delim plain]
  rw [← List.takeWhile_append_dropWhile (p := isDelimiter delim) (l := text)] at within
  exact within.advance

/-- At a character, looking for the next delimiter is the same in `strtok_r` as in `strsep`. -/
theorem strcspn_strsep {y : Byte} {more : List Byte} (there : StringIn buf p (y :: more)) (delim : CString) :
    strsep ⟨buf, some p⟩ delim =
      if buf.getD (p + strcspn (buf.drop p) delim) 0 ≠ 0 then
        (some p, ⟨buf.set (p + strcspn (buf.drop p) delim) 0, some (p + strcspn (buf.drop p) delim + 1)⟩)
      else (some p, ⟨buf, none⟩) := by
  obtain ⟨plain, tail, split⟩ := id there
  rw [strsep]
  dsimp only
  rw [split, strcspn_eq delim plain, strpbrk_eq delim plain]
  rcases following_cases (isDelimiter delim) (y :: more) with ⟨none, all⟩ | ⟨x, rest, found, -, parts⟩
  · have ended : StringIn buf p ((y :: more) ++ []) := by rwa [List.append_nil]
    rw [none, all, ended.advance.getD, List.headD_nil, if_neg (by simp)]
    rfl
  · rw [parts] at there plain
    have nonzero : x ≠ 0 := by
      rintro rfl
      exact plain (List.mem_append_right _ (List.mem_cons_self ..))
    rw [found, there.advance.getD, List.headD_cons, if_pos nonzero]
    rfl

/-- One call of `strtok_r` does the same behind the delimiters in front, and returns a null pointer if there is
nothing behind them. -/
theorem strtok_r_cuts {st : TokenState} {str : Option ℕ} {text : List Byte}
    (remains : Remains (st.restart str) (some text)) (delim : CString) :
    let inner := text.dropWhile (isDelimiter delim)
    if inner = [] then ∃ next, strtok_r st str delim = (none, next) ∧ Remains next none
    else ∃ token next, strtok_r st str delim = (some token, next) ∧
      stringAt next.buf token = lead (isDelimiter delim) inner ∧
      Remains next (following (isDelimiter delim) inner) := by
  obtain ⟨p, saved, within⟩ := remains
  have there := within.skip delim
  dsimp only
  rw [strtok_r]
  dsimp only
  rw [saved]
  dsimp only
  rw [there.getD]
  cases inner : text.dropWhile (isDelimiter delim) with
  | nil => exact ⟨_, rfl, rfl⟩
  | cons y more =>
    -- From the first character that is no delimiter on, the call is one of `strsep`.
    rw [inner] at there
    have nonzero : y ≠ 0 := fun zero => there.1 (zero ▸ List.mem_cons_self ..)
    rw [if_neg (List.cons_ne_nil y more), List.headD_cons, if_neg nonzero, ← strcspn_strsep there]
    have kept : Remains ⟨(st.restart str).buf, some (p + strspn ((st.restart str).buf.drop p) delim)⟩
        (some (y :: more)) := ⟨_, rfl, there⟩
    exact strsep_cuts kept delim

end Cuts

section Calls

variable {st : TokenState} {str : Option ℕ} {rest : Option (List Byte)}

theorem strsepCalls_cutPieces (remains : Remains st rest) (delims : List CString) :
    strsepCalls st delims = cutPieces (delims.map isDelimiter) rest := by
  induction delims generalizing st rest with
  | nil => rfl
  | cons delim delims ih =>
    cases rest with
    | none =>
      have stuck : strsep st delim = (none, st) := by
        rw [strsep, (remains : st.saved = none)]
      rw [strsepCalls, tokenCalls, stuck]
      exact congrArg (none :: ·) (ih remains)
    | some text =>
      obtain ⟨token, next, called, string, later⟩ := strsep_cuts remains delim
      rw [strsepCalls, tokenCalls, called]
      dsimp only
      rw [Option.map_some, string]
      exact congrArg (some _ :: ·) (ih later)

/-- `strtok` is `strsep` with the pointer that it keeps. -/
theorem strtok_calls (st : TokenState) (str : Option ℕ) (delims : List CString) :
    tokenCalls strtok st str delims = strsepCalls (st.restart str) delims := by
  induction delims generalizing st str with
  | nil => rfl
  | cons delim delims ih => exact congrArg (_ :: ·) (ih _ none)

theorem strtok_r_tokens (remains : Remains (st.restart str) rest) (delims : List CString) :
    tokenCalls strtok_r st str delims = tokens (delims.map isDelimiter) rest := by
  induction delims generalizing st str rest with
  | nil => rfl
  | cons delim delims ih =>
    cases rest with
    | none =>
      have stuck : strtok_r st str delim = (none, st.restart str) := by
        rw [strtok_r]
        dsimp only
        rw [(remains : (st.restart str).saved = none)]
      rw [tokenCalls, stuck]
      exact congrArg (none :: ·) (ih remains)
    | some text =>
      have cuts := strtok_r_cuts remains delim
      rw [tokenCalls, List.map_cons, tokens]
      dsimp only at cuts ⊢
      split at cuts
      · next empty =>
        obtain ⟨next, called, later⟩ := cuts
        rw [called, if_pos empty]
        exact congrArg (none :: ·) (ih later)
      · next more =>
        obtain ⟨token, next, called, string, later⟩ := cuts
        rw [called, if_neg more, Option.map_some, string]
        exact congrArg (some _ :: ·) (ih later)

end Calls

section Fields

variable {buf copy text : List Byte} {p q : ℕ}

/-- On two copies of a string, `strtok` and `strtok_r` return the same tokens exactly if no piece is empty when the
string is cut at the first delimiter of each set in turn. -/
theorem strtok_tokens_iff (here : StringIn buf p text) (there : StringIn copy q text) (saved saveptr : Option ℕ)
    (delims : List CString) :
    tokenCalls strtok ⟨buf, saved⟩ (some p) delims = tokenCalls strtok_r ⟨copy, saveptr⟩ (some q) delims ↔
      NoEmptyPiece (delims.map isDelimiter) text := by
  have cut : Remains (TokenState.restart ⟨buf, saved⟩ (some p)) (some text) := ⟨p, rfl, here⟩
  have cutCopy : Remains (TokenState.restart ⟨copy, saveptr⟩ (some q)) (some text) := ⟨q, rfl, there⟩
  rw [strtok_calls, strsepCalls_cutPieces cut, strtok_r_tokens cutCopy, cutPieces_eq_tokens_iff]

/-- The pieces `a` and `b` of a string that is cut at a comma and then at a blank. -/
theorem strtok_tokens_changing :
    tokenCalls strtok ⟨[97, 44, 98, 0], none⟩ (some 0) [[chr ','], [chr ' '], [chr ',']] =
        tokenCalls strtok_r ⟨[97, 44, 98, 0], none⟩ (some 0) [[chr ','], [chr ' '], [chr ',']] := by
  have here : StringIn [97, 44, 98, 0] 0 [97, 44, 98] := ⟨by decide, [], rfl⟩
  apply (strtok_tokens_iff here here none none _).mpr
  refine ⟨by decide, ?_⟩
  intro rest found
  obtain rfl : [98] = rest := Option.some.inj found
  exact ⟨by decide, nofun⟩

/-- Of `,a` `strtok` returns an empty token first, and `strtok_r` returns `a`. -/
theorem strtok_empty_token :
    StringIn [44, 97, 0] 0 [44, 97] ∧
      tokenCalls strtok ⟨[44, 97, 0], none⟩ (some 0) [[chr ',']] ≠
        tokenCalls strtok_r ⟨[44, 97, 0], none⟩ (some 0) [[chr ',']] :=
  ⟨⟨by decide, [], rfl⟩, by decide⟩

/-- With one set of delimiters, `strsep` returns the fields of the string and `strtok_r` those that are not empty,
and then both return null pointers. There is one field more than there are delimiters, and the fields with the
delimiters between them are the string. -/
theorem strtok_r_fields (here : StringIn buf p text) (there : StringIn copy q text) (saveptr : Option ℕ)
    (delim : CString) :
    ∃ fields : List (List Byte),
      (∀ n, strsepCalls ⟨copy, some q⟩ (List.replicate n delim) = sequence n fields) ∧
      (∀ n, tokenCalls strtok_r ⟨buf, saveptr⟩ (some p) (List.replicate n delim) =
        sequence n (fields.filter (· ≠ []))) ∧
      fields.length = text.countP (isDelimiter delim) + 1 ∧
      (List.zipWith (· ++ ·) fields ((text.filter (isDelimiter delim)).map ([·]) ++ [[]])).flatten = text := by
  refine ⟨text.splitOnP (isDelimiter delim), ?_, ?_, length_splitOnP _ _, List.splitOnP_spec text⟩
  · intro n
    have cut : Remains ⟨copy, some q⟩ (some text) := ⟨q, rfl, there⟩
    rw [strsepCalls_cutPieces cut, List.map_replicate, cutPieces_replicate]
  · intro n
    have cut : Remains (TokenState.restart ⟨buf, saveptr⟩ (some p)) (some text) := ⟨p, rfl, here⟩
    rw [strtok_r_tokens cut, List.map_replicate, tokens_replicate]

/-- The string `,a,` has an empty field at either end. -/
theorem strtok_r_fields_commas :
    ∃ fields : List (List Byte),
      (∀ n, strsepCalls ⟨[44, 97, 44, 0], some 0⟩ (List.replicate n [chr ',']) = sequence n fields) ∧
      (∀ n, tokenCalls strtok_r ⟨[44, 97, 44, 0], none⟩ (some 0) (List.replicate n [chr ',']) =
        sequence n (fields.filter (· ≠ []))) ∧
      fields.length = [44, 97, 44].countP (isDelimiter [chr ',']) + 1 ∧
      (List.zipWith (· ++ ·) fields
        (([44, 97, 44].filter (isDelimiter [chr ','])).map ([·]) ++ [[]])).flatten = [44, 97, 44] := by
  have here : StringIn [44, 97, 44, 0] 0 [44, 97, 44] := ⟨by decide, [], rfl⟩
  exact strtok_r_fields here here none [chr ',']

end Fields

end CLite
