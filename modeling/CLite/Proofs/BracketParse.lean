import CLite.Spec.PatternTokens

/-! # Bracket expressions

Whatever character is tested, the member loop reads exactly the items of the grammar and stops behind
the same bracket; without a closing bracket it fails for every character. The scan for a written-out
dot walks the same positions.
-/

namespace CLite

variable {p q rest : CString} {c x : CChar} {range : CChar × CChar} {ranges : List (CChar × CChar)}

/-! ## One item -/

theorem Member.bracketChar_eq (member : Member (x :: p) c q) : bracketChar x p = (c, q) := by
  cases member with
  | escaped => simp [bracketChar]
  | plain _ ordinary => cases p <;> simp [bracketChar, ordinary]

theorem member_bracketChar (whole : x = chr '\\' → p ≠ []) :
    Member (x :: p) (bracketChar x p).1 (bracketChar x p).2 := by
  cases p with
  | nil => exact .plain [] fun escape => whole escape rfl
  | cons y p =>
    simp only [bracketChar]
    split
    · next escape =>
      subst escape
      exact .escaped y p
    · next ordinary => exact .plain (y :: p) ordinary

theorem Item.ne_nil (item : Item p range q) : p ≠ [] := by
  rintro rfl
  cases item with
  | single member => cases member
  | range lower => cases lower

theorem Item.bracketItem_eq (item : Item (x :: p) range q) :
    bracketItem x p = ⟨range.1, range.2, q⟩ := by
  cases item with
  | single member alone =>
    simp only [bracketItem, member.bracketChar_eq]
    split
    · next dash y after =>
      rw [if_neg]
      rintro ⟨rfl, inner⟩
      exact alone ⟨y, after, rfl, inner⟩
    · rfl
  | range lower inner upper =>
    next after lo hi =>
    cases after with
    | nil => cases upper
    | cons y after =>
      have open_ : y ≠ chr ']' := fun closing => inner (by rw [closing]; rfl)
      simp only [bracketItem, lower.bracketChar_eq, upper.bracketChar_eq]
      rw [if_pos ⟨trivial, open_⟩]

/-- The loop body reads an item of the grammar, unless it runs into the end of the pattern. -/
theorem item_bracketItem (more : (bracketItem x p).rest ≠ []) :
    Item (x :: p) ((bracketItem x p).lo, (bracketItem x p).hi) (bracketItem x p).rest := by
  have whole : x = chr '\\' → p ≠ [] := by
    rintro rfl rfl
    exact more rfl
  have member := member_bracketChar whole
  revert more
  simp only [bracketItem]
  split
  · next dash y after shape =>
    rw [shape] at member ⊢
    split
    · next ranged =>
      intro more
      obtain ⟨rfl, open_⟩ := ranged
      refine .range member (by simpa using open_) (member_bracketChar ?_)
      rintro rfl rfl
      exact more rfl
    · next single =>
      intro _
      apply Item.single member
      rintro ⟨y', after', shape', inner⟩
      obtain ⟨rfl, rfl, rfl⟩ : dash = chr '-' ∧ y = y' ∧ after = after' := by simpa using shape'
      exact single ⟨rfl, inner⟩
  · next short =>
    intro _
    apply Item.single member
    rintro ⟨y, after, shape, -⟩
    exact short _ _ _ shape

/-! ## The member loop -/

theorem Items.bracketLoop_eq {first : Bool} (items : Items first p ranges rest) (matched : Bool) :
    bracketLoop x.unsigned first matched p = some (matched || decide (InRanges ranges x), rest) := by
  induction items generalizing matched with
  | close rest => simp [bracketLoop, InRanges]
  | item inside head tail ih =>
    next first p q rest range ranges =>
    cases p with
    | nil => exact (head.ne_nil rfl).elim
    | cons y p =>
      have open_ : ¬ (y = chr ']' ∧ first = false) := by
        rintro ⟨rfl, rfl⟩
        simp at inside
      rw [bracketLoop, if_neg open_]
      simp only [head.bracketItem_eq, ih]
      simp [Bool.or_assoc]

theorem items_of_bracketLoop {z : ℤ} {first matched result : Bool}
    (found : bracketLoop z first matched p = some (result, rest)) : ∃ ranges, Items first p ranges rest := by
  fun_induction bracketLoop z first matched p with
  | case1 => cases found
  | case2 first matched y p closing =>
    obtain ⟨rfl, rfl⟩ := closing
    obtain ⟨-, rfl⟩ : matched = result ∧ p = rest := by simpa using found
    exact ⟨[], .close p⟩
  | case3 first matched y p open_ item ih =>
    obtain ⟨ranges, items⟩ := ih found
    have more : (bracketItem y p).rest ≠ [] := by
      intro ended
      rw [ended] at items
      cases items with
      | item _ head _ => exact head.ne_nil rfl
    refine ⟨_, .item ?_ (item_bracketItem more) items⟩
    by_contra closing
    apply open_
    cases first <;> simp_all

/-! ## The whole expression -/

theorem Items.nonempty (items : Items true p ranges rest) : p ≠ [] := by
  cases items with
  | item _ head _ => exact head.ne_nil

theorem Bracket.skipNegation_items {negated : Bool} (closed : Bracket p negated ranges rest) :
    (skipNegation p).1 = negated ∧ Items true (skipNegation p).2 ranges rest := by
  cases closed with
  | negated marked items =>
    rw [skipNegation, if_pos marked]
    exact ⟨rfl, items⟩
  | positive unmarked items =>
    cases p with
    | nil => exact (items.nonempty rfl).elim
    | cons y p =>
      rw [skipNegation, if_neg (by simpa using unmarked)]
      exact ⟨rfl, items⟩

theorem Bracket.matchBracket_eq {negated : Bool} (closed : Bracket p negated ranges rest) (x : CChar) :
    matchBracket p x.unsigned = some (decide (InSet negated ranges x), rest) := by
  obtain ⟨rfl, items⟩ := closed.skipNegation_items
  simp only [matchBracket, if_neg items.nonempty, items.bracketLoop_eq, InSet]
  cases (skipNegation p).1 <;> simp

/-- Without a closing bracket the parse fails, whatever character is tested. -/
theorem matchBracket_unclosed {z : ℤ}
    (unclosed : ∀ negated ranges rest, ¬ Bracket p negated ranges rest) : matchBracket p z = none := by
  cases found : matchBracket p z with
  | none => rfl
  | some result =>
    simp only [matchBracket] at found
    split at found
    · cases found
    · obtain ⟨⟨matched, rest⟩, inner, -⟩ := Option.map_eq_some_iff.mp found
      obtain ⟨ranges, items⟩ := items_of_bracketLoop inner
      cases p with
      | nil => exact (items.nonempty rfl).elim
      | cons y p =>
        simp only [skipNegation] at items
        split at items
        · next marked => exact (unclosed _ _ _ (.negated marked items)).elim
        · next unmarked =>
          exact (unclosed _ _ _ (.positive (by simpa using unmarked) items)).elim

/-! ## The written-out dot -/

theorem Member.classHasDotLoop_eq (member : Member p c q) (inside : p.head? ≠ some (chr ']')) :
    classHasDotLoop p = (decide (c = chr '.') || classHasDotLoop q) := by
  cases member with
  | escaped =>
    have other : chr '\\' ≠ chr ']' := by decide
    simp only [classHasDotLoop, if_neg other, if_true]
    split <;> simp [*]
  | plain _ ordinary =>
    have open_ : c ≠ chr ']' := by simpa using inside
    cases q with
    | nil => simp [classHasDotLoop]
    | cons y q =>
      simp only [classHasDotLoop, if_neg open_, if_neg ordinary]
      split <;> simp [*]

theorem classHasDotLoop_dash (q : CString) : classHasDotLoop (chr '-' :: q) = classHasDotLoop q := by
  have step : classHasDotLoop (chr '-' :: q) = (decide (chr '-' = chr '.') || classHasDotLoop q) :=
    Member.classHasDotLoop_eq (.plain q (by decide)) (by rw [List.head?_cons]; decide)
  exact step

theorem Item.classHasDotLoop_eq (item : Item p range q) (inside : p.head? ≠ some (chr ']')) :
    classHasDotLoop p =
      ((decide (range.1 = chr '.') || decide (range.2 = chr '.')) || classHasDotLoop q) := by
  cases item with
  | single member => simp [member.classHasDotLoop_eq inside]
  | range lower inner upper =>
    rw [lower.classHasDotLoop_eq inside, classHasDotLoop_dash, upper.classHasDotLoop_eq inner,
      Bool.or_assoc]

theorem Items.classHasDotLoop_eq (items : Items false p ranges rest) :
    classHasDotLoop p = decide (ListsDot ranges) := by
  generalize same : false = first at items
  induction items with
  | close rest => cases rest <;> simp [classHasDotLoop, ListsDot]; decide
  | item inside head tail ih =>
    subst same
    rw [head.classHasDotLoop_eq (by simpa using inside), ih rfl]
    simp

/-- A `]` that comes first is skipped by the scan, as it is a member for the loop. -/
theorem Items.skipLiteralBracket_eq (items : Items true p ranges rest) :
    classHasDotLoop (skipLiteralBracket p) = decide (ListsDot ranges) := by
  have other : chr ']' ≠ chr '.' := by decide
  cases items with
  | item _ head tail =>
    have after := tail.classHasDotLoop_eq
    cases p with
    | nil => exact (head.ne_nil rfl).elim
    | cons x p =>
      rw [skipLiteralBracket]
      split
      · next closing =>
        subst closing
        cases head with
        | single member =>
          cases member with
          | plain => simp [after, other]
        | range lower inner upper =>
          cases lower with
          | plain =>
            rw [classHasDotLoop_dash, upper.classHasDotLoop_eq inner, after]
            simp [other]
      · next open_ =>
        rw [head.classHasDotLoop_eq (by simpa using open_), after]
        simp

theorem Bracket.classHasDot_eq {negated : Bool} (closed : Bracket p negated ranges rest) :
    classHasDot p = decide (ListsDot ranges) :=
  closed.skipNegation_items.2.skipLiteralBracket_eq

/-! ## What stands behind a bracket expression -/

section Relocate

variable {p q rest : CString} {c : CChar} {range : CChar × CChar} {ranges : List (CChar × CChar)}

theorem Member.relocate (member : Member p c rest) :
    ∃ text, text ≠ [] ∧ p = text ++ rest ∧ ∀ rest', Member (text ++ rest') c rest' := by
  cases member with
  | escaped => exact ⟨[chr '\\', c], by simp, rfl, fun rest' => .escaped c rest'⟩
  | plain _ ordinary => exact ⟨[c], by simp, rfl, fun rest' => .plain rest' ordinary⟩

/-- An item may be followed by another text with which it does not become a range. -/
theorem Item.relocate (item : Item p range q) :
    ∃ text, text ≠ [] ∧ p = text ++ q ∧
      ∀ q', (StartsRange q' ↔ StartsRange q) → Item (text ++ q') range q' := by
  cases item with
  | single member alone =>
    obtain ⟨text, more, rfl, moved⟩ := member.relocate
    exact ⟨text, more, rfl, fun q' same => .single (moved q') (fun starts => alone (same.mp starts))⟩
  | range lower inner upper =>
    obtain ⟨first, _, rfl, lower'⟩ := lower.relocate
    obtain ⟨second, more, rfl, upper'⟩ := upper.relocate
    refine ⟨first ++ chr '-' :: second, by simp, by simp, fun q' _ => ?_⟩
    rw [List.append_assoc, List.cons_append]
    refine .range (lower' _) ?_ (upper' q')
    rwa [List.head?_append_of_ne_nil _ more] at inner ⊢

theorem startsRange_cons_cons {x y : CChar} : StartsRange (x :: y :: p) ↔ x = chr '-' ∧ y ≠ chr ']' := by
  constructor
  · rintro ⟨z, rest, shape, inner⟩
    obtain ⟨rfl, rfl, rfl⟩ : x = chr '-' ∧ y = z ∧ p = rest := by simpa using shape
    exact ⟨rfl, inner⟩
  · rintro ⟨rfl, inner⟩
    exact ⟨y, p, rfl, inner⟩

/-- The items read nothing behind their closing bracket. -/
theorem Items.relocate {first : Bool} (items : Items first p ranges rest) :
    ∃ text, text ≠ [] ∧ p = text ++ rest ∧ (∀ rest', StartsRange (text ++ rest') ↔ StartsRange p) ∧
      ∀ rest', Items first (text ++ rest') ranges rest' := by
  induction items with
  | close rest =>
    have closing (p : CString) : ¬ StartsRange (chr ']' :: p) := by
      rintro ⟨y, rest, shape, _⟩
      exact absurd (List.cons.inj shape).1 (by decide)
    exact ⟨[chr ']'], by simp, rfl, fun rest' => iff_of_false (closing _) (closing _), fun rest' => .close rest'⟩
  | item inside head tail ih =>
    obtain ⟨later, more, rfl, same, moved⟩ := ih
    obtain ⟨text, more', rfl, head'⟩ := head.relocate
    obtain ⟨x, text, rfl⟩ := List.exists_cons_of_ne_nil more'
    obtain ⟨y, later, rfl⟩ := List.exists_cons_of_ne_nil more
    refine ⟨x :: text ++ y :: later, by simp, by simp, fun rest' => ?_, fun rest' => ?_⟩
    · cases text <;> simp only [List.cons_append, List.nil_append, startsRange_cons_cons]
    · rw [List.append_assoc]
      exact .item inside (head' _ (same rest')) (moved rest')

theorem Bracket.relocate {negated : Bool} (closed : Bracket p negated ranges rest) :
    ∃ text, p = text ++ rest ∧ ∀ rest', Bracket (text ++ rest') negated ranges rest' := by
  cases closed with
  | negated marked items =>
    obtain ⟨text, _, rfl, _, moved⟩ := items.relocate
    exact ⟨_ :: text, rfl, fun rest' => .negated marked (moved rest')⟩
  | positive unmarked items =>
    obtain ⟨text, more, rfl, _, moved⟩ := items.relocate
    refine ⟨text, rfl, fun rest' => .positive ?_ (moved rest')⟩
    rwa [List.head?_append_of_ne_nil _ more] at unmarked ⊢

end Relocate

end CLite
