import CLite.Lib.FreeList

/-! # Extents that are released in reverse order

Facts about free lists for requests that nest. Merging may be put off to the end, a carved extent that is released
becomes whole again, and the space that the busy extents of an interval take bounds what else the interval can hold.
-/

namespace FreeList

variable {hdr slack size lo mid hi base : ℕ} {e : Extent} {es front tail pre post : List Extent}

theorem Between.append (below : Between hdr lo mid front) (above : Between hdr mid hi tail) :
    Between hdr lo hi (front ++ tail) := by
  induction front generalizing lo with
  | nil => exact above.mono below (Nat.le_refl _)
  | cons e front ih => exact ⟨below.1, ih below.2⟩

/-! ## Merging part of a list -/

theorem merge_mergeFrom_append (cur : Extent) (es tail : List Extent) :
    merge hdr (mergeFrom hdr cur es ++ tail) = mergeFrom hdr cur (es ++ tail) := by
  induction es generalizing cur with
  | nil => rfl
  | cons x es ih =>
    rw [List.cons_append, mergeFrom, mergeFrom]
    split
    · exact ih _
    · next apart =>
      rw [List.cons_append, merge, ← mergeFrom_merge, ih, mergeFrom_mergeFrom, mergeFrom, if_neg apart]

/-- Merging the front beforehand makes no difference. -/
theorem merge_merge_append (es tail : List Extent) : merge hdr (merge hdr es ++ tail) = merge hdr (es ++ tail) := by
  cases es with
  | nil => rfl
  | cons e es => exact merge_mergeFrom_append e es tail

theorem mergeFrom_append_merge (cur : Extent) (es tail : List Extent) :
    mergeFrom hdr cur (es ++ merge hdr tail) = mergeFrom hdr cur (es ++ tail) := by
  induction es generalizing cur with
  | nil => exact mergeFrom_merge cur tail
  | cons x es ih =>
    rw [List.cons_append, List.cons_append, mergeFrom, mergeFrom]
    split
    · exact ih _
    · rw [ih]

/-- Merging the back beforehand makes no difference. -/
theorem merge_append_merge (es tail : List Extent) : merge hdr (es ++ merge hdr tail) = merge hdr (es ++ tail) := by
  cases es with
  | nil => exact (merge_merged tail).merge_eq
  | cons e es => exact mergeFrom_append_merge e es tail

/-- Joining two neighbours beforehand makes no difference. -/
theorem merge_join {a b : Extent} (joinable : Joinable hdr a b) (front tail : List Extent) :
    merge hdr (front ++ a :: b :: tail) =
      merge hdr (front ++ { a with size := a.size + (hdr + b.size) } :: tail) := by
  have joined : merge hdr (a :: b :: tail) = merge hdr ({ a with size := a.size + (hdr + b.size) } :: tail) := by
    rw [merge, merge, mergeFrom, if_pos joinable]
  rw [← merge_append_merge, joined, merge_append_merge]

/-- The last extent of the list is not a free one that ends at the address. -/
def Loose (hdr base : ℕ) (es : List Extent) : Prop := ∀ e ∈ es.getLast?, e.free = true → e.stop hdr ≠ base

/-- Nothing is joined where the front ends. -/
theorem merge_append_of_loose (merged : Merged hdr front) (below : Between hdr lo base front)
    (loose : Loose hdr base front) (above : Between hdr base hi tail) :
    merge hdr (front ++ tail) = front ++ merge hdr tail := by
  rw [← merge_append_merge]
  refine Merged.merge_eq (List.isChain_append.mpr ⟨merged, merge_merged tail, ?_⟩)
  intro last isLast head isHead joinable
  have stop := (below.mem_bounds (List.mem_of_mem_getLast? isLast)).2
  have start := ((merge_between above).mem_bounds (List.mem_of_mem_head? isHead)).1
  refine loose last isLast joinable.1 ?_
  have touch := joinable.2.2
  omega

/-! ## Gaps -/

/-- One free extent from one address to another, if they differ. -/
def gap (hdr lo hi : ℕ) : List Extent := if lo = hi then [] else [⟨lo, hi - lo - hdr, true⟩]

theorem gap_self (hdr lo : ℕ) : gap hdr lo lo = [] := if_pos rfl

theorem gap_of_lt (below : lo < hi) : gap hdr lo hi = [⟨lo, hi - lo - hdr, true⟩] := if_neg (Nat.ne_of_lt below)

/-- There is no room, or room for a header. -/
def Wide (hdr lo hi : ℕ) : Prop := lo = hi ∨ lo + hdr ≤ hi

theorem Wide.le (wide : Wide hdr lo hi) : lo ≤ hi := by
  rcases wide with rfl | room
  · exact Nat.le_refl _
  · omega

theorem Wide.trans (first : Wide hdr lo mid) (second : Wide hdr mid hi) : Wide hdr lo hi := by
  rcases first with rfl | room
  · exact second
  · exact .inr (Nat.le_trans room second.le)

theorem gap_between (wide : Wide hdr lo hi) : Between hdr lo hi (gap hdr lo hi) := by
  rw [gap]
  split
  · exact wide.le
  · next differ =>
    have room := wide.resolve_left differ
    refine ⟨Nat.le_refl _, ?_⟩
    simp only [Between, Extent.stop]
    omega

theorem merge_gap (hdr lo hi : ℕ) : merge hdr (gap hdr lo hi) = gap hdr lo hi := by
  rw [gap]
  split <;> rfl

/-- A released extent and the gap behind it. -/
theorem merge_gap_cons (front : List Extent) (size : ℕ) (wide : Wide hdr (lo + hdr + size) hi) (header : 0 < hdr) :
    merge hdr (front ++ ⟨lo, size, true⟩ :: gap hdr (lo + hdr + size) hi) = merge hdr (front ++ gap hdr lo hi) := by
  have upper := wide.le
  rw [@gap_of_lt hdr lo hi (by omega)]
  by_cases same : lo + hdr + size = hi
  · rw [same, gap_self, show hi - lo - hdr = size by omega]
  · have room := wide.resolve_left same
    rw [gap_of_lt (by omega), merge_join ⟨rfl, rfl, rfl⟩]
    congr 4
    simp only
    omega

/-- Two gaps in a row are one. -/
theorem merge_gap_gap (front : List Extent) (first : Wide hdr lo mid) (second : Wide hdr mid hi) (header : 0 < hdr) :
    merge hdr (front ++ (gap hdr lo mid ++ gap hdr mid hi)) = merge hdr (front ++ gap hdr lo hi) := by
  by_cases same : lo = mid
  · rw [same, gap_self, List.nil_append]
  · have room := first.resolve_left same
    have place : lo + hdr + (mid - lo - hdr) = mid := by omega
    have whole := merge_gap_cons front (mid - lo - hdr) (place.symm ▸ second) header
    rw [place] at whole
    rw [gap_of_lt (by omega), ← whole]
    rfl

/-! ## Released extents -/

theorem release_append (addr : ℕ) (front tail : List Extent) :
    release addr (front ++ tail) = release addr front ++ release addr tail := List.map_append

theorem release_of_forall_ne {addr : ℕ} (other : ∀ e ∈ es, e.addr ≠ addr) : release addr es = es := by
  refine (List.map_congr_left fun e member => ?_).trans (List.map_id es)
  exact if_neg (other e member)

theorem release_gap (addr : ℕ) : release addr (gap hdr lo hi) = gap hdr lo hi := by
  rw [gap]
  split
  · rfl
  · exact congrArg (· :: []) (releaseOne_of_free rfl)

/-- An extent that was carved out of a free one and is released again makes it whole. -/
theorem merge_release_carve (slack size : ℕ) (merged : Merged hdr (pre ++ e :: post)) (free : e.free = true)
    (layout : Between hdr lo hi (pre ++ e :: post)) (header : 0 < hdr) :
    merge hdr (release e.addr (pre ++ (carve hdr slack size e ++ post))) = pre ++ e :: post := by
  obtain ⟨before, after⟩ := Between.append_cons.mp layout
  have front : release e.addr pre = pre := by
    refine release_of_forall_ne fun a member same => ?_
    have stop := (before.mem_bounds member).2
    simp only [Extent.stop] at stop
    omega
  have back : release e.addr post = post := by
    refine release_of_forall_ne fun a member same => ?_
    have start := (after.mem_bounds member).1
    simp only [Extent.stop] at start
    omega
  rw [release_append, release_append, front, back]
  obtain ⟨addr, whole, flag⟩ := e
  obtain rfl : flag = true := free
  rw [carve]
  split
  · next room =>
    have marked : release addr [⟨addr, size, false⟩, ⟨addr + hdr + size, whole - size - hdr, true⟩] =
        [⟨addr, size, true⟩, ⟨addr + hdr + size, whole - size - hdr, true⟩] := by
      simp only [release, List.map_cons, List.map_nil, ite_self, if_pos]
    rw [marked]
    have joined : merge hdr (pre ++ ⟨addr, size, true⟩ :: ⟨addr + hdr + size, whole - size - hdr, true⟩ :: post) =
        merge hdr (pre ++ ⟨addr, size + (hdr + (whole - size - hdr)), true⟩ :: post) := merge_join ⟨rfl, rfl, rfl⟩ _ _
    rw [show size + (hdr + (whole - size - hdr)) = whole by simp only at room; omega] at joined
    exact joined.trans merged.merge_eq
  · have marked : release addr [⟨addr, whole, false⟩] = [⟨addr, whole, true⟩] := by
      simp only [release, List.map_cons, List.map_nil, if_pos]
    rw [marked]
    exact merged.merge_eq

/-! ## First fits -/

/-- A list has one first element with a property. -/
theorem first_unique {P : Extent → Prop} {pre' post' : List Extent} {e' : Extent}
    (same : pre ++ e :: post = pre' ++ e' :: post') (found : P e) (found' : P e') (none : ∀ a ∈ pre, ¬P a)
    (none' : ∀ a ∈ pre', ¬P a) : pre = pre' ∧ e = e' ∧ post = post' := by
  induction pre generalizing pre' with
  | nil =>
    cases pre' with
    | nil => exact ⟨rfl, List.cons.inj same⟩
    | cons a pre' =>
      obtain ⟨rfl, -⟩ := List.cons.inj same
      exact (none' e (List.mem_cons_self ..) found).elim
  | cons a pre ih =>
    cases pre' with
    | nil =>
      obtain ⟨rfl, -⟩ := List.cons.inj same
      exact (none a (List.mem_cons_self ..) found').elim
    | cons b pre' =>
      obtain ⟨rfl, rest⟩ := List.cons.inj same
      obtain ⟨rfl, others⟩ := ih rest (fun c member => none c (List.mem_cons_of_mem _ member))
        fun c member => none' c (List.mem_cons_of_mem _ member)
      exact ⟨rfl, others⟩

theorem loose_carve (loose : Loose hdr base (pre ++ e :: post)) (free : e.free = true) :
    Loose hdr base (pre ++ (carve hdr slack size e ++ post)) := by
  intro last isLast lastFree
  rcases List.eq_nil_or_concat post with rfl | ⟨post, b, rfl⟩
  · have whole := loose e (by simp) free
    rw [carve] at isLast
    split at isLast
    · next room =>
      simp only [List.append_nil, List.getLast?_append, List.getLast?_cons_cons, List.getLast?_singleton,
        Option.some_or, Option.mem_some_iff] at isLast
      subst isLast
      simp only [Extent.stop] at whole ⊢
      omega
    · simp only [List.append_nil, List.getLast?_append, List.getLast?_singleton, Option.some_or,
        Option.mem_some_iff] at isLast
      subst isLast
      exact (Bool.false_ne_true lastFree).elim
  · refine loose last ?_ lastFree
    rw [List.concat_eq_append, ← List.append_assoc, ← List.append_assoc, List.getLast?_concat] at isLast
    rwa [List.concat_eq_append, ← List.cons_append, ← List.append_assoc, List.getLast?_concat]

/-! ## The space of busy extents -/

/-- What the busy extents take, with their headers. -/
def used (hdr : ℕ) : List Extent → ℕ
  | [] => 0
  | e :: es => (if e.free then 0 else hdr + e.size) + used hdr es

theorem used_append (front tail : List Extent) : used hdr (front ++ tail) = used hdr front + used hdr tail := by
  induction front with
  | nil => exact (Nat.zero_add _).symm
  | cons e front ih => rw [List.cons_append, used, used, ih, Nat.add_assoc]

theorem used_mergeFrom (cur : Extent) (es : List Extent) :
    used hdr (mergeFrom hdr cur es) = used hdr (cur :: es) := by
  induction es generalizing cur with
  | nil => rfl
  | cons e es ih =>
    rw [mergeFrom]
    split
    · next joinable => simp only [ih, used, joinable.1, joinable.2.1, if_true, Nat.zero_add]
    · rw [used, used, ih]

theorem used_merge (es : List Extent) : used hdr (merge hdr es) = used hdr es := by
  cases es with
  | nil => rfl
  | cons e es => exact used_mergeFrom e es

theorem used_gap : used hdr (gap hdr lo hi) = 0 := by
  rw [gap]
  split <;> rfl

theorem used_le (layout : Between hdr lo hi es) : lo + used hdr es ≤ hi := by
  induction es generalizing lo with
  | nil => exact layout
  | cons e es ih =>
    have rest := ih layout.2
    have start := layout.1
    rw [used]
    simp only [Extent.stop] at rest
    split <;> omega

/-- Serving a request from a free extent takes at least the request. -/
theorem used_carve (free : e.free = true) (fits : size ≤ e.size) :
    used hdr (pre ++ e :: post) + (hdr + size) ≤ used hdr (pre ++ (carve hdr slack size e ++ post)) := by
  have granted : hdr + size ≤ used hdr (carve hdr slack size e) := by
    rw [carve]
    split
    · simp [used]
    · simp only [used, Bool.false_eq_true, if_false, Nat.add_zero]
      omega
  have nothing : used hdr (e :: post) = used hdr post := by rw [used, free, if_pos rfl, Nat.zero_add]
  rw [used_append, used_append, used_append, nothing]
  omega

end FreeList
