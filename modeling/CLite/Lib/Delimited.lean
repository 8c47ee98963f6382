import Mathlib.Data.List.TakeWhile
import Mathlib.Tactic.Common

/-! # Lists cut at delimiters

A list falls into the part before its first delimiter and the parts behind each delimiter. The delimiters are
kept beside the parts they open, so that a property may depend on them. Cutting at a delimiter in the sense of
`List.splitOnP` forgets them. A list may also be cut from its front, once at a time and each time by other
delimiters, with or without the empty parts.
-/

namespace Delimited

variable {α : Type*} {delimiter : α → Bool} {x : α} {l front back : List α}

/-- The part before the first delimiter. -/
def lead (delimiter : α → Bool) (l : List α) : List α := l.takeWhile fun x => !delimiter x

/-- Each delimiter with the part behind it, up to the next delimiter. -/
def behind (delimiter : α → Bool) : List α → List (α × List α)
  | [] => []
  | x :: l => if delimiter x then (x, lead delimiter l) :: behind delimiter l else behind delimiter l

@[simp] theorem lead_nil : lead delimiter [] = [] := rfl

@[simp] theorem behind_nil : behind delimiter [] = [] := rfl

theorem lead_cons_delimiter (cut : delimiter x = true) : lead delimiter (x :: l) = [] := by
  simp [lead, cut]

theorem behind_cons_delimiter (cut : delimiter x = true) :
    behind delimiter (x :: l) = (x, lead delimiter l) :: behind delimiter l := by
  simp [behind, cut]

theorem lead_cons (inner : delimiter x = false) : lead delimiter (x :: l) = x :: lead delimiter l := by
  simp [lead, inner]

theorem behind_cons (inner : delimiter x = false) : behind delimiter (x :: l) = behind delimiter l := by
  simp [behind, inner]

theorem splitOnP_eq (delimiter : α → Bool) (l : List α) :
    l.splitOnP delimiter = lead delimiter l :: (behind delimiter l).map Prod.snd := by
  induction l with
  | nil => rfl
  | cons x l ih =>
    rw [List.splitOnP_cons_eq_if_modifyHead, ih]
    cases cut : delimiter x with
    | true => simp [lead_cons_delimiter cut, behind_cons_delimiter cut]
    | false => simp [lead_cons cut, behind_cons cut]

/-- There is one part more than there are delimiters. -/
theorem length_splitOnP (delimiter : α → Bool) (l : List α) :
    (l.splitOnP delimiter).length = l.countP delimiter + 1 := by
  rw [splitOnP_eq, List.length_cons, List.length_map, Nat.add_right_cancel_iff]
  induction l with
  | nil => rfl
  | cons x l ih =>
    cases cut : delimiter x with
    | true => rw [behind_cons_delimiter cut, List.length_cons, ih, List.countP_cons_of_pos cut]
    | false => rw [behind_cons cut, ih, List.countP_cons_of_neg (by simp [cut])]

theorem lead_append (inner : ∀ x ∈ front, delimiter x = false) :
    lead delimiter (front ++ back) = front ++ lead delimiter back := by
  apply List.takeWhile_append_of_pos
  intro x member
  rw [inner x member, Bool.not_false]

theorem behind_append (inner : ∀ x ∈ front, delimiter x = false) :
    behind delimiter (front ++ back) = behind delimiter back := by
  induction front with
  | nil => rfl
  | cons x front ih =>
    rw [List.cons_append, behind_cons (inner x (List.mem_cons_self ..)),
      ih fun y member => inner y (List.mem_cons_of_mem _ member)]

/-- A split of the first part is a split of the list. -/
theorem lead_eq_append {part : List α} (split : lead delimiter l = front ++ part) :
    ∃ back, l = front ++ back ∧ (∀ x ∈ front, delimiter x = false) ∧ lead delimiter back = part ∧
      behind delimiter back = behind delimiter l := by
  induction front generalizing l with
  | nil => exact ⟨l, rfl, by simp, split, rfl⟩
  | cons y front ih =>
    cases l with
    | nil => cases split
    | cons x l =>
      cases cut : delimiter x with
      | true => simp [lead_cons_delimiter cut] at split
      | false =>
        rw [lead_cons cut] at split
        obtain ⟨rfl, later⟩ := List.cons.inj split
        obtain ⟨back, rfl, inner, first, others⟩ := ih later
        refine ⟨back, rfl, ?_, first, by rw [others, behind_cons cut]⟩
        intro y member
        rcases List.mem_cons.mp member with rfl | member
        · exact cut
        · exact inner y member

theorem eq_nil_of_lead_behind (first : lead delimiter l = []) (others : behind delimiter l = []) : l = [] := by
  cases l with
  | nil => rfl
  | cons x l =>
    cases cut : delimiter x with
    | true => simp [behind_cons_delimiter cut] at others
    | false => simp [lead_cons cut] at first

theorem lead_inner {y : α} (member : y ∈ lead delimiter l) : delimiter y = false := by
  simpa using List.mem_takeWhile_imp member

/-- No part has a delimiter in it. -/
theorem inner_of_mem_splitOnP {part : List α} (member : part ∈ l.splitOnP delimiter) :
    ∀ y ∈ part, delimiter y = false := by
  rw [splitOnP_eq, List.mem_cons] at member
  rcases member with rfl | member
  · exact fun y => lead_inner
  induction l with
  | nil => cases member
  | cons x l ih =>
    cases cut : delimiter x with
    | true =>
      rw [behind_cons_delimiter cut, List.map_cons, List.mem_cons] at member
      rcases member with rfl | member
      · exact fun y => lead_inner
      · exact ih member
    | false =>
      rw [behind_cons cut] at member
      exact ih member

/-! ## Parts that are not empty -/

/-- The parts of a list between its delimiters, without the empty ones. -/
def segments (delimiter : α → Bool) (l : List α) : List (List α) := (l.splitOnP delimiter).filter (· ≠ [])

@[simp] theorem segments_nil : segments delimiter [] = [] := rfl

/-- A delimiter separates the segments before it from those behind it. -/
theorem segments_append_cons (cut : delimiter x = true) (front back : List α) :
    segments delimiter (front ++ x :: back) = segments delimiter front ++ segments delimiter back := by
  rw [segments, List.splitOnP_append_cons front back cut, List.filter_append]
  rfl

theorem segments_cons_delimiter (cut : delimiter x = true) (l : List α) :
    segments delimiter (x :: l) = segments delimiter l :=
  segments_append_cons cut [] l

theorem segments_concat_delimiter (cut : delimiter x = true) (l : List α) :
    segments delimiter (l ++ [x]) = segments delimiter l := by
  rw [segments_append_cons cut l [], segments_nil, List.append_nil]

/-- A list without delimiters is its only segment. -/
theorem segments_of_inner (nonempty : l ≠ []) (inner : ∀ x ∈ l, delimiter x = false) :
    segments delimiter l = [l] := by
  rw [segments, List.splitOnP_eq_singleton inner, List.filter_cons_of_pos (by simpa using nonempty), List.filter_nil]

/-- There is no segment exactly if there are only delimiters. -/
theorem segments_eq_nil_iff : segments delimiter l = [] ↔ ∀ x ∈ l, delimiter x = true := by
  induction l with
  | nil => simp
  | cons x l ih =>
    cases cut : delimiter x with
    | true => rw [segments_cons_delimiter cut, ih, List.forall_mem_cons, and_iff_right cut]
    | false => simp [segments, splitOnP_eq, lead_cons cut, cut]

/-- Delimiters at the end add no segment. -/
theorem segments_append_delimiters (cuts : ∀ x ∈ back, delimiter x = true) (front : List α) :
    segments delimiter (front ++ back) = segments delimiter front := by
  cases back with
  | nil => rw [List.append_nil]
  | cons x back =>
    obtain ⟨cut, later⟩ := List.forall_mem_cons.mp cuts
    rw [segments_append_cons cut, segments_eq_nil_iff.mpr later, List.append_nil]

/-! ## Cutting from the front -/

/-- What follows the first delimiter. -/
def following (delimiter : α → Bool) : List α → Option (List α)
  | [] => none
  | x :: l => if delimiter x then some l else following delimiter l

/-- Either there is no delimiter, or the first one stands behind the first part. -/
theorem following_cases (delimiter : α → Bool) (l : List α) :
    following delimiter l = none ∧ lead delimiter l = l ∨
      ∃ x rest, following delimiter l = some rest ∧ delimiter x = true ∧ l = lead delimiter l ++ x :: rest := by
  induction l with
  | nil => exact .inl ⟨rfl, rfl⟩
  | cons y l ih =>
    cases cut : delimiter y with
    | true =>
      refine .inr ⟨y, l, by simp [following, cut], cut, ?_⟩
      rw [lead_cons_delimiter cut, List.nil_append]
    | false =>
      have later : following delimiter (y :: l) = following delimiter l := by simp [following, cut]
      rw [later, lead_cons cut]
      rcases ih with ⟨none, all⟩ | ⟨x, rest, found, isDelimiter, split⟩
      · exact .inl ⟨none, congrArg (y :: ·) all⟩
      · exact .inr ⟨x, rest, found, isDelimiter, congrArg (y :: ·) split⟩

/-- The parts of a list are its first part and those of what follows it. -/
theorem splitOnP_following (delimiter : α → Bool) (l : List α) :
    l.splitOnP delimiter = lead delimiter l :: (following delimiter l).elim [] (List.splitOnP delimiter) := by
  rcases following_cases delimiter l with ⟨none, all⟩ | ⟨x, rest, found, isDelimiter, split⟩
  · rw [none, all, Option.elim_none]
    apply List.splitOnP_eq_singleton
    intro y member
    exact lead_inner (all.symm ▸ member)
  · rw [found, Option.elim_some]
    conv_lhs => rw [split]
    exact List.splitOnP_append_cons_of_forall_mem (fun y => lead_inner) x isDelimiter rest

/-- Cut a list once by each of the delimiters in turn, as long as something is left of it. -/
def cutPieces : List (α → Bool) → Option (List α) → List (Option (List α))
  | [], _ => []
  | _ :: delimiters, none => none :: cutPieces delimiters none
  | delimiter :: delimiters, some l => some (lead delimiter l) :: cutPieces delimiters (following delimiter l)

/-- Cut a list in the same way, without the delimiters in front of a part. -/
def tokens : List (α → Bool) → Option (List α) → List (Option (List α))
  | [], _ => []
  | _ :: delimiters, none => none :: tokens delimiters none
  | delimiter :: delimiters, some l =>
    let inner := l.dropWhile delimiter
    if inner = [] then none :: tokens delimiters none
    else some (lead delimiter inner) :: tokens delimiters (following delimiter inner)

/-- The parts of a list one after the other, and then nothing for ever. -/
def sequence (n : ℕ) (parts : List (List α)) : List (Option (List α)) :=
  (parts.map some ++ List.replicate n none).take n

theorem sequence_nil (n : ℕ) : sequence n ([] : List (List α)) = List.replicate n none := by
  rw [sequence, List.map_nil, List.nil_append, List.take_replicate, Nat.min_self]

theorem sequence_cons (n : ℕ) (part : List α) (parts : List (List α)) :
    sequence (n + 1) (part :: parts) = some part :: sequence n parts := by
  rw [sequence, sequence, List.map_cons, List.cons_append, List.take_succ_cons, List.replicate_succ',
    ← List.append_assoc, List.take_append_of_le_length]
  rw [List.length_append, List.length_replicate]
  omega

theorem cutPieces_none (delimiters : List (α → Bool)) :
    cutPieces delimiters none = List.replicate delimiters.length none := by
  induction delimiters with
  | nil => rfl
  | cons delimiter delimiters ih => rw [cutPieces, ih, List.length_cons, List.replicate_succ]

theorem tokens_none (delimiters : List (α → Bool)) :
    tokens delimiters none = List.replicate delimiters.length none := by
  induction delimiters with
  | nil => rfl
  | cons delimiter delimiters ih => rw [tokens, ih, List.length_cons, List.replicate_succ]

/-- Cutting by the same delimiters again and again gives the parts of the list. -/
theorem cutPieces_replicate (delimiter : α → Bool) (n : ℕ) (l : List α) :
    cutPieces (List.replicate n delimiter) (some l) = sequence n (l.splitOnP delimiter) := by
  induction n generalizing l with
  | zero => rfl
  | succ n ih =>
    rw [List.replicate_succ, cutPieces, splitOnP_following, sequence_cons]
    cases following delimiter l with
    | none => rw [cutPieces_none, List.length_replicate, Option.elim_none, sequence_nil]
    | some rest => rw [ih, Option.elim_some]

/-- A delimiter in front opens an empty part. -/
theorem splitOnP_dropWhile_filter (delimiter : α → Bool) (l : List α) :
    ((l.dropWhile delimiter).splitOnP delimiter).filter (· ≠ []) = (l.splitOnP delimiter).filter (· ≠ []) := by
  induction l with
  | nil => rfl
  | cons x l ih =>
    cases cut : delimiter x with
    | true => rw [List.dropWhile_cons_of_pos cut, ih, splitOnP_following delimiter (x :: l), lead_cons_delimiter cut,
        following, if_pos cut, Option.elim_some, List.filter_cons_of_neg (by simp)]
    | false => rw [List.dropWhile_cons_of_neg (by simp [cut])]

/-- Cutting without the delimiters in front of a part gives the parts that are not empty. -/
theorem tokens_replicate (delimiter : α → Bool) (n : ℕ) (l : List α) :
    tokens (List.replicate n delimiter) (some l) = sequence n ((l.splitOnP delimiter).filter (· ≠ [])) := by
  induction n generalizing l with
  | zero => rfl
  | succ n ih =>
    rw [List.replicate_succ, tokens, ← splitOnP_dropWhile_filter]
    have stop := List.head?_dropWhile_not delimiter l
    cases inner : l.dropWhile delimiter with
    | nil =>
      rw [if_pos rfl, tokens_none, List.length_replicate, List.splitOnP_nil, List.filter_cons_of_neg (by simp),
        List.filter_nil, sequence_nil, List.replicate_succ]
    | cons x rest =>
      rw [inner] at stop
      have outer : lead delimiter (x :: rest) ≠ [] := by simp [lead_cons stop]
      rw [if_neg (List.cons_ne_nil x rest), splitOnP_following, List.filter_cons_of_pos (by simpa using outer),
        sequence_cons]
      cases following delimiter (x :: rest) with
      | none => rw [tokens_none, List.length_replicate, Option.elim_none, List.filter_nil, sequence_nil]
      | some rest => rw [ih, Option.elim_some]

/-- Whatever is cut off is not empty. -/
def NoEmptyPiece : List (α → Bool) → List α → Prop
  | [], _ => True
  | delimiter :: delimiters, l =>
    lead delimiter l ≠ [] ∧ ∀ rest, following delimiter l = some rest → NoEmptyPiece delimiters rest

/-- Both ways of cutting agree exactly if no piece is empty. -/
theorem cutPieces_eq_tokens_iff (delimiters : List (α → Bool)) (l : List α) :
    cutPieces delimiters (some l) = tokens delimiters (some l) ↔ NoEmptyPiece delimiters l := by
  induction delimiters generalizing l with
  | nil => exact iff_of_true rfl trivial
  | cons delimiter delimiters ih =>
    rw [cutPieces, tokens, NoEmptyPiece]
    cases l with
    | nil => simp
    | cons x l =>
      cases cut : delimiter x with
      | true =>
        -- The first way returns an empty piece here, and the second one never does.
        refine iff_of_false ?_ (fun pieces => pieces.1 (lead_cons_delimiter cut))
        have stop := List.head?_dropWhile_not delimiter (x :: l)
        rw [lead_cons_delimiter cut]
        cases inner : (x :: l).dropWhile delimiter with
        | nil => simp
        | cons y rest =>
          rw [inner] at stop
          simp [lead_cons stop]
      | false =>
        have nonempty : lead delimiter (x :: l) ≠ [] := by simp [lead_cons cut]
        rw [List.dropWhile_cons_of_neg (by simp [cut]), if_neg (List.cons_ne_nil x l), List.cons_eq_cons,
          and_iff_right rfl, and_iff_right nonempty]
        cases following delimiter (x :: l) with
        | none => simp [cutPieces_none, tokens_none]
        | some rest => simpa using ih rest

end Delimited
