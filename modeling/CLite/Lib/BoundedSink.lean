import Mathlib.Data.List.Basic
import Mathlib.Logic.Function.Basic
import Mathlib.Tactic.Common

/-! # Writing into a bounded buffer

A sink is a place to write to and the room that is left, of which the last cell is kept for a
terminator. A guarded write is dropped when only that cell is left. Offering a list writes as much of it
as fits, and offering two lists in turn is offering their concatenation, so a program made of guarded
writes is described by the text it offers.
-/

namespace BoundedSink

variable {α : Type*}

structure Sink (α : Type*) where
  mem : ℕ → α
  out : ℕ
  rem : ℕ

namespace Sink

/-- Write one item, without a look at the room. -/
def put (sink : Sink α) (x : α) : Sink α := ⟨Function.update sink.mem sink.out x, sink.out + 1, sink.rem - 1⟩

/-- Write one item if more than the last cell is left. -/
def offer (sink : Sink α) (x : α) : Sink α := if 1 < sink.rem then sink.put x else sink

/-- Write all items. -/
def puts (sink : Sink α) (xs : List α) : Sink α := xs.foldl put sink

/-- Write as many of the items as fit before the last cell. -/
def fill (sink : Sink α) (xs : List α) : Sink α := sink.puts (xs.take (sink.rem - 1))

/-- Write items while there are some and more than the last cell is left. -/
def putWhile (sink : Sink α) : List α → Sink α
  | [] => sink
  | x :: xs => if 1 < sink.rem then putWhile (sink.put x) xs else sink

variable {sink : Sink α} {x : α} {xs ys : List α}

@[simp] theorem put_out : (sink.put x).out = sink.out + 1 := rfl

@[simp] theorem put_rem : (sink.put x).rem = sink.rem - 1 := rfl

@[simp] theorem puts_nil : sink.puts [] = sink := rfl

@[simp] theorem puts_cons : sink.puts (x :: xs) = (sink.put x).puts xs := rfl

theorem puts_append : sink.puts (xs ++ ys) = (sink.puts xs).puts ys := List.foldl_append

@[simp] theorem puts_out : (sink.puts xs).out = sink.out + xs.length := by
  induction xs generalizing sink with
  | nil => rfl
  | cons x xs ih =>
    rw [puts_cons, ih, put_out, List.length_cons]
    omega

@[simp] theorem puts_rem : (sink.puts xs).rem = sink.rem - xs.length := by
  induction xs generalizing sink with
  | nil => rfl
  | cons x xs ih =>
    rw [puts_cons, ih, put_rem, List.length_cons]
    omega

/-- Writing changes nothing outside the cells written. -/
theorem puts_outside {address : ℕ} (outside : address < sink.out ∨ sink.out + xs.length ≤ address) :
    (sink.puts xs).mem address = sink.mem address := by
  induction xs generalizing sink with
  | nil => rfl
  | cons x xs ih =>
    rw [List.length_cons] at outside
    rw [puts_cons, ih (by rw [put_out]; omega)]
    exact Function.update_of_ne (by omega) ..

theorem puts_inside {offset : ℕ} (bound : offset < xs.length) :
    (sink.puts xs).mem (sink.out + offset) = xs[offset] := by
  induction xs generalizing sink offset with
  | nil => simp at bound
  | cons x xs ih =>
    rw [puts_cons]
    cases offset with
    | zero =>
      rw [puts_outside (.inl (by simp))]
      exact Function.update_self ..
    | succ offset =>
      have later := @ih (sink.put x) offset (by simpa using bound)
      rw [show sink.out + (offset + 1) = (sink.put x).out + offset by rw [put_out]; omega, later]
      rfl

@[simp] theorem fill_nil : sink.fill [] = sink := by rw [fill, List.take_nil, puts_nil]

theorem fill_of_full (full : sink.rem ≤ 1) : sink.fill xs = sink := by
  rw [fill, show sink.rem - 1 = 0 by omega, List.take_zero, puts_nil]

/-- Offering two lists in turn is offering their concatenation. -/
theorem fill_fill : (sink.fill xs).fill ys = sink.fill (xs ++ ys) := by
  rw [fill, fill, fill, ← puts_append, List.take_append, puts_rem, List.length_take]
  congr 3
  omega

theorem offer_eq_fill : sink.offer x = sink.fill [x] := by
  unfold offer
  split
  · next room =>
    obtain ⟨more, shape⟩ : ∃ more, sink.rem - 1 = more + 1 := ⟨sink.rem - 2, by omega⟩
    rw [fill, shape, List.take_succ_cons, List.take_nil]
    rfl
  · next full => exact (fill_of_full (by omega)).symm

theorem put_eq_fill (room : 1 < sink.rem) : sink.put x = sink.fill [x] := by
  rw [← offer_eq_fill, offer, if_pos room]

/-- A loop of guarded writes. -/
theorem foldl_offer : xs.foldl offer sink = sink.fill xs := by
  induction xs generalizing sink with
  | nil => exact fill_nil.symm
  | cons x xs ih => rw [List.foldl_cons, ih, offer_eq_fill, fill_fill, List.singleton_append]

/-- A loop that stops when the room is used up. -/
theorem putWhile_eq_fill : sink.putWhile xs = sink.fill xs := by
  induction xs generalizing sink with
  | nil => exact fill_nil.symm
  | cons x xs ih =>
    unfold putWhile
    split
    · next room => rw [ih, put_eq_fill room, fill_fill, List.singleton_append]
    · next full => exact (fill_of_full (by omega)).symm

end Sink

end BoundedSink
