import CLite.Model.Dirent
import CLite.Model.Environ
import CLite.Model.Paths
import CLite.Model.Tokens
import CLite.Soundness.Duplicates

/-! # String functions on strings and on memory

Where only the strings matter, `strncmp`, `strncpy`, `strchr` and `strrchr` are functions of the strings, and `strdup`
of the block that `malloc` hands out. Each of them agrees with the function on memory wherever the strings stand.
-/

namespace CLite.Text

open ByteMemory

variable {memory : Memory} {a b d n : ℕ} {s : CString}

/-- Two objects are compared by the bytes in them, with zeros behind. -/
theorem strncmp_bytes {first second : List Byte} (here : ∀ k < n, memory (a + k) = first.getD k 0)
    (there : ∀ k < n, memory (b + k) = second.getD k 0) : strncmp memory a b n = CLite.strncmp first second n := by
  induction n generalizing a b first second with
  | zero => rw [strncmp, CLite.strncmp]
  | succ n ih =>
    have head {p : ℕ} {bytes : List Byte} (shown : ∀ k < n + 1, memory (p + k) = bytes.getD k 0) :
        memory p = bytes.headD 0 := by
      rw [← Nat.add_zero p, shown 0 (Nat.succ_pos n)]
      cases bytes <;> rfl
    have tail {p : ℕ} {bytes : List Byte} (shown : ∀ k < n + 1, memory (p + k) = bytes.getD k 0) :
        ∀ k < n, memory (p + 1 + k) = bytes.tail.getD k 0 := by
      intro k below
      rw [Nat.add_assoc, Nat.add_comm 1, shown (k + 1) (Nat.succ_lt_succ below)]
      cases bytes <;> rfl
    rw [strncmp, CLite.strncmp, head here, head there, ih (tail here) (tail there)]

theorem strncpy_stored (holds : Holds memory a (stored s)) :
    CLite.strncpy (fun i => memory (a + i)) n =
      (s.take n).map CChar.byte ++ List.replicate (n - (s.take n).length) 0 := by
  induction n generalizing a s with
  | zero => simp [CLite.strncpy]
  | succ n ih =>
    cases s with
    | nil => simp [CLite.strncpy, holds_stored_nil.mp holds]
    | cons x s =>
      have rest := ih holds.2
      simp only [Nat.add_assoc, Nat.add_comm 1] at rest
      rw [CLite.strncpy, Nat.add_zero, holds.1, if_pos x.nonzero, rest]
      simp

/-- The bytes that `strncpy` stores are a function of the bytes at its source. -/
theorem strncpy_bytes (holds : Holds memory a (stored s)) (apart : Region.Apart ⟨d, n⟩ ⟨a, s.length + 1⟩) :
    ∃ after, strncpy memory d a n = (d, after) ∧ Wrote memory after d (CLite.strncpy (fun i => memory (a + i)) n) := by
  rw [strncpy_stored holds]
  exact strncpy_eq holds apart

theorem strchr_eq_drop (s : CString) (c : Byte) :
    CLite.strchr s c = if firstPlace s c < s.length ∨ c = 0 then some (s.drop (firstPlace s c)) else none := by
  induction s with
  | nil => simp [CLite.strchr, firstPlace]
  | cons x s ih =>
    rw [CLite.strchr, ih]
    by_cases here : x.byte = c <;> simp [here, firstPlace, List.findIdx_cons]

/-- The pointer that `strchr` returns is as far behind the start as the suffix found. -/
theorem strchr_text (c : Byte) (holds : Holds memory a (stored s)) (short : s.length < addressSpace) :
    strchr memory a c = some ((CLite.strchr s c).map fun rest => a + (s.length - rest.length)) := by
  have place : firstPlace s c ≤ s.length := List.findIdx_le_length
  rw [strchr, strchrLoop_stored holds short, strchr_eq_drop]
  split
  · rw [Option.map_some, List.length_drop, Nat.sub_sub_self place]
  · rfl

theorem strrchrLoop_eq (c : CChar) (i : ℕ) (last : Option ℕ) (s : CString) :
    CLite.strrchrLoop c i last s = ((lastPlace c.byte s).map (i + ·)).or last := by
  induction s generalizing i last with
  | nil => rfl
  | cons x s ih =>
    rw [CLite.strrchrLoop, ih, lastPlace]
    cases lastPlace c.byte s with
    | some place => simp [Nat.add_assoc, Nat.add_comm 1]
    | none => by_cases same : x = c <;> simp [same, byte_inj]

/-- The pointer that `strrchr` returns is at the last place of the character. -/
theorem strrchr_text (c : CChar) (holds : Holds memory a (stored s)) (short : s.length < addressSpace) :
    strrchr memory a c.byte = some ((CLite.strrchr s c).map (a + ·)) := by
  rw [strrchr, strrchrLoop_stored holds short, if_neg c.nonzero, CLite.strrchr, strrchrLoop_eq]
  simp

/-- A copy is made in the memory that `malloc` leaves, at the block that it hands out. -/
theorem strdup_block {kernel : Kernel} {state after : State} {p size : ℕ}
    (holds : Holds state.heap.mem a (stored s)) (short : s.length + 1 < addressSpace)
    (allocated : exec state (.malloc kernel (s.length + 1)) = some (p, after))
    (kept : Holds after.heap.mem a (stored s)) (room : s.length < size) :
    ∃ copy, CLite.strdup (fun _ => if p = 0 then none else some p) after.heap.mem a size =
        some (if p = 0 then none else some ⟨p, s.length + 1⟩, copy) ∧
      strdup kernel state a = some (p, withMemory after copy) := by
  have length := strlen_stored holds (Nat.lt_of_succ_lt short)
  have same : wrap (s.length + 1) = s.length + 1 := Nat.mod_eq_of_lt short
  rw [CLite.strdup, strlen_stored kept room, strdup, length]
  simp only [Option.map_some, Option.bind_eq_bind, Option.bind_some, same, allocated]
  by_cases null : p = 0
  · simp only [null, if_true]
    exact ⟨_, rfl, rfl⟩
  · simp only [null, if_false]
    exact ⟨_, rfl, rfl⟩

end CLite.Text
