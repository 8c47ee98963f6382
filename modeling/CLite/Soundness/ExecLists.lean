import CLite.Model.ExecLists

/-! # The argument list arrives unchanged

The loop copies at most 63 words, the null pointer among them, and never looks whether it has met the null pointer
when it stops. Up to 62 arguments arrive as they were given. With more of them the array has no null pointer behind
the arguments but whatever the stack held there, and `execle` takes an argument for the environment.
-/

namespace CLite

/-- The values stand in the variadic area from the cursor on. -/
def InArea (word : ℕ → BitVec 32) (cursor : ℕ) (values : List (BitVec 32)) : Prop :=
  ∀ k (bound : k < values.length), word (cursor + k) = values[k]

namespace ExecRequest

def argv : ExecRequest → ArgArray
  | execve _ argv _ => argv
  | execvp _ argv => argv

/-- The environment that a request names. -/
def envp : ExecRequest → Option (BitVec 32)
  | execve _ _ envp => some envp
  | execvp _ _ => none

/-- The vector of the request is the argument list with its null pointer. A list that is too long for the array can
only be refused, so no request delivers it. -/
def Delivers (args : List (BitVec 32)) (request : ExecRequest) : Prop := args ++ [0] <+: request.argv.toList

end ExecRequest

section Loop

variable {word : ℕ → BitVec 32} {args : ArgArray} {i cursor : ℕ} {rest : List (BitVec 32)}

theorem take_set (room : i < 64) (a : BitVec 32) :
    (args.set i a).toList.take (i + 1) = args.toList.take i ++ [a] := by
  have bound : i < args.toList.length := by rwa [Vector.length_toList]
  have front : (args.toList.take i).length = i := List.length_take_of_le (Nat.le_of_lt bound)
  rw [Vector.toList_set, List.set_eq_take_append_cons_drop, if_pos bound, List.take_append, front,
    List.take_of_length_le (by omega), Nat.add_sub_cancel_left, List.take_succ_cons, List.take_zero]

/-- The last slot is not written. -/
theorem argsLoop_last (word : ℕ → BitVec 32) (args : ArgArray) (i cursor : ℕ) :
    (argsLoop word args i cursor).1[63] = args[63] := by
  fun_induction argsLoop word args i cursor with
  | case1 args i cursor room a args' ended => exact Vector.getElem_set_ne (by omega) _ (by omega)
  | case2 args i cursor room a args' going ih =>
    rw [ih]
    exact Vector.getElem_set_ne (by omega) _ (by omega)
  | case3 args i cursor full => rfl

/-- Arguments that leave room for their null pointer are stored with it, and the cursor is behind it. -/
theorem argsLoop_short (args : ArgArray) (area : InArea word cursor (rest ++ [0])) (nonnull : 0 ∉ rest)
    (fits : i + rest.length < 63) :
    args.toList.take i ++ (rest ++ [0]) <+: (argsLoop word args i cursor).1.toList ∧
      (argsLoop word args i cursor).2 = cursor + rest.length + 1 := by
  induction rest generalizing args i cursor with
  | nil =>
    have null : word cursor = 0 := area 0 (by simp)
    have room : i < 63 := fits
    rw [argsLoop, dif_pos room]
    dsimp only
    rw [if_pos null, null, List.nil_append, ← take_set (by omega)]
    exact ⟨List.take_prefix _ _, rfl⟩
  | cons a rest ih =>
    have first : word cursor = a := area 0 (by simp)
    have later : InArea word (cursor + 1) (rest ++ [0]) := by
      intro k bound
      have next := area (k + 1) (by simpa using bound)
      rwa [← Nat.add_assoc, Nat.add_right_comm] at next
    obtain ⟨nonzero, others⟩ := List.ne_and_not_mem_of_not_mem_cons nonnull
    rw [List.length_cons] at fits
    rw [argsLoop, dif_pos (by omega)]
    dsimp only
    rw [first, if_neg (Ne.symm nonzero)]
    obtain ⟨stored, moved⟩ := @ih (i + 1) (cursor + 1) (args.set i a) later others (by omega)
    rw [take_set (by omega), List.append_assoc] at stored
    refine ⟨stored, moved.trans ?_⟩
    rw [List.length_cons]
    omega

end Loop

section Requests

variable {word : ℕ → BitVec 32} {arg : BitVec 32} {rest : List (BitVec 32)}

theorem collectArgs_short (area : InArea word 0 (rest ++ [0])) (nonnull : 0 ∉ arg :: rest)
    (short : (arg :: rest).length ≤ 62) (stack : ArgArray) :
    arg :: rest ++ [0] <+: (collectArgs word stack arg).1.toList ∧
      (collectArgs word stack arg).2 = rest.length + 1 := by
  rw [List.length_cons] at short
  have others : 0 ∉ rest := List.not_mem_of_not_mem_cons nonnull
  obtain ⟨stored, moved⟩ := argsLoop_short (i := 1) (stack.set 0 arg) area others (by omega)
  rw [take_set (i := 0) (by decide), List.take_zero, List.nil_append, List.singleton_append] at stored
  refine ⟨stored, moved.trans ?_⟩
  omega

/-- With more arguments, a stack without a null pointer in the last slot leaves the vector without its end. -/
theorem not_delivers_of_long (long : 62 < (arg :: rest).length) {stack : ArgArray} (garbage : stack[63] ≠ 0) :
    ¬ arg :: rest ++ [0] <+: (collectArgs word stack arg).1.toList := by
  intro stored
  have bound := stored.length_le
  rw [List.length_append, List.length_singleton, Vector.length_toList] at bound
  have length : (arg :: rest).length = 63 := by omega
  have whole : 63 < (arg :: rest ++ [0]).length := by
    rw [List.length_append, length]
    decide
  have last := stored.getElem whole
  rw [Vector.getElem_toList, List.getElem_append_right (by omega), List.getElem_singleton] at last
  have kept : (collectArgs word stack arg).1[63] = stack[63] :=
    (argsLoop_last ..).trans (Vector.getElem_set_ne (by decide) _ (by decide))
  exact garbage (kept.symm.trans last.symm)

/-- The three functions hand over the argument list, and `execle` the environment behind it, whatever the stack holds
exactly if there are at most 62 arguments. -/
theorem exec_lists_delivered_iff (word : ℕ → BitVec 32) (environ : BitVec 32) (path file : CString) (arg : BitVec 32)
    (rest : List (BitVec 32)) (area : InArea word 0 (rest ++ [0])) (nonnull : 0 ∉ arg :: rest) :
    (∀ stack, (execl word stack environ path arg).Delivers (arg :: rest) ∧
        (execlp word stack file arg).Delivers (arg :: rest) ∧
        (execle word stack path arg).Delivers (arg :: rest) ∧
        (execle word stack path arg).envp = some (word (rest.length + 1))) ↔
      (arg :: rest).length ≤ 62 := by
  constructor
  · intro delivered
    by_contra long
    have garbage : (Vector.replicate 64 1 : ArgArray)[63] ≠ 0 := by simp
    exact not_delivers_of_long (Nat.lt_of_not_le long) garbage (delivered _).1
  · intro short stack
    obtain ⟨stored, moved⟩ := collectArgs_short area nonnull short stack
    refine ⟨stored, stored, stored, ?_⟩
    rw [← moved]
    rfl

end Requests

/-- A list of three arguments. -/
theorem exec_lists_delivered_three :
    0 ∉ [10, 11, (12 : BitVec 32)] ∧
      ∀ stack, (execl (fun k => [11, 12, 0, 20].getD k 0) stack 5 [chr 'x'] 10).Delivers [10, 11, 12] ∧
        (execlp (fun k => [11, 12, 0, 20].getD k 0) stack [chr 'x'] 10).Delivers [10, 11, 12] ∧
        (execle (fun k => [11, 12, 0, 20].getD k 0) stack [chr 'x'] 10).Delivers [10, 11, 12] ∧
        (execle (fun k => [11, 12, 0, 20].getD k 0) stack [chr 'x'] 10).envp = some 20 := by
  refine ⟨by decide, ?_⟩
  refine (exec_lists_delivered_iff _ 5 [chr 'x'] [chr 'x'] 10 [11, 12] ?_ (by decide)).mpr (by decide)
  intro k bound
  match k, bound with
  | 0, _ => rfl
  | 1, _ => rfl
  | 2, _ => rfl

/-- With 63 arguments, the word behind them is what the stack held. -/
theorem exec_list_truncated :
    ¬ (execl (fun k => if k < 62 then 1 else 0) (Vector.replicate 64 7) 5 [chr 'x'] 1).Delivers
        (List.replicate 63 1) ∧
      ¬ (execlp (fun k => if k < 62 then 1 else 0) (Vector.replicate 64 7) [chr 'x'] 1).Delivers
        (List.replicate 63 1) ∧
      ¬ (execle (fun k => if k < 62 then 1 else 0) (Vector.replicate 64 7) [chr 'x'] 1).Delivers
        (List.replicate 63 1) := by
  have broken : ¬ 1 :: List.replicate 62 1 ++ [0] <+:
      (collectArgs (fun k => if k < 62 then 1 else 0) (Vector.replicate 64 7) 1).1.toList :=
    not_delivers_of_long (by decide) (by simp)
  exact ⟨broken, broken, broken⟩

end CLite
