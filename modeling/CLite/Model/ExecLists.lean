import CLite.Model.CString

/-! # Argument lists

`execl`, `execlp` and `execle` of `compat.c`, up to the call of `execve` or `execvp` that they make. A pointer is a
word, and zero is the null pointer. The variadic area is a stream of words with a cursor. The array that the
arguments are copied to is on the stack and holds anything before.
-/

namespace CLite

abbrev ArgArray := Vector (BitVec 32) 64

/-- The call that is made, with its argument array and environment. -/
inductive ExecRequest where
  | execve (path : CString) (argv : ArgArray) (envp : BitVec 32)
  | execvp (file : CString) (argv : ArgArray)

section Lists

variable (word : ℕ → BitVec 32)

/-- The loop `while (i < 63)`: the array, and the cursor behind the words that were read. -/
def argsLoop (args : ArgArray) (i cursor : ℕ) : ArgArray × ℕ :=
  if room : i < 63 then
    let a := word cursor
    let args := args.set i a
    if a = 0 then (args, cursor + 1) else argsLoop args (i + 1) (cursor + 1)
  else (args, cursor)
termination_by 63 - i

/-- The part that the three functions have in common. -/
def collectArgs (stack : ArgArray) (arg : BitVec 32) : ArgArray × ℕ := argsLoop word (stack.set 0 arg) 1 0

def execl (stack : ArgArray) (environ : BitVec 32) (path : CString) (arg : BitVec 32) : ExecRequest :=
  .execve path (collectArgs word stack arg).1 environ

def execlp (stack : ArgArray) (file : CString) (arg : BitVec 32) : ExecRequest :=
  .execvp file (collectArgs word stack arg).1

def execle (stack : ArgArray) (path : CString) (arg : BitVec 32) : ExecRequest :=
  let (args, cursor) := collectArgs word stack arg
  .execve path args (word cursor)

end Lists

end CLite
