import CLite.Model.CString

/-! # Running a program

`stat`, `access`, `execve` and `execvp` of `syscall.c`, with valid pointers. What the kernel answers depends on the
path; the arguments and the environment are passed on unread. The strings lie apart in the address space, so that
the sum of two lengths does not wrap.
-/

namespace CLite

def ENOENT : ℤ := 2

/-- The answers of the system calls. -/
structure ExecKernel where
  sys_access : CString → ℤ → ℤ
  sys_stat : CString → ℤ
  sys_execve : CString → ℤ

/-- The path that was given to `execve`, the returned value and `errno`. -/
structure ExecOutcome where
  executed : Option CString
  result : ℤ
  errno : ℤ
deriving DecidableEq

/-- What follows an element of the search path and its colon. -/
def nextElement (p : CString) : CString :=
  let rest := p.dropWhile (· ≠ chr ':')
  if rest.head? = some (chr ':') then rest.tail else rest

/-- An element is followed by the end of the search path, or by a colon and what follows that. -/
theorem nextElement_cases (p : CString) :
    p.takeWhile (· ≠ chr ':') = p ∧ nextElement p = [] ∨
      p = p.takeWhile (· ≠ chr ':') ++ chr ':' :: nextElement p := by
  induction p with
  | nil => exact .inl ⟨rfl, rfl⟩
  | cons x p ih =>
    by_cases colon : x = chr ':'
    · refine .inr ?_
      simp [nextElement, colon]
    · have same : nextElement (x :: p) = nextElement p := by simp [nextElement, colon]
      have front : (x :: p).takeWhile (· ≠ chr ':') = x :: p.takeWhile (· ≠ chr ':') := by simp [colon]
      rw [same, front]
      rcases ih with ⟨all, last⟩ | split
      · exact .inl ⟨congrArg (x :: ·) all, last⟩
      · exact .inr (congrArg (x :: ·) split)

theorem nextElement_length_lt {p : CString} (nonempty : p ≠ []) : (nextElement p).length < p.length := by
  rcases nextElement_cases p with ⟨-, last⟩ | split
  · rw [last]
    exact List.length_pos_iff.mpr nonempty
  · have length := congrArg List.length split
    rw [List.length_append, List.length_cons] at length
    omega

section Calls

variable (kernel : ExecKernel)

/-- The returned value and `errno`. -/
def stat (path : CString) (errno : ℤ) : ℤ × ℤ :=
  let ret := kernel.sys_stat path
  (ret, if ret < 0 then ENOENT else errno)

/-- The returned value and `errno`, which the fallback to `stat` may set. -/
def access (pathname : CString) (mode errno : ℤ) : ℤ × ℤ :=
  let ret := kernel.sys_access pathname mode
  if ret = 0 then (0, errno)
  else if ret < 0 then
    let (found, errno) := stat kernel pathname errno
    (if found = 0 then 0 else -1, errno)
  else (-1, errno)

def execve (path : CString) (errno : ℤ) : ExecOutcome :=
  let ret := kernel.sys_execve path
  ⟨some path, ret, if ret < 0 then ENOENT else errno⟩

/-- The loop of `execvp` over the rest of the search path. -/
def execvpLoop (file p : CString) (errno : ℤ) : ExecOutcome :=
  if nonempty : p = [] then ⟨none, -1, ENOENT⟩
  else
    let element := p.takeWhile (· ≠ chr ':')
    -- two bytes for the slash and the terminator; a current directory takes one more
    if element.length + file.length + 2 < 256 then
      let buf := if element.length = 0 then chr '.' :: chr '/' :: file else element ++ chr '/' :: file
      let (found, errno) := access kernel buf 0 errno
      if found = 0 then execve kernel buf errno else execvpLoop file (nextElement p) errno
    else execvpLoop file (nextElement p) errno
termination_by p.length
decreasing_by
  all_goals exact nextElement_length_lt nonempty

/-- The search path without a variable `PATH`. -/
def defaultPath : CString := "/bin:/sbin:/usr/bin:/usr/sbin".toList.map chr

/-- `execvp` with the value of `PATH`, if there is one. -/
def execvp (path_env : Option CString) (file : CString) (errno : ℤ) : ExecOutcome :=
  if file = [] then ⟨none, -1, ENOENT⟩
  else if chr '/' ∈ file then
    let outcome := execve kernel file errno
    { outcome with errno := if outcome.result < 0 then ENOENT else outcome.errno }
  else execvpLoop kernel file (path_env.getD defaultPath) errno

end Calls

end CLite
