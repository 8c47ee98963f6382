import CLite.Lib.History
import CLite.Model.Syscalls

/-! # What `errno` says

Whatever the kernel answers, a call that succeeds leaves `errno` alone, also if one of the requests that it made has
failed, and a call that fails changes it at most to its own code. So over a whole run `errno` is the code of the last
failure that was reported, or what it was at the start.
-/

namespace CLite.Sys

open History

variable {κ : Type} (answers : Answers κ)

/-- The returned value tells of a failure; for `getcwd` it is a null pointer. -/
def Failed : Call → ℤ → Prop
  | .getcwd _ _, ret => ret = 0
  | _, ret => ret < 0

/-- The error that a failed call reports, if it reports one. -/
def code : Call → Option ℤ
  | .wait4 .. | .waitpid .. | .wait .. => some ECHILD
  | .mkdir .. => some EEXIST
  | .futimens .. => some EBADF
  | .utimensat _ _ flags _ => some (if flags ≠ 0 ∧ flags ≠ AT_SYMLINK_NOFOLLOW then EINVAL else ENOENT)
  | .execve .. | .openFile .. | .stat .. | .unlink .. | .rmdir .. | .chdir .. | .getcwd .. | .truncate ..
  | .access .. | .lstat .. | .rename .. | .link .. | .symlink .. | .readlink .. => some ENOENT
  | _ => none

/-- Every failure of the call is reported. `truncate` is silent if `ftruncate` fails, and `access` if an answer is
positive. -/
def Certain : Call → Prop
  | .truncate .. | .access .. => False
  | .getcwd buf _ => buf ≠ 0
  | call => (code call).isSome

/-- What a call may do to `errno`. -/
structure Reports (call : Call) (ret before after : ℤ) : Prop where
  quiet : ¬ Failed call ret → after = before
  named : after = before ∨ code call = some after
  certain : Failed call ret → Certain call → code call = some after

/-- A call reports its failure, or `errno` stays and there is no failure that it had to report. -/
theorem Reports.cases {call : Call} {ret before after : ℤ} (reports : Reports call ret before after) :
    Failed call ret ∧ code call = some after ∨ after = before ∧ ¬ (Failed call ret ∧ Certain call) := by
  by_cases failed : Failed call ret
  · by_cases certain : Certain call
    · exact .inl ⟨failed, reports.certain failed certain⟩
    · rcases reports.named with same | named
      · exact .inr ⟨same, fun both => certain both.2⟩
      · exact .inl ⟨failed, named⟩
  · exact .inr ⟨reports.quiet failed, fun both => failed both.1⟩

@[simp] theorem syscall_errno (request : Request) (p : Process κ) :
    (syscall answers request p).2.errno = p.errno := rfl

theorem reporting_errno (error : ℤ) (request : Request) (p : Process κ) :
    (reporting answers error request p).2.errno =
      if (reporting answers error request p).1 < 0 then error else p.errno := by
  simp only [reporting]
  split <;> rfl

@[simp] theorem perror_errno (s : Option CString) (p : Process κ) : (perror answers s p).errno = p.errno := by
  rcases s with _ | _ | _ <;> rfl

@[simp] theorem setTimes_errno (flags : ℤ) (filename times ts : ℕ) (p : Process κ) :
    (setTimes answers flags filename times ts p).2.errno = p.errno := by
  rw [setTimes]
  split <;> rfl

@[simp] theorem brk_errno (addr : ℕ) (p : Process κ) : (brk answers addr p).2.errno = p.errno := by
  simp only [brk]
  split <;> rfl

/-- A call that leaves `errno` alone. -/
theorem Reports.silent {call : Call} {ret before after : ℤ} (same : after = before) (uncertain : ¬ Certain call) :
    Reports call ret before after :=
  ⟨fun _ => same, .inl same, fun _ certain => absurd certain uncertain⟩

/-- A call that sets `errno` to its code just when its value is negative. -/
theorem Reports.of_negative {call : Call} {error ret before after : ℤ}
    (sets : after = if ret < 0 then error else before) (failed : Failed call ret ↔ ret < 0)
    (named : code call = some error) : Reports call ret before after := by
  by_cases negative : ret < 0
  · rw [if_pos negative] at sets
    subst sets
    exact ⟨fun success => absurd (failed.mpr negative) success, .inr named, fun _ _ => named⟩
  · rw [if_neg negative] at sets
    subst sets
    exact ⟨fun _ => rfl, .inl rfl, fun failure _ => absurd (failed.mp failure) negative⟩

theorem stat_errno (path buf : ℕ) (p : Process κ) :
    (stat answers path buf p).2.errno = if (stat answers path buf p).1 < 0 then ENOENT else p.errno :=
  reporting_errno answers ENOENT (.stat path buf) { p with memory := clearStat p.memory buf }

theorem lstat_errno (path buf : ℕ) (p : Process κ) :
    (lstat answers path buf p).2.errno = if (lstat answers path buf p).1 < 0 then ENOENT else p.errno := by
  simp only [lstat]
  split
  · rfl
  · exact stat_errno answers path buf _

theorem futimens_errno (fd : ℤ) (times st : ℕ) (p : Process κ) :
    (futimens answers fd times st p).2.errno =
      if (futimens answers fd times st p).1 < 0 then EBADF else p.errno := by
  simp only [futimens]
  split
  · rfl
  · split <;> rfl

/-- The failure of the probe is the failure of the call. -/
theorem utimensat_errno (pathname times : ℕ) (flags : ℤ) (st : ℕ) (p : Process κ) :
    (utimensat answers pathname times flags st p).2.errno =
      if (utimensat answers pathname times flags st p).1 < 0 then
        if flags ≠ 0 ∧ flags ≠ AT_SYMLINK_NOFOLLOW then EINVAL else ENOENT
      else p.errno := by
  simp only [utimensat]
  by_cases refused : flags ≠ 0 ∧ flags ≠ AT_SYMLINK_NOFOLLOW
  · rw [if_pos refused, if_pos refused]
    rfl
  rw [if_neg refused, if_neg refused]
  split
  · rfl
  split
  · rfl
  obtain ⟨q, asked⟩ : ∃ q, (syscall answers (.utimens pathname times flags) p).2 = q := ⟨_, rfl⟩
  have same : q.errno = p.errno := by rw [← asked, syscall_errno]
  obtain ⟨ok, after, probed⟩ : ∃ ok after, (if flags = AT_SYMLINK_NOFOLLOW then lstat answers pathname st q
      else stat answers pathname st q) = (ok, after) := ⟨_, _, rfl⟩
  have sets : after.errno = if ok < 0 then ENOENT else q.errno := by
    split at probed
    · have sets := lstat_errno answers pathname st q
      rwa [probed] at sets
    · have sets := stat_errno answers pathname st q
      rwa [probed] at sets
  rw [asked, probed]
  dsimp only
  split
  · next found =>
    rw [found, same] at sets
    exact sets
  · rfl

theorem getcwd_reports (buf size : ℕ) (p : Process κ) :
    Reports (.getcwd buf size) (getcwd answers buf size p).1 p.errno (getcwd answers buf size p).2.errno := by
  have sets := reporting_errno answers ENOENT (.getcwd buf size) p
  simp only [getcwd]
  by_cases negative : (reporting answers ENOENT (.getcwd buf size) p).1 < 0
  · rw [if_pos negative] at sets ⊢
    rw [sets]
    exact ⟨fun success => absurd rfl success, .inr rfl, fun _ _ => rfl⟩
  · rw [if_neg negative] at sets ⊢
    rw [sets]
    refine ⟨fun _ => rfl, .inl rfl, fun failed certain => ?_⟩
    simp only [Failed] at failed
    exact absurd (by omega) certain

theorem truncate_reports (path : ℕ) (length : ℤ) (p : Process κ) :
    Reports (.truncate path length) (truncate answers path length p).1 p.errno
      (truncate answers path length p).2.errno := by
  simp only [truncate]
  split
  · exact ⟨fun _ => rfl, .inl rfl, fun _ certain => certain.elim⟩
  have sets := reporting_errno answers ENOENT (.openFile path 1 0) (syscall answers (.truncate path length) p).2
  split
  · next refused =>
    rw [← openFile, if_pos refused] at sets
    rw [sets]
    exact ⟨fun success => absurd (show (-1 : ℤ) < 0 by decide) success, .inr rfl, fun _ certain => certain.elim⟩
  · next opened =>
    rw [← openFile, if_neg opened, syscall_errno] at sets
    rw [syscall_errno, ftruncate, syscall_errno, sets]
    exact ⟨fun _ => rfl, .inl rfl, fun _ certain => certain.elim⟩

theorem access_reports (pathname : ℕ) (mode : ℤ) (st : ℕ) (p : Process κ) :
    Reports (.access pathname mode st) (access answers pathname mode st p).1 p.errno
      (access answers pathname mode st p).2.errno := by
  simp only [access]
  split
  · exact ⟨fun _ => rfl, .inl rfl, fun _ certain => certain.elim⟩
  split
  · have sets := stat_errno answers pathname st (syscall answers (.access pathname mode) p).2
    rw [syscall_errno] at sets
    rw [sets]
    refine ⟨fun success => ?_, ?_, fun _ certain => certain.elim⟩
    · split at success
      · next found => rw [found]; rfl
      · exact absurd (show (-1 : ℤ) < 0 by decide) success
    · split
      · exact .inr rfl
      · exact .inl rfl
  · exact ⟨fun _ => rfl, .inl rfl, fun _ certain => certain.elim⟩

/-- What every call does to `errno`. -/
theorem run_reports (call : Call) (p : Process κ) :
    Reports call (call.run answers p).1 p.errno (call.run answers p).2.errno := by
  cases call with
  | getcwd buf size => exact getcwd_reports answers buf size p
  | truncate path length => exact truncate_reports answers path length p
  | access pathname mode st => exact access_reports answers pathname mode st p
  | lstat path buf => exact .of_negative (lstat_errno answers path buf p) Iff.rfl rfl
  | futimens fd times st => exact .of_negative (futimens_errno answers fd times st p) Iff.rfl rfl
  | utimensat pathname times flags st =>
    exact .of_negative (utimensat_errno answers pathname times flags st p) Iff.rfl rfl
  | stat path buf => exact .of_negative (stat_errno answers path buf p) Iff.rfl rfl
  | execve | wait4 | waitpid | wait | openFile | unlink | rmdir | mkdir | chdir | rename | link | symlink
  | readlink =>
    exact .of_negative (reporting_errno answers _ _ p) Iff.rfl rfl
  | perror s => exact .silent (perror_errno answers s p) (by simp [Certain, code])
  | utimes filename times ts => exact .silent (setTimes_errno answers _ filename times ts p) (by simp [Certain, code])
  | lutimes filename times ts =>
    exact .silent (setTimes_errno answers _ filename times ts p) (by simp [Certain, code])
  | brk addr => exact .silent (brk_errno answers addr p) (by simp [Certain, code])
  | write | read | getpid | fork | vfork | getppid | mmap | munmap | pipe | dup | dup2 | kill | ioctl | close | lseek
  | fstat | ftruncate => exact .silent rfl (by simp [Certain, code])

/-! ## Runs -/

/-- The calls of a run with the values that they return, the newest first, and the process after them. -/
def runCalls (p : Process κ) : List Call → List (Call × ℤ) × Process κ
  | [] => ([], p)
  | call :: earlier =>
    let (events, p) := runCalls p earlier
    ((call, (call.run answers p).1) :: events, (call.run answers p).2)

theorem code_mem {call : Call} {error : ℤ} (reported : code call = some error) :
    error ∈ [ENOENT, EEXIST, ECHILD, EBADF, EINVAL] := by
  unfold code at reported
  split at reported <;> cases reported
  all_goals first | decide | (split <;> decide)

/-- Every error that a call reports has a message. -/
theorem code_message {call : Call} {error : ℤ} (reported : code call = some error) :
    strerror error ≠ cstr "Unknown error" := by
  have messages : ∀ known ∈ [ENOENT, EEXIST, ECHILD, EBADF, EINVAL],
      strerror known ≠ cstr "Unknown error" := by decide
  exact messages error (code_mem reported)

/-- After every run, `errno` is the code of a failed call since which no call has failed that is certain to report it,
or there was no such failure and it is what it was at the start. A code that a call has set has a message. -/
theorem errno_names_last_failure (p : Process κ) (calls : List Call) :
    ∃ events after, runCalls answers p calls = (events, after) ∧
      (Since (fun event => Failed event.1 event.2 ∧ code event.1 = some after.errno)
          (fun event => Failed event.1 event.2 ∧ Certain event.1) events ∧
        strerror after.errno ≠ cstr "Unknown error" ∨
      after.errno = p.errno ∧ ∀ event ∈ events, ¬ (Failed event.1 event.2 ∧ Certain event.1)) := by
  induction calls with
  | nil => exact ⟨[], p, rfl, .inr ⟨rfl, by simp⟩⟩
  | cons call earlier ih =>
    obtain ⟨events, middle, ran, before⟩ := ih
    refine ⟨_, _, by rw [runCalls, ran], ?_⟩
    rcases (run_reports answers call middle).cases with ⟨failed, named⟩ | ⟨same, lasting⟩
    · exact .inl ⟨since_cons.mpr (.inl ⟨failed, named⟩), code_message named⟩
    rw [same]
    rcases before with ⟨since, message⟩ | ⟨start, none⟩
    · exact .inl ⟨since_cons.mpr (.inr ⟨lasting, since⟩), message⟩
    · refine .inr ⟨start, ?_⟩
      rintro event (_ | ⟨_, member⟩)
      · exact lasting
      · exact none event member

end CLite.Sys
