import CLite.Model.Exec
import CLite.Model.TempNames
import CLite.Lib.ByteMemory

/-! # System calls

The functions of `syscall.c` that ask the kernel, and `strerror` and `perror` of `errno.c`. The kernel answers a
request with a number, and it may change its own state and the memory of the process. Pointers are addresses, and zero
is null. Where a function has a local structure, its address is a parameter.
-/

namespace CLite.Sys

open ByteMemory

def EBADF : ℤ := 9
def ECHILD : ℤ := 10
def EEXIST : ℤ := 17
def AT_SYMLINK_NOFOLLOW : ℤ := 0x100

/-- The requests that the functions make. -/
inductive Request where
  | write (fd : ℤ) (bytes : List Byte)
  | read (fd : ℤ) (buf count : ℕ)
  | getpid
  | fork
  | execve (path argv envp : ℕ)
  | wait4 (pid : ℤ) (status : ℕ) (options : ℤ)
  | getppid
  | brk (addr : ℕ)
  | mmap (length : ℕ) (fd offset : ℤ)
  | munmap (addr length : ℕ)
  | pipe (pipefd : ℕ)
  | dup (oldfd : ℤ)
  | dup2 (oldfd newfd : ℤ)
  | kill (pid sig : ℤ)
  | ioctl (fd : ℤ) (request arg : ℕ)
  | openFile (path : ℕ) (flags mode : ℤ)
  | close (fd : ℤ)
  | lseek (fd offset whence : ℤ)
  | stat (path buf : ℕ)
  | fstat (fd : ℤ) (buf : ℕ)
  | unlink (path : ℕ)
  | mkdir (path mode : ℕ)
  | chdir (path : ℕ)
  | getcwd (buf size : ℕ)
  | ftruncate (fd length : ℤ)
  | rename (oldpath newpath : ℕ)
  | rmdir (path : ℕ)
  | symlink (target linkpath : ℕ)
  | readlink (pathname buf bufsiz : ℕ)
  | lstat (path buf : ℕ)
  | truncate (path : ℕ) (length : ℤ)
  | access (pathname : ℕ) (mode : ℤ)
  | link (oldpath newpath : ℕ)
  | futimens (fd : ℤ) (times : ℕ)
  | utimens (filename times : ℕ) (flags : ℤ)

/-- A process, with the state of the kernel. -/
structure Process (κ : Type) where
  kernel : κ
  memory : Memory
  errno : ℤ

/-- What the kernel answers and changes. -/
abbrev Answers (κ : Type) := κ → Memory → Request → ℤ × κ × Memory

section Functions

variable {κ : Type} (answers : Answers κ)

def syscall (request : Request) (p : Process κ) : ℤ × Process κ :=
  let (ret, kernel, memory) := answers p.kernel p.memory request
  (ret, ⟨kernel, memory, p.errno⟩)

/-- A request whose negative answers set `errno` to one code. -/
def reporting (code : ℤ) (request : Request) (p : Process κ) : ℤ × Process κ :=
  let (ret, p) := syscall answers request p
  if ret < 0 then (ret, { p with errno := code }) else (ret, p)

def execve (path argv envp : ℕ) : Process κ → ℤ × Process κ := reporting answers ENOENT (.execve path argv envp)

def wait4 (pid : ℤ) (status : ℕ) (options : ℤ) : Process κ → ℤ × Process κ :=
  reporting answers ECHILD (.wait4 pid status options)

def waitpid (pid : ℤ) (status : ℕ) (options : ℤ) : Process κ → ℤ × Process κ := wait4 answers pid status options

def wait (status : ℕ) : Process κ → ℤ × Process κ := waitpid answers (-1) status 0

def brk (addr : ℕ) (p : Process κ) : ℤ × Process κ :=
  let (new_brk, p) := syscall answers (.brk addr) p
  if new_brk = -1 then (-1, p) else (0, p)

def openFile (path : ℕ) (flags mode : ℤ) : Process κ → ℤ × Process κ :=
  reporting answers ENOENT (.openFile path flags mode)

/-- `sizeof(struct stat)`. -/
def statSize : ℕ := 64

/-- The memory after a structure has been set to zero. -/
def clearStat (memory : Memory) (buf : ℕ) : Memory :=
  if buf = 0 then memory else fun query => if buf ≤ query ∧ query < buf + statSize then 0 else memory query

def stat (path buf : ℕ) (p : Process κ) : ℤ × Process κ :=
  reporting answers ENOENT (.stat path buf) { p with memory := clearStat p.memory buf }

def fstat (fd : ℤ) (buf : ℕ) (p : Process κ) : ℤ × Process κ :=
  syscall answers (.fstat fd buf) { p with memory := clearStat p.memory buf }

def unlink (path : ℕ) : Process κ → ℤ × Process κ := reporting answers ENOENT (.unlink path)

def rmdir (path : ℕ) : Process κ → ℤ × Process κ := reporting answers ENOENT (.rmdir path)

def mkdir (path mode : ℕ) : Process κ → ℤ × Process κ := reporting answers EEXIST (.mkdir path mode)

def chdir (path : ℕ) : Process κ → ℤ × Process κ := reporting answers ENOENT (.chdir path)

/-- The returned pointer. -/
def getcwd (buf size : ℕ) (p : Process κ) : ℤ × Process κ :=
  let (ret, p) := reporting answers ENOENT (.getcwd buf size) p
  (if ret < 0 then 0 else buf, p)

def ftruncate (fd length : ℤ) : Process κ → ℤ × Process κ := syscall answers (.ftruncate fd length)

def truncate (path : ℕ) (length : ℤ) (p : Process κ) : ℤ × Process κ :=
  let (ret, p) := syscall answers (.truncate path length) p
  if ret = 0 then (0, p)
  else
    -- `O_WRONLY` is 1
    let (fd, p) := openFile answers path 1 0 p
    if fd < 0 then (-1, p)
    else
      let (ret, p) := ftruncate answers fd length p
      (ret, (syscall answers (.close fd) p).2)

def access (pathname : ℕ) (mode : ℤ) (st : ℕ) (p : Process κ) : ℤ × Process κ :=
  let (ret, p) := syscall answers (.access pathname mode) p
  if ret = 0 then (0, p)
  else if ret < 0 then
    let (found, p) := stat answers pathname st p
    (if found = 0 then 0 else -1, p)
  else (-1, p)

def lstat (path buf : ℕ) (p : Process κ) : ℤ × Process κ :=
  let (ret, p) := syscall answers (.lstat path buf) { p with memory := clearStat p.memory buf }
  if ret = 0 then (0, p) else stat answers path buf p

def rename (oldpath newpath : ℕ) : Process κ → ℤ × Process κ := reporting answers ENOENT (.rename oldpath newpath)

/-- The memory after `times` has been converted into the local array `ts`, element by element. -/
def convertTimes (memory : Memory) (ts times : ℕ) : ℕ → Memory
  | 0 => memory
  | i + 1 =>
    let memory := convertTimes memory ts times i
    let memory := write32 memory (ts + 8 * i) (read32 memory (times + 8 * i))
    write32 memory (ts + 8 * i + 4) (read32 memory (times + 8 * i + 4) * 1000)

/-- `utimes` and `lutimes`, which pretend success. -/
def setTimes (flags : ℤ) (filename times ts : ℕ) (p : Process κ) : ℤ × Process κ :=
  if times = 0 then (0, (syscall answers (.utimens filename 0 flags) p).2)
  else (0, (syscall answers (.utimens filename ts flags) { p with memory := convertTimes p.memory ts times 2 }).2)

def utimes (filename times ts : ℕ) : Process κ → ℤ × Process κ := setTimes answers 0 filename times ts

def lutimes (filename times ts : ℕ) : Process κ → ℤ × Process κ :=
  setTimes answers AT_SYMLINK_NOFOLLOW filename times ts

def futimens (fd : ℤ) (times st : ℕ) (p : Process κ) : ℤ × Process κ :=
  let (ret, p) := syscall answers (.futimens fd times) p
  if ret = 0 then (0, p)
  else
    let (found, p) := fstat answers fd st p
    if found = 0 then (0, p) else (-1, { p with errno := EBADF })

def utimensat (pathname times : ℕ) (flags : ℤ) (st : ℕ) (p : Process κ) : ℤ × Process κ :=
  if flags ≠ 0 ∧ flags ≠ AT_SYMLINK_NOFOLLOW then (-1, { p with errno := EINVAL })
  else
    let (ret, p) := syscall answers (.utimens pathname times flags) p
    if ret = 0 then (0, p)
    else if pathname = 0 then (-1, { p with errno := ENOENT })
    else
      let (ok, p) := if flags = AT_SYMLINK_NOFOLLOW then lstat answers pathname st p else stat answers pathname st p
      if ok = 0 then (0, p) else (-1, { p with errno := ENOENT })

def link (oldpath newpath : ℕ) : Process κ → ℤ × Process κ := reporting answers ENOENT (.link oldpath newpath)

def symlink (target linkpath : ℕ) : Process κ → ℤ × Process κ := reporting answers ENOENT (.symlink target linkpath)

def readlink (pathname buf bufsiz : ℕ) : Process κ → ℤ × Process κ :=
  reporting answers ENOENT (.readlink pathname buf bufsiz)

/-- The messages of `strerror` in the order of the source. -/
def messages : List (ℤ × String) :=
  [(0, "Success"), (1, "Operation not permitted"), (ENOENT, "No such file or directory"), (3, "No such process"),
    (4, "Interrupted system call"), (5, "Input/output error"), (6, "Device not configured"),
    (7, "Argument list too long"), (8, "Exec format error"), (EBADF, "Bad file descriptor"),
    (ECHILD, "No child processes"), (11, "Resource deadlock avoided"), (12, "Cannot allocate memory"),
    (13, "Permission denied"), (14, "Bad address"), (16, "Device busy"), (EEXIST, "File exists"),
    (18, "Cross-device link"), (19, "Operation not supported by device"), (20, "Not a directory"),
    (21, "Is a directory"), (EINVAL, "Invalid argument"), (23, "Too many open files in system"),
    (24, "Too many open files"), (25, "Inappropriate ioctl for device"), (27, "File too large"),
    (28, "No space left on device"), (29, "Illegal seek"), (30, "Read-only file system"), (31, "Too many links"),
    (32, "Broken pipe"), (33, "Numerical argument out of domain"), (34, "Result too large"),
    (78, "Function not implemented")]

def strerror (errnum : ℤ) : CString := cstr ((messages.lookup errnum).getD "Unknown error")

/-- `write` of a text to the standard error. -/
def writeText (text : CString) (p : Process κ) : Process κ :=
  (syscall answers (.write 2 (text.map CChar.byte)) p).2

def perror (s : Option CString) (p : Process κ) : Process κ :=
  let p := match s with
    | some (c :: text) => writeText answers (cstr ": ") (writeText answers (c :: text) p)
    | _ => p
  let p := writeText answers (strerror p.errno) p
  writeText answers (cstr "\n") p

end Functions

/-- The calls of a program. -/
inductive Call where
  | write (fd : ℤ) (buf count : ℕ)
  | read (fd : ℤ) (buf count : ℕ)
  | getpid
  | fork
  | vfork
  | execve (path argv envp : ℕ)
  | wait4 (pid : ℤ) (status : ℕ) (options : ℤ)
  | waitpid (pid : ℤ) (status : ℕ) (options : ℤ)
  | wait (status : ℕ)
  | getppid
  | brk (addr : ℕ)
  | mmap (length : ℕ) (fd offset : ℤ)
  | munmap (addr length : ℕ)
  | pipe (pipefd : ℕ)
  | dup (oldfd : ℤ)
  | dup2 (oldfd newfd : ℤ)
  | kill (pid sig : ℤ)
  | ioctl (fd : ℤ) (request arg : ℕ)
  | openFile (path : ℕ) (flags mode : ℤ)
  | close (fd : ℤ)
  | lseek (fd offset whence : ℤ)
  | stat (path buf : ℕ)
  | fstat (fd : ℤ) (buf : ℕ)
  | unlink (path : ℕ)
  | rmdir (path : ℕ)
  | mkdir (path mode : ℕ)
  | chdir (path : ℕ)
  | getcwd (buf size : ℕ)
  | ftruncate (fd length : ℤ)
  | truncate (path : ℕ) (length : ℤ)
  | access (pathname : ℕ) (mode : ℤ) (st : ℕ)
  | lstat (path buf : ℕ)
  | rename (oldpath newpath : ℕ)
  | utimes (filename times ts : ℕ)
  | lutimes (filename times ts : ℕ)
  | futimens (fd : ℤ) (times st : ℕ)
  | utimensat (pathname times : ℕ) (flags : ℤ) (st : ℕ)
  | link (oldpath newpath : ℕ)
  | symlink (target linkpath : ℕ)
  | readlink (pathname buf bufsiz : ℕ)
  | perror (s : Option CString)

variable {κ : Type}

/-- The returned value and the process after a call. -/
def Call.run (answers : Answers κ) (p : Process κ) : Call → ℤ × Process κ
  | write fd buf count => syscall answers (.write fd ((List.range count).map fun i => p.memory (buf + i))) p
  | read fd buf count => syscall answers (.read fd buf count) p
  | getpid => syscall answers .getpid p
  | fork => syscall answers .fork p
  | vfork => syscall answers .fork p
  | execve path argv envp => Sys.execve answers path argv envp p
  | wait4 pid status options => Sys.wait4 answers pid status options p
  | waitpid pid status options => Sys.waitpid answers pid status options p
  | wait status => Sys.wait answers status p
  | getppid => syscall answers .getppid p
  | brk addr => Sys.brk answers addr p
  | mmap length fd offset => syscall answers (.mmap length fd offset) p
  | munmap addr length => syscall answers (.munmap addr length) p
  | pipe pipefd => syscall answers (.pipe pipefd) p
  | dup oldfd => syscall answers (.dup oldfd) p
  | dup2 oldfd newfd => syscall answers (.dup2 oldfd newfd) p
  | kill pid sig => syscall answers (.kill pid sig) p
  | ioctl fd request arg => syscall answers (.ioctl fd request arg) p
  | openFile path flags mode => Sys.openFile answers path flags mode p
  | close fd => syscall answers (.close fd) p
  | lseek fd offset whence => syscall answers (.lseek fd offset whence) p
  | stat path buf => Sys.stat answers path buf p
  | fstat fd buf => Sys.fstat answers fd buf p
  | unlink path => Sys.unlink answers path p
  | rmdir path => Sys.rmdir answers path p
  | mkdir path mode => Sys.mkdir answers path mode p
  | chdir path => Sys.chdir answers path p
  | getcwd buf size => Sys.getcwd answers buf size p
  | ftruncate fd length => Sys.ftruncate answers fd length p
  | truncate path length => Sys.truncate answers path length p
  | access pathname mode st => Sys.access answers pathname mode st p
  | lstat path buf => Sys.lstat answers path buf p
  | rename oldpath newpath => Sys.rename answers oldpath newpath p
  | utimes filename times ts => Sys.utimes answers filename times ts p
  | lutimes filename times ts => Sys.lutimes answers filename times ts p
  | futimens fd times st => Sys.futimens answers fd times st p
  | utimensat pathname times flags st => Sys.utimensat answers pathname times flags st p
  | link oldpath newpath => Sys.link answers oldpath newpath p
  | symlink target linkpath => Sys.symlink answers target linkpath p
  | readlink pathname buf bufsiz => Sys.readlink answers pathname buf bufsiz p
  | perror s => (0, Sys.perror answers s p)

end CLite.Sys
