import CLite.Lib.Ownership
import CLite.Model.Inet

/-! # Streams, directories and addresses as owners of resources

What `fdopen`, `fopen`, `freopen` and `fclose` of `stdio.c`, `opendir` and `closedir` of `dirent.c` and `getaddrinfo`
and `freeaddrinfo` of `compat.c` do with descriptors and memory. `open` and `malloc` may refuse any request, and
what was released may be given out again. Everything else that these functions do is left to their other models.
-/

namespace CLite

open Ownership

inductive Resource where
  | descriptor (number : ℕ)
  | block (number : ℕ)
deriving DecidableEq

/-- What `open` and `malloc` grant. -/
structure ResourceSystem where
  opens : Supply Resource.descriptor
  malloc : Supply Resource.block

/-- A `FILE`: the descriptor in it, and the memory it is in unless it is one of the standard streams. -/
structure FileHandle where
  fd : ℕ
  block : Option ℕ

/-- A `DIR`: its descriptor, its memory and its buffer, for which there may have been no memory. -/
structure DirHandle where
  fd : ℕ
  block : ℕ
  buf : Option ℕ

/-- An `addrinfo`: its memory and that of its address. -/
structure AddrinfoHandle where
  block : ℕ
  addr : ℕ

/-- `free`, of a pointer that may be null. -/
def freeOwned : Option ℕ → Program Resource Unit
  | none => pure ()
  | some block => release (.block block)

variable (system : ResourceSystem)

def fdopenOwned (fd : ℕ) : Program Resource (Option FileHandle) := do
  match ← acquire system.malloc with
  | none => pure none
  | some block => pure (some ⟨fd, some block⟩)

def fopenOwned : Program Resource (Option FileHandle) := do
  match ← acquire system.opens with
  | none => pure none
  | some fd => fdopenOwned system fd

/-- The stream with its new descriptor, or nothing if the file could not be opened. -/
def freopenOwned (stream : FileHandle) : Program Resource (Option FileHandle) := do
  release (.descriptor stream.fd)
  match ← acquire system.opens with
  | none => pure none
  | some fd => pure (some { stream with fd := fd })

def fcloseOwned (stream : FileHandle) : Program Resource Unit := do
  release (.descriptor stream.fd)
  freeOwned stream.block

def opendirOwned : Program Resource (Option DirHandle) := do
  match ← acquire system.opens with
  | none => pure none
  | some fd => do
    match ← acquire system.malloc with
    | none => do
      release (.descriptor fd)
      pure none
    | some block => do
      let buf ← acquire system.malloc
      pure (some ⟨fd, block, buf⟩)

def closedirOwned (dirp : DirHandle) : Program Resource Unit := do
  freeOwned dirp.buf
  release (.descriptor dirp.fd)
  release (.block dirp.block)

/-- Both calls of `malloc` are made before either result is looked at. -/
def getaddrinfoOwned (node : CString) : Program Resource (Option AddrinfoHandle) :=
  if (getaddrinfo true node).2.isSome then do
    let ai ← acquire system.malloc
    let sin ← acquire system.malloc
    match ai, sin with
    | some ai, some sin => pure (some ⟨ai, sin⟩)
    | ai, sin => do
      freeOwned ai
      freeOwned sin
      pure none
  else pure none

/-- The chain from `ai_next` to `ai_next`. -/
def freeaddrinfoOwned : List AddrinfoHandle → Program Resource Unit
  | [] => pure ()
  | res :: next => do
    release (.block res.addr)
    release (.block res.block)
    freeaddrinfoOwned next

end CLite
