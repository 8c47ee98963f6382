import CLite.Model.CString
import CLite.Model.Malloc

/-! # Reading directories

`opendir`, `readdir` and `rewinddir` of `dirent.c`, on names and streams that are not null. Offsets into the
buffer are `unsigned int`, so their sums wrap. The buffer is the memory from its first byte on; `getdents`
stores records at its start. As in the allocator, running out of fuel stands for a call that does not return.
-/

namespace CLite

open ByteMemory

def GETDENTS_BUFSZ : ℕ := 4096

/-- `struct dirent`, with the 256 bytes of the name. -/
structure Dirent where
  dIno : ℕ
  dName : List Byte
deriving DecidableEq

structure DIR where
  fd : ℤ
  index : ℕ
  buflen : ℕ
  buf : Option Memory
  path : CString
  entry : Dirent

/-- `strncpy`: the `n` bytes that it stores. -/
def strncpy (src : ℕ → Byte) : ℕ → List Byte
  | 0 => []
  | n + 1 =>
    if src 0 ≠ 0 then src 0 :: strncpy (fun i => src (i + 1)) n
    else List.replicate (n + 1) 0

/-- What `opendir` gets from the system: the descriptor, whether the `DIR` can be allocated and holds which
entry then, the buffer unless it cannot be allocated, and what `getdents` returns and stores. -/
structure DirSystem where
  openFd : ℤ
  allocated : Option Dirent
  buffer : Option Memory
  getdents : ℕ → ℤ × List Byte

/-- The name as `opendir` keeps it: without a final slash, and cut to the size of `path`. -/
def dirPath (name : CString) : CString :=
  let len := if 1 < name.length ∧ name.getLast? = some (chr '/') then name.length - 1 else name.length
  name.take (if 256 ≤ len then 255 else len)

def opendir (system : DirSystem) (name : CString) : Option DIR :=
  if system.openFd < 0 then none
  else
    match system.allocated with
    | none => none
    | some entry =>
      match system.buffer with
      | none => some ⟨system.openFd, 0, 0, none, dirPath name, entry⟩
      | some buf =>
        let (n, bytes) := system.getdents GETDENTS_BUFSZ
        some ⟨system.openFd, 0, if 0 < n then n.toNat else 0, some (overlay buf bytes), dirPath name, entry⟩

/-- The walk of `readdir` from `pos`: the index it leaves, and the entry it finds. -/
def readdirLoop (buf : Memory) (buflen : ℕ) : ℕ → ℕ → ℕ → Option (ℕ × Option Dirent)
  | 0, _, _ => none
  | fuel + 1, index, pos =>
    if wrap (pos + 8) ≤ buflen then
      let ino := read32 buf pos
      let reclen := read32 buf (pos + 4)
      let name := fun i => buf (pos + 8 + i)
      if reclen = 0 then some (index, none)
      else if name 0 = 0 then readdirLoop buf buflen fuel (wrap (pos + reclen)) (wrap (pos + reclen))
      else some (wrap (pos + reclen), some ⟨ino, strncpy name 255 ++ [0]⟩)
    else some (index, none)

/-- The entry, or `none` for a null pointer, and the stream after the call. -/
def readdir (dirp : DIR) : Option (Option Dirent × DIR) :=
  match dirp.buf with
  | none => some (none, dirp)
  | some buf =>
    match readdirLoop buf dirp.buflen walkFuel dirp.index dirp.index with
    | none => none
    | some (index, none) => some (none, { dirp with index := index })
    | some (index, some entry) => some (some entry, { dirp with index := index, entry := entry })

def rewinddir (dirp : DIR) : DIR := { dirp with index := 0 }

end CLite
