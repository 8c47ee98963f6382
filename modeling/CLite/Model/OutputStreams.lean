import CLite.Model.StreamCalls
import CLite.Model.TempNames
import CLite.Model.Tokens

/-! # Opening streams and writing to them

The calls of `stdio.c` that open a file as a stream, write characters and strings, and tell where a stream stands, with
valid pointers. `freopen` repeats the choice of flags that `fopen` makes. The streams have no buffer, so `fflush` has
nothing to do.
-/

namespace CLite

open ByteMemory

variable {σ : Type}

def O_WRONLY : ℕ := 0x0001
def O_TRUNC : ℕ := 0x0200
def O_APPEND : ℕ := 0x0400

/-- The flags that `fopen` and `freopen` open a file with. -/
def fopenFlags (mode : CString) : ℕ :=
  if (strchr mode (chr '+').byte).isSome then O_RDWR
  else if mode.head? = some (chr 'r') then 0
  else if mode.head? = some (chr 'w') then O_WRONLY ||| O_CREAT ||| O_TRUNC
  else if mode.head? = some (chr 'a') then O_WRONLY ||| O_CREAT ||| O_APPEND
  else 0

/-- `fopen`, given what `open` does and whether `fdopen` gets memory for the `FILE`. Without memory the descriptor
stays open. -/
def fopen (openFile : CString → ℕ → ℕ → σ → ℤ × σ) (memory : Bool) (pathname mode : CString) (state : σ) :
    Option FILE × σ :=
  let (fd, state) := openFile pathname (fopenFlags mode) 0o666 state
  if fd < 0 then (none, state) else (if memory then some (fdopen fd) else none, state)

def SEEK_CUR : ℤ := 1

namespace Descriptor

variable (fd : Descriptor σ)

def fputc (c : ℤ) (st : Stream σ) : ℤ × Stream σ :=
  let (n, state) := fd.write [BitVec.ofInt 8 c] st.state
  (if n = 1 then (BitVec.ofInt 8 c).toNat else EOF, { st with state := state })

def putc (c : ℤ) (st : Stream σ) : ℤ × Stream σ := fd.fputc c st

def fputs (s : CString) (st : Stream σ) : ℤ × Stream σ :=
  let (n, state) := fd.write (s.map CChar.byte) st.state
  (if n ≥ 0 then 0 else EOF, { st with state := state })

def ftell (st : Stream σ) : ℤ × Stream σ :=
  let (pos, state) := fd.lseek 0 SEEK_CUR st.state
  (pos, { st with state := state })

def fseeko (offset whence : ℤ) (st : Stream σ) : ℤ × Stream σ := fd.fseek offset whence st

def ftello (st : Stream σ) : ℤ × Stream σ := fd.ftell st

end Descriptor

/-- `fflush`, of any stream or none. -/
def fflush : ℤ := 0

end CLite
