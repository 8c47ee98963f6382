import CLite.Lib.Machine32

/-! # Saving and restoring a calling context

The two assembly routines of the library's non-local jumps. `longjmp` refers to its own label
`.val_ok`, so it is written against the addresses at which its instructions are placed.
-/

namespace CLite

open Machine32

/-- The bytes of a `jmp_buf`: six words. -/
def jmpBufSize : ℕ := 24

/-- `mov target, source` between a register and `[base + displacement]`. -/
def loadFrom (target base : Register) (displacement : Word) : Operation :=
  .mov (.register target) (.place (.memory (.based base displacement)))

@[inherit_doc loadFrom]
def storeTo (base : Register) (displacement : Word) (source : Register) : Operation :=
  .mov (.memory (.based base displacement)) (.place (.register source))

/-- The instructions of `setjmp` before its `ret`. -/
def setjmpBody : List Operation :=
  [loadFrom .edx .esp 4,
    storeTo .edx 0 .ebx,
    storeTo .edx 4 .esi,
    storeTo .edx 8 .edi,
    storeTo .edx 12 .ebp,
    .lea .ecx (.based .esp 4),
    storeTo .edx 16 .ecx,
    loadFrom .ecx .esp 0,
    storeTo .edx 20 .ecx,
    .xor .eax .eax]

def setjmp : List Instruction := setjmpBody.map .operation ++ [.transfer .ret]

/-- `longjmp` up to its conditional jump. -/
def longjmpArguments : List Operation :=
  [loadFrom .edx .esp 4,
    loadFrom .eax .esp 8,
    .test .eax .eax]

/-- `longjmp` from `.val_ok` on, before its jump. -/
def longjmpRestore : List Operation :=
  [loadFrom .ebx .edx 0,
    loadFrom .esi .edx 4,
    loadFrom .edi .edx 8,
    loadFrom .ebp .edx 12,
    loadFrom .esp .edx 16,
    loadFrom .ecx .edx 20]

/-- The index of the instruction at `.val_ok`. -/
def valOk : ℕ := 5

def longjmp (place : ℕ → Word) : List Instruction :=
  longjmpArguments.map .operation ++
    [.transfer (.jcc .nonzero (place valOk)),
      .operation (.mov (.register .eax) (.immediate 1))] ++
    longjmpRestore.map .operation ++
    [.transfer (.jmp (.place (.register .ecx)))]

end CLite
