import CLite.Model.Setjmp

/-! # Program start

The entry point of `crt0.asm`, with the addresses of its labels and of the symbols it refers to.
-/

namespace CLite.Crt0

open Machine32

/-- The symbols of `crt0.asm`: its own data and the external names. -/
structure Symbols where
  main : Word
  exit : Word
  environ : Word
  defaultArgv : Word
  defaultEnvp : Word

/-- `_start` up to its conditional jump. -/
def startArgc : List Operation :=
  [.xor .ebp .ebp,
    loadFrom .eax .esp 0,
    .test .eax .eax]

/-- `_start` with arguments on the stack, before its call of `main`. -/
def startPassed (symbols : Symbols) : List Operation :=
  [.lea .edx (.based .esp 4),
    .lea .ecx ⟨some .esp, some (.eax, 4), 8⟩,
    .mov (.memory (.absolute symbols.environ)) (.place (.register .ecx)),
    .push (.place (.register .ecx)),
    .push (.place (.register .edx)),
    .push (.place (.register .eax))]

/-- `.no_args`, before its call of `main`. -/
def startDefault (symbols : Symbols) : List Operation :=
  [.mov (.memory (.absolute symbols.environ)) (.immediate symbols.defaultEnvp),
    .push (.immediate symbols.defaultEnvp),
    .push (.immediate symbols.defaultArgv),
    .push (.immediate 1)]

/-- The indices of the instructions at `.no_args`, `.done` and `.halt`. -/
def noArgs : ℕ := 12

@[inherit_doc noArgs]
def done : ℕ := 17

@[inherit_doc noArgs]
def halt : ℕ := 19

def start (symbols : Symbols) (place : ℕ → Word) : List Instruction :=
  startArgc.map .operation ++
    [.transfer (.jcc .lessOrEqual (place noArgs))] ++
    (startPassed symbols).map .operation ++
    [.transfer (.call symbols.main),
      .transfer (.jmp (.immediate (place done)))] ++
    (startDefault symbols).map .operation ++
    [.transfer (.call symbols.main),
      .operation (.push (.place (.register .eax))),
      .transfer (.call symbols.exit),
      .transfer .hlt,
      .transfer (.jmp (.immediate (place halt)))]

end CLite.Crt0
