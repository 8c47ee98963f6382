import Mathlib.Data.Int.Notation
import Mathlib.Logic.Function.Basic
import Mathlib.Tactic.Common

/-! # Signal sets and handlers

`signal.c`, and `sigpending` of `compat.c`. A program has variables of type `sigset_t`, and the library has a table of
handlers, which is all zero at first. A pointer to a set is null or names a variable.
-/

namespace CLite

def NSIG : ℤ := 32

/-- A function pointer; zero is `SIG_DFL`. -/
abbrev Handler := BitVec 32

def SIG_DFL : Handler := 0
def SIG_ERR : Handler := -1

/-- The variables of type `sigset_t`. -/
abbrev SigsetVars := ℕ → BitVec 32

/-- Store into a set unless the pointer is null or the arguments are refused. -/
def storeSet (sets : SigsetVars) (set : Option ℕ) (refused : Bool) (value : BitVec 32 → BitVec 32) : ℤ × SigsetVars :=
  match set with
  | none => (-1, sets)
  | some v => if refused then (-1, sets) else (0, Function.update sets v (value (sets v)))

/-- The test of a signal number; the table has an entry 0 that is never used. -/
def badSignal (signum : ℤ) : Bool := signum < 1 ∨ signum ≥ NSIG

/-- `1UL << (signum - 1)`. -/
def signalBit (signum : ℤ) : BitVec 32 := (1 : BitVec 32) <<< (signum - 1).toNat

def sigemptyset (sets : SigsetVars) (set : Option ℕ) : ℤ × SigsetVars := storeSet sets set false fun _ => 0

def sigfillset (sets : SigsetVars) (set : Option ℕ) : ℤ × SigsetVars := storeSet sets set false fun _ => ~~~0

def sigaddset (sets : SigsetVars) (set : Option ℕ) (signum : ℤ) : ℤ × SigsetVars :=
  storeSet sets set (badSignal signum) (· ||| signalBit signum)

def sigdelset (sets : SigsetVars) (set : Option ℕ) (signum : ℤ) : ℤ × SigsetVars :=
  storeSet sets set (badSignal signum) (· &&& ~~~signalBit signum)

def sigismember (sets : SigsetVars) (set : Option ℕ) (signum : ℤ) : ℤ :=
  match set with
  | none => -1
  | some v => if badSignal signum then -1 else if sets v &&& signalBit signum ≠ 0 then 1 else 0

/-- The macro of `signal.h`. -/
def sigisemptyset (sets : SigsetVars) (v : ℕ) : ℤ := if sets v = 0 then 1 else 0

/-- What `sigaction` stores into `oldact`; the restorer is null. -/
structure OldAction where
  handler : Handler
  mask : BitVec 32
  flags : ℤ

/-- The table of handlers. -/
abbrev HandlerTable := ℕ → Handler

def sigaction (handlers : HandlerTable) (signum : ℤ) (act : Option Handler) (wantsOld : Bool) :
    ℤ × Option OldAction × HandlerTable :=
  if badSignal signum then (-1, none, handlers)
  else
    (0, if wantsOld then some ⟨handlers signum.toNat, 0, 0⟩ else none,
      match act with
      | none => handlers
      | some handler => Function.update handlers signum.toNat handler)

def signal (handlers : HandlerTable) (signum : ℤ) (handler : Handler) : Handler × HandlerTable :=
  if badSignal signum then (SIG_ERR, handlers)
  else (handlers signum.toNat, Function.update handlers signum.toNat handler)

/-- Neither `how` nor `set` is looked at. -/
def sigprocmask (sets : SigsetVars) (oldset : Option ℕ) : ℤ × SigsetVars :=
  match oldset with
  | none => (0, sets)
  | some v => (0, Function.update sets v 0)

def sigpending (sets : SigsetVars) (set : Option ℕ) : ℤ × SigsetVars :=
  match set with
  | none => (0, sets)
  | some v => (0, Function.update sets v 0)

/-! ## Programs -/

structure SignalState where
  sets : SigsetVars
  handlers : HandlerTable

inductive SignalCall where
  | sigemptyset (set : Option ℕ)
  | sigfillset (set : Option ℕ)
  | sigaddset (set : Option ℕ) (signum : ℤ)
  | sigdelset (set : Option ℕ) (signum : ℤ)
  | sigismember (set : Option ℕ) (signum : ℤ)
  | sigisemptyset (v : ℕ)
  | sigaction (signum : ℤ) (act : Option Handler) (wantsOld : Bool)
  | signal (signum : ℤ) (handler : Handler)
  | sigprocmask (oldset : Option ℕ)
  | sigpending (set : Option ℕ)

inductive SignalReply where
  | code (value : ℤ)
  | action (value : ℤ) (old : Option OldAction)
  | handler (old : Handler)

def signalStep (state : SignalState) : SignalCall → SignalReply × SignalState
  | .sigemptyset set =>
    let (code, sets) := sigemptyset state.sets set
    (.code code, { state with sets })
  | .sigfillset set =>
    let (code, sets) := sigfillset state.sets set
    (.code code, { state with sets })
  | .sigaddset set signum =>
    let (code, sets) := sigaddset state.sets set signum
    (.code code, { state with sets })
  | .sigdelset set signum =>
    let (code, sets) := sigdelset state.sets set signum
    (.code code, { state with sets })
  | .sigismember set signum => (.code (sigismember state.sets set signum), state)
  | .sigisemptyset v => (.code (sigisemptyset state.sets v), state)
  | .sigaction signum act wantsOld =>
    let (code, old, handlers) := sigaction state.handlers signum act wantsOld
    (.action code old, { state with handlers })
  | .signal signum handler =>
    let (old, handlers) := signal state.handlers signum handler
    (.handler old, { state with handlers })
  | .sigprocmask oldset =>
    let (code, sets) := sigprocmask state.sets oldset
    (.code code, { state with sets })
  | .sigpending set =>
    let (code, sets) := sigpending state.sets set
    (.code code, { state with sets })

end CLite
