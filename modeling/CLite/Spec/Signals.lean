import Mathlib.Data.Finset.Basic
import Mathlib.Order.Interval.Finset.Nat
import CLite.Lib.KeyedArray
import CLite.Model.Signals

/-! # Sets of signals and a history of handlers

What `signal.c` is for: a `sigset_t` is a set of signal numbers from 1 to 31, and the handler of a signal is the one
that was installed last. One thing shows that a `sigset_t` is a word: `sigfillset` also marks a number that is no
signal, which no call can test or remove, and which keeps the set from being empty.
-/

namespace CLite

open KeyedArray

/-- The signals in a set, and whether the number that is no signal is marked. -/
@[ext] structure SignalSet where
  members : Finset ℕ
  spare : Bool
deriving DecidableEq

namespace SignalSet

def empty : SignalSet := ⟨∅, false⟩

def full : SignalSet := ⟨Finset.Icc 1 31, true⟩

def add (set : SignalSet) (s : ℕ) : SignalSet := { set with members := insert s set.members }

def del (set : SignalSet) (s : ℕ) : SignalSet := { set with members := set.members.erase s }

end SignalSet

/-- The sets of a program, and the handlers it has installed, the newest first. -/
structure SignalSpec where
  sets : ℕ → SignalSet
  installed : List (ℕ × Handler)

/-- The handler that was installed last. -/
def SignalSpec.current (spec : SignalSpec) (s : ℕ) : Handler :=
  (lookup Prod.fst spec.installed s).elim SIG_DFL Prod.snd

def SignalSpec.store (spec : SignalSpec) (set : Option ℕ) (refused : Bool) (value : SignalSet → SignalSet) :
    SignalReply × SignalSpec :=
  match set with
  | none => (.code (-1), spec)
  | some v =>
    if refused then (.code (-1), spec)
    else (.code 0, { spec with sets := Function.update spec.sets v (value (spec.sets v)) })

def signalSpecStep (spec : SignalSpec) : SignalCall → SignalReply × SignalSpec
  | .sigemptyset set => spec.store set false fun _ => .empty
  | .sigfillset set => spec.store set false fun _ => .full
  | .sigaddset set signum => spec.store set (badSignal signum) (·.add signum.toNat)
  | .sigdelset set signum => spec.store set (badSignal signum) (·.del signum.toNat)
  | .sigismember none _ => (.code (-1), spec)
  | .sigismember (some v) signum =>
    (.code (if badSignal signum then -1 else if signum.toNat ∈ (spec.sets v).members then 1 else 0), spec)
  | .sigisemptyset v => (.code (if spec.sets v = .empty then 1 else 0), spec)
  | .sigaction signum act wantsOld =>
    if badSignal signum then (.action (-1) none, spec)
    else
      (.action 0 (if wantsOld then some ⟨spec.current signum.toNat, 0, 0⟩ else none),
        { spec with installed := (act.map fun handler => (signum.toNat, handler)).toList ++ spec.installed })
  | .signal signum handler =>
    if badSignal signum then (.handler SIG_ERR, spec)
    else (.handler (spec.current signum.toNat), { spec with installed := (signum.toNat, handler) :: spec.installed })
  | .sigprocmask none => (.code 0, spec)
  | .sigprocmask (some v) => (.code 0, { spec with sets := Function.update spec.sets v .empty })
  | .sigpending none => (.code 0, spec)
  | .sigpending (some v) => (.code 0, { spec with sets := Function.update spec.sets v .empty })

end CLite
