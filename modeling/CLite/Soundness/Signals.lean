import Mathlib.Data.Finset.Insert
import CLite.Lib.Simulation
import CLite.Spec.Signals

/-! # `signal.c` refines sets and a history

A word stands for the set of the signals whose bits are set. Every function on words is the function on sets, so no
program can tell them apart.
-/

namespace CLite

open KeyedArray Simulation

/-- The set that a word stands for: signal `s` has the bit `s - 1`, and the last bit belongs to no signal. -/
def decode (word : BitVec 32) : SignalSet :=
  ⟨(Finset.Icc 1 31).filter fun s => word.getLsbD (s - 1) = true, word.getLsbD 31⟩

section Words

variable (word : BitVec 32) {s : ℕ}

theorem mem_decode : s ∈ (decode word).members ↔ (1 ≤ s ∧ s ≤ 31) ∧ word.getLsbD (s - 1) = true := by
  rw [decode, Finset.mem_filter, Finset.mem_Icc]

/-- Two words stand for the same set only if they are the same. -/
theorem decode_injective {first second : BitVec 32} (same : decode first = decode second) : first = second := by
  apply BitVec.eq_of_getLsbD_eq
  intro i bound
  rcases Nat.lt_or_ge i 31 with signal | spare
  · have members := congrArg (i + 1 ∈ ·.members) same
    simp only [mem_decode, Nat.add_sub_cancel, eq_iff_iff] at members
    have inside : 1 ≤ i + 1 ∧ i + 1 ≤ 31 := ⟨Nat.succ_pos i, signal⟩
    simp only [inside, and_self, true_and] at members
    exact Bool.eq_iff_iff.mpr members
  · obtain rfl : i = 31 := by omega
    exact congrArg SignalSet.spare same

theorem decode_zero : decode 0 = .empty := by decide

theorem decode_full : decode (~~~0) = .full := by decide

theorem decode_eq_empty_iff : decode word = .empty ↔ word = 0 := by
  rw [← decode_zero]
  exact ⟨fun same => decode_injective same, fun same => congrArg decode same⟩

theorem range_of_good {signum : ℤ} (good : badSignal signum = false) : 1 ≤ signum.toNat ∧ signum.toNat ≤ 31 := by
  have range : 1 ≤ signum ∧ signum < 32 := by simpa [badSignal, NSIG] using good
  omega

/-- The mask of a signal has its bit and no other. -/
theorem getLsbD_signalBit {signum : ℤ} (good : badSignal signum = false) {s : ℕ} (signal : 1 ≤ s) :
    (signalBit signum).getLsbD (s - 1) = decide (s = signum.toNat) := by
  have range := range_of_good good
  change (BitVec.twoPow 32 (signum - 1).toNat).getLsbD (s - 1) = _
  rw [BitVec.getLsbD_twoPow, decide_eq_true (by omega), Bool.true_and]
  exact decide_eq_decide.mpr (by omega)

theorem getLsbD_signalBit_spare {signum : ℤ} (good : badSignal signum = false) :
    (signalBit signum).getLsbD 31 = false := by
  have range := range_of_good good
  have bit := getLsbD_signalBit good (s := 32) (by decide)
  rw [decide_eq_false (by omega)] at bit
  exact bit

variable {signum : ℤ} (good : badSignal signum = false)
include good

theorem decode_add : decode (word ||| signalBit signum) = (decode word).add signum.toNat := by
  have range := range_of_good good
  apply SignalSet.ext
  · ext s
    change s ∈ _ ↔ s ∈ insert signum.toNat (decode word).members
    rw [Finset.mem_insert, mem_decode, mem_decode, BitVec.getLsbD_or, Bool.or_eq_true]
    constructor
    · rintro ⟨inside, old | new⟩
      · exact .inr ⟨inside, old⟩
      · rw [getLsbD_signalBit good inside.1, decide_eq_true_eq] at new
        exact .inl new
    · rintro (rfl | ⟨inside, old⟩)
      · exact ⟨range, .inr (by rw [getLsbD_signalBit good range.1, decide_eq_true rfl])⟩
      · exact ⟨inside, .inl old⟩
  · change (word ||| signalBit signum).getLsbD 31 = word.getLsbD 31
    rw [BitVec.getLsbD_or, getLsbD_signalBit_spare good, Bool.or_false]

theorem decode_del : decode (word &&& ~~~signalBit signum) = (decode word).del signum.toNat := by
  have range := range_of_good good
  apply SignalSet.ext
  · ext s
    change s ∈ _ ↔ s ∈ (decode word).members.erase signum.toNat
    rw [Finset.mem_erase, mem_decode, mem_decode, BitVec.getLsbD_and, Bool.and_eq_true]
    constructor
    · rintro ⟨inside, old, other⟩
      refine ⟨?_, inside, old⟩
      rintro rfl
      rw [BitVec.getLsbD_not, getLsbD_signalBit good inside.1, decide_eq_true rfl] at other
      simp at other
    · rintro ⟨other, inside, old⟩
      refine ⟨inside, old, ?_⟩
      rw [BitVec.getLsbD_not, getLsbD_signalBit good inside.1, decide_eq_false other, decide_eq_true (by omega)]
      rfl
  · change (word &&& ~~~signalBit signum).getLsbD 31 = word.getLsbD 31
    rw [BitVec.getLsbD_and, BitVec.getLsbD_not, getLsbD_signalBit_spare good]
    exact Bool.and_true _

theorem and_signalBit_ne_zero_iff : word &&& signalBit signum ≠ 0 ↔ signum.toNat ∈ (decode word).members := by
  have range := range_of_good good
  have bit := getLsbD_signalBit good range.1
  rw [decide_eq_true rfl] at bit
  rw [mem_decode, and_iff_right range]
  constructor
  · intro nonzero
    by_contra absent
    apply nonzero
    apply BitVec.eq_of_getLsbD_eq
    intro i bound
    have other := getLsbD_signalBit good (Nat.succ_pos i)
    rw [Nat.succ_sub_one] at other
    rw [BitVec.getLsbD_and, other]
    rcases eq_or_ne (i + 1) signum.toNat with same | different
    · rw [← same, Nat.add_sub_cancel] at absent
      rw [Bool.eq_false_of_not_eq_true absent, Bool.false_and]
      exact BitVec.getLsbD_zero.symm
    · rw [decide_eq_false different, Bool.and_false]
      exact BitVec.getLsbD_zero.symm
  · intro present zero
    have clear := congrArg (·.getLsbD (signum.toNat - 1)) zero
    simp only [BitVec.getLsbD_and, present, bit, Bool.and_true] at clear
    have none : (0 : BitVec 32).getLsbD (signum.toNat - 1) = false := BitVec.getLsbD_zero
    rw [none] at clear
    exact absurd clear (by decide)

end Words

/-! ## Programs -/

/-- The words of the program stand for its sets, and the table has what was installed last. -/
structure Renders (state : SignalState) (spec : SignalSpec) : Prop where
  sets : ∀ v, decode (state.sets v) = spec.sets v
  handlers : ∀ s, 1 ≤ s → s ≤ 31 → state.handlers s = spec.current s

variable {state : SignalState} {spec : SignalSpec}

theorem Renders.update (renders : Renders state spec) (v : ℕ) {word : BitVec 32} {set : SignalSet}
    (same : decode word = set) :
    Renders { state with sets := Function.update state.sets v word }
      { spec with sets := Function.update spec.sets v set } := by
  refine ⟨?_, renders.handlers⟩
  intro other
  rcases eq_or_ne other v with rfl | different
  · simp only [Function.update_self]
    exact same
  · simp only [Function.update_of_ne different]
    exact renders.sets other

theorem Renders.install (renders : Renders state spec) (s : ℕ) (handler : Handler) :
    Renders { state with handlers := Function.update state.handlers s handler }
      { spec with installed := (s, handler) :: spec.installed } := by
  refine ⟨renders.sets, ?_⟩
  intro other lower upper
  have before := renders.handlers other lower upper
  rw [SignalSpec.current, lookup_cons]
  rcases eq_or_ne other s with rfl | different
  · simp only [Function.update_self, if_pos, Option.elim]
  · rw [if_neg different.symm]
    simp only [Function.update_of_ne different]
    exact before

/-- A store into a set is the same for words and for sets. -/
theorem Renders.store (renders : Renders state spec) (set : Option ℕ) (refused : Bool)
    (value : BitVec 32 → BitVec 32) (value' : SignalSet → SignalSet)
    (same : refused = false → ∀ word, decode (value word) = value' (decode word)) :
    SignalReply.code (storeSet state.sets set refused value).1 = (spec.store set refused value').1 ∧
      Renders { state with sets := (storeSet state.sets set refused value).2 }
        (spec.store set refused value').2 := by
  cases set with
  | none => exact ⟨rfl, renders⟩
  | some v =>
    cases refused with
    | true => exact ⟨rfl, renders⟩
    | false =>
      refine ⟨rfl, renders.update v ?_⟩
      rw [same rfl, renders.sets]

theorem signalStep_follows : Follows signalStep signalSpecStep Renders := by
  intro state spec call renders
  cases call with
  | sigemptyset set => exact renders.store set false (fun _ => 0) (fun _ => .empty) fun _ _ => decode_zero
  | sigfillset set => exact renders.store set false (fun _ => ~~~0) (fun _ => .full) fun _ _ => decode_full
  | sigaddset set signum =>
    exact renders.store set _ (· ||| signalBit signum) (·.add signum.toNat) fun good word => decode_add word good
  | sigdelset set signum =>
    exact renders.store set _ (· &&& ~~~signalBit signum) (·.del signum.toNat) fun good word => decode_del word good
  | sigismember set signum =>
    refine ⟨?_, ?_⟩
    · cases set with
      | none => rfl
      | some v =>
        simp only [signalStep, sigismember, signalSpecStep]
        cases good : badSignal signum with
        | true => rfl
        | false => simp only [and_signalBit_ne_zero_iff _ good, renders.sets]
    · cases set <;> exact renders
  | sigisemptyset v =>
    refine ⟨?_, renders⟩
    simp only [signalStep, sigisemptyset, signalSpecStep, ← renders.sets, decode_eq_empty_iff]
  | sigaction signum act wantsOld =>
    simp only [signalStep, sigaction, signalSpecStep]
    cases good : badSignal signum with
    | true => exact ⟨rfl, renders⟩
    | false =>
      have range := range_of_good good
      refine ⟨?_, ?_⟩
      · simp only [renders.handlers _ range.1 range.2]
        rfl
      · cases act with
        | none => exact renders
        | some handler => exact renders.install _ handler
  | signal signum handler =>
    simp only [signalStep, signal, signalSpecStep]
    cases good : badSignal signum with
    | true => exact ⟨rfl, renders⟩
    | false =>
      have range := range_of_good good
      exact ⟨congrArg SignalReply.handler (renders.handlers _ range.1 range.2), renders.install _ handler⟩
  | sigprocmask oldset =>
    cases oldset with
    | none => exact ⟨rfl, renders⟩
    | some v => exact ⟨rfl, renders.update v decode_zero⟩
  | sigpending set =>
    cases set with
    | none => exact ⟨rfl, renders⟩
    | some v => exact ⟨rfl, renders.update v decode_zero⟩

end CLite
